import OlivePiccolo.Library.Md5
import Mathlib.Data.List.GetD
import Mathlib.Tactic.IntervalCases

/-!
# MD5

`digest_md5_calc` does not build the padded message. For each chunk it decides from the length that is
left, which becomes negative in the end, whether the chunk holds data, the mark or the length
(`md5InputBytes`). Its round renames the four variables instead of naming the registers in another
order.
-/

namespace OlivePiccolo.Digest

open Md5

/-- `md5_table1`. -/
def md5Table1 : List ℕ := [
    7, 12, 17, 22, 7, 12, 17, 22, 7, 12, 17, 22, 7, 12, 17, 22,
    5, 9, 14, 20, 5, 9, 14, 20, 5, 9, 14, 20, 5, 9, 14, 20,
    4, 11, 16, 23, 4, 11, 16, 23, 4, 11, 16, 23, 4, 11, 16, 23,
    6, 10, 15, 21, 6, 10, 15, 21, 6, 10, 15, 21, 6, 10, 15, 21]

/-- `md5_table2` with `DIGESTS_MD5_STATIC_TABLE`. -/
def md5Table2 : List (BitVec 32) := [
    0xd76aa478, 0xe8c7b756, 0x242070db, 0xc1bdceee,
    0xf57c0faf, 0x4787c62a, 0xa8304613, 0xfd469501,
    0x698098d8, 0x8b44f7af, 0xffff5bb1, 0x895cd7be,
    0x6b901122, 0xfd987193, 0xa679438e, 0x49b40821,
    0xf61e2562, 0xc040b340, 0x265e5a51, 0xe9b6c7aa,
    0xd62f105d, 0x02441453, 0xd8a1e681, 0xe7d3fbc8,
    0x21e1cde6, 0xc33707d6, 0xf4d50d87, 0x455a14ed,
    0xa9e3e905, 0xfcefa3f8, 0x676f02d9, 0x8d2a4c8a,
    0xfffa3942, 0x8771f681, 0x6d9d6122, 0xfde5380c,
    0xa4beea44, 0x4bdecfa9, 0xf6bb4b60, 0xbebfbc70,
    0x289b7ec6, 0xeaa127fa, 0xd4ef3085, 0x04881d05,
    0xd9d4d039, 0xe6db99e5, 0x1fa27cf8, 0xc4ac5665,
    0xf4292244, 0x432aff97, 0xab9423a7, 0xfc93a039,
    0x655b59c3, 0x8f0ccc92, 0xffeff47d, 0x85845dd1,
    0x6fa87e4f, 0xfe2ce6e0, 0xa3014314, 0x4e0811a1,
    0xf7537e82, 0xbd3af235, 0x2ad7d2bb, 0xeb86d391]

/-- `left_rotate`. -/
def leftRotate (value : BitVec 32) (shift : ℕ) : BitVec 32 :=
  (value <<< shift) ||| (value >>> (32 - shift))

/-- The value of `F` in round `i`. -/
def md5F (i : ℕ) (q : Registers) : BitVec 32 :=
  if i < 16 then (q.B &&& q.C) ||| (~~~q.B &&& q.D)
  else if i < 32 then (q.D &&& q.B) ||| (~~~q.D &&& q.C)
  else if i < 48 then q.B ^^^ q.C ^^^ q.D
  else q.C ^^^ (q.B ||| ~~~q.D)

/-- The value of `g` in round `i`. -/
def md5G (i : ℕ) : ℕ :=
  if i < 16 then i
  else if i < 32 then (5 * i + 1) &&& 15
  else if i < 48 then (3 * i + 5) &&& 15
  else (7 * i) &&& 15

/-- The word that round `i` reads of the chunk. -/
def md5Input (inputBytes : List UInt8) (g : ℕ) : BitVec 32 :=
  let byte n := (inputBytes.getD n 0).toBitVec.setWidth 32
  byte (g * 4 + 0) ||| (byte (g * 4 + 1) <<< 8) ||| (byte (g * 4 + 2) <<< 16) |||
    (byte (g * 4 + 3) <<< 24)

/-- Round `i` of a chunk. -/
def md5Round (inputBytes : List UInt8) (q : Registers) (i : ℕ) : Registers :=
  { A := q.D
    B := q.B + leftRotate (q.A + md5F i q + md5Table2.getD i 0 + md5Input inputBytes (md5G i))
      (md5Table1.getD i 0)
    C := q.B
    D := q.C }

/-- `(total_bits >> shift) & 0xff`. -/
def totalBitsByte (totalBits : BitVec 32) (shift : ℕ) : UInt8 :=
  UInt8.ofBitVec ((totalBits.sshiftRight shift &&& 0xff).setWidth 8)

/-- `input_bytes` of a chunk: the next 64 bytes of `buf`, or `temp`. -/
def md5InputBytes (totalBits : BitVec 32) (buf : List UInt8) (len : ℤ) : List UInt8 :=
  if 64 ≤ len then buf.take 64
  else
    let temp := List.replicate 64 0
    let temp :=
      if 0 ≤ len then (buf.take len.toNat ++ temp.drop len.toNat).set len.toNat 0x80 else temp
    if len < 56 then
      (((temp.set 56 (totalBitsByte totalBits 0)).set 57 (totalBitsByte totalBits 8)).set 58
        (totalBitsByte totalBits 16)).set 59 (totalBitsByte totalBits 24)
    else temp

/-- The rounds of a chunk, which are added to `a0`, `b0`, `c0` and `d0`. -/
def md5Chunk (inputBytes : List UInt8) (q : Registers) : Registers :=
  let r := (List.range 64).foldl (md5Round inputBytes) q
  ⟨q.A + r.A, q.B + r.B, q.C + r.C, q.D + r.D⟩

/-- The loop over the chunks. -/
def md5Chunks (totalBits : BitVec 32) : List UInt8 → ℤ → Registers → ℕ → Registers
  | _, _, q, 0 => q
  | buf, len, q, chunks + 1 =>
    md5Chunks totalBits (if 64 ≤ len then buf.drop 64 else buf) (len - 64)
      (md5Chunk (md5InputBytes totalBits buf len) q) chunks

/-- `result->words`. -/
def md5Words (q : Registers) : Vector (BitVec 32) 4 := #v[q.A, q.B, q.C, q.D]

/-- `digest_md5_calc`: the words of the result for `len` bytes at `ptr`. Only `total_bits` can
overflow. -/
def digestMd5Calc (ptr : List UInt8) (len : ℤ) : Vector (BitVec 32) 4 :=
  let chunks := (len + 8 + 64) >>> (6 : ℕ)
  let totalBits := BitVec.ofInt 32 len <<< 3
  md5Words (md5Chunks totalBits ptr len
    ⟨0x67452301, 0xefcdab89, 0x98badcfe, 0x10325476⟩ chunks.toNat)

/-- The 16 bytes of a `digest_md5_t`. -/
def digestMd5Bytes (words : Vector (BitVec 32) 4) : List UInt8 :=
  words.toList.flatMap fun w => leBytes 4 w.toNat

example : digestMd5Bytes (digestMd5Calc [97, 98, 99] 3) =
    [0x90, 0x01, 0x50, 0x98, 0x3c, 0xd2, 0x4f, 0xb0,
     0xd6, 0x96, 0x3f, 0x7d, 0x28, 0xe1, 0x7f, 0x72] := by
  decide +kernel

/-! ## The tables -/

/-- The constants of the specification, from the table. -/
def tableWord (i : ℕ) : BitVec 32 := md5Table2.getD (i - 1) 0

open Nat in
theorem sineWord_eq : ∀ i < 64, sineWord (i + 1) = md5Table2.getD i 0 := by
  have hseries : ∀ i < 64, 2 * (i + 1) ≤ 2 * 104 + 1 ∧
      (md5Table2.getD i 0).toNat * (2 * 104)! + 4294967296 * (2 * (i + 1) ^ (2 * 104)) ≤
        4294967296 * (sinNum (i + 1) 104).natAbs ∧
      4294967296 * ((sinNum (i + 1) 104).natAbs + 2 * (i + 1) ^ (2 * 104)) <
        ((md5Table2.getD i 0).toNat + 1) * (2 * 104)! := by
    decide +kernel
  intro i hi
  obtain ⟨hterms, hlower, hupper⟩ := hseries i hi
  unfold sineWord
  rw [floor_abs_sin hterms hlower hupper, BitVec.ofNat_toNat, BitVec.setWidth_eq]

/-! ## A round -/

theorem leftRotate_eq {shift : ℕ} (h : shift < 32) (value : BitVec 32) :
    leftRotate value shift = value.rotateLeft shift := by
  unfold leftRotate
  rw [BitVec.rotateLeft_def, Nat.mod_eq_of_lt h]

/-- The order in which the variables hold the registers before round `i`. -/
def roundOrder (i : ℕ) : Order :=
  match i % 4 with
  | 0 => .abcd
  | 1 => .dabc
  | 2 => .cdab
  | _ => .bcda

def roundAux (i : ℕ) : Aux :=
  if i < 16 then .F else if i < 32 then .G else if i < 48 then .H else .I

/-- The operation that round `i` carries out. -/
def roundOperation (i : ℕ) : Operation :=
  ⟨roundAux i, roundOrder i, md5G i, md5Table1.getD i 0, i + 1⟩

/-- The rounds of the loop are the operations, one by one. -/
theorem operations_eq : operations = (List.range 64).map roundOperation := by decide

theorem md5G_lt : ∀ i < 64, md5G i < 16 ∧ md5Table1.getD i 0 < 32 := by decide

theorem md5F_eq (i : ℕ) (q : Registers) : md5F i q = (roundAux i).apply q.B q.C q.D := by
  unfold md5F roundAux
  split_ifs
  · rfl
  · show (q.D &&& q.B) ||| (~~~q.D &&& q.C) = (q.B &&& q.D) ||| (q.C &&& ~~~q.D)
    rw [BitVec.and_comm q.D, BitVec.and_comm (~~~q.D)]
  · rfl
  · rfl

/-- What was named first in one operation is named second in the next. -/
theorem view_store (i : ℕ) (q : Registers) (v : BitVec 32) :
    (roundOrder (i + 1)).view ((roundOrder i).store v q) =
      ⟨((roundOrder i).view q).D, v, ((roundOrder i).view q).B, ((roundOrder i).view q).C⟩ := by
  have hi : i % 4 = 0 ∨ i % 4 = 1 ∨ i % 4 = 2 ∨ i % 4 = 3 := by omega
  unfold roundOrder
  rcases hi with h | h | h | h
  · rw [h, show (i + 1) % 4 = 1 by omega]
    rfl
  · rw [h, show (i + 1) % 4 = 2 by omega]
    rfl
  · rw [h, show (i + 1) % 4 = 3 by omega]
    rfl
  · rw [h, show (i + 1) % 4 = 0 by omega]
    rfl

section Rounds

variable {inputBytes : List UInt8} {X : ℕ → BitVec 32}

/-- A round renames the variables where the operation changes a register. -/
theorem md5Round_eq (hX : ∀ g < 16, X g = md5Input inputBytes g) {i : ℕ} (hi : i < 64)
    (q : Registers) :
    md5Round inputBytes ((roundOrder i).view q) i =
      (roundOrder (i + 1)).view ((roundOperation i).apply tableWord X q) := by
  obtain ⟨hg, hs⟩ := md5G_lt i hi
  unfold md5Round Operation.apply roundOperation tableWord
  rw [view_store, leftRotate_eq hs, md5F_eq, Nat.add_sub_cancel, hX _ hg]
  congr 3
  rw [BitVec.add_assoc, BitVec.add_comm (md5Table2.getD i 0), ← BitVec.add_assoc]

theorem md5Rounds_eq (hX : ∀ g < 16, X g = md5Input inputBytes g) {n : ℕ} (hn : n ≤ 64)
    (q : Registers) :
    (List.range n).foldl (md5Round inputBytes) q =
      (roundOrder n).view
        (((List.range n).map roundOperation).foldl (Operation.apply tableWord X) q) := by
  induction n with
  | zero => rfl
  | succ n ih =>
    rw [List.range_succ, List.map_append, List.foldl_append, List.foldl_append, ih (by omega)]
    exact md5Round_eq hX (by omega) _

theorem md5Chunk_eq (hX : ∀ g < 16, X g = md5Input inputBytes g) (q : Registers) :
    md5Chunk inputBytes q = block tableWord X q := by
  have hlast : roundOrder 64 = .abcd := rfl
  unfold md5Chunk block
  rw [md5Rounds_eq hX (le_refl 64), operations_eq, hlast, Order.view]

end Rounds

/-! ## A chunk -/

theorem ofNat_byte (b : UInt8) (n : ℕ) :
    BitVec.ofNat 32 (b.toNat + 256 * n) = b.toBitVec.setWidth 32 ||| BitVec.ofNat 32 n <<< 8 := by
  have hb := b.toNat_lt
  apply BitVec.eq_of_getLsbD_eq
  intro i hi
  have hbit : (b.toNat + 256 * n).testBit i =
      if i < 8 then b.toNat.testBit i else n.testBit (i - 8) := by
    rw [Nat.add_comm]
    exact Nat.testBit_two_pow_mul_add n hb i
  rw [BitVec.getLsbD_ofNat, hbit, BitVec.getLsbD_or, BitVec.getLsbD_setWidth,
    BitVec.getLsbD_shiftLeft, BitVec.getLsbD_ofNat]
  by_cases h : i < 8
  · simp [h, hi, BitVec.getLsbD]
  · simp [h, hi, BitVec.getLsbD_of_ge b.toBitVec i (by omega), show i - 8 < 32 by omega]

/-- The four bytes are read low byte first. -/
theorem md5Input_eq {bytes : List UInt8} {g : ℕ} (h : 4 * g + 4 ≤ bytes.length) :
    md5Input bytes g = wordAt bytes (4 * g) := by
  have hdrop (n : ℕ) (hn : 4 * g + n < bytes.length) :
      bytes.drop (4 * g + n) = bytes.getD (g * 4 + n) 0 :: bytes.drop (4 * g + n + 1) := by
    rw [List.drop_eq_getElem_cons hn, List.getD_eq_getElem _ _ (by omega)]
    simp only [Nat.mul_comm g 4]
  have hfour : (bytes.drop (4 * g)).take 4 =
      [bytes.getD (g * 4 + 0) 0, bytes.getD (g * 4 + 1) 0, bytes.getD (g * 4 + 2) 0,
        bytes.getD (g * 4 + 3) 0] := by
    have h0 := hdrop 0 (by omega)
    have h1 := hdrop 1 (by omega)
    have h2 := hdrop 2 (by omega)
    have h3 := hdrop 3 (by omega)
    rw [Nat.add_zero] at h0
    rw [h0, h1, h2, h3]
    rfl
  unfold wordAt md5Input
  rw [hfour]
  simp only [leNat, ofNat_byte, BitVec.shiftLeft_or_distrib, ← BitVec.shiftLeft_add,
    BitVec.zero_shiftLeft, BitVec.or_zero, BitVec.or_assoc, Nat.reduceAdd]

theorem wordAt_take_drop (bytes : List UInt8) (offset : ℕ) {g : ℕ} (hg : g < 16) :
    wordAt ((bytes.drop offset).take 64) (4 * g) = wordAt bytes (offset + 4 * g) := by
  unfold wordAt
  rw [List.drop_take, List.drop_drop, List.take_take, Nat.min_eq_left (by omega)]

/-- The bytes of the length that the code stores. -/
theorem totalBitsByte_eq {n shift : ℕ} (hn : n < 2 ^ 29) (hs : shift ≤ 24) :
    totalBitsByte (BitVec.ofInt 32 n <<< 3) shift = UInt8.ofNat (8 * n / 2 ^ shift) := by
  have hbits : (BitVec.ofInt 32 n <<< 3).toNat = 8 * n := by
    rw [BitVec.toNat_shiftLeft, BitVec.ofInt_natCast, BitVec.toNat_ofNat, Nat.shiftLeft_eq]
    omega
  have hextract : ((BitVec.ofInt 32 n <<< 3).sshiftRight shift &&& 0xff).setWidth 8 =
      (BitVec.ofInt 32 n <<< 3).extractLsb' shift 8 := by
    apply BitVec.eq_of_getLsbD_eq
    intro i hi
    have hmask : (0xff : BitVec 32).getLsbD i = true := by
      interval_cases i <;> rfl
    rw [BitVec.getLsbD_setWidth, BitVec.getLsbD_and, hmask, BitVec.getLsbD_sshiftRight,
      BitVec.getLsbD_extractLsb']
    simp [hi, show shift + i < 32 by omega, show ¬32 ≤ i by omega]
  unfold totalBitsByte
  rw [hextract]
  apply UInt8.toNat_inj.mp
  show ((BitVec.ofInt 32 n <<< 3).extractLsb' shift 8).toNat = _
  rw [BitVec.extractLsb'_toNat, hbits, UInt8.toNat_ofNat', Nat.shiftRight_eq_div_pow]

/-- Below `2 ^ 29` bytes the length in bits needs only four bytes. -/
theorem length_bytes {n : ℕ} (hn : n < 2 ^ 29) :
    leBytes 8 (8 * n) =
      [UInt8.ofNat (8 * n / 2 ^ 0), UInt8.ofNat (8 * n / 2 ^ 8), UInt8.ofNat (8 * n / 2 ^ 16),
        UInt8.ofNat (8 * n / 2 ^ 24), 0, 0, 0, 0] := by
  have hhigh : 8 * n / 256 / 256 / 256 / 256 = 0 := by omega
  simp only [leBytes, hhigh, Nat.zero_div]
  simp only [Nat.div_div_eq_div_mul, pow_zero, Nat.div_one]
  rfl

section Chunks

variable {message : List UInt8}

/-- The length takes the last 8 bytes of a chunk. -/
theorem set_length {n : ℕ} (hn : n < 2 ^ 29) {head : List UInt8} (hhead : head.length = 56) :
    ((((head ++ List.replicate 8 0).set 56 (totalBitsByte (BitVec.ofInt 32 n <<< 3) 0)).set 57
      (totalBitsByte (BitVec.ofInt 32 n <<< 3) 8)).set 58
      (totalBitsByte (BitVec.ofInt 32 n <<< 3) 16)).set 59
      (totalBitsByte (BitVec.ofInt 32 n <<< 3) 24) = head ++ leBytes 8 (8 * n) := by
  have hset (k : ℕ) (t : List UInt8) (b : UInt8) :
      (head ++ t).set (56 + k) b = head ++ t.set k b := by
    rw [List.set_append_right _ _ (by omega), hhead, Nat.add_sub_cancel_left]
  rw [hset 0, hset 1, hset 2, hset 3, length_bytes hn, totalBitsByte_eq hn (by decide),
    totalBitsByte_eq hn (by decide), totalBitsByte_eq hn (by decide),
    totalBitsByte_eq hn (by decide)]
  rfl

/-- The chunk from `64 * i` on of the padded message, from what is left of the data. -/
theorem md5InputBytes_eq (hmessage : message.length < 2 ^ 29) {i : ℕ}
    (hi : i < (padded message).length / 64) {buf : List UInt8}
    (hbuf : 0 ≤ (message.length : ℤ) - 64 * i → buf = message.drop (64 * i)) :
    md5InputBytes (BitVec.ofInt 32 message.length <<< 3) buf (message.length - 64 * i) =
      ((padded message).drop (64 * i)).take 64 := by
  have hbytes (s : ℕ) (hs : s ≤ 24) := totalBitsByte_eq hmessage hs
  have hz := zeros_spec message.length
  rw [padded_length] at hi
  unfold md5InputBytes padded
  by_cases hfull : 64 ≤ (message.length : ℤ) - 64 * i
  · -- a chunk of data only
    have hlen : 64 ≤ (message.drop (64 * i)).length := by
      rw [List.length_drop]
      omega
    rw [if_pos hfull, hbuf (by omega), List.append_assoc, List.drop_append_of_le_length (by omega),
      List.take_append_of_le_length hlen]
  rw [if_neg hfull]
  dsimp only
  by_cases hdata : 0 ≤ (message.length : ℤ) - 64 * i
  · obtain ⟨r, hr⟩ : ∃ r : ℕ, message.length = 64 * i + r := ⟨message.length - 64 * i, by omega⟩
    have hrest : (message.length : ℤ) - 64 * i = r := by omega
    have hrlt : r < 64 := by omega
    have hlen : (message.drop (64 * i)).length = r := by
      rw [List.length_drop]
      omega
    have htemp : ((message.drop (64 * i)).take r ++ (List.replicate 64 0).drop r).set r 0x80 =
        message.drop (64 * i) ++ 0x80 :: List.replicate (63 - r) 0 := by
      rw [List.take_of_length_le (by omega), List.set_append_right _ _ (by omega), hlen,
        Nat.sub_self, List.drop_replicate, show 64 - r = 63 - r + 1 by omega, List.replicate_succ,
        List.set_cons_zero]
    rw [if_pos hdata, hbuf hdata, hrest, Int.toNat_natCast, htemp, List.append_assoc,
      List.drop_append_of_le_length (by omega)]
    by_cases hroom : (r : ℤ) < 56
    · -- data, the mark and the length
      have hhead : (message.drop (64 * i) ++ 0x80 :: List.replicate (55 - r) 0).length = 56 := by
        rw [List.length_append, List.length_cons, List.length_replicate]
        omega
      have hzeros : zeros message.length = 55 - r := by omega
      rw [if_pos hroom, show 63 - r = 55 - r + 8 by omega, List.replicate_add, ← List.cons_append,
        ← List.append_assoc, set_length hmessage hhead, hzeros, ← List.append_assoc,
        List.take_of_length_le]
      rw [List.length_append, hhead, leBytes_length]
    · -- data and the mark
      have hhead : (message.drop (64 * i) ++ 0x80 :: List.replicate (63 - r) 0).length = 64 := by
        rw [List.length_append, List.length_cons, List.length_replicate]
        omega
      have hzeros : zeros message.length = 63 - r + 56 := by omega
      rw [if_neg hroom, hzeros, List.replicate_add, List.cons_append, List.append_assoc,
        ← List.cons_append, ← List.append_assoc, List.take_left' hhead]
  · -- the length alone
    obtain ⟨s, hs⟩ : ∃ s : ℕ, 64 * i = message.length + (s + 1) :=
      ⟨64 * i - message.length - 1, by omega⟩
    have hzeros : zeros message.length = s + 56 := by omega
    have hhead : (List.replicate 56 (0 : UInt8)).length = 56 := List.length_replicate
    rw [if_neg hdata, if_pos (by omega), show (64 : ℕ) = 56 + 8 by rfl, List.replicate_add,
      set_length hmessage hhead, hzeros, List.append_assoc, hs, List.drop_length_add_append,
      List.cons_append, List.drop_succ_cons, List.replicate_add, List.append_assoc,
      List.drop_left' List.length_replicate, List.take_of_length_le]
    rw [List.length_append, hhead, leBytes_length]

/-- The words of the chunk. -/
theorem md5Input_padded (hmessage : message.length < 2 ^ 29) {i : ℕ}
    (hi : i < (padded message).length / 64) {buf : List UInt8}
    (hbuf : 0 ≤ (message.length : ℤ) - 64 * i → buf = message.drop (64 * i)) :
    ∀ g < 16, wordAt (padded message) (64 * i + 4 * g) =
      md5Input (md5InputBytes (BitVec.ofInt 32 message.length <<< 3) buf
        (message.length - 64 * i)) g := by
  intro g hg
  have hlen : (((padded message).drop (64 * i)).take 64).length = 64 := by
    rw [List.length_take, List.length_drop]
    omega
  rw [md5InputBytes_eq hmessage hi hbuf, md5Input_eq (by omega), wordAt_take_drop _ _ hg]

/-! ## The whole message -/

/-- The loop over the chunks, from chunk `i` on, is the fold over the blocks. -/
theorem md5Chunks_eq (hmessage : message.length < 2 ^ 29) (chunks i : ℕ)
    (hi : i + chunks = (padded message).length / 64) (buf : List UInt8)
    (hbuf : 0 ≤ (message.length : ℤ) - 64 * i → buf = message.drop (64 * i)) (q : Registers) :
    md5Chunks (BitVec.ofInt 32 message.length <<< 3) buf (message.length - 64 * i) q chunks =
      (List.range' i chunks).foldl
        (fun q i => block tableWord (fun k => wordAt (padded message) (64 * i + 4 * k)) q) q := by
  induction chunks generalizing i buf q with
  | zero => rfl
  | succ chunks ih =>
    have hwords := md5Input_padded hmessage (by omega) hbuf
    have hlen : (message.length : ℤ) - 64 * i - 64 = message.length - 64 * (i + 1 : ℕ) := by
      push_cast
      ring
    have hnext : 0 ≤ (message.length : ℤ) - 64 * (i + 1 : ℕ) →
        (if 64 ≤ (message.length : ℤ) - 64 * i then buf.drop 64 else buf) =
          message.drop (64 * (i + 1)) := by
      intro h
      rw [if_pos (by omega), hbuf (by omega), List.drop_drop, Nat.mul_add, Nat.mul_one]
    rw [List.range'_succ, List.foldl_cons, ← ih (i + 1) (by omega) _ hnext, md5Chunks, hlen,
      md5Chunk_eq hwords]

end Chunks

theorem digestMd5Bytes_words (q : Registers) : digestMd5Bytes (md5Words q) = q.output := rfl

theorem digestMd5Bytes_eq_digest {message : List UInt8} (h : message.length < 2 ^ 29) :
    digestMd5Bytes (digestMd5Calc message message.length) = digest tableWord message := by
  have hz := zeros_spec message.length
  have hpadded := padded_length message
  have hchunks : (((message.length : ℤ) + 8 + 64) >>> (6 : ℕ)).toNat = (padded message).length / 64 := by
    rw [Int.shiftRight_eq_div_pow]
    omega
  have hloop := md5Chunks_eq h ((padded message).length / 64) 0 (Nat.zero_add _) message
    (fun _ => rfl) ⟨0x67452301, 0xefcdab89, 0x98badcfe, 0x10325476⟩
  rw [Nat.cast_zero, mul_zero, sub_zero, ← List.range_eq_range'] at hloop
  unfold digestMd5Calc digest blocks initial
  rw [digestMd5Bytes_words, hchunks, hloop]

/-- `digest_md5_calc` is MD5 below `2 ^ 29` bytes. -/
theorem digestMd5Calc_is_md5 {message : List UInt8} (h : message.length < 2 ^ 29) :
    digestMd5Bytes (digestMd5Calc message message.length) = md5 message := by
  have htable : ∀ op ∈ operations, tableWord op.i = sineWord op.i := by
    intro op hop
    rw [operations_eq, List.mem_map] at hop
    obtain ⟨i, hi, rfl⟩ := hop
    exact (sineWord_eq i (List.mem_range.mp hi)).symm
  rw [digestMd5Bytes_eq_digest h, digest_congr htable]
  rfl

/-- The digits from 1 on, 80 of them: the padded message has two blocks. -/
def eightyDigits : List UInt8 := (List.range 80).map fun i => UInt8.ofNat (48 + (i + 1) % 10)

theorem digestMd5Calc_is_md5_digits :
    md5 eightyDigits = [0x57, 0xed, 0xf4, 0xa2, 0x2b, 0xe3, 0xc9, 0x55,
      0xac, 0x49, 0xda, 0x2e, 0x21, 0x07, 0xb6, 0x7a] := by
  rw [← digestMd5Calc_is_md5 (by decide)]
  decide +kernel

end OlivePiccolo.Digest
