import Mathlib.Data.Fin.VecNotation
import Mathlib.Data.Nat.Bitwise
import Mathlib.Tactic.IntervalCases
import Mathlib.Tactic.NormNum
import OlivePiccolo.Flash.EpcsFatfs
import OlivePiccolo.Library.Errno
import OlivePiccolo.Library.LittleEndian

/-!
# The query of the SFDP tables

`peridot_spi_flash_query_sfdp`, for any flash that answers the command 0x5a from its image, and when
it finds what the image says (`query_sfdp_iff`). A flash has `NPH + 1` parameter headers; the search
reads the first `NPH` of them, its address has one byte, and so has the pointer that it returns.
-/

namespace OlivePiccolo.Flash

open Dialog

/-- `CMD_READ_SFDP`. -/
def RSFDP : UInt8 := 0x5a

def INT_MAX : BitVec 32 := 0x7fffffff

/-- What the query fills in: the fields of `peridot_spi_flash_dev` and those of its first region. -/
structure DevInfo where
  eraseInst : UInt8
  fourBytesMode : Bool
  pageSize : BitVec 16
  numberOfRegions : BitVec 32
  offset : BitVec 32
  regionSize : BitVec 32
  numberOfBlocks : BitVec 32
  blockSize : BitVec 32
  deriving DecidableEq, Repr

/-- An element of an `alt_u32` array, whose bytes have been read. -/
def word (buf : List UInt8) (i : ℕ) : BitVec 32 :=
  BitVec.ofNat 32 (leNat ((buf.drop (4 * i)).take 4))

/-- An element of an `alt_u16` array that begins at an element of an `alt_u32` array. -/
def halfWord (buf : List UInt8) (i j : ℕ) : BitVec 16 :=
  (word buf (i + j / 2) >>> (16 * (j % 2))).setWidth 16

/-- `1u << n`; the processor takes the low five bits of `n`. -/
def oneShl (n : ℕ) : BitVec 32 := (1 : BitVec 32) <<< (n % 32)

/-- The loop of `div_power2`. -/
def divPower2Loop : ℕ → BitVec 32 → BitVec 32 → Dialog Said Reply (BitVec 32)
  | 0, _, _ => late
  | rounds + 1, numerator, denominator =>
    if denominator &&& 1 = 0 then divPower2Loop rounds (numerator.sdiv 2) (denominator >>> 1)
    else return numerator

/-- `div_power2`. A 32-bit number that is not 0 ends with fewer than 32 zeros. -/
def divPower2 (numerator denominator : BitVec 32) : Dialog Said Reply (BitVec 32) :=
  if denominator = 0 then return -1 else divPower2Loop 32 numerator denominator

/-- `peridot_spi_flash_read_sfdp`: its result, and the bytes that it stores. -/
def peridotSpiFlashReadSfdp (address : UInt8) (length : ℕ) :
    Dialog Said Reply (ℤ × List UInt8) := do
  let reply ← ask (.command [RSFDP, 0x00, 0x00, address, 0x00] length false)
  if reply.result < 0 then return (reply.result, reply.data)
  return (length, reply.data)

/-- The loop of `peridot_spi_flash_search_sfdp_table`, from header `index` on. -/
def searchLoop (idLsb idMsb : UInt8) : ℕ → ℕ → Dialog Said Reply ℤ
  | 0, _ => return -ENOTSUP
  | left + 1, index => do
    let (result, buf) ← peridotSpiFlashReadSfdp (UInt8.ofNat (index * 8)) 8
    if result < 0 then return result
    if (word buf 0 &&& 0xff).toNat = idLsb.toNat ∧ (word buf 1 >>> 24).toNat = idMsb.toNat then
      return (word buf 1 &&& 0xff).toNat
    searchLoop idLsb idMsb left (index + 1)

/-- `peridot_spi_flash_search_sfdp_table`. -/
def peridotSpiFlashSearchSfdpTable (idLsb idMsb : UInt8) : Dialog Said Reply ℤ := do
  let (result, buf) ← peridotSpiFlashReadSfdp 0x00 8
  if result < 0 then return result
  if word buf 0 ≠ 0x50444653 ∨ word buf 1 &&& 0xffff < 0x0106 then return -ENOTSUP
  searchLoop idLsb idMsb ((word buf 1 >>> 16) &&& 0xff).toNat 1

/-- `region_size` from the second word. -/
def regionSizeOf (density : BitVec 32) : BitVec 32 :=
  if density &&& 0x80000000 ≠ 0 then oneShl ((density &&& 0x7fffffff) - 3).toNat
  else (density >>> 3) + 1

/-- A round of the loop over the erase types. -/
def DevInfo.eraseType (dev : DevInfo) (data : BitVec 16) : DevInfo :=
  let shift : BitVec 8 := (data &&& 0xff).setWidth 8
  let size := oneShl shift.toNat
  if 0 < shift ∧ size < dev.blockSize then
    { dev with blockSize := size, eraseInst := ⟨(data >>> 8).setWidth 8⟩ }
  else dev

/-- What is read from the basic table. -/
def DevInfo.readTable (dev : DevInfo) (basic : List UInt8) : DevInfo :=
  ((List.range 4).map (halfWord basic 7)).foldl DevInfo.eraseType
    { dev with
      offset := 0
      fourBytesMode := (word basic 0 >>> 17) &&& 3 = 2
      pageSize := (oneShl ((word basic 10 >>> 4) &&& 0xf).toNat).setWidth 16
      regionSize := regionSizeOf (word basic 1)
      blockSize := INT_MAX }

/-- `peridot_spi_flash_query_sfdp`. -/
def peridotSpiFlashQuerySfdp (dev : DevInfo) : Dialog Said Reply (ℤ × DevInfo) := do
  let result ← peridotSpiFlashSearchSfdpTable 0x00 0xff
  if result < 0 then return (result, dev)
  let (result, basic) ← peridotSpiFlashReadSfdp (UInt8.ofNat result.toNat) 64
  if result < 0 then return (result, dev)
  let dev := dev.readTable basic
  if dev.blockSize = INT_MAX then return (-ENOTSUP, dev)
  let numberOfBlocks ← divPower2 dev.regionSize dev.blockSize
  return (0, { dev with numberOfBlocks := numberOfBlocks, numberOfRegions := 1 })

/-! ## Images -/

/-- The bytes of an image. -/
def bytesAt (image : ℕ → UInt8) (address n : ℕ) : List UInt8 :=
  (List.range n).map fun i => image (address + i)

/-- A word of an image. -/
def dword (image : ℕ → UInt8) (address : ℕ) : ℕ :=
  leNat [image address, image (address + 1), image (address + 2), image (address + 3)]

/-- What a basic table of 16 words says: the size in bytes, the exponents of the page size and of the
sizes of the erase types, 0 for none, and the opcodes of the erase types. -/
structure Table where
  density : ℕ
  page : ℕ
  exponent : Fin 4 → UInt8
  opcode : Fin 4 → UInt8
  density_lt : density < 2 ^ 31
  divides : ∀ i, exponent i ≠ 0 → 2 ^ (exponent i).toNat ∣ density
  erases : ∃ i, exponent i ≠ 0

/-- The word that says how many bits there are: their number less one, or the exponent of it behind
the highest bit. -/
def SaysBits (w bits : ℕ) : Prop :=
  w < 2 ^ 31 ∧ bits = w + 1 ∨ 2 ^ 31 ≤ w ∧ bits = 2 ^ (w - 2 ^ 31)

/-- The table is in the image. -/
structure Table.In (t : Table) (image : ℕ → UInt8) (address : ℕ) : Prop where
  density : SaysBits (dword image (address + 4)) (8 * t.density)
  page : (image (address + 40)).toNat / 16 = t.page
  exponent : ∀ i : Fin 4, image (address + 28 + 2 * i) = t.exponent i
  opcode : ∀ i : Fin 4, image (address + 29 + 2 * i) = t.opcode i

/-- The number of parameter headers, less one. -/
def nph (image : ℕ → UInt8) : ℕ := (image 6).toNat

/-- Parameter header `j`, from 0 on, has the ID of the basic table. -/
def IsBasic (image : ℕ → UInt8) (j : ℕ) : Prop :=
  image (8 * (j + 1)) = 0x00 ∧ image (8 * (j + 1) + 7) = 0xff

instance (image : ℕ → UInt8) (j : ℕ) : Decidable (IsBasic image j) :=
  inferInstanceAs (Decidable (_ ∧ _))

/-- An image that follows the standard: parameter header `k` is that of the basic table, which is
`t` and at address `p`. -/
structure Conforms (image : ℕ → UInt8) (k p : ℕ) (t : Table) : Prop where
  signature : dword image 0 = 0x50444653
  revision : 0x0106 ≤ 256 * (image 5).toNat + (image 4).toNat
  header : k ≤ nph image
  basic : ∀ j ≤ nph image, IsBasic image j ↔ j = k
  length : image (8 * (k + 1) + 3) = 16
  pointer : leNat [image (8 * (k + 1) + 4), image (8 * (k + 1) + 5), image (8 * (k + 1) + 6)] = p
  table : t.In image p

/-- A device that answers the command from the image. -/
def Answers {σ : Type} (reply : σ → Said → Reply × σ) (image : ℕ → UInt8) : Prop :=
  ∀ s a₂ a₁ a₀ dummy n, (reply s (.command [RSFDP, a₂, a₁, a₀, dummy] n false)).1 =
    ⟨0, bytesAt image (leNat [a₀, a₁, a₂]) n⟩

/-- Erase type `i` is a smallest one. -/
def Table.Smallest (t : Table) (i : Fin 4) : Prop :=
  t.exponent i ≠ 0 ∧ ∀ j, t.exponent j ≠ 0 → t.exponent i ≤ t.exponent j

/-- The sizes are those of the table, but for the number of blocks. -/
structure Table.Read (t : Table) (dev : DevInfo) : Prop where
  regionSize : dev.regionSize.toNat = t.density
  pageSize : dev.pageSize.toNat = 2 ^ t.page
  erase : ∃ i, t.Smallest i ∧ dev.blockSize.toNat = 2 ^ (t.exponent i).toNat ∧
    dev.eraseInst = t.opcode i

/-! ## Words -/

section Words

variable {image : ℕ → UInt8} {a n : ℕ}

theorem dword_lt (image : ℕ → UInt8) (a : ℕ) : dword image a < 2 ^ 32 :=
  Nat.lt_of_lt_of_eq (leNat_lt _) (show 256 ^ 4 = 2 ^ 32 by norm_num)

theorem word_bytesAt {i : ℕ} (h : 4 * i + 4 ≤ n) :
    (word (bytesAt image a n) i).toNat = dword image (a + 4 * i) := by
  have hbytes : ((bytesAt image a n).drop (4 * i)).take 4 = [image (a + 4 * i),
      image (a + 4 * i + 1), image (a + 4 * i + 2), image (a + 4 * i + 3)] := by
    have hlength : (((bytesAt image a n).drop (4 * i)).take 4).length = 4 := by
      rw [List.length_take, List.length_drop, bytesAt, List.length_map, List.length_range]
      omega
    refine List.ext_getElem hlength fun j hj _ => ?_
    rw [hlength] at hj
    simp only [bytesAt, List.getElem_take, List.getElem_drop, List.getElem_map,
      List.getElem_range]
    interval_cases j <;> rfl
  rw [word, hbytes, BitVec.toNat_ofNat]
  exact Nat.mod_eq_of_lt (dword_lt image _)

theorem leNat_four (b₀ b₁ b₂ b₃ : UInt8) : leNat [b₀, b₁, b₂, b₃] =
    b₀.toNat + 256 * b₁.toNat + 65536 * b₂.toNat + 16777216 * b₃.toNat := by
  rw [leNat, leNat, leNat, leNat, leNat]
  omega

/-- The bytes of a word. -/
theorem dword_bytes (image : ℕ → UInt8) (a : ℕ) :
    dword image a = (image a).toNat + 256 * (image (a + 1)).toNat +
      65536 * (image (a + 2)).toNat + 16777216 * (image (a + 3)).toNat := leNat_four _ _ _ _

theorem and_ff_toNat (x : BitVec 32) : (x &&& 0xff).toNat = x.toNat % 256 := by
  show x.toNat &&& (2 ^ 8 - 1) = _
  exact Nat.and_two_pow_sub_one_eq_mod _ _

theorem shiftRight_toNat (x : BitVec 32) (k : ℕ) : (x >>> k).toNat = x.toNat / 2 ^ k := by
  rw [BitVec.toNat_ushiftRight, Nat.shiftRight_eq_div_pow]

theorem oneShl_toNat {k : ℕ} (h : k < 32) : (oneShl k).toNat = 2 ^ k := by
  rw [oneShl, Nat.mod_eq_of_lt h, BitVec.toNat_shiftLeft, Nat.shiftLeft_eq]
  show 1 * 2 ^ k % 2 ^ 32 = 2 ^ k
  rw [Nat.one_mul, Nat.mod_eq_of_lt (Nat.pow_lt_pow_right (by decide) h)]

end Words

/-! ## The basic table -/

section Table

variable {t : Table} {image : ℕ → UInt8} {a : ℕ}

/-- The second word: the density. -/
theorem regionSizeOf_toNat {w : BitVec 32} (h : SaysBits w.toNat (8 * t.density)) :
    (regionSizeOf w).toNat = t.density := by
  have hlt := w.isLt
  have hdensity := t.density_lt
  have hbit : (w &&& 0x80000000).toNat = (w.toNat.testBit 31).toNat * 2 ^ 31 := by
    show w.toNat &&& 2 ^ 31 = _
    exact Nat.and_two_pow _ _
  rw [Nat.testBit_eq_decide_div_mod_eq] at hbit
  rcases h with ⟨hsmall, hbits⟩ | ⟨hlarge, hbits⟩
  · have hclear : w &&& 0x80000000 = 0 := by
      apply BitVec.eq_of_toNat_eq
      rw [hbit, decide_eq_false (by omega)]
      rfl
    rw [regionSizeOf, if_neg (not_not.mpr hclear), BitVec.toNat_add, shiftRight_toNat]
    show (w.toNat / 2 ^ 3 + 1) % 2 ^ 32 = t.density
    omega
  · obtain ⟨n, hn⟩ := Nat.exists_eq_add_of_le hlarge
    rw [hn, Nat.add_sub_cancel_left] at hbits
    have hset : w &&& 0x80000000 ≠ 0 := by
      intro hzero
      rw [hzero, decide_eq_true (by omega)] at hbit
      exact absurd hbit (by decide)
    have hexp : (w &&& 0x7fffffff).toNat = n := by
      have hmod : (w &&& 0x7fffffff).toNat = w.toNat % 2 ^ 31 :=
        (BitVec.toNat_and _ _).trans (Nat.and_two_pow_sub_one_eq_mod _ 31)
      omega
    -- 8 divides the number of bits, which is below 2 ^ 34
    have hmin : 3 ≤ n := by
      by_contra hless
      have hcases : n = 0 ∨ n = 1 ∨ n = 2 := by omega
      rcases hcases with rfl | rfl | rfl <;> omega
    have hmax : n < 34 := by
      apply (Nat.pow_lt_pow_iff_right (a := 2) (by decide)).mp
      omega
    have hminus : ((w &&& 0x7fffffff) - 3).toNat = n - 3 := by
      rw [BitVec.toNat_sub_of_le, hexp]
      · rfl
      · rw [BitVec.le_def, hexp]
        exact hmin
    have hpow : 2 ^ n = 2 ^ 3 * 2 ^ (n - 3) := by
      rw [← Nat.pow_add, Nat.add_sub_cancel' hmin]
    rw [regionSizeOf, if_pos hset, hminus, oneShl_toNat (by omega)]
    omega

/-- An erase type as it is in the table: its exponent, and its opcode. -/
def IsType (data : BitVec 16) (exponent opcode : UInt8) : Prop :=
  data.toNat = exponent.toNat + 256 * opcode.toNat

theorem isType_halfWord (h : t.In image a) (i : Fin 4) :
    IsType (halfWord (bytesAt image a 64) 7 i) (t.exponent i) (t.opcode i) := by
  have hexp := h.exponent i
  have hop := h.opcode i
  rw [IsType, ← hexp, ← hop, halfWord, BitVec.toNat_setWidth, shiftRight_toNat,
    word_bytesAt (by omega), dword_bytes]
  have h0 := (image (a + 28)).toNat_lt
  have h1 := (image (a + 29)).toNat_lt
  have h2 := (image (a + 30)).toNat_lt
  have h3 := (image (a + 31)).toNat_lt
  have h4 := (image (a + 32)).toNat_lt
  have h5 := (image (a + 33)).toNat_lt
  have h6 := (image (a + 34)).toNat_lt
  have h7 := (image (a + 35)).toNat_lt
  match i with
  | 0 =>
    show ((image (a + 28)).toNat + 256 * (image (a + 29)).toNat + 65536 * (image (a + 30)).toNat +
      16777216 * (image (a + 31)).toNat) / 2 ^ 0 % 2 ^ 16 =
        (image (a + 28)).toNat + 256 * (image (a + 29)).toNat
    omega
  | 1 =>
    show ((image (a + 28)).toNat + 256 * (image (a + 29)).toNat + 65536 * (image (a + 30)).toNat +
      16777216 * (image (a + 31)).toNat) / 2 ^ 16 % 2 ^ 16 =
        (image (a + 30)).toNat + 256 * (image (a + 31)).toNat
    omega
  | 2 =>
    show ((image (a + 32)).toNat + 256 * (image (a + 33)).toNat + 65536 * (image (a + 34)).toNat +
      16777216 * (image (a + 35)).toNat) / 2 ^ 0 % 2 ^ 16 =
        (image (a + 32)).toNat + 256 * (image (a + 33)).toNat
    omega
  | 3 =>
    show ((image (a + 32)).toNat + 256 * (image (a + 33)).toNat + 65536 * (image (a + 34)).toNat +
      16777216 * (image (a + 35)).toNat) / 2 ^ 16 % 2 ^ 16 =
        (image (a + 34)).toNat + 256 * (image (a + 35)).toNat
    omega

/-- What the loop over the erase types has found in the first ones of them. -/
def Found (types : List (UInt8 × UInt8)) (dev : DevInfo) : Prop :=
  (∀ x ∈ types, x.1 = 0) ∧ dev.blockSize = INT_MAX ∨
  ∃ x ∈ types, x.1 ≠ 0 ∧ (∀ y ∈ types, y.1 ≠ 0 → x.1 ≤ y.1) ∧
    dev.blockSize.toNat = 2 ^ x.1.toNat ∧ dev.eraseInst = x.2

/-- A round, for what is in the table. -/
theorem eraseType_eq {dev : DevInfo} {data : BitVec 16} {exponent opcode : UInt8}
    (hdata : IsType data exponent opcode) (hexp : exponent.toNat ≤ 30) :
    dev.eraseType data =
      if exponent ≠ 0 ∧ 2 ^ exponent.toNat < dev.blockSize.toNat then
        { dev with blockSize := oneShl exponent.toNat, eraseInst := opcode }
      else dev := by
  have hop := opcode.toNat_lt
  have hshift : ((data &&& 0xff).setWidth 8 : BitVec 8).toNat = exponent.toNat := by
    have hand : (data &&& 0xff).toNat = data.toNat % 2 ^ 8 :=
      (BitVec.toNat_and _ _).trans (Nat.and_two_pow_sub_one_eq_mod _ 8)
    rw [BitVec.toNat_setWidth, hand, hdata]
    omega
  have hinst : (⟨(data >>> 8).setWidth 8⟩ : UInt8) = opcode := by
    apply UInt8.toNat_inj.mp
    show ((data >>> 8).setWidth 8 : BitVec 8).toNat = _
    rw [BitVec.toNat_setWidth, BitVec.toNat_ushiftRight, Nat.shiftRight_eq_div_pow, hdata]
    omega
  have hpos : 0 < ((data &&& 0xff).setWidth 8 : BitVec 8) ↔ exponent ≠ 0 := by
    rw [BitVec.lt_def, hshift, Ne, ← UInt8.toNat_inj]
    exact Nat.pos_iff_ne_zero
  have hsize : oneShl exponent.toNat < dev.blockSize ↔
      2 ^ exponent.toNat < dev.blockSize.toNat := by
    rw [BitVec.lt_def, oneShl_toNat (by omega)]
  unfold DevInfo.eraseType
  simp only [hshift, hinst, hpos, hsize]

theorem Found.eraseType {types : List (UInt8 × UInt8)} {dev : DevInfo} {data : BitVec 16}
    {exponent opcode : UInt8} (h : Found types dev) (hdata : IsType data exponent opcode)
    (hexp : exponent.toNat ≤ 30) : Found (types ++ [(exponent, opcode)]) (dev.eraseType data) := by
  rw [eraseType_eq hdata hexp]
  have hsize : (oneShl exponent.toNat).toNat = 2 ^ exponent.toNat := oneShl_toNat (by omega)
  have hnew : (exponent, opcode) ∈ types ++ [(exponent, opcode)] :=
    List.mem_append_right _ List.mem_cons_self
  have hmem : ∀ {y : UInt8 × UInt8}, y ∈ types ++ [(exponent, opcode)] →
      y ∈ types ∨ y = (exponent, opcode) := by
    intro y hy
    rcases List.mem_append.mp hy with hy | hy
    · exact .inl hy
    · exact .inr (List.mem_singleton.mp hy)
  by_cases hzero : exponent = 0
  · rw [if_neg fun hc => hc.1 hzero]
    rcases h with ⟨hnone, hblock⟩ | ⟨x, hx, hx0, hmin, hblock⟩
    · refine .inl ⟨fun y hy => ?_, hblock⟩
      rcases hmem hy with hy | rfl
      · exact hnone y hy
      · exact hzero
    · refine .inr ⟨x, List.mem_append_left _ hx, hx0, fun y hy hy0 => ?_, hblock⟩
      rcases hmem hy with hy | rfl
      · exact hmin y hy hy0
      · exact absurd hzero hy0
  rcases h with ⟨hnone, hblock⟩ | ⟨x, hx, hx0, hmin, hblock, hinst⟩
  · have hless : 2 ^ exponent.toNat < dev.blockSize.toNat := by
      rw [hblock]
      exact Nat.lt_of_le_of_lt (Nat.pow_le_pow_right Nat.two_pos hexp) (by decide)
    rw [if_pos ⟨hzero, hless⟩]
    refine .inr ⟨_, hnew, hzero, fun y hy hy0 => ?_, hsize, rfl⟩
    rcases hmem hy with hy | rfl
    · exact absurd (hnone y hy) hy0
    · exact UInt8.le_refl _
  by_cases hless : 2 ^ exponent.toNat < dev.blockSize.toNat
  · rw [if_pos ⟨hzero, hless⟩]
    refine .inr ⟨_, hnew, hzero, fun y hy hy0 => ?_, hsize, rfl⟩
    rcases hmem hy with hy | rfl
    · have hlt : exponent.toNat < x.1.toNat := by
        rw [hblock] at hless
        exact (Nat.pow_lt_pow_iff_right (by decide)).mp hless
      exact UInt8.le_iff_toNat_le.mpr
        (Nat.le_trans (Nat.le_of_lt hlt) (UInt8.le_iff_toNat_le.mp (hmin y hy hy0)))
    · exact UInt8.le_refl _
  · rw [if_neg fun hc => hless hc.2]
    refine .inr ⟨x, List.mem_append_left _ hx, hx0, fun y hy hy0 => ?_, hblock, hinst⟩
    rcases hmem hy with hy | rfl
    · exact hmin y hy hy0
    · rw [hblock] at hless
      exact UInt8.le_iff_toNat_le.mpr
        ((Nat.pow_le_pow_iff_right (by decide)).mp (Nat.le_of_not_lt hless))

theorem Table.In.density_pos (h : t.In image a) : 0 < t.density := by
  rcases h.density with ⟨-, hbits⟩ | ⟨-, hbits⟩
  · omega
  · have := Nat.two_pow_pos (dword image (a + 4) - 2 ^ 31)
    omega

theorem Table.In.exponent_le (h : t.In image a) (i : Fin 4) : (t.exponent i).toNat ≤ 30 := by
  by_cases hzero : t.exponent i = 0
  · rw [hzero]
    exact Nat.zero_le _
  · have hle := Nat.le_of_dvd h.density_pos (t.divides i hzero)
    have hlt := Nat.lt_of_le_of_lt hle t.density_lt
    exact Nat.le_of_lt_succ ((Nat.pow_lt_pow_iff_right (by decide)).mp hlt)

/-- The erase types of the table. -/
def Table.types (t : Table) : List (UInt8 × UInt8) :=
  (List.finRange 4).map fun i => (t.exponent i, t.opcode i)

theorem Table.mem_types {x : UInt8 × UInt8} :
    x ∈ t.types ↔ ∃ i, (t.exponent i, t.opcode i) = x := by
  rw [Table.types, List.mem_map]
  simp only [List.mem_finRange, true_and]

theorem eraseType_frame (dev : DevInfo) (data : BitVec 16) :
    (dev.eraseType data).regionSize = dev.regionSize ∧
      (dev.eraseType data).pageSize = dev.pageSize := by
  unfold DevInfo.eraseType
  dsimp only
  split
  · exact ⟨rfl, rfl⟩
  · exact ⟨rfl, rfl⟩

/-- The loop over the erase types changes nothing else. -/
theorem foldl_eraseType_frame (l : List (BitVec 16)) (dev : DevInfo) :
    (l.foldl DevInfo.eraseType dev).regionSize = dev.regionSize ∧
      (l.foldl DevInfo.eraseType dev).pageSize = dev.pageSize := by
  induction l generalizing dev with
  | nil => exact ⟨rfl, rfl⟩
  | cons data l ih =>
    obtain ⟨hregion, hpage⟩ := ih (dev.eraseType data)
    obtain ⟨hregion', hpage'⟩ := eraseType_frame dev data
    exact ⟨hregion.trans hregion', hpage.trans hpage'⟩

/-- The loop over the erase types finds a smallest one. -/
theorem Table.In.found (h : t.In image a) (dev : DevInfo) (hdev : dev.blockSize = INT_MAX) :
    Found t.types (((List.range 4).map (halfWord (bytesAt image a 64) 7)).foldl
      DevInfo.eraseType dev) := by
  have hstart : Found [] dev := .inl ⟨fun _ hx => absurd hx List.not_mem_nil, hdev⟩
  exact (((hstart.eraseType (isType_halfWord h 0) (h.exponent_le 0)).eraseType
    (isType_halfWord h 1) (h.exponent_le 1)).eraseType
      (isType_halfWord h 2) (h.exponent_le 2)).eraseType (isType_halfWord h 3) (h.exponent_le 3)

/-- The decoder reads what the table says. -/
theorem Table.In.read (h : t.In image a) (dev : DevInfo) :
    t.Read (dev.readTable (bytesAt image a 64)) := by
  have hframe := foldl_eraseType_frame ((List.range 4).map (halfWord (bytesAt image a 64) 7))
  have hpage : (word (bytesAt image a 64) 10 >>> 4 &&& 0xf).toNat = t.page := by
    have hand : (word (bytesAt image a 64) 10 >>> 4 &&& 0xf).toNat =
        (word (bytesAt image a 64) 10 >>> 4).toNat % 2 ^ 4 :=
      (BitVec.toNat_and _ _).trans (Nat.and_two_pow_sub_one_eq_mod _ 4)
    have hword : (word (bytesAt image a 64) 10).toNat = dword image (a + 40) :=
      word_bytesAt (by omega)
    have hlt := (image (a + 40)).toNat_lt
    rw [hand, shiftRight_toNat, hword, dword_bytes, ← h.page]
    omega
  have hlt : t.page < 16 := by
    have := (image (a + 40)).toNat_lt
    rw [← h.page]
    omega
  refine ⟨?_, ?_, ?_⟩
  · unfold DevInfo.readTable
    rw [(hframe _).1]
    refine regionSizeOf_toNat ?_
    rw [word_bytesAt (by omega)]
    exact h.density
  · unfold DevInfo.readTable
    rw [(hframe _).2]
    show ((oneShl _).setWidth 16).toNat = _
    rw [BitVec.toNat_setWidth, hpage, oneShl_toNat (by omega)]
    exact Nat.mod_eq_of_lt (Nat.pow_lt_pow_right (by decide) hlt)
  · obtain ⟨i, hi⟩ := t.erases
    rcases h.found { dev with
      offset := 0
      fourBytesMode := (word (bytesAt image a 64) 0 >>> 17) &&& 3 = 2
      pageSize := (oneShl ((word (bytesAt image a 64) 10 >>> 4) &&& 0xf).toNat).setWidth 16
      regionSize := regionSizeOf (word (bytesAt image a 64) 1)
      blockSize := INT_MAX } rfl with ⟨hnone, -⟩ | ⟨x, hx, hx0, hmin, hblock, hinst⟩
    · exact absurd (hnone _ (t.mem_types.mpr ⟨i, rfl⟩)) hi
    · obtain ⟨j, rfl⟩ := t.mem_types.mp hx
      exact ⟨j, ⟨hx0, fun k hk => hmin _ (t.mem_types.mpr ⟨k, rfl⟩) hk⟩, hblock, hinst⟩

end Table

/-! ## The commands -/

section Run

variable {σ : Type} {reply : σ → Said → Reply × σ} {image : ℕ → UInt8} {α : Type}

/-- A read of the image. -/
theorem run_readSfdp (h : Answers reply image) (address : UInt8) (n : ℕ) (s : σ)
    (f : ℤ × List UInt8 → Dialog Said Reply α) :
    ∃ s', (peridotSpiFlashReadSfdp address n >>= f).run reply s =
      (f (n, bytesAt image address.toNat n)).run reply s' := by
  refine ⟨(reply s (.command [RSFDP, 0x00, 0x00, address, 0x00] n false)).2, ?_⟩
  have haddress : leNat [address, 0x00, 0x00] = address.toNat := by
    simp [leNat]
  unfold peridotSpiFlashReadSfdp
  rw [LawfulMonad.bind_assoc, run_ask, h, haddress]
  rfl

theorem sdiv_two_toNat {x : BitVec 32} (h : x.toNat < 2 ^ 31) : (x.sdiv 2).toNat = x.toNat / 2 := by
  have hx : x.msb = false := by
    rw [BitVec.msb_eq_false_iff_two_mul_lt]
    omega
  have htwo : (2 : BitVec 32).msb = false := by decide
  rw [BitVec.sdiv_eq, hx, htwo]
  exact BitVec.toNat_udiv

/-- The rounds of `div_power2`. -/
theorem run_divPower2Loop (reply : σ → Said → Reply × σ) {e : ℕ} (rounds : ℕ)
    (numerator : BitVec 32) {denominator : BitVec 32} (s : σ)
    (hden : denominator.toNat = 2 ^ e) (hrounds : e < rounds) (hnum : numerator.toNat < 2 ^ 31) :
    ∃ n, (divPower2Loop rounds numerator denominator).run reply s = some (n, s) ∧
      n.toNat = numerator.toNat / 2 ^ e := by
  have hand : (denominator &&& 1).toNat = denominator.toNat % 2 ^ 1 :=
    (BitVec.toNat_and _ _).trans (Nat.and_two_pow_sub_one_eq_mod _ 1)
  induction e generalizing rounds numerator denominator with
  | zero =>
    obtain ⟨r, rfl⟩ := Nat.exists_eq_add_of_lt hrounds
    have hodd : denominator &&& 1 ≠ 0 := by
      intro heven
      rw [heven, hden] at hand
      exact absurd hand (by decide)
    refine ⟨numerator, ?_, (Nat.div_one _).symm⟩
    rw [Nat.zero_add, divPower2Loop, if_neg hodd]
    rfl
  | succ e ih =>
    obtain ⟨r, rfl⟩ : ∃ r, rounds = r + 1 := ⟨rounds - 1, by omega⟩
    have hdouble : 2 ^ (e + 1) = 2 * 2 ^ e := Nat.pow_succ'
    have heven : denominator &&& 1 = 0 := by
      apply BitVec.eq_of_toNat_eq
      rw [hand, hden, hdouble]
      show 2 * 2 ^ e % 2 = 0
      omega
    have hhalf : (denominator >>> 1).toNat = 2 ^ e := by
      rw [shiftRight_toNat, hden]
      omega
    obtain ⟨n, hrun, hn⟩ := ih r (numerator.sdiv 2) hhalf (by omega)
      (by rw [sdiv_two_toNat hnum]; omega)
      ((BitVec.toNat_and _ _).trans (Nat.and_two_pow_sub_one_eq_mod _ 1))
    refine ⟨n, ?_, ?_⟩
    · rw [divPower2Loop, if_pos heven]
      exact hrun
    · rw [hn, sdiv_two_toNat hnum, hdouble, Nat.div_div_eq_div_mul]

/-- A parameter header that is read: whether it is that of the basic table, and its pointer. -/
theorem header_words (image : ℕ → UInt8) (a : ℕ) :
    ((word (bytesAt image a 8) 0 &&& 0xff).toNat = (image a).toNat ∧
    (word (bytesAt image a 8) 1 >>> 24).toNat = (image (a + 7)).toNat) ∧
    (word (bytesAt image a 8) 1 &&& 0xff).toNat = (image (a + 4)).toNat := by
  have hfirst : (word (bytesAt image a 8) 0).toNat = dword image a := word_bytesAt (by omega)
  have hsecond : (word (bytesAt image a 8) 1).toNat = dword image (a + 4) :=
    word_bytesAt (by omega)
  have h0 := (image a).toNat_lt
  have h4 := (image (a + 4)).toNat_lt
  have h5 := (image (a + 4 + 1)).toNat_lt
  have h6 := (image (a + 4 + 2)).toNat_lt
  have h7 := (image (a + 7)).toNat_lt
  rw [and_ff_toNat, and_ff_toNat, shiftRight_toNat, hfirst, hsecond, dword_bytes, dword_bytes,
    show a + 4 + 3 = a + 7 from rfl]
  refine ⟨⟨?_, ?_⟩, ?_⟩ <;> omega

/-- What the address of a header leaves of its number. -/
theorem header_address (index : ℕ) : (UInt8.ofNat (index * 8)).toNat = 8 * (index % 32) := by
  rw [UInt8.toNat_ofNat']
  omega

/-- The search recognizes the header of the basic table, and no other one. -/
theorem header_found {k p : ℕ} {t : Table} (hc : Conforms image k p t) {index : ℕ}
    (hindex : index ≤ nph image) :
    ((image (8 * (index % 32))).toNat = (0x00 : UInt8).toNat ∧
      (image (8 * (index % 32) + 7)).toNat = (0xff : UInt8).toNat) ↔ index % 32 = k + 1 := by
  rw [UInt8.toNat_inj, UInt8.toNat_inj]
  by_cases hfirst : index % 32 = 0
  · -- the signature
    rw [hfirst]
    refine iff_of_false (fun hzero => ?_) (Nat.succ_ne_zero k).symm
    have hsign := hc.signature
    have h : image 0 = 0 := hzero.1
    rw [dword_bytes, h] at hsign
    have : (0 : UInt8).toNat = 0 := rfl
    omega
  · obtain ⟨j, hj⟩ := Nat.exists_eq_succ_of_ne_zero hfirst
    have hle := Nat.mod_le index 32
    rw [hj, Nat.succ_eq_add_one, Nat.add_right_cancel_iff]
    exact hc.basic j (by omega)

/-- The headers that the search goes through. -/
theorem run_searchLoop (h : Answers reply image) {k p : ℕ} {t : Table} (hc : Conforms image k p t)
    (left index : ℕ) (s : σ) (hend : index + left = nph image + 1)
    (f : ℤ → Dialog Said Reply α) (hfirst : index ≤ k + 1 ∨ 31 ≤ k) :
    ∃ s', (searchLoop 0x00 0xff left index >>= f).run reply s =
      (f (if k < nph image ∧ k < 31 then (p % 256 : ℕ) else -ENOTSUP)).run reply s' := by
  induction left generalizing index s with
  | zero =>
    refine ⟨s, ?_⟩
    rw [if_neg (by omega)]
    rfl
  | succ left ih =>
    obtain ⟨s₁, hread⟩ := run_readSfdp h (UInt8.ofNat (index * 8)) 8 s fun r => (do
      let (result, buf) := r
      if result < 0 then return result
      if (word buf 0 &&& 0xff).toNat = (0x00 : UInt8).toNat ∧
          (word buf 1 >>> 24).toNat = (0xff : UInt8).toNat then
        return (word buf 1 &&& 0xff).toNat
      searchLoop 0x00 0xff left (index + 1)) >>= f
    have hfound := header_found hc (show index ≤ nph image by omega)
    obtain ⟨⟨hlsb, hmsb⟩, hpointer⟩ := header_words image (8 * (index % 32))
    rw [searchLoop, LawfulMonad.bind_assoc]
    refine Exists.imp (fun s' => hread.trans) ?_
    rw [header_address]
    simp only [show ¬ ((8 : ℕ) : ℤ) < 0 by omega, if_false, hlsb, hmsb, hpointer, hfound]
    by_cases hmatch : index % 32 = k + 1
    · have hin : k < nph image ∧ k < 31 := by
        have := Nat.mod_lt index (show 0 < 32 by decide)
        have := Nat.mod_le index 32
        omega
      have hp : (image (8 * (k + 1) + 4)).toNat = p % 256 := by
        have hlt := (image (8 * (k + 1) + 4)).toNat_lt
        have hpointer := hc.pointer
        rw [leNat, leNat] at hpointer
        omega
      simp only [hmatch, if_true]
      rw [if_pos hin, ← hp]
      exact ⟨s₁, rfl⟩
    · simp only [hmatch, if_false]
      exact ih (index + 1) s₁ (by omega) (by omega)

theorem run_search (h : Answers reply image) {k p : ℕ} {t : Table} (hc : Conforms image k p t)
    (s : σ) (f : ℤ → Dialog Said Reply α) :
    ∃ s', (peridotSpiFlashSearchSfdpTable 0x00 0xff >>= f).run reply s =
      (f (if k < nph image ∧ k < 31 then (p % 256 : ℕ) else -ENOTSUP)).run reply s' := by
  obtain ⟨s₁, hread⟩ := run_readSfdp h 0x00 8 s fun r => (do
    let (result, buf) := r
    if result < 0 then return result
    if word buf 0 ≠ 0x50444653 ∨ word buf 1 &&& 0xffff < 0x0106 then return -ENOTSUP
    searchLoop 0x00 0xff ((word buf 1 >>> 16) &&& 0xff).toNat 1) >>= f
  have hfirst : (word (bytesAt image 0 8) 0).toNat = dword image 0 := word_bytesAt (by omega)
  have hsecond : (word (bytesAt image 0 8) 1).toNat = dword image 4 := word_bytesAt (by omega)
  have hbytes : dword image 4 = (image 4).toNat + 256 * (image 5).toNat +
      65536 * (image 6).toNat + 16777216 * (image 7).toNat := dword_bytes image 4
  have h4 := (image 4).toNat_lt
  have h5 := (image 5).toNat_lt
  have h6 := (image 6).toNat_lt
  have hrevision := hc.revision
  have hsignature : word (bytesAt image 0 8) 0 = 0x50444653 := by
    apply BitVec.eq_of_toNat_eq
    rw [hfirst, hc.signature]
    rfl
  have hminor : ¬ word (bytesAt image 0 8) 1 &&& 0xffff < 0x0106 := by
    have hand : (word (bytesAt image 0 8) 1 &&& 0xffff).toNat =
        (word (bytesAt image 0 8) 1).toNat % 2 ^ 16 :=
      (BitVec.toNat_and _ _).trans (Nat.and_two_pow_sub_one_eq_mod _ 16)
    rw [BitVec.lt_def, hand, hsecond, hbytes]
    show ¬ _ < 0x0106
    omega
  have hcount : (word (bytesAt image 0 8) 1 >>> 16 &&& 0xff).toNat = nph image := by
    rw [and_ff_toNat, shiftRight_toNat, hsecond, hbytes, nph]
    omega
  unfold peridotSpiFlashSearchSfdpTable
  rw [LawfulMonad.bind_assoc]
  refine Exists.imp (fun s' => hread.trans) ?_
  have hpass : ¬ (word (bytesAt image (0x00 : UInt8).toNat 8) 0 ≠ 0x50444653 ∨
      word (bytesAt image (0x00 : UInt8).toNat 8) 1 &&& 0xffff < 0x0106) := by
    rintro (hne | hlt)
    · exact hne hsignature
    · exact hminor hlt
  simp only [show ¬ ((8 : ℕ) : ℤ) < 0 by omega, if_false, if_neg hpass]
  show ∃ s', (searchLoop 0x00 0xff (word (bytesAt image 0 8) 1 >>> 16 &&& 0xff).toNat 1 >>=
    f).run reply s₁ = _
  rw [hcount]
  exact run_searchLoop h hc _ 1 s₁ (Nat.add_comm _ _) f (.inl (by omega))

/-- What the query returns for an image of the standard. -/
theorem run_query (h : Answers reply image) {k p : ℕ} {t : Table} (hc : Conforms image k p t)
    (dev : DevInfo) (s : σ) :
    (¬ (k < nph image ∧ k < 31) ∧
      ∃ s', (peridotSpiFlashQuerySfdp dev).run reply s = some ((-ENOTSUP, dev), s')) ∨
    (k < nph image ∧ k < 31) ∧
      ∃ s', (peridotSpiFlashQuerySfdp dev).run reply s =
        (if (dev.readTable (bytesAt image (p % 256) 64)).blockSize = INT_MAX then
          pure (-ENOTSUP, dev.readTable (bytesAt image (p % 256) 64))
        else do
          let numberOfBlocks ← divPower2 (dev.readTable (bytesAt image (p % 256) 64)).regionSize
            (dev.readTable (bytesAt image (p % 256) 64)).blockSize
          return (0, { dev.readTable (bytesAt image (p % 256) 64) with
            numberOfBlocks := numberOfBlocks, numberOfRegions := 1 }) :
          Dialog Said Reply (ℤ × DevInfo)).run reply s' := by
  unfold peridotSpiFlashQuerySfdp
  obtain ⟨s₁, hsearch⟩ := run_search h hc s fun result => do
    if result < 0 then return (result, dev)
    let (result, basic) ← peridotSpiFlashReadSfdp (UInt8.ofNat result.toNat) 64
    if result < 0 then return (result, dev)
    let dev := dev.readTable basic
    if dev.blockSize = INT_MAX then return (-ENOTSUP, dev)
    let numberOfBlocks ← divPower2 dev.regionSize dev.blockSize
    return (0, { dev with numberOfBlocks := numberOfBlocks, numberOfRegions := 1 })
  by_cases hin : k < nph image ∧ k < 31
  · refine .inr ⟨hin, ?_⟩
    rw [if_pos hin] at hsearch
    obtain ⟨s₂, hread⟩ := run_readSfdp h (UInt8.ofNat (p % 256)) 64 s₁ fun r => (do
      let (result, basic) := r
      if result < 0 then return (result, dev)
      let dev := dev.readTable basic
      if dev.blockSize = INT_MAX then return (-ENOTSUP, dev)
      let numberOfBlocks ← divPower2 dev.regionSize dev.blockSize
      return (0, { dev with numberOfBlocks := numberOfBlocks, numberOfRegions := 1 }))
    have haddress : (UInt8.ofNat (p % 256)).toNat = p % 256 := by
      rw [UInt8.toNat_ofNat', Nat.mod_mod]
    rw [haddress] at hread
    exact ⟨s₂, hsearch.trans hread⟩
  · refine .inl ⟨hin, s₁, ?_⟩
    rw [if_neg hin] at hsearch
    exact hsearch

/-- The values of the table have been found. -/
structure Table.Detected (t : Table) (r : ℤ × DevInfo) : Prop extends t.Read r.2 where
  result : r.1 = 0
  numberOfBlocks : r.2.numberOfBlocks.toNat = t.density / r.2.blockSize.toNat

/-- For an image of the standard, the query finds what the table says if and only if the search gets
to its header, which is neither the last one nor behind the first 31, and the last byte of its
pointer leads to a table that reads the same. -/
theorem query_sfdp_iff (h : Answers reply image) {k p : ℕ} {t : Table} (hc : Conforms image k p t)
    (dev : DevInfo) (s : σ) :
    (∃ r s', (peridotSpiFlashQuerySfdp dev).run reply s = some (r, s') ∧ t.Detected r) ↔
      k < nph image ∧ k < 31 ∧
        (p < 256 ∨ t.Read (dev.readTable (bytesAt image (p % 256) 64))) := by
  have hpos := hc.table.density_pos
  constructor
  · rintro ⟨r, s', hrun, hdetected⟩
    rcases run_query h hc dev s with ⟨-, s₁, hrefused⟩ | ⟨⟨hk, hk'⟩, s₁, hread⟩
    · rw [hrefused] at hrun
      cases hrun
      exact absurd hdetected.result (show -ENOTSUP ≠ 0 by decide)
    refine ⟨hk, hk', .inr ?_⟩
    rw [hread] at hrun
    by_cases hnone : (dev.readTable (bytesAt image (p % 256) 64)).blockSize = INT_MAX
    · rw [if_pos hnone] at hrun
      cases hrun
      exact absurd hdetected.result (show -ENOTSUP ≠ 0 by decide)
    · rw [if_neg hnone, run_bind] at hrun
      obtain ⟨⟨n, s₂⟩, -, hend⟩ := Option.bind_eq_some_iff.mp hrun
      cases hend
      exact ⟨hdetected.regionSize, hdetected.pageSize, hdetected.erase⟩
  · rintro ⟨hk, hk', htable⟩
    have hread : t.Read (dev.readTable (bytesAt image (p % 256) 64)) := by
      rcases htable with hp | hsame
      · rw [Nat.mod_eq_of_lt hp]
        exact hc.table.read dev
      · exact hsame
    rcases run_query h hc dev s with ⟨hout, -⟩ | ⟨-, s₁, hrun⟩
    · exact absurd ⟨hk, hk'⟩ hout
    obtain ⟨i, hsmallest, hblock, hinst⟩ := hread.erase
    have hexp := hc.table.exponent_le i
    have hpow : 2 ^ (t.exponent i).toNat ≤ 2 ^ 30 := Nat.pow_le_pow_right Nat.two_pos hexp
    have hsome : (dev.readTable (bytesAt image (p % 256) 64)).blockSize ≠ INT_MAX := by
      intro hnone
      rw [hnone] at hblock
      have : INT_MAX.toNat = 2 ^ 31 - 1 := rfl
      omega
    have hnonzero : (dev.readTable (bytesAt image (p % 256) 64)).blockSize ≠ 0 := by
      intro hzero
      rw [hzero] at hblock
      exact absurd hblock.symm (Nat.two_pow_pos _).ne'
    have hdensity : (dev.readTable (bytesAt image (p % 256) 64)).regionSize.toNat < 2 ^ 31 := by
      rw [hread.regionSize]
      exact t.density_lt
    obtain ⟨n, hdiv, hn⟩ := run_divPower2Loop reply 32 _ s₁ hblock (by omega)
      hdensity
    refine ⟨(0, { dev.readTable (bytesAt image (p % 256) 64) with
      numberOfBlocks := n, numberOfRegions := 1 }), s₁, ?_,
      ⟨⟨hread.regionSize, hread.pageSize, i, hsmallest, hblock, hinst⟩, rfl, ?_⟩⟩
    · rw [hrun, if_neg hsome, run_bind, divPower2, if_neg hnonzero, hdiv]
      rfl
    · rw [hblock, ← hread.regionSize]
      exact hn

end Run

/-! ## A flash of 8 MiB -/

/-- Its table: pages of 256 bytes, erase types of 4096, 32768 and 65536 bytes. -/
def Table.mib8 : Table where
  density := 0x800000
  page := 8
  exponent := ![0x0c, 0x0f, 0x10, 0x00]
  opcode := ![0x20, 0x52, 0xd8, 0xff]
  density_lt := by decide
  divides := by decide
  erases := ⟨0, by decide⟩

/-- The image of a flash with its basic table at 0x30, and with `last + 1` headers; the first one is
that of the basic table. -/
def imageMib8 (last : UInt8) (i : ℕ) : UInt8 :=
  [0x53, 0x46, 0x44, 0x50, 0x06, 0x01, last, 0xff,
    0x00, 0x06, 0x01, 0x10, 0x30, 0x00, 0x00, 0xff,
    0xef, 0x00, 0x01, 0x04, 0x80, 0x00, 0x00, 0xff].getD i <|
  [0xe5, 0x20, 0xf9, 0xff, 0xff, 0xff, 0xff, 0x03, 0x44, 0xeb, 0x08, 0x6b, 0x08, 0x3b, 0x42, 0xbb,
    0xfe, 0xff, 0xff, 0xff, 0xff, 0xff, 0x00, 0x00, 0xff, 0xff, 0x40, 0xeb, 0x0c, 0x20, 0x0f, 0x52,
    0x10, 0xd8, 0x00, 0xff, 0x36, 0x02, 0xa6, 0x00, 0x82].getD (i - 0x30) 0xff

/-- A device that answers from the image, and does nothing else. -/
def imageDevice (image : ℕ → UInt8) (s : Unit) : Said → Reply × Unit
  | .command [_, a₂, a₁, a₀, _] n _ => (⟨0, bytesAt image (leNat [a₀, a₁, a₂]) n⟩, s)
  | _ => (⟨0, []⟩, s)

theorem answers_imageDevice (image : ℕ → UInt8) : Answers (imageDevice image) image :=
  fun _ _ _ _ _ _ => rfl

theorem conforms_imageMib8 {last : UInt8} (h : last < 2) :
    Conforms (imageMib8 last) 0 0x30 .mib8 := by
  have hlast : last = 0 ∨ last = 1 := by
    have h' : last.toNat < 2 := h
    rcases Nat.lt_succ_iff_lt_or_eq.mp h' with h0 | h1
    · exact .inl (UInt8.toNat_inj.mp (Nat.lt_one_iff.mp h0))
    · exact .inr (UInt8.toNat_inj.mp h1)
  rcases hlast with rfl | rfl
  · exact ⟨by decide, by decide, by decide, by decide, by decide, by decide,
      ⟨.inl ⟨by decide, by decide⟩, by decide, by decide, by decide⟩⟩
  · exact ⟨by decide, by decide, by decide, by decide, by decide, by decide,
      ⟨.inl ⟨by decide, by decide⟩, by decide, by decide, by decide⟩⟩

/-- A device whose fields have not been set. -/
def DevInfo.unset : DevInfo := ⟨0, false, 0, 0, 0, 0, 0, 0⟩

theorem query_sfdp_two_headers :
    ∃ r s', (peridotSpiFlashQuerySfdp .unset).run (imageDevice (imageMib8 1)) () = some (r, s') ∧
      Table.mib8.Detected r :=
  (query_sfdp_iff (answers_imageDevice _) (conforms_imageMib8 (by decide)) .unset ()).mpr
    ⟨by decide, by decide, .inl (by decide)⟩

/-- With its only header the flash is not found. -/
theorem query_sfdp_one_header :
    Answers (imageDevice (imageMib8 0)) (imageMib8 0) ∧ Conforms (imageMib8 0) 0 0x30 .mib8 ∧
    ¬ ∃ r s', (peridotSpiFlashQuerySfdp .unset).run (imageDevice (imageMib8 0)) () =
      some (r, s') ∧ Table.mib8.Detected r := by
  refine ⟨answers_imageDevice _, conforms_imageMib8 (by decide), ?_⟩
  rintro ⟨r, s', hrun, hdetected⟩
  have hrefused : (peridotSpiFlashQuerySfdp .unset).run (imageDevice (imageMib8 0)) () =
      some ((-ENOTSUP, .unset), ()) := by decide
  rw [hrefused] at hrun
  cases hrun
  exact absurd hdetected.result (show -ENOTSUP ≠ 0 by decide)

end OlivePiccolo.Flash
