import Mathlib.Data.LawfulXor.Basic
import OlivePiccolo.Library.Loop
import OlivePiccolo.Library.Memory

/-!
# The heap of the compressor

The input is read by bytes (`LZ4_hi8`) and by numbers of four bytes (`LZ4_hi32`), which stand in Tcl
arrays; so does the output (`LZ4_ho8`). Here are the procedures that work on them: `LZ4_count` finds
out how far two places of the input are the same, `LZ4_memmove` copies from the input to the output.
-/

namespace OlivePiccolo.Lz4hc

/-- A Tcl array; an element that has not been set cannot be read. -/
abbrev TclArray (α : Type) := ℤ → Access α

/-! ## The code -/

/-- The number with these bytes, the most significant one first. -/
def bigEndian (l : List UInt8) : ℕ := l.foldl (fun v b => v * 256 + b.toNat) 0

/-- `LZ4_read8`. -/
def lz4Read8 (src : Mem) (ptr : ℤ) : Access UInt8 := src.peek ptr

/-- `LZ4_read8o`. -/
def lz4Read8o (src : Mem) (ptr ofs : ℤ) : Access UInt8 := src.peek (ptr + ofs)

/-- `LZ4_read32`: the bytes are big-endian, and three zeros follow the input. -/
def lz4Read32 (src : Mem) (ptr : ℤ) : Access ℕ :=
  (Mem.readBytes (src ++ [0, 0, 0]) ptr 4).map bigEndian

/-- `&&`: the second operand is evaluated if the first one holds. -/
def andAlso (c : Bool) (o : Access Bool) : Access Bool := if c then o else some false

/-- The place of the first byte that differs, from the place of the four bytes on. -/
def firstDiff (diff : ℕ) (pin : ℤ) : ℤ :=
  if diff &&& 0xff000000 ≠ 0 then pin
  else if diff &&& 0xff0000 ≠ 0 then pin + 1
  else if diff &&& 0xff00 ≠ 0 then pin + 2
  else if diff &&& 0xff ≠ 0 then pin + 3
  else pin

/-- What `LZ4_count` does behind its loop. -/
def countRest (src : Mem) (pstart pinLimit pin pmatch : ℤ) : Access ℤ := do
  let two ← andAlso (pin < pinLimit - 1) do
    let vm ← lz4Read32 src pmatch
    let v ← lz4Read32 src pin
    return (vm ^^^ v) >>> 16 = 0
  let (pin, pmatch) := if two then (pin + 2, pmatch + 2) else (pin, pmatch)
  let one ← andAlso (pin < pinLimit) do
    let bm ← lz4Read8 src pmatch
    let b ← lz4Read8 src pin
    return bm = b
  return (if one then pin + 1 else pin) - pstart

/-- A round of the loop of `LZ4_count`, the last one with what is behind the loop. -/
def countRound (src : Mem) (pstart pinLimit : ℤ) (at' : ℤ × ℤ) : Access (Round (ℤ × ℤ) ℤ) :=
  let (pin, pmatch) := at'
  if pin < pinLimit - 3 then do
    let vm ← lz4Read32 src pmatch
    let v ← lz4Read32 src pin
    let diff := vm ^^^ v
    return if diff = 0 then .again (pin + 4, pmatch + 4) else .done (firstDiff diff pin - pstart)
  else (countRest src pstart pinLimit pin pmatch).map .done

/-- `LZ4_count`. -/
def lz4Count (src : Mem) (pin pmatch pinLimit : ℤ) : Access ℤ :=
  loop (countRound src pin pinLimit) ((pinLimit - pin).toNat + 1) (pin, pmatch)

/-! ## Bytes of numbers -/

theorem bigEndian_four (b₀ b₁ b₂ b₃ : UInt8) : bigEndian [b₀, b₁, b₂, b₃] =
    ((b₀.toNat * 256 + b₁.toNat) * 256 + b₂.toNat) * 256 + b₃.toNat := by
  simp [bigEndian]

theorem and_mask (d k : ℕ) : d &&& 255 <<< k = (d >>> k % 256) <<< k := by
  have hmod : d >>> k % 256 = d >>> k &&& 255 := (Nat.and_two_pow_sub_one_eq_mod _ 8).symm
  rw [hmod]
  apply Nat.eq_of_testBit_eq
  intro i
  rw [Nat.testBit_and, Nat.testBit_shiftLeft, Nat.testBit_shiftLeft, Nat.testBit_and,
    Nat.testBit_shiftRight]
  by_cases hi : k ≤ i
  · rw [Nat.add_sub_cancel' hi, decide_eq_true hi, Bool.true_and, Bool.true_and]
  · rw [decide_eq_false (by simpa using hi), Bool.false_and, Bool.false_and, Bool.and_false]

theorem xor_and_mask_eq_zero {x y k : ℕ} :
    (x ^^^ y) &&& 255 <<< k = 0 ↔ x >>> k % 256 = y >>> k % 256 := by
  have hx : ∀ v : ℕ, v % 256 = v &&& 255 := fun v => (Nat.and_two_pow_sub_one_eq_mod v 8).symm
  rw [and_mask, Nat.shiftLeft_eq, Nat.mul_eq_zero, or_iff_left (Nat.pos_iff_ne_zero.mp
    (Nat.two_pow_pos k)), Nat.shiftRight_xor_distrib, hx, Nat.and_xor_distrib_right, ← hx, ← hx]
  exact xor_eq_zero_iff

/-! ## Places of the input that are the same -/

/-- The bytes at two places are the same. -/
def SameAt (src : Mem) (q p len : ℤ) : Prop :=
  ∀ i, 0 ≤ i → i < len → src.peek (q + i) = src.peek (p + i)

namespace SameAt

variable {src : Mem} {q p len len' : ℤ}

theorem nil (src : Mem) (q p : ℤ) : SameAt src q p 0 := fun _ h0 hlt => absurd h0 hlt.not_ge

theorem append (h : SameAt src q p len) (h' : SameAt src (q + len) (p + len) len') :
    SameAt src q p (len + len') := by
  intro i h0 hlt
  by_cases hi : i < len
  · exact h i h0 hi
  · have hsame := h' (i - len) (by omega) (by omega)
    rwa [show q + len + (i - len) = q + i by omega,
      show p + len + (i - len) = p + i by omega] at hsame

theorem mono (h : SameAt src q p len) (hle : len' ≤ len) : SameAt src q p len' :=
  fun i h0 hlt => h i h0 (hlt.trans_le hle)

theorem drop (h : SameAt src q p len) (h0 : 0 ≤ len') :
    SameAt src (q + len') (p + len') (len - len') := by
  intro i hi hlt
  rw [add_assoc, add_assoc]
  exact h (len' + i) (by omega) (by omega)

theorem single (h : src.peek q = src.peek p) : SameAt src q p 1 := by
  intro i h0 hlt
  obtain rfl : i = 0 := by omega
  rwa [add_zero, add_zero]

end SameAt

/-! ## `LZ4_count` -/

section Count

variable {src : Mem} {p q : ℤ}

/-- A number of four bytes, of which the last ones may be behind the input. -/
theorem exists_read32 (hp : 0 ≤ p) (hlt : p < src.length) : ∃ b₀ b₁ b₂ b₃,
    lz4Read32 src p = some (bigEndian [b₀, b₁, b₂, b₃]) ∧ src.peek p = some b₀ ∧
      (p + 1 < src.length → src.peek (p + 1) = some b₁) ∧
        (p + 2 < src.length → src.peek (p + 2) = some b₂) ∧
          (p + 3 < src.length → src.peek (p + 3) = some b₃) := by
  obtain ⟨l, hl, hat⟩ := Mem.exists_hasAt (m := src ++ [0, 0, 0]) (p := p) (n := 4) hp (by
    rw [List.length_append]
    simp only [List.length_cons, List.length_nil]
    omega)
  match l, hl with
  | [b₀, b₁, b₂, b₃], _ =>
    have hread := hat.readBytes
    -- inside the input, the zeros behind it are not seen
    have hpeek : ∀ i : ℕ, p + i < src.length →
        src.peek (p + i) = Mem.peek (src ++ [0, 0, 0]) (p + i) := fun i hi => by
      rw [Mem.peek, Mem.peek, if_pos (by omega), if_pos (by omega),
        List.getElem?_append_left (by omega)]
    refine ⟨b₀, b₁, b₂, b₃, ?_, ?_, fun h => ?_, fun h => ?_, fun h => ?_⟩
    · rw [lz4Read32, show (4 : ℤ) = ([b₀, b₁, b₂, b₃] : List UInt8).length from rfl, hread]
      rfl
    · have h0 := (hpeek 0 (by omega)).trans (hat.peek_add (n := 0) (Nat.succ_pos _))
      rwa [Int.natCast_zero, add_zero] at h0
    · exact (hpeek 1 h).trans (hat.peek_add (n := 1) (Nat.lt_of_sub_eq_succ rfl))
    · exact (hpeek 2 h).trans (hat.peek_add (n := 2) (Nat.lt_of_sub_eq_succ rfl))
    · exact (hpeek 3 h).trans (hat.peek_add (n := 3) (Nat.lt_of_sub_eq_succ rfl))

theorem bigEndian_byte (b₀ b₁ b₂ b₃ : UInt8) :
    bigEndian [b₀, b₁, b₂, b₃] >>> 24 % 256 = b₀.toNat ∧
      bigEndian [b₀, b₁, b₂, b₃] >>> 16 % 256 = b₁.toNat ∧
        bigEndian [b₀, b₁, b₂, b₃] >>> 8 % 256 = b₂.toNat ∧
          bigEndian [b₀, b₁, b₂, b₃] >>> 0 % 256 = b₃.toNat := by
  have h₀ := b₀.toNat_lt
  have h₁ := b₁.toNat_lt
  have h₂ := b₂.toNat_lt
  have h₃ := b₃.toNat_lt
  simp only [bigEndian_four, Nat.shiftRight_eq_div_pow]
  omega

theorem sameAt_of_read32 (hq : 0 ≤ q) (hq' : q + 4 ≤ src.length) (hp : 0 ≤ p)
    (hp' : p + 4 ≤ src.length) (heq : lz4Read32 src q = lz4Read32 src p) : SameAt src q p 4 := by
  obtain ⟨a₀, a₁, a₂, a₃, ha, ha₀, ha₁, ha₂, ha₃⟩ := exists_read32 hq (by omega : q < src.length)
  obtain ⟨b₀, b₁, b₂, b₃, hb, hb₀, hb₁, hb₂, hb₃⟩ := exists_read32 hp (by omega : p < src.length)
  rw [ha, hb, Option.some.injEq] at heq
  obtain ⟨hx₀, hx₁, hx₂, hx₃⟩ := bigEndian_byte a₀ a₁ a₂ a₃
  obtain ⟨hy₀, hy₁, hy₂, hy₃⟩ := bigEndian_byte b₀ b₁ b₂ b₃
  rw [heq] at hx₀ hx₁ hx₂ hx₃
  intro i h0 hlt
  obtain rfl | rfl | rfl | rfl : i = 0 ∨ i = 1 ∨ i = 2 ∨ i = 3 := by omega
  · rw [add_zero, add_zero, ha₀, hb₀, UInt8.toNat_inj.mp (hx₀.symm.trans hy₀)]
  · rw [ha₁ (by omega), hb₁ (by omega), UInt8.toNat_inj.mp (hx₁.symm.trans hy₁)]
  · rw [ha₂ (by omega), hb₂ (by omega), UInt8.toNat_inj.mp (hx₂.symm.trans hy₂)]
  · rw [ha₃ (by omega), hb₃ (by omega), UInt8.toNat_inj.mp (hx₃.symm.trans hy₃)]

theorem firstDiff_same (hq : 0 ≤ q) (hq' : q + 4 ≤ src.length) (hp : 0 ≤ p)
    (hp' : p + 4 ≤ src.length) {vm v : ℕ} (hm : lz4Read32 src q = some vm)
    (hv : lz4Read32 src p = some v) :
    ∃ c, firstDiff (vm ^^^ v) p = p + c ∧ 0 ≤ c ∧ c ≤ 3 ∧ SameAt src q p c := by
  obtain ⟨a₀, a₁, a₂, a₃, ha, ha₀, ha₁, ha₂, -⟩ := exists_read32 hq (by omega : q < src.length)
  obtain ⟨b₀, b₁, b₂, b₃, hb, hb₀, hb₁, hb₂, -⟩ := exists_read32 hp (by omega : p < src.length)
  obtain rfl := Option.some.inj (hm.symm.trans ha)
  obtain rfl := Option.some.inj (hv.symm.trans hb)
  have hbyte (k : ℕ) := xor_and_mask_eq_zero (x := bigEndian [a₀, a₁, a₂, a₃])
    (y := bigEndian [b₀, b₁, b₂, b₃]) (k := k)
  obtain ⟨hx₀, hx₁, hx₂, -⟩ := bigEndian_byte a₀ a₁ a₂ a₃
  obtain ⟨hy₀, hy₁, hy₂, -⟩ := bigEndian_byte b₀ b₁ b₂ b₃
  have h₀ := hbyte 24
  have h₁ := hbyte 16
  have h₂ := hbyte 8
  rw [hx₀, hy₀, UInt8.toNat_inj] at h₀
  rw [hx₁, hy₁, UInt8.toNat_inj] at h₁
  rw [hx₂, hy₂, UInt8.toNat_inj] at h₂
  have hone : a₀ = b₀ → SameAt src q p 1 := fun heq => .single (by rw [ha₀, hb₀, heq])
  have htwo : a₀ = b₀ → a₁ = b₁ → SameAt src q p 2 := fun heq heq' =>
    (hone heq).append (.single (by rw [ha₁ (by omega), hb₁ (by omega), heq']))
  have hthree : a₀ = b₀ → a₁ = b₁ → a₂ = b₂ → SameAt src q p 3 := fun heq heq' heq'' =>
    (htwo heq heq').append (.single (by rw [ha₂ (by omega), hb₂ (by omega), heq'']))
  rw [firstDiff]
  split_ifs with c₀ c₁ c₂ c₃
  · exact ⟨0, (add_zero p).symm, le_rfl, by omega, .nil src q p⟩
  · exact ⟨1, rfl, by omega, by omega, hone (h₀.mp (not_not.mp c₀))⟩
  · exact ⟨2, rfl, by omega, by omega, htwo (h₀.mp (not_not.mp c₀)) (h₁.mp (not_not.mp c₁))⟩
  · exact ⟨3, rfl, by omega, by omega,
      hthree (h₀.mp (not_not.mp c₀)) (h₁.mp (not_not.mp c₁)) (h₂.mp (not_not.mp c₂))⟩
  · exact ⟨0, (add_zero p).symm, le_rfl, by omega, .nil src q p⟩

theorem read32_isSome (src : Mem) (p : ℤ) (hp : 0 ≤ p) (hlt : p < src.length) :
    ∃ v, lz4Read32 src p = some v := by
  obtain ⟨_, _, _, _, h, -⟩ := exists_read32 hp hlt
  exact ⟨_, h⟩

theorem sameAt_two (hq : 0 ≤ q) (hq' : q + 2 ≤ src.length) (hp : 0 ≤ p)
    (hp' : p + 2 ≤ src.length) {vm v : ℕ} (hm : lz4Read32 src q = some vm)
    (hv : lz4Read32 src p = some v) (heq : (vm ^^^ v) >>> 16 = 0) : SameAt src q p 2 := by
  obtain ⟨a₀, a₁, a₂, a₃, ha, ha₀, ha₁, -⟩ := exists_read32 hq (by omega : q < src.length)
  obtain ⟨b₀, b₁, b₂, b₃, hb, hb₀, hb₁, -⟩ := exists_read32 hp (by omega : p < src.length)
  obtain rfl := Option.some.inj (hm.symm.trans ha)
  obtain rfl := Option.some.inj (hv.symm.trans hb)
  rw [Nat.shiftRight_xor_distrib, xor_eq_zero_iff] at heq
  obtain ⟨hx₀, hx₁, -⟩ := bigEndian_byte a₀ a₁ a₂ a₃
  obtain ⟨hy₀, hy₁, -⟩ := bigEndian_byte b₀ b₁ b₂ b₃
  have hhigh : ∀ v : ℕ, v >>> 24 = v >>> 16 >>> 8 := fun v => by rw [← Nat.shiftRight_add]
  rw [hhigh, heq, ← hhigh] at hx₀
  rw [heq] at hx₁
  have hfirst : SameAt src q p 1 :=
    .single (by rw [ha₀, hb₀, UInt8.toNat_inj.mp (hx₀.symm.trans hy₀)])
  exact hfirst.append
    (.single (by rw [ha₁ (by omega), hb₁ (by omega), UInt8.toNat_inj.mp (hx₁.symm.trans hy₁)]))

/-- Where `LZ4_count` stands. -/
structure Counting (src : Mem) (q p pinLimit : ℤ) (at' : ℤ × ℤ) : Prop where
  match_eq : at'.2 - q = at'.1 - p
  le_pin : p ≤ at'.1
  pin_le : at'.1 ≤ pinLimit
  same : SameAt src q p (at'.1 - p)

/-- What `LZ4_count` returns. -/
def Counted (src : Mem) (q p pinLimit c : ℤ) : Prop := 0 ≤ c ∧ p + c ≤ pinLimit ∧ SameAt src q p c

variable {pinLimit : ℤ} {at' : ℤ × ℤ}

theorem Counting.more (h : Counting src q p pinLimit at') {c : ℤ} (h0 : 0 ≤ c)
    (hle : at'.1 + c ≤ pinLimit) (hsame : SameAt src at'.2 at'.1 c) :
    Counting src q p pinLimit (at'.1 + c, at'.2 + c) := by
  have hmatch := h.match_eq
  have hpin := h.le_pin
  refine ⟨?_, ?_, hle, ?_⟩
  · show at'.2 + c - q = at'.1 + c - p
    omega
  · show p ≤ at'.1 + c
    omega
  · show SameAt src q p (at'.1 + c - p)
    rw [show at'.1 + c - p = at'.1 - p + c by omega]
    refine h.same.append ?_
    rwa [show q + (at'.1 - p) = at'.2 by omega, show p + (at'.1 - p) = at'.1 by omega]

theorem Counting.counted (h : Counting src q p pinLimit at') :
    Counted src q p pinLimit (at'.1 - p) :=
  ⟨by have := h.le_pin; omega, by have := h.pin_le; omega, h.same⟩

variable (hq : 0 ≤ q) (hlt : q < p) (hlimit : pinLimit ≤ src.length)
include hq hlt hlimit

theorem Counting.rest (h : Counting src q p pinLimit at') :
    Ensures (countRest src p pinLimit at'.1 at'.2) (Counted src q p pinLimit) := by
  obtain ⟨pin, pmatch⟩ := at'
  have hmatch : pmatch - q = pin - p := h.match_eq
  have hpin : p ≤ pin := h.le_pin
  -- up to two bytes
  have htwo : Ensures (andAlso (pin < pinLimit - 1) do
      let vm ← lz4Read32 src pmatch
      let v ← lz4Read32 src pin
      return (vm ^^^ v) >>> 16 = 0) fun two => Counting src q p pinLimit
        (if two = true then (pin + 2, pmatch + 2) else (pin, pmatch)) := by
    rw [andAlso]
    refine .ite (fun hc => ?_) fun _ => .pure h
    have hc : pin < pinLimit - 1 := of_decide_eq_true hc
    obtain ⟨vm, hm⟩ := read32_isSome src pmatch (by omega) (by omega)
    obtain ⟨v, hv⟩ := read32_isSome src pin (by omega) (by omega)
    refine .bind_of_eq hm (.bind_of_eq hv (.pure ?_))
    split_ifs with hsame
    · exact h.more (by omega) (by show pin + 2 ≤ pinLimit; omega)
        (sameAt_two (by omega) (by omega) (by omega) (by omega) hm hv (of_decide_eq_true hsame))
    · exact h
  refine htwo.bind fun two h' => ?_
  -- and one byte more
  generalize (if two = true then (pin + 2, pmatch + 2) else (pin, pmatch)) = at'' at h' ⊢
  obtain ⟨pin', pmatch'⟩ := at''
  have hmatch' : pmatch' - q = pin' - p := h'.match_eq
  have hpin' : p ≤ pin' := h'.le_pin
  have hone : Ensures (andAlso (pin' < pinLimit) do
      let bm ← lz4Read8 src pmatch'
      let b ← lz4Read8 src pin'
      return bm = b) fun one =>
        Counted src q p pinLimit ((if one = true then pin' + 1 else pin') - p) := by
    rw [andAlso]
    refine .ite (fun hc => ?_) fun _ => .pure h'.counted
    have hc : pin' < pinLimit := of_decide_eq_true hc
    obtain ⟨bm, hm⟩ := Mem.exists_peek (m := src) (p := pmatch') (by omega) (by omega)
    obtain ⟨b, hb⟩ := Mem.exists_peek (m := src) (p := pin') (by omega) (by omega)
    refine .bind_of_eq hm (.bind_of_eq hb (.pure ?_))
    split_ifs with hsame
    · have hbm : bm = b := of_decide_eq_true hsame
      exact (h'.more one_pos.le (by show pin' + 1 ≤ pinLimit; omega)
        (.single (by rw [hm, hb, hbm]))).counted
    · exact h'.counted
  exact hone.bind fun one hcounted => .pure hcounted

/-- **`LZ4_count`** finds bytes that are the same, up to the limit. -/
theorem lz4Count_spec (hle : p ≤ pinLimit) :
    Ensures (lz4Count src p q pinLimit) (Counted src q p pinLimit) := by
  refine Ensures.loop (I := Counting src q p pinLimit) (m := fun at' => (pinLimit - at'.1).toNat)
    (fun at' h => ?_) ⟨by omega, le_rfl, hle, by rw [sub_self]; exact .nil src q p⟩
    (Nat.lt_succ_self _)
  obtain ⟨pin, pmatch⟩ := at'
  have hmatch : pmatch - q = pin - p := h.match_eq
  have hpin : p ≤ pin := h.le_pin
  refine .ite (fun hc => ?_) fun _ => ?_
  · obtain ⟨vm, hm⟩ := read32_isSome src pmatch (by omega) (by omega)
    obtain ⟨v, hv⟩ := read32_isSome src pin (by omega) (by omega)
    refine .bind_of_eq hm (.bind_of_eq hv (.pure ?_))
    split_ifs with hdiff
    · have hsame : SameAt src pmatch pin 4 := sameAt_of_read32 (by omega) (by omega) (by omega)
        (by omega) (by rw [hm, hv, xor_eq_zero_iff.mp hdiff])
      refine ⟨h.more (by omega) (by show pin + 4 ≤ pinLimit; omega) hsame, ?_⟩
      show (pinLimit - (pin + 4)).toNat < (pinLimit - pin).toNat
      omega
    · obtain ⟨c, hc', h0, h3, hsame⟩ := firstDiff_same (by omega) (by omega) (by omega) (by omega)
        hm hv
      show Counted src q p pinLimit (firstDiff (vm ^^^ v) pin - p)
      rw [hc']
      exact (h.more h0 (by show pin + c ≤ pinLimit; omega) hsame).counted
  · exact .map (h.rest hq hlt hlimit)

end Count

end OlivePiccolo.Lz4hc
