import Mathlib.Logic.Function.Iterate

/-!
# Reflected cyclic redundancy checks

A check word is the remainder of a polynomial division whose register is shifted towards its low end.
`Crc.check` is the division bit by bit. One position of it is linear in the exclusive or
(`Crc.shift_xor`), so `k` positions can be looked up in a table of `2 ^ k` words, with the low `k`
bits as the index (`Crc.feed_lowFirst_eq_lookup`).
-/

namespace OlivePiccolo.Crc

variable {w k : ℕ} (poly : BitVec w)

/-! ## Bit by bit -/

/-- One bit of the message enters the register. -/
def feedBit (c : BitVec w) (b : Bool) : BitVec w :=
  if c.getLsbD 0 ^^ b then (c >>> 1) ^^^ poly else c >>> 1

/-- The register after the bits of a message. -/
def feed (c : BitVec w) (bits : List Bool) : BitVec w := bits.foldl (feedBit poly) c

/-- The bits of a symbol, lowest first. -/
def lowFirst (v : BitVec k) : List Bool := (List.range k).map v.getLsbD

/-- The check word of a message. -/
def check (init xorOut : BitVec w) (message : List (BitVec k)) : BitVec w :=
  feed poly init (message.flatMap lowFirst) ^^^ xorOut

theorem feed_flatMap (c : BitVec w) (message : List (BitVec k)) :
    feed poly c (message.flatMap lowFirst) =
      message.foldl (fun c v => feed poly c (lowFirst v)) c := by
  unfold feed
  rw [List.foldl_flatMap]

/-! ## Linearity -/

/-- One position of the division without a message. -/
def shift (c : BitVec w) : BitVec w := feedBit poly c false

theorem shift_eq (c : BitVec w) :
    shift poly c = if c.getLsbD 0 then (c >>> 1) ^^^ poly else c >>> 1 := by
  unfold shift feedBit
  rw [Bool.xor_false]

theorem shift_of_low_clear {c : BitVec w} (h : c.getLsbD 0 = false) : shift poly c = c >>> 1 := by
  rw [shift_eq, h, if_neg Bool.false_ne_true]

theorem shift_xor (a b : BitVec w) : shift poly (a ^^^ b) = shift poly a ^^^ shift poly b := by
  simp only [shift_eq, BitVec.getLsbD_xor, BitVec.ushiftRight_xor_distrib]
  cases a.getLsbD 0 <;> cases b.getLsbD 0
  · rfl
  · exact BitVec.xor_assoc _ _ _
  · show a >>> 1 ^^^ b >>> 1 ^^^ poly = a >>> 1 ^^^ poly ^^^ b >>> 1
    rw [BitVec.xor_assoc, BitVec.xor_comm (b >>> 1), ← BitVec.xor_assoc]
  · show a >>> 1 ^^^ b >>> 1 = a >>> 1 ^^^ poly ^^^ (b >>> 1 ^^^ poly)
    rw [BitVec.xor_comm (b >>> 1) poly, BitVec.xor_assoc, ← BitVec.xor_assoc poly,
      BitVec.xor_self, BitVec.zero_xor]

theorem shifts_xor (n : ℕ) (a b : BitVec w) :
    (shift poly)^[n] (a ^^^ b) = (shift poly)^[n] a ^^^ (shift poly)^[n] b := by
  induction n generalizing a b with
  | zero => rfl
  | succ n ih => rw [Function.iterate_succ_apply, shift_xor, ih, ← Function.iterate_succ_apply,
      ← Function.iterate_succ_apply]

/-- Bits that have not reached the low end only move. -/
theorem shifts_of_low_clear {c : BitVec w} {n : ℕ} (h : ∀ i < n, c.getLsbD i = false) :
    (shift poly)^[n] c = c >>> n := by
  induction n with
  | zero => rw [Function.iterate_zero_apply, BitVec.ushiftRight_zero]
  | succ n ih =>
    have hlow : (c >>> n).getLsbD 0 = false := by
      rw [BitVec.getLsbD_ushiftRight]
      exact h n (Nat.lt_succ_self n)
    rw [Function.iterate_succ_apply', ih fun i hi => h i (Nat.lt_succ_of_lt hi),
      shift_of_low_clear poly hlow, BitVec.shiftRight_add]

/-! ## The table -/

/-- The low `k` places of a register. -/
def lowMask (w k : ℕ) : BitVec w := (BitVec.allOnes k).setWidth w

theorem getLsbD_lowMask {i : ℕ} (hi : i < w) : (lowMask w k).getLsbD i = decide (i < k) := by
  unfold lowMask
  rw [BitVec.getLsbD_setWidth, BitVec.getLsbD_allOnes, decide_eq_true hi, Bool.true_and]

/-- `k` positions look only at the low `k` bits; the other bits move down. -/
theorem shifts_eq (c : BitVec w) :
    (shift poly)^[k] c = (shift poly)^[k] (c &&& lowMask w k) ^^^ c >>> k := by
  have hsplit : c = (c &&& lowMask w k) ^^^ (c &&& ~~~lowMask w k) := by
    apply BitVec.eq_of_getLsbD_eq
    intro i hi
    simp only [BitVec.getLsbD_xor, BitVec.getLsbD_and, BitVec.getLsbD_not, hi, decide_true,
      Bool.true_and]
    cases c.getLsbD i <;> cases (lowMask w k).getLsbD i <;> rfl
  have hclear : ∀ i < k, (c &&& ~~~lowMask w k).getLsbD i = false := by
    intro i hi
    rw [BitVec.getLsbD_and, BitVec.getLsbD_not]
    by_cases hw : i < w
    · rw [getLsbD_lowMask hw, decide_eq_true hi, Bool.not_true, Bool.and_false, Bool.and_false]
    · rw [decide_eq_false hw, Bool.false_and, Bool.and_false]
  have hhigh : (c &&& ~~~lowMask w k) >>> k = c >>> k := by
    apply BitVec.eq_of_getLsbD_eq
    intro i hi
    rw [BitVec.getLsbD_ushiftRight, BitVec.getLsbD_ushiftRight, BitVec.getLsbD_and,
      BitVec.getLsbD_not]
    by_cases hw : k + i < w
    · rw [getLsbD_lowMask hw, decide_eq_true hw, decide_eq_false (by omega : ¬k + i < k),
        Bool.not_false, Bool.and_true, Bool.and_true]
    · rw [BitVec.getLsbD_of_ge c (k + i) (by omega), Bool.false_and]
  calc (shift poly)^[k] c
      = (shift poly)^[k] ((c &&& lowMask w k) ^^^ (c &&& ~~~lowMask w k)) := by rw [← hsplit]
    _ = (shift poly)^[k] (c &&& lowMask w k) ^^^ (shift poly)^[k] (c &&& ~~~lowMask w k) :=
        shifts_xor poly k _ _
    _ = (shift poly)^[k] (c &&& lowMask w k) ^^^ c >>> k := by
        rw [shifts_of_low_clear poly hclear, hhigh]

/-! ## Symbols -/

theorem lowFirst_succ (v : BitVec (k + 1)) :
    lowFirst v = v.getLsbD 0 :: lowFirst (v.extractLsb' 1 k) := by
  unfold lowFirst
  rw [List.range_succ_eq_map, List.map_cons, List.map_map]
  congr 1
  apply List.map_congr_left
  intro i hi
  rw [BitVec.getLsbD_extractLsb', decide_eq_true (List.mem_range.mp hi), Bool.true_and,
    Function.comp_apply, Nat.add_comm 1 i]

/-- The first bit of a symbol enters; the others are still to come. -/
theorem shift_xor_setWidth (h : k + 1 ≤ w) (c : BitVec w) (v : BitVec (k + 1)) :
    shift poly (c ^^^ v.setWidth w) =
      feedBit poly c (v.getLsbD 0) ^^^ (v.extractLsb' 1 k).setWidth w := by
  have hrest : v.setWidth w >>> 1 = (v.extractLsb' 1 k).setWidth w := by
    apply BitVec.eq_of_getLsbD_eq
    intro i hi
    simp only [BitVec.getLsbD_ushiftRight, BitVec.getLsbD_setWidth, BitVec.getLsbD_extractLsb']
    by_cases hk : i < k
    · simp [hk, hi, show 1 + i < w by omega]
    · simp [hk, BitVec.getLsbD_of_ge v (1 + i) (by omega)]
  have hfirst : (v.setWidth w).getLsbD 0 = v.getLsbD 0 := by
    rw [BitVec.getLsbD_setWidth, decide_eq_true (by omega : 0 < w), Bool.true_and]
  rw [shift_eq, BitVec.getLsbD_xor, hfirst, BitVec.ushiftRight_xor_distrib, hrest]
  unfold feedBit
  split
  · rw [BitVec.xor_assoc, BitVec.xor_comm _ poly, ← BitVec.xor_assoc]
  · rfl

/-- A symbol can enter all at once. -/
theorem feed_lowFirst (h : k ≤ w) (c : BitVec w) (v : BitVec k) :
    feed poly c (lowFirst v) = (shift poly)^[k] (c ^^^ v.setWidth w) := by
  induction k generalizing c with
  | zero =>
    rw [Function.iterate_zero_apply, BitVec.eq_nil v]
    exact (BitVec.xor_zero).symm
  | succ k ih =>
    rw [lowFirst_succ, Function.iterate_succ_apply, shift_xor_setWidth poly h]
    exact ih (by omega) _ _

/-- The table step: the low `k` bits of register and symbol are the index. -/
theorem feed_lowFirst_eq_lookup (h : k ≤ w) (c : BitVec w) (v : BitVec k) :
    feed poly c (lowFirst v) =
      (shift poly)^[k] ((c ^^^ v.setWidth w) &&& lowMask w k) ^^^ c >>> k := by
  have hgone : v.setWidth w >>> k = 0#w := by
    apply BitVec.eq_of_getLsbD_eq
    intro i hi
    rw [BitVec.getLsbD_ushiftRight, BitVec.getLsbD_setWidth,
      BitVec.getLsbD_of_ge v (k + i) (Nat.le_add_right k i), Bool.and_false, BitVec.getLsbD_zero]
  rw [feed_lowFirst poly h, shifts_eq, BitVec.ushiftRight_xor_distrib, hgone, BitVec.xor_zero]

end OlivePiccolo.Crc
