import Mathlib.Algebra.Group.Nat.Defs
import Mathlib.Data.Nat.Size

/-!
# Powers of two

A number is rounded up to a power of two by copying its highest bit to all lower places. `Smeared`
says how far the bits have been copied; doubling the distance is one shift. The predecessor of a
power of two is a mask for the remainder, and its complement for the multiple below.
-/

namespace OlivePiccolo

/-- Each bit of `x` has been copied to the `n - 1` places below it. -/
def Smeared (n x y : ℕ) : Prop := ∀ i, y.testBit i = true ↔ ∃ j < n, x.testBit (i + j) = true

theorem smeared_one (x : ℕ) : Smeared 1 x x := by
  intro i
  constructor
  · exact fun h => ⟨0, Nat.one_pos, h⟩
  · rintro ⟨j, hj, h⟩
    rwa [Nat.lt_one_iff.mp hj] at h

/-- One shift doubles the distance. -/
theorem Smeared.double {n x y : ℕ} (h : Smeared n x y) : Smeared (2 * n) x (y ||| y >>> n) := by
  intro i
  rw [Nat.testBit_or, Bool.or_eq_true, Nat.testBit_shiftRight, h i, h (n + i)]
  constructor
  · rintro (⟨j, hj, hx⟩ | ⟨j, hj, hx⟩)
    · exact ⟨j, by omega, hx⟩
    · refine ⟨n + j, by omega, ?_⟩
      rwa [show i + (n + j) = n + i + j by omega]
  · rintro ⟨j, hj, hx⟩
    by_cases hn : j < n
    · exact Or.inl ⟨j, hn, hx⟩
    · refine Or.inr ⟨j - n, by omega, ?_⟩
      rwa [show n + i + (j - n) = i + j by omega]

/-- Once all bits have been copied, all places below the highest bit are filled. -/
theorem Smeared.eq {n x y : ℕ} (h : Smeared n x y) (hx : x < 2 ^ n) : y = 2 ^ x.size - 1 := by
  apply Nat.eq_of_testBit_eq
  intro i
  rw [Nat.testBit_two_pow_sub_one, Bool.eq_iff_iff, h i, decide_eq_true_iff, Nat.lt_size]
  constructor
  · rintro ⟨j, -, hj⟩
    exact Nat.le_trans (Nat.pow_le_pow_right Nat.two_pos (Nat.le_add_right i j))
      (Nat.ge_two_pow_of_testBit hj)
  · intro hi
    obtain ⟨k, hk, hbit⟩ := Nat.exists_ge_and_testBit_of_ge_two_pow hi
    have hkn : k < n :=
      (Nat.pow_lt_pow_iff_right (by decide)).mp
        (Nat.lt_of_le_of_lt (Nat.ge_two_pow_of_testBit hbit) hx)
    exact ⟨k - i, by omega, by rwa [Nat.add_sub_cancel' hk]⟩

/-- The number of places of `x - 1` is that of the least power of two from `x` on. -/
theorem two_pow_size_pred {x : ℕ} (h : 0 < x) :
    x ≤ 2 ^ (x - 1).size ∧ ∀ k, x ≤ 2 ^ k → 2 ^ (x - 1).size ≤ 2 ^ k := by
  constructor
  · have := Nat.lt_size_self (x - 1)
    omega
  · intro k hk
    exact Nat.pow_le_pow_right Nat.two_pos (Nat.size_le.mpr (by omega))

/-! ## Masks -/

section Masks

variable {w k : ℕ} {p : BitVec w}

theorem mask_toNat (hp : p.toNat = 2 ^ k) : (p - 1).toNat = 2 ^ k - 1 := by
  have hlt := p.isLt
  have hpos : 0 < 2 ^ k := Nat.two_pow_pos k
  rw [BitVec.toNat_sub, hp]
  by_cases hw : w = 0
  · subst hw
    rw [hp, Nat.pow_zero] at hlt
    omega
  · have hone : (1 : BitVec w).toNat = 1 := BitVec.toNat_one (Nat.pos_of_ne_zero hw)
    have hroom : 1 < 2 ^ w := Nat.one_lt_two_pow hw
    rw [hone, show 2 ^ w - 1 + 2 ^ k = 2 ^ w + (2 ^ k - 1) by omega, Nat.add_mod_left,
      Nat.mod_eq_of_lt (by omega)]

/-- The remainder. -/
theorem and_mask_toNat (x : BitVec w) (hp : p.toNat = 2 ^ k) :
    (x &&& (p - 1)).toNat = x.toNat % p.toNat := by
  rw [BitVec.toNat_and, mask_toNat hp, hp, Nat.and_two_pow_sub_one_eq_mod]

/-- The multiple below. -/
theorem and_not_mask_toNat (x : BitVec w) (hp : p.toNat = 2 ^ k) :
    (x &&& ~~~(p - 1)).toNat = x.toNat / p.toNat * p.toNat := by
  have hshift : x &&& ~~~(p - 1) = x >>> k <<< k := by
    apply BitVec.eq_of_getLsbD_eq
    intro i hi
    have hmask : (p - 1).getLsbD i = decide (i < k) := by
      rw [BitVec.getLsbD, mask_toNat hp, Nat.testBit_two_pow_sub_one]
    rw [BitVec.getLsbD_and, BitVec.getLsbD_not, hmask, BitVec.getLsbD_shiftLeft,
      BitVec.getLsbD_ushiftRight, decide_eq_true hi, Bool.true_and]
    by_cases hk : i < k
    · rw [decide_eq_true hk, Bool.not_true, Bool.and_false, Bool.false_and]
    · rw [decide_eq_false hk, Bool.not_false, Bool.and_true, Bool.true_and,
        Nat.add_sub_cancel' (Nat.le_of_not_lt hk)]
  rw [hshift, BitVec.toNat_shiftLeft, BitVec.toNat_ushiftRight, Nat.shiftRight_eq_div_pow,
    Nat.shiftLeft_eq, hp]
  exact Nat.mod_eq_of_lt (Nat.lt_of_le_of_lt (Nat.div_mul_le_self _ _) x.isLt)

end Masks

end OlivePiccolo
