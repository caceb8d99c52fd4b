import Mathlib.Algebra.Order.Group.Nat
import Mathlib.Data.Nat.Notation

/-!
# Rounding up to a multiple

`roundUp x n` is the least multiple of `n` from `x` on. A range that is cut at the multiples of `n`
ends in the last round at most there.
-/

namespace OlivePiccolo

def roundUp (x n : ℕ) : ℕ := (x + n - 1) / n * n

variable {x y n k : ℕ}

theorem dvd_roundUp (x n : ℕ) : n ∣ roundUp x n := Nat.dvd_mul_left n _

theorem le_roundUp (x : ℕ) (hn : 0 < n) : x ≤ roundUp x n := by
  have hdiv := Nat.div_add_mod (x + n - 1) n
  have hmod := Nat.mod_lt (x + n - 1) hn
  rw [Nat.mul_comm] at hdiv
  rw [roundUp]
  omega

theorem roundUp_mono (h : x ≤ y) : roundUp x n ≤ roundUp y n :=
  Nat.mul_le_mul_right n (Nat.div_le_div_right (by omega))

/-- The next multiple behind `x`. -/
theorem roundUp_eq (hk : 0 < k) (hle : k ≤ n - x % n) : roundUp (x + k) n = x + (n - x % n) := by
  have hn : 0 < n := by omega
  have hdiv := Nat.div_add_mod x n
  have hmod := Nat.mod_lt x hn
  have hsplit : x + k + n - 1 = n * (x / n + 1) + (x % n + k - 1) := by
    rw [Nat.mul_add, Nat.mul_one]
    omega
  have hlast : (x % n + k - 1) / n = 0 := Nat.div_eq_of_lt (by omega)
  rw [roundUp, hsplit, Nat.mul_add_div hn, hlast, Nat.add_zero, Nat.add_mul, Nat.one_mul,
    Nat.mul_comm]
  omega

theorem next_le_roundUp (hn : 0 < n) (hk : 0 < k) : x + (n - x % n) ≤ roundUp (x + k) n := by
  have hmod := Nat.mod_lt x hn
  rw [← roundUp_eq Nat.one_pos (show 1 ≤ n - x % n by omega)]
  exact roundUp_mono (by omega)

theorem dvd_of_roundUp_le (hn : 0 < n) (h : roundUp x n ≤ x) : n ∣ x := by
  have heq : roundUp x n = x := Nat.le_antisymm h (le_roundUp x hn)
  rw [← heq]
  exact dvd_roundUp x n

theorem roundUp_of_dvd (hn : 0 < n) (h : n ∣ x) : roundUp x n = x := by
  obtain ⟨q, rfl⟩ := h
  have hlast : (n - 1) / n = 0 := Nat.div_eq_of_lt (by omega)
  rw [roundUp, Nat.add_sub_assoc hn, Nat.mul_add_div hn, hlast, Nat.add_zero, Nat.mul_comm]

end OlivePiccolo
