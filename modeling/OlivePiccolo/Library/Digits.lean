import Mathlib.Data.Nat.Notation
import Mathlib.Tactic.Ring

/-!
# Copies of a digit

The number whose digits are 1 at some places and 0 at all others, times a digit, has that digit at
these places.
-/

namespace OlivePiccolo

/-- The digit 1 at those of the first `n` places that are chosen. -/
def ones (base : ℕ) (chosen : ℕ → Bool) : ℕ → ℕ
  | 0 => 0
  | n + 1 => (if chosen 0 then 1 else 0) + base * ones base (fun i => chosen (i + 1)) n

variable {base d : ℕ}

theorem ones_congr {chosen chosen' : ℕ → Bool} {n : ℕ} (h : ∀ i < n, chosen i = chosen' i) :
    ones base chosen n = ones base chosen' n := by
  induction n generalizing chosen chosen' with
  | zero => rfl
  | succ n ih => rw [ones, ones, h 0 n.succ_pos, ih fun i hi => h (i + 1) (Nat.succ_lt_succ hi)]

theorem ones_mul (hd : d < base) (chosen : ℕ → Bool) (n i : ℕ) (hi : i < n) :
    ones base chosen n * d / base ^ i % base = if chosen i then d else 0 := by
  have hpos : 0 < base := Nat.zero_lt_of_lt hd
  induction n generalizing chosen i with
  | zero => exact absurd hi (Nat.not_lt_zero i)
  | succ n ih =>
    have hsplit : ones base chosen (n + 1) * d = (if chosen 0 then d else 0) +
        base * (ones base (fun i => chosen (i + 1)) n * d) := by
      rw [ones]
      split_ifs <;> ring
    have hlt : (if chosen 0 then d else 0) < base := by
      split_ifs
      · exact hd
      · exact hpos
    rw [hsplit]
    cases i with
    | zero => rw [pow_zero, Nat.div_one, Nat.add_mul_mod_self_left, Nat.mod_eq_of_lt hlt]
    | succ i =>
      rw [pow_succ', ← Nat.div_div_eq_div_mul, Nat.add_mul_div_left _ _ hpos,
        Nat.div_eq_of_lt hlt, Nat.zero_add, ih _ i (Nat.lt_of_succ_lt_succ hi)]

/-- There is room for the copies. -/
theorem ones_mul_lt (hd : d < base) (chosen : ℕ → Bool) (n : ℕ) :
    ones base chosen n * d < base ^ n := by
  induction n generalizing chosen with
  | zero => rw [ones, Nat.zero_mul, pow_zero]; exact Nat.one_pos
  | succ n ih =>
    have hrest := ih fun i => chosen (i + 1)
    have hfirst : (if chosen 0 then 1 else 0) * d < base := by
      split_ifs
      · rwa [Nat.one_mul]
      · rw [Nat.zero_mul]; exact Nat.zero_lt_of_lt hd
    calc ones base chosen (n + 1) * d
        = (if chosen 0 then 1 else 0) * d + base * (ones base (fun i => chosen (i + 1)) n * d) := by
          rw [ones]; ring
      _ < base + base * (ones base (fun i => chosen (i + 1)) n * d) := Nat.add_lt_add_right hfirst _
      _ = base * (ones base (fun i => chosen (i + 1)) n * d + 1) := by ring
      _ ≤ base * base ^ n := Nat.mul_le_mul_left _ hrest
      _ = base ^ (n + 1) := (pow_succ' base n).symm

end OlivePiccolo
