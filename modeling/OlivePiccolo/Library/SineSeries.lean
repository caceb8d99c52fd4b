import Mathlib.Analysis.Complex.Trigonometric

/-!
# Sines of whole numbers

The partial sums of the sine series at a whole number are fractions with a factorial as denominator.
Their numerators are computed with integers only (`sinNum`), and `floor_abs_sin` decides the integer
part of a multiple of `|sin n|` from one of them.
-/

namespace OlivePiccolo

open Finset Nat

/-- The sum of the first `m` terms of the sine series. -/
noncomputable def sinSum (x : ℝ) (m : ℕ) : ℝ :=
  ∑ j ∈ range m, (-1) ^ j * x ^ (2 * j + 1) / (2 * j + 1)!

/-- The sum of the first `m` terms of the cosine series. -/
noncomputable def cosSum (x : ℝ) (m : ℕ) : ℝ :=
  ∑ j ∈ range m, (-1) ^ j * x ^ (2 * j) / (2 * j)!

theorem sum_exp_eq (x : ℝ) (m : ℕ) :
    ∑ k ∈ range (2 * m), (x * Complex.I) ^ k / (k ! : ℂ) =
      cosSum x m + sinSum x m * Complex.I := by
  induction m with
  | zero => simp [cosSum, sinSum]
  | succ m ih =>
    have heven : (x * Complex.I) ^ (2 * m) = (-1) ^ m * (x : ℂ) ^ (2 * m) := by
      rw [mul_pow, pow_mul Complex.I, Complex.I_sq, mul_comm]
    have hodd : (x * Complex.I) ^ (2 * m + 1) = (-1) ^ m * (x : ℂ) ^ (2 * m + 1) * Complex.I := by
      rw [pow_succ, heven]
      ring
    have hcos : cosSum x (m + 1) = cosSum x m + (-1) ^ m * x ^ (2 * m) / (2 * m)! := by
      unfold cosSum
      rw [sum_range_succ]
    have hsin : sinSum x (m + 1) = sinSum x m + (-1) ^ m * x ^ (2 * m + 1) / (2 * m + 1)! := by
      unfold sinSum
      rw [sum_range_succ]
    rw [show 2 * (m + 1) = 2 * m + 1 + 1 by ring, sum_range_succ, sum_range_succ, ih, heven, hodd,
      hcos, hsin]
    push_cast
    ring

/-- What is left of the series, once the terms fall by half each. -/
theorem abs_sin_sub_sinSum_le {x : ℝ} {m : ℕ} (h : |x| / (2 * m + 1 : ℕ) ≤ 1 / 2) :
    |Real.sin x - sinSum x m| ≤ |x| ^ (2 * m) / (2 * m)! * 2 := by
  have hnorm : ‖(x * Complex.I : ℂ)‖ = |x| := by
    rw [Complex.norm_mul, Complex.norm_I, mul_one, Complex.norm_real, Real.norm_eq_abs]
  have hbound := Complex.exp_bound' (x := x * Complex.I) (n := 2 * m) (by rw [hnorm]; exact h)
  rw [hnorm, sum_exp_eq] at hbound
  have him : (Complex.exp (x * Complex.I) - (cosSum x m + sinSum x m * Complex.I)).im =
      Real.sin x - sinSum x m := by
    rw [Complex.exp_mul_I, ← Complex.ofReal_cos, ← Complex.ofReal_sin]
    simp only [Complex.sub_im, Complex.add_im, Complex.mul_I_im, Complex.ofReal_im,
      Complex.ofReal_re, zero_add]
  calc |Real.sin x - sinSum x m|
      = |(Complex.exp (x * Complex.I) - (cosSum x m + sinSum x m * Complex.I)).im| := by rw [him]
    _ ≤ ‖Complex.exp (x * Complex.I) - (cosSum x m + sinSum x m * Complex.I)‖ :=
        Complex.abs_im_le_norm _
    _ ≤ |x| ^ (2 * m) / (2 * m)! * 2 := hbound

/-! ## With integers -/

/-- The numerator of `sinSum n m` over the denominator `(2 * m)!`. -/
def sinNum (n : ℕ) : ℕ → ℤ
  | 0 => 0
  | m + 1 => sinNum n m * ((2 * m + 1) * (2 * m + 2) : ℕ) +
      (-1) ^ m * (n ^ (2 * m + 1) * (2 * m + 2) : ℕ)

theorem sinSum_eq (n m : ℕ) : sinSum n m = (sinNum n m : ℝ) / (2 * m)! := by
  induction m with
  | zero => simp [sinSum, sinNum]
  | succ m ih =>
    have hfirst : ((2 * m + 1)! : ℝ) = (2 * m + 1) * (2 * m)! := by
      rw [Nat.factorial_succ]
      push_cast
      ring
    have hsecond : ((2 * (m + 1))! : ℝ) = (2 * m + 2) * ((2 * m + 1) * (2 * m)!) := by
      rw [show 2 * (m + 1) = 2 * m + 1 + 1 by ring, Nat.factorial_succ (2 * m + 1),
        Nat.factorial_succ]
      push_cast
      ring
    have hpos : ((2 * m)! : ℝ) ≠ 0 := Nat.cast_ne_zero.mpr (Nat.factorial_ne_zero _)
    have hone : (2 * m + 1 : ℝ) ≠ 0 := by positivity
    have htwo : (2 * m + 2 : ℝ) ≠ 0 := by positivity
    have hsum : sinSum n (m + 1) =
        sinSum n m + (-1) ^ m * (n : ℝ) ^ (2 * m + 1) / (2 * m + 1)! := by
      unfold sinSum
      rw [sum_range_succ]
    rw [hsum, ih, hsecond, hfirst, sinNum]
    push_cast
    field_simp

/-- The integer part of `c * |sin n|`, where the series decides it. -/
theorem floor_abs_sin {c n m t : ℕ} (hterms : 2 * n ≤ 2 * m + 1)
    (hlower : t * (2 * m)! + c * (2 * n ^ (2 * m)) ≤ c * (sinNum n m).natAbs)
    (hupper : c * ((sinNum n m).natAbs + 2 * n ^ (2 * m)) < (t + 1) * (2 * m)!) :
    ⌊c * |Real.sin n|⌋₊ = t := by
  have hfac : (0 : ℝ) < (2 * m)! := by exact_mod_cast Nat.factorial_pos _
  have hn : |(n : ℝ)| = n := abs_of_nonneg (Nat.cast_nonneg n)
  have hhalf : |(n : ℝ)| / (2 * m + 1 : ℕ) ≤ 1 / 2 := by
    rw [hn, div_le_div_iff₀ (by positivity) (by norm_num)]
    push_cast
    have : (2 * n : ℝ) ≤ 2 * m + 1 := by exact_mod_cast hterms
    linarith
  have herr := abs_sin_sub_sinSum_le hhalf
  rw [hn, sinSum_eq] at herr
  -- both bounds on `|sin n|`, over the common denominator
  have habs : |(sinNum n m : ℝ) / (2 * m)!| = (sinNum n m).natAbs / (2 * m)! := by
    rw [abs_div, abs_of_pos hfac, Nat.cast_natAbs, Int.cast_abs]
  have hnear : |(|Real.sin n| - |(sinNum n m : ℝ) / (2 * m)!|)| ≤ n ^ (2 * m) / (2 * m)! * 2 :=
    (abs_abs_sub_abs_le _ _).trans herr
  rw [habs, abs_le] at hnear
  obtain ⟨hge, hle⟩ := hnear
  have hc : (0 : ℝ) ≤ c := Nat.cast_nonneg c
  have hlower' : (t : ℝ) * (2 * m)! + c * (2 * n ^ (2 * m)) ≤ c * (sinNum n m).natAbs := by
    exact_mod_cast hlower
  have hupper' : (c : ℝ) * ((sinNum n m).natAbs + 2 * n ^ (2 * m)) < (t + 1) * (2 * m)! := by
    exact_mod_cast hupper
  rw [Nat.floor_eq_iff (by positivity)]
  constructor
  · have hroom : (t : ℝ) ≤
        c * ((sinNum n m).natAbs / (2 * m)! - n ^ (2 * m) / (2 * m)! * 2) := by
      rw [div_mul_eq_mul_div, ← sub_div, ← mul_div_assoc, le_div_iff₀ hfac]
      linarith
    exact hroom.trans (mul_le_mul_of_nonneg_left (by linarith) hc)
  · have hroom : c * ((sinNum n m).natAbs / (2 * m)! + n ^ (2 * m) / (2 * m)! * 2) <
        (t + 1 : ℝ) := by
      rw [div_mul_eq_mul_div, ← add_div, ← mul_div_assoc, div_lt_iff₀ hfac]
      linarith
    exact lt_of_le_of_lt (mul_le_mul_of_nonneg_left (by linarith) hc) hroom

end OlivePiccolo
