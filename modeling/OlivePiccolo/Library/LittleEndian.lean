import Mathlib.Data.List.Basic
import Mathlib.Tactic.Ring

/-!
# Little-endian byte strings

`leNat` is the number a byte string stands for, least significant byte first, and `leBytes n v`
the `n` bytes of `v`. `toInt32` reads a 32-bit pattern as a signed number, as C's `int` does.
-/

namespace OlivePiccolo

/-- The number whose bytes are given, least significant first. -/
def leNat : List UInt8 → ℕ
  | [] => 0
  | b :: l => b.toNat + 256 * leNat l

/-- The `n` low bytes of a number, least significant first. -/
def leBytes : ℕ → ℕ → List UInt8
  | 0, _ => []
  | n + 1, v => UInt8.ofNat v :: leBytes n (v / 256)

/-- A 32-bit pattern as a signed number. -/
def toInt32 (v : ℕ) : ℤ := (v : ℤ).bmod (2 ^ 32)

@[simp] theorem leBytes_length (n v : ℕ) : (leBytes n v).length = n := by
  induction n generalizing v with
  | zero => rfl
  | succ n ih => rw [leBytes, List.length_cons, ih]

theorem leNat_lt (l : List UInt8) : leNat l < 256 ^ l.length := by
  induction l with
  | nil => exact Nat.one_pos
  | cons b l ih =>
    have hb := b.toNat_lt
    rw [leNat, List.length_cons, pow_succ]
    omega

theorem leNat_leBytes {n v : ℕ} (h : v < 256 ^ n) : leNat (leBytes n v) = v := by
  induction n generalizing v with
  | zero => rw [pow_zero] at h; rw [leBytes, leNat]; omega
  | succ n ih =>
    have hq : v / 256 < 256 ^ n := by
      rw [pow_succ] at h
      exact Nat.div_lt_of_lt_mul (by omega)
    rw [leBytes, leNat, ih hq, UInt8.toNat_ofNat']
    omega

theorem leBytes_leNat (l : List UInt8) : leBytes l.length (leNat l) = l := by
  induction l with
  | nil => rfl
  | cons b l ih =>
    have hb := b.toNat_lt
    have hd : (b.toNat + 256 * leNat l) / 256 = leNat l := by omega
    rw [List.length_cons, leBytes, leNat, hd, ih]
    congr 1
    apply UInt8.toNat_inj.mp
    rw [UInt8.toNat_ofNat']
    omega

theorem leNat_append (l l' : List UInt8) :
    leNat (l ++ l') = leNat l + 256 ^ l.length * leNat l' := by
  induction l with
  | nil => simp [leNat]
  | cons b l ih =>
    rw [List.cons_append, leNat, leNat, ih, List.length_cons]
    ring

theorem leNat_lt_two_pow_32 {l : List UInt8} (h : l.length = 4) : leNat l < 2 ^ 32 := by
  have := leNat_lt l
  rw [h] at this
  omega

theorem toInt32_of_lt {v : ℕ} (h : v < 2 ^ 31) : toInt32 v = v := by
  unfold toInt32
  rw [Int.bmod_eq_of_le] <;> omega

theorem toInt32_of_ge {v : ℕ} (h : 2 ^ 31 ≤ v) (hv : v < 2 ^ 32) :
    toInt32 v = (v : ℤ) - 2 ^ 32 := by
  unfold toInt32
  rw [Int.bmod_def]
  omega

end OlivePiccolo
