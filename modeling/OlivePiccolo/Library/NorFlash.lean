import Mathlib.Data.List.Basic
import Mathlib.Data.Nat.Notation
import Mathlib.Logic.Function.Basic

/-!
# Cells of a NOR flash

To erase sets the cells of a block to 0xff, to program clears bits: it takes the conjunction of the
cells of a page with the bytes, and an address that runs out of the page starts again at its
beginning. Cells that are erased first and programmed inside of their page are overwritten
(`program_erased`).
-/

namespace OlivePiccolo.NorFlash

/-- The bytes of a flash by their addresses. -/
abbrev Cells := ℕ → UInt8

def erase (c : Cells) (base size : ℕ) : Cells := fun x =>
  if base ≤ x ∧ x < base + size then 0xff else c x

/-- Program bytes from the place `start` of a page on. -/
def program (c : Cells) (base size start : ℕ) : List UInt8 → Cells
  | [] => c
  | b :: l =>
    program (Function.update c (base + start % size) (c (base + start % size) &&& b))
      base size (start + 1) l

/-- The cells with other bytes from an address on. -/
def overwrite (c : Cells) (addr : ℕ) (l : List UInt8) : Cells := fun x =>
  if x < addr then c x else (l[x - addr]?).getD (c x)

variable {c : Cells} {base size start addr : ℕ} {l l' : List UInt8}

/-! ## Bytes that are overwritten -/

theorem overwrite_nil (c : Cells) (addr : ℕ) : overwrite c addr [] = c := by
  funext x
  rw [overwrite]
  split_ifs <;> rfl

theorem overwrite_append (c : Cells) (addr : ℕ) (l l' : List UInt8) :
    overwrite (overwrite c addr l) (addr + l.length) l' = overwrite c addr (l ++ l') := by
  funext x
  rw [overwrite, overwrite, overwrite]
  by_cases hlow : x < addr
  · rw [if_pos hlow, if_pos hlow, if_pos (by omega)]
  · rw [if_neg hlow, if_neg hlow]
    by_cases hin : x < addr + l.length
    · rw [if_pos hin, List.getElem?_append_left (by omega)]
    · rw [if_neg hin, List.getElem?_append_right (by omega),
        List.getElem?_eq_none (l := l) (by omega),
        show x - addr - l.length = x - (addr + l.length) by omega]
      rfl

theorem overwrite_of_lt {x : ℕ} (h : x < addr) : overwrite c addr l x = c x := if_pos h

theorem overwrite_of_le {x : ℕ} (h : addr + l.length ≤ x) : overwrite c addr l x = c x := by
  rw [overwrite, if_neg (by omega), List.getElem?_eq_none (by omega)]
  rfl

theorem overwrite_add {i : ℕ} (h : i < l.length) : overwrite c addr l (addr + i) = l[i] := by
  rw [overwrite, if_neg (by omega), Nat.add_sub_cancel_left, List.getElem?_eq_getElem h]
  rfl

/-! ## Erase and program -/

theorem erase_inside {x : ℕ} (hlow : base ≤ x) (hlt : x < base + size) :
    erase c base size x = 0xff := if_pos ⟨hlow, hlt⟩

theorem erase_outside {x : ℕ} (h : x < base ∨ base + size ≤ x) : erase c base size x = c x :=
  if_neg (by omega)

/-- A block that is overwritten as a whole need not be erased. -/
theorem overwrite_erase (h : l.length = size) :
    overwrite (erase c base size) base l = overwrite c base l := by
  funext x
  by_cases hlow : x < base
  · rw [overwrite_of_lt hlow, overwrite_of_lt hlow, erase_outside (.inl hlow)]
  by_cases hin : x < base + l.length
  · obtain ⟨i, rfl⟩ := Nat.exists_eq_add_of_le (Nat.le_of_not_lt hlow)
    rw [overwrite_add (by omega), overwrite_add (by omega)]
  · rw [overwrite_of_le (by omega), overwrite_of_le (by omega), erase_outside (.inr (by omega))]

/-- To program a page keeps all others. -/
theorem program_outside {x : ℕ} (hsize : 0 < size) (h : x < base ∨ base + size ≤ x) :
    program c base size start l x = c x := by
  induction l generalizing c start with
  | nil => rfl
  | cons b l ih =>
    have hplace := Nat.mod_lt start hsize
    rw [program, ih, Function.update_of_ne (by omega)]

/-- Erased cells take the bytes that are programmed, as long as they stay in their page. -/
theorem program_erased (hroom : start + l.length ≤ size)
    (herased : ∀ x, base + start ≤ x → x < base + start + l.length → c x = 0xff) :
    program c base size start l = overwrite c (base + start) l := by
  induction l generalizing c start with
  | nil => exact (overwrite_nil c _).symm
  | cons b l ih =>
    rw [List.length_cons] at hroom herased
    have hplace : start % size = start := Nat.mod_eq_of_lt (by omega)
    have hbyte : c (base + start) &&& b = b := by
      rw [herased (base + start) (by omega) (by omega)]
      exact UInt8.eq_of_toBitVec_eq (BitVec.allOnes_and)
    have hone : Function.update c (base + start) b = overwrite c (base + start) [b] := by
      funext x
      by_cases hx : x = base + start
      · subst hx
        rw [Function.update_self]
        exact (overwrite_add (l := [b]) Nat.one_pos).symm
      · rw [Function.update_of_ne hx]
        rcases Nat.lt_or_gt_of_ne hx with hlt | hgt
        · rw [overwrite_of_lt hlt]
        · rw [overwrite_of_le (by rw [List.length_singleton]; omega)]
    rw [program, hplace, hbyte, ih (by omega) fun x hlow hlt => ?_, hone, ← Nat.add_assoc]
    · exact overwrite_append c (base + start) [b] l
    · rw [Function.update_of_ne (by omega)]
      exact herased x (by omega) (by omega)

end OlivePiccolo.NorFlash
