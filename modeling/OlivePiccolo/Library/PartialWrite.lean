import Mathlib.Data.Int.Notation
import Mathlib.Data.List.Basic

/-!
# Devices that take part of what they are offered

A `write` may take any part of the data it is offered, or nothing for the moment. `writeAll` is the
loop around it: offer what is left until nothing is. However the device behaves, it has taken the
data as a whole and in order in the end (`writeAll_taken`).
-/

namespace OlivePiccolo

/-- A device with states `σ` that takes data of type `α`. -/
structure Device (σ α : Type*) where
  /-- Offer some data; the result is the number of elements taken, or an error. -/
  write : σ → List α → σ × ℤ
  /-- A bound on how many calls in a row take nothing. -/
  wait : σ → ℕ
  write_le : ∀ s data, (write s data).2 ≤ data.length
  progress : ∀ s data, data ≠ [] → (write s data).2 ≤ 0 → wait (write s data).1 < wait s

namespace Device

variable {σ α : Type*}

/-- A device that takes everything at once. -/
def greedy : Device σ α where
  write s data := (s, data.length)
  wait _ := 0
  write_le _ _ := Int.le_refl _
  progress _ data hne h := by
    have hpos := List.length_pos_iff.mpr hne
    have hle : (data.length : ℤ) ≤ 0 := h
    omega

/-- Offer the data until all of it is taken: the state in the end, and what has been taken. -/
def writeAll (d : Device σ α) (s : σ) (data : List α) : σ × List α :=
  if data = [] then (s, [])
  else if 0 < (d.write s data).2 then
    ((d.writeAll (d.write s data).1 (data.drop (d.write s data).2.toNat)).1,
      data.take (d.write s data).2.toNat ++
        (d.writeAll (d.write s data).1 (data.drop (d.write s data).2.toNat)).2)
  else d.writeAll (d.write s data).1 data
termination_by (data.length, d.wait s)
decreasing_by
  all_goals first
    | apply Prod.Lex.left
      have hpos := List.length_pos_iff.mpr ‹data ≠ []›
      rw [List.length_drop]
      omega
    | apply Prod.Lex.right
      exact d.progress s data ‹_› (by omega)

/-- Whatever parts the device takes, it has taken everything in the end. -/
theorem writeAll_taken (d : Device σ α) (s : σ) (data : List α) :
    (d.writeAll s data).2 = data := by
  induction s, data using Device.writeAll.induct d with
  | case1 s => rw [writeAll, if_pos rfl]
  | case2 s data hne hpos ih =>
    rw [writeAll, if_neg hne, if_pos hpos]
    show data.take _ ++ (d.writeAll _ _).2 = data
    rw [ih, List.take_append_drop]
  | case3 s data hne hpos ih => rw [writeAll, if_neg hne, if_neg hpos, ih]

end Device

end OlivePiccolo
