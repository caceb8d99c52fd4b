import Mathlib.Data.Nat.Notation
import Mathlib.Logic.Basic

/-!
# Loops that end

A loop is its body, which goes on with another state or leaves with a result; a program that reads
what is not there has no result. `Ensures o Q` says that there is a result, and that `Q` holds of it.
The rule for loops (`Ensures.loop`) takes an invariant, and a measure that every round decreases.
-/

namespace OlivePiccolo

/-- There is a result, and it is as asked for. -/
def Ensures {α : Type*} (o : Option α) (Q : α → Prop) : Prop := ∃ a, o = some a ∧ Q a

/-- What a round of a loop leads to. -/
inductive Round (σ ρ : Type*)
  | again (s : σ)
  | done (r : ρ)

/-- At most `fuel` rounds. -/
def loop {σ ρ : Type*} (body : σ → Option (Round σ ρ)) : ℕ → σ → Option ρ
  | 0, _ => none
  | fuel + 1, s => (body s).bind fun
    | .again s' => loop body fuel s'
    | .done r => some r

namespace Ensures

variable {α β σ ρ : Type*} {o : Option α} {f : α → Option β} {P Q : α → Prop} {R : β → Prop}

theorem pure {a : α} (h : Q a) : Ensures (some a) Q := ⟨a, rfl, h⟩

theorem mono (h : Ensures o P) (himp : ∀ a, P a → Q a) : Ensures o Q := by
  obtain ⟨a, ha, hP⟩ := h
  exact ⟨a, ha, himp a hP⟩

theorem bind (h : Ensures o P) (hf : ∀ a, P a → Ensures (f a) R) : Ensures (o.bind f) R := by
  obtain ⟨a, rfl, hP⟩ := h
  exact hf a hP

/-- A result that is known. -/
theorem bind_of_eq {a : α} (h : o = some a) (hf : Ensures (f a) R) : Ensures (o.bind f) R := by
  rw [h]
  exact hf

theorem map {g : α → β} (h : Ensures o fun a => R (g a)) : Ensures (o.map g) R := by
  obtain ⟨a, rfl, hR⟩ := h
  exact ⟨g a, rfl, hR⟩

theorem ite {c : Prop} [Decidable c] {o' : Option α} (hpos : c → Ensures o Q)
    (hneg : ¬ c → Ensures o' Q) : Ensures (if c then o else o') Q := by
  by_cases hc : c
  · rw [if_pos hc]
    exact hpos hc
  · rw [if_neg hc]
    exact hneg hc

/-- What a round of a loop has to do: keep the invariant and decrease the measure, or leave with a
result as asked for. -/
def AfterRound (I : σ → Prop) (m : σ → ℕ) (Q : ρ → Prop) (s : σ) : Round σ ρ → Prop
  | .again s' => I s' ∧ m s' < m s
  | .done r => Q r

/-- **Rule for loops.** -/
theorem loop {body : σ → Option (Round σ ρ)} {I : σ → Prop} {m : σ → ℕ} {Q : ρ → Prop}
    (hbody : ∀ s, I s → Ensures (body s) (AfterRound I m Q s)) {fuel : ℕ} {s : σ} (hs : I s)
    (hfuel : m s < fuel) : Ensures (OlivePiccolo.loop body fuel s) Q := by
  induction fuel generalizing s with
  | zero => exact absurd hfuel (Nat.not_lt_zero _)
  | succ fuel ih =>
    refine (hbody s hs).bind fun next hnext => ?_
    cases next with
    | again s' => exact ih hnext.1 (Nat.lt_of_lt_of_le hnext.2 (Nat.le_of_lt_succ hfuel))
    | done r => exact .pure hnext

end Ensures

end OlivePiccolo
