import Mathlib.Data.List.Forall2

/-!
# Runs of an event-driven machine

A machine is a partial function `step : σ → ε → Option σ`: the event `e` is enabled in `s` when
`step s e` is `some`. `Path step ok s es t` is a run from `s` to `t` by the events `es`, every
one of them enabled in its state and meeting the condition `ok` there. Interleavings of several
parties are runs of one machine whose events carry the party.
-/

namespace OlivePiccolo.Runs

variable {σ ε : Type*} {step : σ → ε → Option σ} {ok : σ → ε → Prop}

/-- No condition on the steps. -/
abbrev anyStep : σ → ε → Prop := fun _ _ => True

/-- A run from `s` whose steps all meet `ok`; the events are in order, the last one at the end. -/
inductive Path (step : σ → ε → Option σ) (ok : σ → ε → Prop) (s : σ) : List ε → σ → Prop
  | nil : Path step ok s [] s
  | snoc {es : List ε} {t u : σ} {e : ε} :
      Path step ok s es t → ok t e → step t e = some u → Path step ok s (es ++ [e]) u

/-- Run the events, as long as they are enabled and meet the condition. -/
def exec (step : σ → ε → Option σ) (ok : σ → ε → Prop) [∀ s e, Decidable (ok s e)] (s : σ) :
    List ε → Option σ
  | [] => some s
  | e :: es => if ok s e then (step s e).bind fun t => exec step ok t es else none

namespace Path

/-- **Invariant rule.** What holds at the start and is kept by every step holds at the end. -/
theorem invariant {I : σ → Prop} {s t : σ} {es : List ε} (h : Path step ok s es t) (h0 : I s)
    (hstep : ∀ s e t, I s → ok s e → step s e = some t → I t) : I t := by
  induction h with
  | nil => exact h0
  | snoc _ ho hs ih => exact hstep _ _ _ ih ho hs

theorem trans {s t u : σ} {es fs : List ε} (h : Path step ok s es t) (h' : Path step ok t fs u) :
    Path step ok s (es ++ fs) u := by
  induction h' with
  | nil => rwa [List.append_nil]
  | snoc _ ho hs ih => rw [← List.append_assoc]; exact .snoc ih ho hs

/-- **Simulation rule.** A run whose steps are each matched by a run of another machine is matched
by a run of it. `E` says which events match one. -/
theorem simulated {τ δ : Type*} {step' : τ → δ → Option τ} {ok' : τ → δ → Prop} {R : σ → τ → Prop}
    {E : ε → List δ → Prop} {s t : σ} {a : τ} {es : List ε} (h : Path step ok s es t) (h0 : R s a)
    (hstep : ∀ s e t a, R s a → ok s e → step s e = some t →
      ∃ fs b, E e fs ∧ Path step' ok' a fs b ∧ R t b) :
    ∃ fss b, List.Forall₂ E es fss ∧ Path step' ok' a fss.flatten b ∧ R t b := by
  induction h with
  | nil => exact ⟨[], a, .nil, .nil, h0⟩
  | snoc _ ho hs ih =>
    obtain ⟨fss, b, hes, hpath, hr⟩ := ih
    obtain ⟨fs, c, he, hpath', hr'⟩ := hstep _ _ _ b hr ho hs
    refine ⟨fss ++ [fs], c, List.rel_append hes (.cons he .nil), ?_, hr'⟩
    rw [List.flatten_concat]
    exact hpath.trans hpath'

theorem single {s t : σ} {e : ε} (ho : ok s e) (hs : step s e = some t) :
    Path step ok s [e] t := .snoc .nil ho hs

end Path

/-- Events that can be executed are a run. -/
theorem path_of_exec [∀ s e, Decidable (ok s e)] {s t : σ} {es : List ε}
    (h : exec step ok s es = some t) : Path step ok s es t := by
  induction es generalizing s with
  | nil => cases h; exact .nil
  | cons e es ih =>
    rw [exec, Option.ite_none_right_eq_some, Option.bind_eq_some_iff] at h
    obtain ⟨hok, u, hu, ht⟩ := h
    exact (Path.single hok hu).trans (ih ht)

/-- The run that an execution has found. -/
theorem path_get [∀ s e, Decidable (ok s e)] {s : σ} {es : List ε}
    (h : (exec step ok s es).isSome) : Path step ok s es ((exec step ok s es).get h) :=
  path_of_exec (Option.some_get h).symm

end OlivePiccolo.Runs
