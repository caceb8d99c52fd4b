import OlivePiccolo.Library.Dialog

/-!
# What a program says and hears

`Traces d l a` holds if `d` can say and hear `l` from its start to its end, with the result `a`. No
device is fixed: the answers are whatever the trace has. A run against a device leaves a trace
(`Traces.of_run`).
-/

namespace OlivePiccolo.Dialog

universe u

variable {ι σ : Type*} {ω α β : Type u}

/-- The program says and hears `l`, and ends with `a`. -/
def Traces : Dialog ι ω α → List (ι × ω) → α → Prop
  | ret a, l, b => l = [] ∧ a = b
  | fault, _, _ => False
  | late, _, _ => False
  | say _ _, [], _ => False
  | say c k, (c', r) :: l, b => c' = c ∧ (k r).Traces l b

section Rules

variable {d : Dialog ι ω α} {f : α → Dialog ι ω β} {l : List (ι × ω)} {a : α} {b : β}

theorem traces_pure {a' : α} : Traces (pure a' : Dialog ι ω α) l a ↔ l = [] ∧ a' = a := Iff.rfl

theorem traces_say {c : ι} {k : ω → Dialog ι ω α} :
    (say c k).Traces l a ↔ ∃ r l', l = (c, r) :: l' ∧ (k r).Traces l' a := by
  constructor
  · intro h
    match l, h with
    | (_, r) :: l', ⟨rfl, hk⟩ => exact ⟨r, l', rfl, hk⟩
  · rintro ⟨r, l', rfl, hk⟩
    exact ⟨rfl, hk⟩

theorem traces_bind :
    (d >>= f).Traces l b ↔ ∃ l₁ l₂ a, l = l₁ ++ l₂ ∧ d.Traces l₁ a ∧ (f a).Traces l₂ b := by
  change (d.bind f).Traces l b ↔ _
  induction d generalizing l with
  | ret a =>
    constructor
    · exact fun h => ⟨[], l, a, rfl, ⟨rfl, rfl⟩, h⟩
    · rintro ⟨l₁, l₂, a', rfl, ⟨rfl, rfl⟩, h⟩
      exact h
  | fault =>
    constructor
    · exact fun h => h.elim
    · rintro ⟨_, _, _, _, h, _⟩
      exact h
  | late =>
    constructor
    · exact fun h => h.elim
    · rintro ⟨_, _, _, _, h, _⟩
      exact h
  | say c k ih =>
    constructor
    · intro h
      obtain ⟨r, l', rfl, hk⟩ := traces_say.mp h
      obtain ⟨l₁, l₂, a, rfl, h₁, h₂⟩ := (ih r).mp hk
      exact ⟨(c, r) :: l₁, l₂, a, rfl, ⟨rfl, h₁⟩, h₂⟩
    · rintro ⟨l₁, l₂, a, rfl, h₁, h₂⟩
      obtain ⟨r, l', rfl, hk⟩ := traces_say.mp h₁
      exact ⟨rfl, (ih r).mpr ⟨l', l₂, a, rfl, hk, h₂⟩⟩

theorem traces_ask {c : ι} {f : ω → Dialog ι ω β} :
    (ask c >>= f).Traces l b ↔ ∃ r l', l = (c, r) :: l' ∧ (f r).Traces l' b := traces_say

theorem traces_access {o : Option α} {f : α → Dialog ι ω β} :
    ((access o : Dialog ι ω α) >>= f).Traces l b ↔ ∃ a, o = some a ∧ (f a).Traces l b := by
  cases o with
  | none =>
    constructor
    · exact fun h => h.elim
    · rintro ⟨_, h, _⟩
      cases h
  | some a =>
    constructor
    · exact fun h => ⟨a, rfl, h⟩
    · rintro ⟨_, ⟨rfl⟩, h⟩
      exact h

end Rules

/-! ## Traces and the other readings -/

/-- A run against a device leaves a trace in its record. -/
theorem Traces.of_run {reply : σ → ι → ω × σ} {d : Dialog ι ω α} {s s' : σ} {l₀ l : List (ι × ω)}
    {a : α} (h : d.run (recording reply) (s, l₀) = some (a, (s', l))) :
    ∃ l', l = l₀ ++ l' ∧ d.Traces l' a := by
  induction d generalizing s l₀ with
  | ret a' =>
    cases h
    exact ⟨[], (List.append_nil l).symm, rfl, rfl⟩
  | fault => cases h
  | late => cases h
  | say c k ih =>
    obtain ⟨l', hl, h'⟩ := ih _ h
    refine ⟨(c, (reply s c).1) :: l', ?_, rfl, h'⟩
    rw [hl, List.append_assoc]
    rfl

/-- What a run records are answers of the device. -/
theorem recorded_of_run {reply : σ → ι → ω × σ} {d : Dialog ι ω α} {s s' : σ} {l : List (ι × ω)}
    {a : α} (h : d.run (recording reply) (s, []) = some (a, (s', l))) :
    ∀ x ∈ l, ∃ s, x.2 = (reply s x.1).1 := by
  have hall : d.Every (fun _ => True) (fun _ => True) fun _ => True :=
    .of_forall d (fun _ => trivial) fun _ => trivial
  refine (hall.run_invariant (I := fun st : σ × List (ι × ω) =>
    ∀ x ∈ st.2, ∃ s, x.2 = (reply s x.1).1) (fun _ _ => trivial) ?_ ?_ h).2
  · intro st c hst _
    refine List.forall_mem_append.mpr ⟨hst, ?_⟩
    exact List.forall_mem_singleton.mpr ⟨st.1, rfl⟩
  · exact fun _ h => absurd h List.not_mem_nil

/-- What holds of all that can be said holds of what has been said. -/
theorem Every.of_traces {A : ω → Prop} {P : ι → Prop} {Q : α → Prop} {d : Dialog ι ω α}
    {l : List (ι × ω)} {a : α} (h : d.Every A P Q) (hA : ∀ x ∈ l, A x.2) (ht : d.Traces l a) :
    (∀ x ∈ l, P x.1) ∧ Q a := by
  induction d generalizing l with
  | ret a' =>
    obtain ⟨rfl, rfl⟩ := ht
    exact ⟨fun x hx => absurd hx List.not_mem_nil, h⟩
  | fault => exact ht.elim
  | late => exact ht.elim
  | say c k ih =>
    obtain ⟨r, l', rfl, hk⟩ := traces_say.mp ht
    obtain ⟨hsaid, hresult⟩ := ih r (h.2 r (hA _ List.mem_cons_self))
      (fun x hx => hA x (List.mem_cons_of_mem _ hx)) hk
    refine ⟨fun x hx => ?_, hresult⟩
    rcases List.mem_cons.mp hx with rfl | hx
    · exact h.1
    · exact hsaid x hx

end OlivePiccolo.Dialog
