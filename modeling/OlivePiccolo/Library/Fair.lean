import OlivePiccolo.Library.Trace

/-!
# Programs under fair answers

What may be answered depends on what was said. `Meets A P Q d`: as long as all answers are fair in
the sense of `A`, all that `d` says meets `P`, and its result meets `Q` together with all that was
said and answered on the way. The rules are equivalences, so that they show as well what a program
does not meet.
-/

namespace OlivePiccolo.Dialog

universe u

variable {ι : Type*} {ω α β : Type u}

/-- With fair answers, all that is said meets `P`, and what was said, with the result, meets `Q`. -/
def Meets (A : ι → ω → Prop) (P : ι → Prop) :
    Dialog ι ω α → (List (ι × ω) → α → Prop) → Prop
  | ret a, Q => Q [] a
  | fault, _ => True
  | late, _ => True
  | say c k, Q => P c ∧ ∀ r, A c r → (k r).Meets A P fun l => Q ((c, r) :: l)

section Rules

variable {A : ι → ω → Prop} {P : ι → Prop} {d d' : Dialog ι ω α} {f : α → Dialog ι ω β}
  {Q : List (ι × ω) → α → Prop} {R : List (ι × ω) → β → Prop}

theorem Meets.mono {P' : ι → Prop} {Q' : List (ι × ω) → α → Prop} (h : d.Meets A P Q)
    (hP : ∀ c, P c → P' c) (hQ : ∀ l a, Q l a → Q' l a) : d.Meets A P' Q' := by
  induction d generalizing Q Q' with
  | ret a => exact hQ [] a h
  | fault => trivial
  | late => trivial
  | say c k ih => exact ⟨hP c h.1, fun r hr => ih r (h.2 r hr) fun l => hQ ((c, r) :: l)⟩

/-- What holds with fair answers holds of every trace with fair answers. -/
theorem Meets.of_traces {l : List (ι × ω)} {a : α} (h : d.Meets A P Q) (ht : d.Traces l a)
    (hA : ∀ x ∈ l, A x.1 x.2) : (∀ x ∈ l, P x.1) ∧ Q l a := by
  induction d generalizing l Q with
  | ret a' =>
    obtain ⟨rfl, rfl⟩ := ht
    exact ⟨fun x hx => absurd hx List.not_mem_nil, h⟩
  | fault => exact ht.elim
  | late => exact ht.elim
  | say c k ih =>
    obtain ⟨r, l', rfl, hk⟩ := traces_say.mp ht
    obtain ⟨hsaid, hresult⟩ := ih r (h.2 r (hA _ List.mem_cons_self)) hk
      fun x hx => hA x (List.mem_cons_of_mem _ hx)
    exact ⟨List.forall_mem_cons.mpr ⟨h.1, hsaid⟩, hresult⟩

end Rules

end OlivePiccolo.Dialog
