import OlivePiccolo.Library.Dialog

/-!
# Programs under observation

What a word means can depend on what was said before. An observer keeps a state of its own: `next`
is its state after a word, whatever the answer to it was. `Along` holds of all that a program can
say in the state of the observer, and `Reaches` says that some answers lead to a result. `relabel`
has a program talk to a device with more words and other answers. `OnlySays` is for what can be seen
without an observer: that a program does not say some words at all.
-/

namespace OlivePiccolo.Dialog

universe u

variable {ι ι' σ : Type*} {ω ω' α β : Type u} {next : σ → ι → σ} {P : σ → ι → Prop}

/-- Whatever the answers are, all that is said meets `P`, and the result `Q`, in the state of the
observer. -/
def Along (next : σ → ι → σ) (P : σ → ι → Prop) (Q : α → σ → Prop) : Dialog ι ω α → σ → Prop
  | ret a, s => Q a s
  | fault, _ => True
  | late, _ => True
  | say c k, s => P s c ∧ ∀ r, (k r).Along next P Q (next s c)

/-- Some answers lead to the result, and the observer to the state. -/
def Reaches (next : σ → ι → σ) (a : α) (s' : σ) : Dialog ι ω α → σ → Prop
  | ret a', s => a' = a ∧ s = s'
  | fault, _ => False
  | late, _ => False
  | say c k, s => ∃ r, (k r).Reaches next a s' (next s c)

/-- The same program, with other words and answers. -/
def relabel (f : ι → ι') (g : ω' → ω) : Dialog ι ω α → Dialog ι' ω' α
  | ret a => ret a
  | fault => fault
  | late => late
  | say c k => say (f c) fun r => (k (g r)).relabel f g

namespace Along

variable {Q : α → σ → Prop} {R : β → σ → Prop} {d : Dialog ι ω α} {f : α → Dialog ι ω β} {s s' : σ}

theorem bind (h : d.Along next P Q s) (hf : ∀ a s', Q a s' → (f a).Along next P R s') :
    (d >>= f).Along next P R s := by
  change (d.bind f).Along next P R s
  induction d generalizing s with
  | ret a => exact hf a s h
  | fault => trivial
  | late => trivial
  | say c k ih => exact ⟨h.1, fun r => ih r (h.2 r)⟩

theorem ask {c : ι} {f : ω → Dialog ι ω β} (hc : P s c)
    (hf : ∀ r, (f r).Along next P R (next s c)) : (Dialog.ask c >>= f).Along next P R s := ⟨hc, hf⟩

theorem access {o : Option α} (hf : ∀ a, o = some a → (f a).Along next P R s) :
    ((Dialog.access o : Dialog ι ω α) >>= f).Along next P R s := by
  cases o with
  | none => trivial
  | some a => exact hf a rfl

theorem ite {c : Prop} [Decidable c] {d d' : Dialog ι ω α} (hpos : c → d.Along next P Q s)
    (hneg : ¬ c → d'.Along next P Q s) : (if c then d else d').Along next P Q s := by
  by_cases hc : c
  · rw [if_pos hc]
    exact hpos hc
  · rw [if_neg hc]
    exact hneg hc

theorem mono {P' : σ → ι → Prop} {Q' : α → σ → Prop} (h : d.Along next P Q s)
    (hP : ∀ s c, P s c → P' s c) (hQ : ∀ a s, Q a s → Q' a s) : d.Along next P' Q' s := by
  induction d generalizing s with
  | ret a => exact hQ a s h
  | fault => trivial
  | late => trivial
  | say c k ih => exact ⟨hP s c h.1, fun r => ih r (h.2 r)⟩

/-- What follows a result that can be reached is observed as well. -/
theorem of_bind {a : α} (h : (d >>= f).Along next P R s) (ha : d.Reaches next a s' s) :
    (f a).Along next P R s' := by
  change (d.bind f).Along next P R s at h
  induction d generalizing s with
  | ret a' =>
    obtain ⟨rfl, rfl⟩ : a' = a ∧ s = s' := ha
    exact h
  | fault => exact ha.elim
  | late => exact ha.elim
  | say c k ih =>
    obtain ⟨r, hr⟩ := ha
    exact ih r hr (h.2 r)

/-- An observer of the relabelled program observes the program. -/
theorem relabel_iff {next : σ → ι' → σ} {P : σ → ι' → Prop} {f : ι → ι'} {g : ω' → ω}
    (hg : Function.Surjective g) :
    (d.relabel f g).Along next P Q s ↔
      d.Along (fun s c => next s (f c)) (fun s c => P s (f c)) Q s := by
  induction d generalizing s with
  | ret a => exact Iff.rfl
  | fault => exact Iff.rfl
  | late => exact Iff.rfl
  | say c k ih =>
    refine and_congr Iff.rfl ⟨fun h r => ?_, fun h r => (ih (g r)).mpr (h (g r))⟩
    obtain ⟨r', rfl⟩ := hg r
    exact (ih (g r')).mp (h r')

end Along

namespace Reaches

variable {d : Dialog ι ω α} {f : α → Dialog ι ω β} {s s' s'' : σ} {a : α} {b : β}

theorem bind (ha : d.Reaches next a s' s) (hb : (f a).Reaches next b s'' s') :
    (d >>= f).Reaches next b s'' s := by
  change (d.bind f).Reaches next b s'' s
  induction d generalizing s with
  | ret a' =>
    obtain ⟨rfl, rfl⟩ : a' = a ∧ s = s' := ha
    exact hb
  | fault => exact ha.elim
  | late => exact ha.elim
  | say c k ih =>
    obtain ⟨r, hr⟩ := ha
    exact ⟨r, ih r hr⟩

theorem ask {c : ι} {f : ω → Dialog ι ω β} (r : ω) (hf : (f r).Reaches next b s' (next s c)) :
    (Dialog.ask c >>= f).Reaches next b s' s := ⟨r, hf⟩

end Reaches

/-- Whatever the answers are, all that is said meets `P`. -/
def OnlySays (P : ι → Prop) : Dialog ι ω α → Prop
  | ret _ => True
  | fault => True
  | late => True
  | say c k => P c ∧ ∀ r, (k r).OnlySays P

namespace OnlySays

variable {P : ι → Prop} {d d' : Dialog ι ω α} {f : α → Dialog ι ω β}

theorem pure (a : α) : (Pure.pure a : Dialog ι ω α).OnlySays P := trivial

theorem bind (h : d.OnlySays P) (hf : ∀ a, (f a).OnlySays P) : (d >>= f).OnlySays P := by
  change (d.bind f).OnlySays P
  induction d with
  | ret a => exact hf a
  | fault => trivial
  | late => trivial
  | say c k ih => exact ⟨h.1, fun r => ih r (h.2 r)⟩

theorem ask {c : ι} (hc : P c) : (Dialog.ask c : Dialog ι ω ω).OnlySays P :=
  ⟨hc, fun _ => trivial⟩

theorem access (o : Option α) : (Dialog.access o : Dialog ι ω α).OnlySays P := by
  cases o with
  | none => trivial
  | some a => trivial

theorem ite {c : Prop} [Decidable c] (hpos : c → d.OnlySays P) (hneg : ¬ c → d'.OnlySays P) :
    (if c then d else d').OnlySays P := by
  by_cases hc : c
  · rw [if_pos hc]
    exact hpos hc
  · rw [if_neg hc]
    exact hneg hc

/-- With other words, the words that are said are those of the program. -/
theorem relabel {P : ι' → Prop} {d : Dialog ι ω α} (f : ι → ι') (g : ω' → ω) (hf : ∀ c, P (f c)) :
    (d.relabel f g).OnlySays P := by
  induction d with
  | ret a => trivial
  | fault => trivial
  | late => trivial
  | say c k ih => exact ⟨hf c, fun r => ih (g r)⟩

end OnlySays

end OlivePiccolo.Dialog
