import OlivePiccolo.Library.Loop

/-!
# Programs that talk to a device

A program says something and goes on with the answer. Two readings of it: `run` against a device,
which is a function from its state and what is said to the answer and its next state (`Ensures` then
says that the program ends, and how); and `Every`, which holds of all that it can say, whatever the
answers are.
-/

namespace OlivePiccolo

/-- A program that says `ι` and hears `ω`. -/
inductive Dialog (ι ω α : Type*)
  | ret (a : α)
  /-- An access outside of memory. -/
  | fault
  /-- A loop has used up its rounds. -/
  | late
  | say (c : ι) (k : ω → Dialog ι ω α)

namespace Dialog

universe u

variable {ι σ : Type*} {ω α β : Type u}

def bind : Dialog ι ω α → (α → Dialog ι ω β) → Dialog ι ω β
  | ret a, f => f a
  | fault, _ => fault
  | late, _ => late
  | say c k, f => say c fun r => (k r).bind f

instance : Monad (Dialog ι ω) where
  pure := ret
  bind := bind

/-- Say something and hear the answer. -/
def ask (c : ι) : Dialog ι ω ω := say c ret

/-- An access to memory. -/
def access : Option α → Dialog ι ω α
  | some a => ret a
  | none => fault

theorem bind_assoc {γ : Type u} (d : Dialog ι ω α) (f : α → Dialog ι ω β) (g : β → Dialog ι ω γ) :
    (d.bind f).bind g = d.bind fun a => (f a).bind g := by
  induction d with
  | ret a => rfl
  | fault => rfl
  | late => rfl
  | say c k ih => exact congrArg (say c) (funext fun r => ih r)

instance : LawfulMonad (Dialog ι ω) :=
  LawfulMonad.mk' (Dialog ι ω)
    (fun d => by
      show d.bind ret = d
      induction d with
      | ret a => rfl
      | fault => rfl
      | late => rfl
      | say c k ih => exact congrArg (say c) (funext fun r => ih r))
    (fun _ _ => rfl) bind_assoc

/-! ## Against a device -/

/-- The result and the last state of the device. -/
def run (reply : σ → ι → ω × σ) : Dialog ι ω α → σ → Option (α × σ)
  | ret a, s => some (a, s)
  | fault, _ => none
  | late, _ => none
  | say c k, s => (k (reply s c).1).run reply (reply s c).2

/-- The program makes an access outside of memory. -/
def Faults (reply : σ → ι → ω × σ) : Dialog ι ω α → σ → Prop
  | ret _, _ => False
  | fault, _ => True
  | late, _ => False
  | say c k, s => (k (reply s c).1).Faults reply (reply s c).2

/-- A device with a record of what was said and answered. -/
def recording (reply : σ → ι → ω × σ) (s : σ × List (ι × ω)) (c : ι) : ω × (σ × List (ι × ω)) :=
  ((reply s.1 c).1, (reply s.1 c).2, s.2 ++ [(c, (reply s.1 c).1)])

section Run

variable {reply : σ → ι → ω × σ} {d : Dialog ι ω α} {f : α → Dialog ι ω β} {s : σ}

theorem run_bind (d : Dialog ι ω α) (f : α → Dialog ι ω β) (s : σ) :
    (d >>= f).run reply s = (d.run reply s).bind fun r => (f r.1).run reply r.2 := by
  show (d.bind f).run reply s = _
  induction d generalizing s with
  | ret a => rfl
  | fault => rfl
  | late => rfl
  | say c k ih => exact ih _ _

theorem run_ask (c : ι) (f : ω → Dialog ι ω β) (s : σ) :
    (ask c >>= f).run reply s = (f (reply s c).1).run reply (reply s c).2 := rfl

theorem faults_ask (c : ι) (f : ω → Dialog ι ω β) (s : σ) :
    (ask c >>= f).Faults reply s = (f (reply s c).1).Faults reply (reply s c).2 := rfl

theorem Faults.bind_left (h : d.Faults reply s) : (d >>= f).Faults reply s := by
  change (d.bind f).Faults reply s
  induction d generalizing s with
  | ret a => exact h.elim
  | fault => trivial
  | late => exact h.elim
  | say c k ih => exact ih _ h

theorem Faults.bind_right {a : α} {s' : σ} (hd : d.run reply s = some (a, s'))
    (hf : (f a).Faults reply s') : (d >>= f).Faults reply s := by
  change (d.bind f).Faults reply s
  induction d generalizing s with
  | ret a =>
    cases hd
    exact hf
  | fault => cases hd
  | late => cases hd
  | say c k ih => exact ih _ hd

theorem faults_bind : (d >>= f).Faults reply s ↔
    d.Faults reply s ∨ ∃ a s', d.run reply s = some (a, s') ∧ (f a).Faults reply s' := by
  constructor
  · change (d.bind f).Faults reply s → _
    intro h
    induction d generalizing s with
    | ret a => exact .inr ⟨a, s, rfl, h⟩
    | fault => exact .inl trivial
    | late => exact h.elim
    | say c k ih => exact ih _ h
  · rintro (h | ⟨a, s', hd, hf⟩)
    · exact h.bind_left
    · exact Faults.bind_right hd hf

/-- What faults has no result. -/
theorem Faults.run_eq_none (h : d.Faults reply s) : d.run reply s = none := by
  induction d generalizing s with
  | ret a => exact h.elim
  | fault => rfl
  | late => rfl
  | say c k ih => exact ih _ h

end Run

end Dialog

namespace Ensures

universe u

variable {ι σ : Type*} {ω α β : Type u} {reply : σ → ι → ω × σ} {s : σ}

open Dialog

theorem run_ret {a : α} {Q : α × σ → Prop} (h : Q (a, s)) :
    Ensures ((ret a : Dialog ι ω α).run reply s) Q := .pure h

theorem run_bind {d : Dialog ι ω α} {f : α → Dialog ι ω β} {P : α × σ → Prop} {Q : β × σ → Prop}
    (h : Ensures (d.run reply s) P) (hf : ∀ a s', P (a, s') → Ensures ((f a).run reply s') Q) :
    Ensures ((d >>= f).run reply s) Q := by
  rw [Dialog.run_bind]
  exact h.bind fun r hr => hf r.1 r.2 hr

/-- Something is said. -/
theorem run_ask {c : ι} {f : ω → Dialog ι ω β} {Q : β × σ → Prop}
    (h : Ensures ((f (reply s c).1).run reply (reply s c).2) Q) :
    Ensures ((ask c >>= f).run reply s) Q := h

theorem run_access {o : Option α} {a : α} {f : α → Dialog ι ω β} {Q : β × σ → Prop}
    (ho : o = some a) (h : Ensures ((f a).run reply s) Q) :
    Ensures ((access o >>= f).run reply s) Q := by
  rw [ho]
  exact h

theorem run_ite {c : Prop} [Decidable c] {d d' : Dialog ι ω α} {Q : α × σ → Prop}
    (hpos : c → Ensures (d.run reply s) Q) (hneg : ¬ c → Ensures (d'.run reply s) Q) :
    Ensures ((if c then d else d').run reply s) Q := by
  by_cases hc : c
  · rw [if_pos hc]
    exact hpos hc
  · rw [if_neg hc]
    exact hneg hc

end Ensures

/-! ## Whatever the answers are -/

namespace Dialog

universe u

variable {ι σ : Type*} {ω α β : Type u} {A : ω → Prop} {P : ι → Prop} {Q : α → Prop} {R : β → Prop}

/-- As long as the answers meet `A`, all that is said meets `P`, and the result `Q`. -/
def Every (A : ω → Prop) (P : ι → Prop) (Q : α → Prop) : Dialog ι ω α → Prop
  | ret a => Q a
  | fault => True
  | late => True
  | say c k => P c ∧ ∀ r, A r → (k r).Every A P Q

/-- Some answers lead to the result. -/
def Can (a : α) : Dialog ι ω α → Prop
  | ret a' => a' = a
  | fault => False
  | late => False
  | say _ k => ∃ r, (k r).Can a

theorem Can.bind {d : Dialog ι ω α} {f : α → Dialog ι ω β} {a : α} {b : β} (ha : d.Can a)
    (hb : (f a).Can b) : (d >>= f).Can b := by
  change (d.bind f).Can b
  induction d with
  | ret a' =>
    obtain rfl : a' = a := ha
    exact hb
  | fault => exact ha.elim
  | late => exact ha.elim
  | say c k ih =>
    obtain ⟨r, hr⟩ := ha
    exact ⟨r, ih r hr⟩

namespace Every

theorem mono {P' : ι → Prop} {Q' : α → Prop} {d : Dialog ι ω α} (h : d.Every A P Q)
    (hP : ∀ c, P c → P' c) (hQ : ∀ a, Q a → Q' a) : d.Every A P' Q' := by
  induction d with
  | ret a => exact hQ a h
  | fault => trivial
  | late => trivial
  | say c k ih => exact ⟨hP c h.1, fun r hr => ih r (h.2 r hr)⟩

theorem of_forall (d : Dialog ι ω α) (hP : ∀ c, P c) (hQ : ∀ a, Q a) : d.Every A P Q := by
  induction d with
  | ret a => exact hQ a
  | fault => trivial
  | late => trivial
  | say c k ih => exact ⟨hP c, fun r _ => ih r⟩

theorem bind {d : Dialog ι ω α} {f : α → Dialog ι ω β} (h : d.Every A P Q)
    (hf : ∀ a, Q a → (f a).Every A P R) : (d >>= f).Every A P R := by
  change (d.bind f).Every A P R
  induction d with
  | ret a => exact hf a h
  | fault => trivial
  | late => trivial
  | say c k ih => exact ⟨h.1, fun r hr => ih r (h.2 r hr)⟩

theorem ask {c : ι} {f : ω → Dialog ι ω β} (hc : P c) (hf : ∀ r, A r → (f r).Every A P R) :
    (Dialog.ask c >>= f).Every A P R := ⟨hc, hf⟩

theorem access {o : Option α} {f : α → Dialog ι ω β} (hf : ∀ a, o = some a → (f a).Every A P R) :
    ((Dialog.access o : Dialog ι ω α) >>= f).Every A P R := by
  cases o with
  | none => trivial
  | some a => exact hf a rfl

theorem ite {c : Prop} [Decidable c] {d d' : Dialog ι ω α} (hpos : c → d.Every A P Q)
    (hneg : ¬ c → d'.Every A P Q) : (if c then d else d').Every A P Q := by
  by_cases hc : c
  · rw [if_pos hc]
    exact hpos hc
  · rw [if_neg hc]
    exact hneg hc

/-- What is said before a result that can be reached is said as well. -/
theorem of_bind {d : Dialog ι ω α} {f : α → Dialog ι ω β} {a : α}
    (h : (d >>= f).Every (fun _ => True) P R) (ha : d.Can a) :
    (f a).Every (fun _ => True) P R := by
  change (d.bind f).Every _ P R at h
  induction d with
  | ret a' =>
    obtain rfl : a' = a := ha
    exact h
  | fault => exact ha.elim
  | late => exact ha.elim
  | say c k ih =>
    obtain ⟨r, hr⟩ := ha
    exact ih r hr (h.2 r trivial)

theorem left {d : Dialog ι ω α} {f : α → Dialog ι ω β} (h : (d >>= f).Every A P R) :
    d.Every A P fun _ => True := by
  change (d.bind f).Every A P R at h
  induction d with
  | ret a => trivial
  | fault => trivial
  | late => trivial
  | say c k ih => exact ⟨h.1, fun r hr => ih r (h.2 r hr)⟩

/-- What every permitted word keeps is kept by a run. -/
theorem run_invariant {I : σ → Prop} {reply : σ → ι → ω × σ} {d : Dialog ι ω α} {s s' : σ} {a : α}
    (h : d.Every A P Q) (hA : ∀ s c, A (reply s c).1)
    (hI : ∀ s c, I s → P c → I (reply s c).2) (hs : I s) (hrun : d.run reply s = some (a, s')) :
    Q a ∧ I s' := by
  induction d generalizing s with
  | ret a' =>
    cases hrun
    exact ⟨h, hs⟩
  | fault => cases hrun
  | late => cases hrun
  | say c k ih => exact ih _ (h.2 _ (hA s c)) (hI s c hs h.1) hrun

/-- The result of a run. -/
theorem of_run {reply : σ → ι → ω × σ} {d : Dialog ι ω α} {s s' : σ} {a : α} (h : d.Every A P Q)
    (hA : ∀ s c, A (reply s c).1) (hrun : d.run reply s = some (a, s')) : Q a :=
  (h.run_invariant (I := fun _ => True) hA (fun _ _ _ _ => trivial) trivial hrun).1

end Every

end Dialog

end OlivePiccolo
