import Mathlib.Data.Bool.Basic
import Mathlib.Data.Nat.Notation
import Mathlib.Logic.Function.Basic

/-!
# Arming an interrupt, and waiting for it

Waiters share a register of enable bits with a server, the handler of an interrupt. A waiter sets
its own bit in a section that excludes the others and the server, and then waits on its semaphore.
The server clears the bits of the causes that it has found, and posts their semaphores one by one.
Everyone reads the whole register and writes it back.

A waiter that has set its bit is owed one wake-up: its bit is set, or the server is about to post
its semaphore, or that has been posted (`Inv.owed`). So one that is blocked has its bit set, or is
about to be woken (`Inv.enabled_of_blocked`).
-/

namespace OlivePiccolo.Arming

/-- Where a waiter is. -/
inductive Phase (ι : Type*)
  | outside
  /-- In its section, before it reads the register. -/
  | inside
  /-- It is going to write these bits. -/
  | loaded (bits : ι → Bool)
  /-- It has written them. -/
  | stored
  /-- It has left the section, and is going to wait. -/
  | armed
  | blocked

/-- Where the server is. -/
inductive Server (ι : Type*)
  | idle
  | entered
  | loaded (bits : ι → Bool)
  /-- It is going to clear the causes. -/
  | chosen (bits causes : ι → Bool)
  /-- It is going to post these semaphores. -/
  | posting (todo : ι → Bool)

structure State (ι : Type*) where
  bits : ι → Bool
  value : ι → ℕ
  phase : ι → Phase ι
  /-- Who is in its section. -/
  owner : Option ι
  server : Server ι

variable {ι : Type*}

/-- The waiter is in its section. -/
def Phase.owns : Phase ι → Bool
  | .inside | .loaded _ | .stored => true
  | _ => false

/-- The waiter has set its bit, and has not been woken. -/
def Phase.owed : Phase ι → Bool
  | .stored | .armed | .blocked => true
  | _ => false

def Server.todo : Server ι → ι → Bool
  | .posting todo => todo
  | _ => fun _ => false

variable [DecidableEq ι]

namespace State

/-- A waiter goes somewhere else. -/
def goes (s : State ι) (i : ι) (p : Phase ι) : State ι :=
  { s with phase := Function.update s.phase i p }

@[simp]
theorem goes_self (s : State ι) (i : ι) (p : Phase ι) : (s.goes i p).phase i = p :=
  Function.update_self _ _ _

theorem goes_of_ne (s : State ι) {i j : ι} (p : Phase ι) (h : j ≠ i) :
    (s.goes i p).phase j = s.phase j := Function.update_of_ne h _ _

theorem goes_cases {s : State ι} {i j : ι} {p x : Phase ι} (h : (s.goes i p).phase j = x) :
    j = i ∧ p = x ∨ j ≠ i ∧ s.phase j = x := by
  by_cases hj : j = i
  · subst hj
    exact .inl ⟨rfl, (s.goes_self j p).symm.trans h⟩
  · exact .inr ⟨hj, (s.goes_of_ne p hj).symm.trans h⟩

theorem goes_owed {s : State ι} {i : ι} {p : Phase ι} (h : p.owed = (s.phase i).owed) (j : ι) :
    (s.phase j).owed.toNat = ((s.goes i p).phase j).owed.toNat := by
  by_cases hj : j = i
  · subst hj
    rw [goes_self, h]
  · rw [s.goes_of_ne p hj]

/-- A semaphore is posted: its waiter goes on, or the count is raised. -/
inductive Post (s : State ι) (i : ι) : State ι → Prop
  | wake : s.phase i = .blocked → Post s i (s.goes i .outside)
  | raise : s.phase i ≠ .blocked →
      Post s i { s with value := Function.update s.value i (s.value i + 1) }

/-- What can happen. -/
inductive Step (s : State ι) : State ι → Prop
  | enter (i : ι) : s.phase i = .outside → s.owner = none → s.server = .idle →
      Step s { s.goes i .inside with owner := some i }
  | leave (i : ι) : s.phase i = .inside → Step s { s.goes i .outside with owner := none }
  | load (i : ι) : s.phase i = .inside →
      Step s (s.goes i (.loaded (Function.update s.bits i true)))
  | store (i : ι) (bits : ι → Bool) : s.phase i = .loaded bits →
      Step s { s.goes i .stored with bits := bits }
  | arm (i : ι) : s.phase i = .stored → Step s { s.goes i .armed with owner := none }
  | take (i : ι) : s.phase i = .armed → 0 < s.value i →
      Step s { s.goes i .outside with value := Function.update s.value i (s.value i - 1) }
  | block (i : ι) : s.phase i = .armed → s.value i = 0 → Step s (s.goes i .blocked)
  | interrupt : s.owner = none → s.server = .idle → Step s { s with server := .entered }
  | serverLoad : s.server = .entered → Step s { s with server := .loaded s.bits }
  | choose (bits causes : ι → Bool) : s.server = .loaded bits →
      (∀ i, causes i = true → bits i = true) → Step s { s with server := .chosen bits causes }
  | clear (bits causes : ι → Bool) : s.server = .chosen bits causes →
      Step s { s with bits := fun i => bits i && !causes i, server := .posting causes }
  | post (i : ι) (todo : ι → Bool) (s' : State ι) : s.server = .posting todo → todo i = true →
      Post s i s' → Step s { s' with server := .posting (Function.update todo i false) }
  | done (todo : ι → Bool) : s.server = .posting todo → (∀ i, todo i = false) →
      Step s { s with server := .idle }

end State

/-- What holds at all times. -/
structure Inv (s : State ι) : Prop where
  /-- A waiter that has set its bit is owed one wake-up, and no other is. -/
  owed : ∀ i, (s.bits i).toNat + (s.server.todo i).toNat + s.value i = ((s.phase i).owed).toNat
  owner_iff : ∀ i, s.owner = some i ↔ (s.phase i).owns = true
  served : s.server ≠ .idle → s.owner = none
  loaded : ∀ i bits, s.phase i = .loaded bits → bits = Function.update s.bits i true
  server : ∀ bits, s.server = .loaded bits → bits = s.bits
  chosen : ∀ bits causes, s.server = .chosen bits causes →
    bits = s.bits ∧ ∀ i, causes i = true → s.bits i = true
  blocked : ∀ i, s.phase i = .blocked → s.value i = 0

namespace Inv

variable {s s' : State ι} {i : ι}

/-- A waiter that is blocked has its bit set, or is about to be woken. -/
theorem enabled_of_blocked (h : Inv s) (hblocked : s.phase i = .blocked) :
    s.bits i = true ∨ s.server.todo i = true := by
  have howed := h.owed i
  rw [h.blocked i hblocked, hblocked] at howed
  cases hbits : s.bits i with
  | true => exact .inl rfl
  | false =>
    refine .inr ?_
    rw [hbits] at howed
    cases htodo : s.server.todo i with
    | true => rfl
    | false =>
      rw [htodo] at howed
      cases howed

theorem owner_eq (h : Inv s) (howns : (s.phase i).owns = true) : s.owner = some i :=
  (h.owner_iff i).mpr howns

/-- The server rests while a waiter is in its section. -/
theorem idle_of_owns (h : Inv s) (howns : (s.phase i).owns = true) : s.server = .idle := by
  by_contra hbusy
  have hnone := h.served hbusy
  rw [h.owner_eq howns] at hnone
  cases hnone

/-- Nobody else is in its section then. -/
theorem owns_of_ne (h : Inv s) (howns : (s.phase i).owns = true) {j : ι} (hj : j ≠ i) :
    (s.phase j).owns = false := by
  cases hother : (s.phase j).owns with
  | false => rfl
  | true => exact absurd (Option.some.inj ((h.owner_eq hother).symm.trans (h.owner_eq howns))) hj

/-- A waiter goes somewhere else, where it is owed as much as before. -/
theorem goes (h : Inv s) {p : Phase ι} (owner : Option ι) (howed : p.owed = (s.phase i).owed)
    (howner : ∀ j, owner = some j ↔ ((s.goes i p).phase j).owns = true)
    (hserved : s.server ≠ .idle → owner = none)
    (hloaded : ∀ bits, p = .loaded bits → bits = Function.update s.bits i true)
    (hblocked : p = .blocked → s.value i = 0) : Inv { s.goes i p with owner := owner } where
  owed j := by
    rw [← State.goes_owed howed j]
    exact h.owed j
  owner_iff := howner
  served := hserved
  loaded j bits hj := by
    rcases State.goes_cases hj with ⟨rfl, hp⟩ | ⟨-, hsame⟩
    · exact hloaded bits hp
    · exact h.loaded j bits hsame
  server := h.server
  chosen := h.chosen
  blocked j hj := by
    rcases State.goes_cases hj with ⟨rfl, hp⟩ | ⟨-, hsame⟩
    · exact hblocked hp
    · exact h.blocked j hsame

/-- A waiter that stays outside of its section, or in it. -/
theorem owner_goes (h : Inv s) {p : Phase ι} (howns : p.owns = (s.phase i).owns) (j : ι) :
    s.owner = some j ↔ ((s.goes i p).phase j).owns = true := by
  rw [h.owner_iff]
  by_cases hji : j = i
  · subst hji
    rw [State.goes_self, howns]
  · rw [s.goes_of_ne p hji]

/-- A waiter that leaves its section. -/
theorem owner_leaves (h : Inv s) {p : Phase ι} (howns : (s.phase i).owns = true)
    (hp : p.owns = false) (j : ι) : none = some j ↔ ((s.goes i p).phase j).owns = true := by
  refine ⟨nofun, fun hj => ?_⟩
  by_cases hji : j = i
  · subst hji
    rw [State.goes_self, hp] at hj
    cases hj
  · rw [s.goes_of_ne p hji, h.owns_of_ne howns hji] at hj
    cases hj

/-- The server goes somewhere else, where it has nothing to post. -/
theorem serves (h : Inv s) {v : Server ι} (hold : ∀ i, s.server.todo i = false)
    (hnew : ∀ i, v.todo i = false) (hserved : v ≠ .idle → s.owner = none)
    (hserver : ∀ bits, v = .loaded bits → bits = s.bits)
    (hchosen : ∀ bits causes, v = .chosen bits causes →
      bits = s.bits ∧ ∀ i, causes i = true → s.bits i = true) : Inv { s with server := v } where
  owed j := by
    have howed := h.owed j
    rw [hold j] at howed
    rw [← howed]
    show _ + (v.todo j).toNat + _ = _
    rw [hnew j]
  owner_iff := h.owner_iff
  served := hserved
  loaded := h.loaded
  server := hserver
  chosen := hchosen
  blocked := h.blocked

/-- A waiter writes the register back, with its own bit set. -/
theorem store (h : Inv s) {bits : ι → Bool} (hphase : s.phase i = .loaded bits) :
    Inv { s.goes i .stored with bits := bits } := by
  have howns : (s.phase i).owns = true := by rw [hphase]; rfl
  obtain rfl := h.loaded i bits hphase
  have hidle := h.idle_of_owns howns
  have hzero := h.owed i
  rw [hphase] at hzero
  refine ⟨fun j => ?_, h.owner_goes (by rw [hphase]; rfl), h.served, fun j bits hj => ?_,
    fun bits hj => ?_, fun bits causes hj => ?_, fun j hj => ?_⟩
  · by_cases hji : j = i
    · subst hji
      have hstored : ((s.goes j .stored).phase j).owed = true := by rw [State.goes_self]; rfl
      have hrest : (s.server.todo j).toNat + s.value j = 0 := by
        have : (Phase.loaded (Function.update s.bits j true)).owed.toNat = 0 := rfl
        omega
      show (Function.update s.bits j true j).toNat + (s.server.todo j).toNat + s.value j =
        ((s.goes j .stored).phase j).owed.toNat
      rw [Function.update_self, hstored, Nat.add_assoc, hrest]
      rfl
    · show (Function.update s.bits i true j).toNat + _ + _ = ((s.goes i .stored).phase j).owed.toNat
      rw [Function.update_of_ne hji, s.goes_of_ne _ hji]
      exact h.owed j
  · rcases State.goes_cases hj with ⟨-, hp⟩ | ⟨hji, hloaded⟩
    · cases hp
    · have hother := h.owns_of_ne howns hji
      rw [hloaded] at hother
      cases hother
  · cases hidle.symm.trans hj
  · cases hidle.symm.trans hj
  · rcases State.goes_cases hj with ⟨-, hp⟩ | ⟨-, hsame⟩
    · cases hp
    · exact h.blocked j hsame

/-- A waiter takes what its semaphore has been posted. -/
theorem take (h : Inv s) (hphase : s.phase i = .armed) (hpos : 0 < s.value i) :
    Inv { s.goes i .outside with value := Function.update s.value i (s.value i - 1) } := by
  have hone := h.owed i
  rw [hphase] at hone
  refine ⟨fun j => ?_, h.owner_goes (by rw [hphase]; rfl), h.served, fun j bits hj => ?_,
    h.server, h.chosen, fun j hj => ?_⟩
  · by_cases hji : j = i
    · subst hji
      have houtside : ((s.goes j .outside).phase j).owed = false := by rw [State.goes_self]; rfl
      show _ + Function.update s.value j (s.value j - 1) j =
        ((s.goes j .outside).phase j).owed.toNat
      rw [Function.update_self, houtside]
      have : (Phase.armed : Phase ι).owed.toNat = 1 := rfl
      show (s.bits j).toNat + (s.server.todo j).toNat + (s.value j - 1) = 0
      omega
    · show _ + Function.update s.value i (s.value i - 1) j =
        ((s.goes i .outside).phase j).owed.toNat
      rw [Function.update_of_ne hji, s.goes_of_ne _ hji]
      exact h.owed j
  · rcases State.goes_cases hj with ⟨-, hp⟩ | ⟨-, hsame⟩
    · cases hp
    · exact h.loaded j bits hsame
  · rcases State.goes_cases hj with ⟨-, hp⟩ | ⟨hji, hsame⟩
    · cases hp
    · show Function.update s.value i (s.value i - 1) j = 0
      rw [Function.update_of_ne hji]
      exact h.blocked j hsame

/-- The server clears the causes that it is going to post. -/
theorem clear (h : Inv s) {bits causes : ι → Bool} (hserver : s.server = .chosen bits causes) :
    Inv { s with bits := fun i => bits i && !causes i, server := .posting causes } := by
  have hnone : s.owner = none := h.served (by rw [hserver]; nofun)
  obtain ⟨rfl, hcauses⟩ := h.chosen bits causes hserver
  refine ⟨fun j => ?_, h.owner_iff, fun _ => hnone, fun j bits hj => ?_, nofun, nofun, h.blocked⟩
  · have howed := h.owed j
    rw [hserver] at howed
    rw [← howed]
    show (s.bits j && !causes j).toNat + (causes j).toNat + _ = (s.bits j).toNat + 0 + _
    cases hj : causes j with
    | true => rw [hcauses j hj]; rfl
    | false => rw [Bool.not_false, Bool.and_true]; rfl
  · have howns : (s.phase j).owns = true := by
      rw [show s.phase j = .loaded bits from hj]
      rfl
    cases hnone.symm.trans (h.owner_eq howns)

/-- The server posts a semaphore. -/
theorem post (h : Inv s) {todo : ι → Bool} (hserver : s.server = .posting todo)
    (htodo : todo i = true) (hpost : State.Post s i s') :
    Inv { s' with server := .posting (Function.update todo i false) } := by
  have hnone : s.owner = none := h.served (by rw [hserver]; nofun)
  have howed := h.owed
  rw [hserver] at howed
  have hone : (s.bits i).toNat + 1 + s.value i = (s.phase i).owed.toNat := by
    have hi := howed i
    rwa [show (Server.posting todo).todo i = true from htodo] at hi
  cases hpost with
  | wake hblocked =>
    rw [hblocked] at hone
    refine ⟨fun j => ?_, h.owner_goes (by rw [hblocked]; rfl), fun _ => hnone, fun j bits hj => ?_,
      nofun, nofun, fun j hj => ?_⟩
    · by_cases hji : j = i
      · subst hji
        have houtside : ((s.goes j .outside).phase j).owed = false := by rw [State.goes_self]; rfl
        show _ + (Function.update todo j false j).toNat + _ =
          ((s.goes j .outside).phase j).owed.toNat
        rw [Function.update_self, houtside]
        have : (Phase.blocked : Phase ι).owed.toNat = 1 := rfl
        show (s.bits j).toNat + 0 + s.value j = 0
        omega
      · show _ + (Function.update todo i false j).toNat + _ =
          ((s.goes i .outside).phase j).owed.toNat
        rw [Function.update_of_ne hji, s.goes_of_ne _ hji]
        exact howed j
    · rcases State.goes_cases hj with ⟨-, hp⟩ | ⟨-, hsame⟩
      · cases hp
      · exact h.loaded j bits hsame
    · rcases State.goes_cases hj with ⟨-, hp⟩ | ⟨-, hsame⟩
      · cases hp
      · exact h.blocked j hsame
  | raise hawake =>
    refine ⟨fun j => ?_, h.owner_iff, fun _ => hnone, h.loaded, nofun, nofun, fun j hj => ?_⟩
    · by_cases hji : j = i
      · subst hji
        show _ + (Function.update todo j false j).toNat +
          Function.update s.value j (s.value j + 1) j = _
        rw [Function.update_self, Function.update_self, ← hone]
        show (s.bits j).toNat + 0 + (s.value j + 1) = (s.bits j).toNat + 1 + s.value j
        omega
      · show _ + (Function.update todo i false j).toNat +
          Function.update s.value i (s.value i + 1) j = _
        rw [Function.update_of_ne hji, Function.update_of_ne hji]
        exact howed j
    · by_cases hji : j = i
      · subst hji
        exact absurd hj hawake
      · show Function.update s.value i (s.value i + 1) j = 0
        rw [Function.update_of_ne hji]
        exact h.blocked j hj

/-- **A step** keeps what holds at all times. -/
theorem step (h : Inv s) (hstep : State.Step s s') : Inv s' := by
  cases hstep with
  | enter i hphase howner hidle =>
    refine h.goes (some i) (by rw [hphase]; rfl) (fun j => ?_) (fun hbusy => absurd hidle hbusy)
      nofun nofun
    by_cases hji : j = i
    · subst hji
      rw [State.goes_self]
      exact ⟨fun _ => rfl, fun _ => rfl⟩
    · rw [s.goes_of_ne _ hji, ← h.owner_iff, howner]
      exact ⟨fun heq => absurd (Option.some.inj heq).symm hji, nofun⟩
  | leave i hphase =>
    exact h.goes none (by rw [hphase]; rfl) (h.owner_leaves (by rw [hphase]; rfl) rfl)
      (fun _ => rfl) nofun nofun
  | load i hphase =>
    exact h.goes s.owner (by rw [hphase]; rfl) (h.owner_goes (by rw [hphase]; rfl)) h.served
      (fun _ heq => (Phase.loaded.inj heq).symm) nofun
  | store i bits hphase => exact h.store hphase
  | arm i hphase =>
    exact h.goes none (by rw [hphase]; rfl) (h.owner_leaves (by rw [hphase]; rfl) rfl)
      (fun _ => rfl) nofun nofun
  | take i hphase hpos => exact h.take hphase hpos
  | block i hphase hzero =>
    exact h.goes s.owner (by rw [hphase]; rfl) (h.owner_goes (by rw [hphase]; rfl)) h.served nofun
      fun _ => hzero
  | interrupt howner hidle =>
    exact h.serves (fun _ => by rw [hidle]; rfl) (fun _ => rfl) (fun _ => howner) nofun nofun
  | serverLoad hserver =>
    exact h.serves (fun _ => by rw [hserver]; rfl) (fun _ => rfl)
      (fun _ => h.served (by rw [hserver]; nofun)) (fun _ heq => (Server.loaded.inj heq).symm) nofun
  | choose bits causes hserver hcauses =>
    obtain rfl := h.server bits hserver
    refine h.serves (fun _ => by rw [hserver]; rfl) (fun _ => rfl)
      (fun _ => h.served (by rw [hserver]; nofun)) nofun fun bits' causes' heq => ?_
    obtain ⟨rfl, rfl⟩ := Server.chosen.inj heq
    exact ⟨rfl, hcauses⟩
  | clear bits causes hserver => exact h.clear hserver
  | post i todo s' hserver htodo hpost => exact h.post hserver htodo hpost
  | done todo hserver hnothing =>
    exact h.serves (fun i => by rw [hserver]; exact hnothing i) (fun _ => rfl)
      (fun hbusy => absurd rfl hbusy) nofun nofun

end Inv

end OlivePiccolo.Arming
