import OlivePiccolo.TinyThreads.Exclusion

/-!
# Initialising once

`pthread_once` reads `done` twice, before the lock and behind it. Its mutex does not exclude other
threads in every run (`not_mutex_exclusion`): two of them may hold it once it has been unlocked. But
`pthread_once` unlocks it only when `done` is set, so up to then the first thread that has locked it
is the only one behind the lock (`Undone`); and from then on nobody starts the init routine (`Done`).
-/

namespace OlivePiccolo.TinyThreads

open Runs

/-- Where a thread is in `pthread_once`. -/
inductive OncePc
  /-- At the first read of `done`. -/
  | read
  /-- At `pthread_mutex_lock`, and suspended in it. -/
  | lock
  | locking
  /-- At the second read of `done`. -/
  | check
  /-- In the init routine. -/
  | routine
  /-- At the write of `done`. -/
  | write
  /-- At `pthread_mutex_unlock`, and suspended in it. -/
  | unlock
  | unlocking
  deriving DecidableEq, Repr

/-- What is seen of the calls. -/
inductive OnceRecord
  | started (t : Tid)
  | ended (t : Tid)
  | returned (t : Tid) (code : Code)
  deriving DecidableEq, Repr

/-- The threads, and a control object with its calls. -/
structure OnceState where
  state : State
  done : Bool
  /-- The calls of a thread, the innermost one first: the init routine may make one, too. -/
  calls : Tid → List OncePc
  log : List OnceRecord

/-- What can happen next. -/
inductive OnceEvent
  /-- What has nothing to do with the control object. -/
  | kernel (e : Event)
  /-- The running thread calls `pthread_once`. -/
  | enter
  /-- The running thread goes on in `pthread_once`. -/
  | once
  deriving DecidableEq, Repr

/-! ## The code -/

namespace OnceState

/-- The innermost call goes on to another place. -/
def goto (s : OnceState) (t : Tid) (pc : OncePc) : OnceState :=
  { s with calls := Function.update s.calls t (pc :: (s.calls t).tail) }

def record (s : OnceState) (r : OnceRecord) : OnceState := { s with log := s.log ++ [r] }

/-- The innermost call returns. -/
def leave (s : OnceState) (t : Tid) (code : Code) : OnceState :=
  { s with calls := Function.update s.calls t (s.calls t).tail }.record (.returned t code)

/-- The thread is in no call, or in the init routine. -/
def Outside (s : OnceState) (t : Tid) : Prop :=
  (s.calls t).head? = none ∨ (s.calls t).head? = some .routine

instance (s : OnceState) (t : Tid) : Decidable (s.Outside t) :=
  inferInstanceAs (Decidable (_ ∨ _))

/-- The running thread can go on outside the critical sections. -/
def Runs (s : OnceState) : Prop :=
  s.state.kernel.intLevel = 0 ∧ s.state.cont s.state.kernel.running = none

instance (s : OnceState) : Decidable s.Runs := inferInstanceAs (Decidable (_ ∧ _))

/-- `pthread_mutex_lock` of the control object's mutex. -/
def lockMutex (idle : Tid) (m : MutexId) (s : OnceState) (t : Tid) : Option OnceState :=
  (s.state.step idle (.call (.lock m))).map fun state =>
    match (s.state.kernel.begin (.lock m)).2 with
    | none => { s with state := state }.goto t .locking
    | some .zero => { s with state := state }.goto t .check
    | some code => { s with state := state }.leave t code

/-- `pthread_mutex_unlock` of the control object's mutex. -/
def unlockMutex (idle : Tid) (m : MutexId) (s : OnceState) (t : Tid) : Option OnceState :=
  (s.state.step idle (.call (.unlock m))).map fun state =>
    match (s.state.kernel.begin (.unlock m)).2 with
    | none => { s with state := state }.goto t .unlocking
    | some code => { s with state := state }.leave t code

/-- `pthread_once`, by one step of the thread `t`. -/
def pthreadOnce (idle : Tid) (m : MutexId) (s : OnceState) (t : Tid) : OncePc → Option OnceState
  | .read => if s.Runs then some (if s.done then s.leave t .zero else s.goto t .lock) else none
  | .lock => s.lockMutex idle m t
  | .locking => (s.state.step idle .finish).map fun state => { s with state := state }.goto t .check
  | .check =>
    if s.Runs then
      some (if s.done then s.goto t .unlock else (s.goto t .routine).record (.started t))
    else none
  | .routine => if s.Runs then some ((s.goto t .write).record (.ended t)) else none
  | .write => if s.Runs then some { s.goto t .unlock with done := true } else none
  | .unlock => s.unlockMutex idle m t
  | .unlocking => (s.state.step idle .finish).map fun state => { s with state := state }.leave t .zero

/-- The event has nothing to do with the control object. -/
def Aside (m : MutexId) (s : OnceState) : Event → Prop
  | .call c => s.Outside s.state.kernel.running ∧ ¬ Kernel.uses m c
  | .finish => s.Outside s.state.kernel.running
  | _ => True

instance (m : MutexId) : (c : Call) → Decidable (Kernel.uses m c)
  | .lock m' | .trylock m' | .unlock m' => inferInstanceAs (Decidable (m' = m))
  | .yield | .semWait _ | .semTrywait _ | .semPost _ => .isFalse id

instance (m : MutexId) (s : OnceState) : (e : Event) → Decidable (s.Aside m e)
  | .call _ => inferInstanceAs (Decidable (_ ∧ _))
  | .finish => inferInstanceAs (Decidable (s.Outside _))
  | .intEnter | .intPost _ | .intTick | .intExit => .isTrue trivial

/-- One event. The idle thread only yields. -/
def step (idle : Tid) (m : MutexId) (s : OnceState) : OnceEvent → Option OnceState
  | .kernel e =>
    if s.Aside m e then (s.state.step idle e).map fun state => { s with state := state } else none
  | .enter =>
    let t := s.state.kernel.running
    if s.Runs ∧ t ≠ idle ∧ s.Outside t then
      some { s with calls := Function.update s.calls t (.read :: s.calls t) } else none
  | .once =>
    (s.calls s.state.kernel.running).head?.bind (s.pthreadOnce idle m s.state.kernel.running)

end OnceState

/-! ## What is claimed -/

/-- A start of the init routine. -/
def OnceRecord.isStart : OnceRecord → Bool
  | .started _ => true
  | _ => false

/-- How often the init routine has been started. -/
def starts (log : List OnceRecord) : ℕ := log.countP OnceRecord.isStart

/-- The init routine has returned. -/
def Ended (log : List OnceRecord) : Prop := ∃ t, .ended t ∈ log

/-- Whenever a call returned 0, the init routine had returned. -/
def EndedFirst (log : List OnceRecord) : Prop :=
  ∀ l l' t, log = l ++ .returned t .zero :: l' → Ended l

/-- A control object as initialised by `PTHREAD_ONCE_INIT`, and no call has been made. -/
structure Unused (idle : Tid) (m : MutexId) (s : OnceState) : Prop where
  unlocked : Unlocked idle m s.state
  done : s.done = false
  calls : ∀ t, s.calls t = []
  log : s.log = []

/-! ## The invariant -/

/-- The place is behind the lock. -/
def OncePc.past : OncePc → Bool
  | .read | .lock | .locking => false
  | _ => true

/-- What has happened when the first thread behind the lock is there, before `done` is set. -/
def OncePc.Follows (log : List OnceRecord) : OncePc → Prop
  | .check => starts log = 0
  | .routine => starts log = 1
  | .write => starts log = 1 ∧ Ended log
  | _ => False

/-- `done` is not set: only the owner of the mutex is behind the lock. -/
structure Undone (m : MutexId) (s : OnceState) : Prop where
  suspended : ∀ t, s.state.cont t = some (.lock m) → (s.calls t).head? = some .locking
  waiting : ∀ t, (s.calls t).head? = some .locking → t ∈ s.state.kernel.queue (.mutex m)
  free : s.state.kernel.owner m = none →
    starts s.log = 0 ∧ ∀ t, (s.calls t).filter OncePc.past = []
  owned : ∀ o, s.state.kernel.owner m = some o →
    (∀ t, t ≠ o → (s.calls t).filter OncePc.past = []) ∧
      ∃ pc, (s.calls o).filter OncePc.past = [pc] ∧ pc.Follows s.log

/-- A call is inside of another one only if that one is in the init routine. -/
def Nested (calls : Tid → List OncePc) : Prop := ∀ t, ∀ pc ∈ (calls t).tail, pc = .routine

/-- `done` is set. -/
structure Done (s : OnceState) : Prop where
  starts : starts s.log ≤ 1
  ended : Ended s.log
  calls : ∀ t, .routine ∉ s.calls t ∧ .write ∉ s.calls t

/-- The invariant. -/
structure OnceInv (idle : Tid) (m : MutexId) (s : OnceState) : Prop where
  sched : Sched idle s.state.kernel
  nested : Nested s.calls
  endedFirst : EndedFirst s.log
  undone : s.done = false → Undone m s
  isDone : s.done = true → Done s

section Log

variable {log : List OnceRecord} {t : Tid}

theorem starts_snoc (log : List OnceRecord) (r : OnceRecord) :
    starts (log ++ [r]) = starts log + if r.isStart then 1 else 0 := by
  rw [starts, List.countP_append, List.countP_singleton]
  rfl

theorem Ended.snoc (h : Ended log) (r : OnceRecord) : Ended (log ++ [r]) := by
  obtain ⟨t, ht⟩ := h
  exact ⟨t, List.mem_append_left _ ht⟩

theorem EndedFirst.snoc (h : EndedFirst log) {r : OnceRecord}
    (hr : ∀ t, r = .returned t .zero → Ended log) : EndedFirst (log ++ [r]) := by
  intro l l' t heq
  rcases List.eq_nil_or_concat l' with rfl | ⟨l'', r', rfl⟩
  · obtain ⟨rfl, hlast⟩ := List.append_inj' heq rfl
    exact hr t (List.singleton_inj.mp hlast)
  · rw [List.concat_eq_append, ← List.cons_append, ← List.append_assoc] at heq
    exact h l l'' t (List.append_inj' heq rfl).1

end Log

/-! ## What an event leaves alone -/

section Frame

variable {idle : Tid} {m : MutexId} {s s' : State} {e : Event} {t : Tid}

theorem step_call {c : Call} (h : s.step idle (.call c) = some s') :
    s.kernel.intLevel = 0 ∧ s.cont s.kernel.running = none ∧ s' = s.makeCall c := by
  rw [State.step, Option.ite_none_right_eq_some, Option.some.injEq] at h
  exact ⟨h.1.1, h.1.2.1, h.2.symm⟩

theorem step_finish (h : s.step idle .finish = some s') :
    s.kernel.intLevel = 0 ∧ ∃ c, s.cont s.kernel.running = some c ∧ s' = s.finishCall c := by
  rw [State.step, Option.ite_none_right_eq_some, Option.map_eq_some_iff] at h
  obtain ⟨h0, c, hc, rfl⟩ := h
  exact ⟨h0, c, hc, rfl⟩

/-- A suspended `lock` is that of a thread that was in it before, or of the caller. -/
theorem makeCall_cont {c d : Call} (hrun : s.cont s.kernel.running = none)
    (h : (s.makeCall c).cont t = some d) :
    (t = s.kernel.running ∧ (s.kernel.begin c).2 = none ∧ d = c) ∨
      (t ≠ s.kernel.running ∧ s.cont t = some d) := by
  rcases hb : (s.kernel.begin c).2 with _ | code
  · rw [s.makeCall_cont_none c hb] at h
    by_cases ht : t = s.kernel.running
    · subst ht
      rw [Function.update_self, Option.some.injEq] at h
      exact .inl ⟨rfl, rfl, h.symm⟩
    · rw [Function.update_of_ne ht] at h
      exact .inr ⟨ht, h⟩
  · rw [s.makeCall_cont_some c hb] at h
    refine .inr ⟨?_, h⟩
    rintro rfl
    rw [hrun] at h
    cases h

/-- An event that has nothing to do with the mutex. -/
theorem step_frame (hst : s.step idle e = some s') (hcall : ∀ c, e = .call c → ¬ Kernel.uses m c)
    (hfinish : e = .finish → s.cont s.kernel.running ≠ some (.lock m)) :
    s'.kernel.owner m = s.kernel.owner m ∧
      s'.kernel.queue (.mutex m) = s.kernel.queue (.mutex m) ∧
        ∀ t, s'.cont t = some (.lock m) → s.cont t = some (.lock m) := by
  cases e with
  | call c =>
    obtain ⟨-, hrun, rfl⟩ := step_call hst
    have hc := hcall c rfl
    obtain ⟨ho, hq⟩ := s.kernel.begin_frame hc
    rw [s.makeCall_kernel]
    refine ⟨ho, hq, fun t ht => ?_⟩
    rcases makeCall_cont hrun ht with ⟨-, -, rfl⟩ | ⟨-, ht⟩
    · exact absurd rfl hc
    · exact ht
  | finish =>
    obtain ⟨-, c, hc, rfl⟩ := step_finish hst
    refine ⟨?_, ?_, fun t ht => ?_⟩
    · cases c with
      | lock m' =>
        have hne : m ≠ m' := by
          rintro rfl
          exact hfinish rfl hc
        exact Function.update_of_ne hne _ _
      | _ => rfl
    · cases c <;> rfl
    · have ht : Function.update s.cont s.kernel.running none t = some (.lock m) := ht
      by_cases heq : t = s.kernel.running
      · subst heq
        rw [Function.update_self] at ht
        cases ht
      · rwa [Function.update_of_ne heq] at ht
  | intEnter =>
    simp only [State.step, Option.ite_none_right_eq_some, Option.some.injEq] at hst
    obtain ⟨-, rfl⟩ := hst
    exact ⟨rfl, rfl, fun _ ht => ht⟩
  | intPost sem =>
    simp only [State.step, Option.ite_none_right_eq_some, Option.some.injEq] at hst
    obtain ⟨-, rfl⟩ := hst
    obtain ⟨ho, hq⟩ := s.kernel.begin_frame (m := m) (c := .semPost sem) id
    exact ⟨ho, hq, fun _ ht => ht⟩
  | intTick =>
    simp only [State.step, Option.ite_none_right_eq_some, Option.some.injEq] at hst
    obtain ⟨-, rfl⟩ := hst
    obtain ⟨ho, hq⟩ := s.kernel.begin_frame (m := m) (c := .yield) id
    refine ⟨?_, ?_, fun _ ht => ht⟩
    · simp only [State.tick]
      split_ifs
      · exact ho
      · rfl
    · simp only [State.tick]
      split_ifs
      · exact hq
      · rfl
  | intExit =>
    simp only [State.step, Option.ite_none_right_eq_some, Option.some.injEq] at hst
    obtain ⟨-, rfl⟩ := hst
    exact ⟨by simp, by simp, fun _ ht => ht⟩

end Frame

/-! ## Before `done` is set -/

section Undone

variable {idle : Tid} {m : MutexId} {s s' : OnceState} {t : Tid} {pc : OncePc} {rest : List OncePc}

theorem goto_eq (h : s.calls t = pc :: rest) (pc' : OncePc) :
    s.goto t pc' = { s with calls := Function.update s.calls t (pc' :: rest) } := by
  rw [OnceState.goto, h]
  rfl

theorem leave_eq (h : s.calls t = pc :: rest) (code : Code) :
    s.leave t code = { s with calls := Function.update s.calls t rest }.record (.returned t code) := by
  rw [OnceState.leave, h]
  rfl

/-- A thread that is behind the lock is the owner of the mutex. -/
theorem Undone.past (h : Undone m s) (hcalls : s.calls t = pc :: rest) (hpast : pc.past = true) :
    s.state.kernel.owner m = some t ∧ rest.filter OncePc.past = [] ∧ pc.Follows s.log := by
  have hfilter : (s.calls t).filter OncePc.past = pc :: rest.filter OncePc.past := by
    rw [hcalls, List.filter_cons_of_pos hpast]
  cases howner : s.state.kernel.owner m with
  | none =>
    rw [(h.free howner).2 t] at hfilter
    cases hfilter
  | some o =>
    obtain ⟨hothers, pc', hpc, hfollows⟩ := h.owned o howner
    by_cases hto : t = o
    · subst hto
      rw [hfilter] at hpc
      obtain ⟨rfl, hnil⟩ := List.cons.inj hpc
      exact ⟨rfl, hnil, hfollows⟩
    · rw [hothers t hto] at hfilter
      cases hfilter

/-- The thread is not suspended in the lock. -/
theorem Undone.not_locking (h : Undone m s) (hs : Sched idle s.state.kernel)
    (h0 : s.state.kernel.intLevel = 0) :
    (s.calls s.state.kernel.running).head? ≠ some .locking := by
  intro hhead
  obtain ⟨rest, hready⟩ := hs.ready_eq h0
  have hrun : s.state.kernel.running ∈ s.state.kernel.queue .ready := by
    rw [hready]
    exact List.mem_cons_self
  cases hs.wf.disjoint _ _ _ (h.waiting _ hhead) hrun

/-- What has nothing to do with the control object. -/
theorem Undone.frame (h : Undone m s) {state : State}
    (hframe : state.kernel.owner m = s.state.kernel.owner m ∧
      state.kernel.queue (.mutex m) = s.state.kernel.queue (.mutex m) ∧
        ∀ t, state.cont t = some (.lock m) → s.state.cont t = some (.lock m)) :
    Undone m { s with state := state } := by
  obtain ⟨ho, hq, hc⟩ := hframe
  refine ⟨fun t ht => h.suspended t (hc t ht), fun t ht => ?_, fun hn => h.free (ho ▸ hn),
    fun o hoo => h.owned o (ho ▸ hoo)⟩
  show t ∈ state.kernel.queue (.mutex m)
  rw [hq]
  exact h.waiting t ht

/-- A thread that is not suspended goes on, in front of the lock. -/
theorem Undone.setCalls (h : Undone m s) (calls : List OncePc)
    (hcont : s.state.cont t ≠ some (.lock m)) (hcalls : calls.head? ≠ some .locking)
    (hpast : calls.filter OncePc.past = (s.calls t).filter OncePc.past) :
    Undone m { s with calls := Function.update s.calls t calls } := by
  have hsame : ∀ u, (Function.update s.calls t calls u).filter OncePc.past =
      (s.calls u).filter OncePc.past := fun u => by
    by_cases hu : u = t
    · subst hu
      rw [Function.update_self, hpast]
    · rw [Function.update_of_ne hu]
  refine ⟨fun u hu => ?_, fun u hu => ?_, fun hn => ?_, fun o ho => ?_⟩
  · have hut : u ≠ t := by
      rintro rfl
      exact hcont hu
    show (Function.update s.calls t calls u).head? = _
    rw [Function.update_of_ne hut]
    exact h.suspended u hu
  · by_cases hut : u = t
    · subst hut
      refine absurd ?_ hcalls
      simpa using hu
    · refine h.waiting u ?_
      simpa [Function.update_of_ne hut] using hu
  · obtain ⟨hstarts, hnil⟩ := h.free hn
    exact ⟨hstarts, fun u => (hsame u).trans (hnil u)⟩
  · obtain ⟨hothers, pc, hpc, hfollows⟩ := h.owned o ho
    exact ⟨fun u hu => (hsame u).trans (hothers u hu), pc, (hsame o).trans hpc, hfollows⟩

theorem OncePc.Follows.congr {log log' : List OnceRecord} (h : pc.Follows log)
    (hstarts : starts log' = starts log) (hended : Ended log → Ended log') : pc.Follows log' := by
  cases pc with
  | check | routine => exact hstarts.trans h
  | write => exact ⟨hstarts.trans h.1, hended h.2⟩
  | _ => exact h

/-- A call returns. -/
theorem Undone.record (h : Undone m s) {r : OnceRecord} (hr : r.isStart = false) :
    Undone m (s.record r) := by
  have hstarts : starts (s.log ++ [r]) = starts s.log := by
    rw [starts_snoc, hr]
    rfl
  refine ⟨h.suspended, h.waiting, fun hn => ?_, fun o ho => ?_⟩
  · exact ⟨hstarts.trans (h.free hn).1, (h.free hn).2⟩
  · obtain ⟨hothers, pc, hpc, hfollows⟩ := h.owned o ho
    exact ⟨hothers, pc, hpc, hfollows.congr hstarts fun hended => hended.snoc r⟩

/-- The owner of the mutex goes on behind the lock. -/
theorem Undone.advance (h : Undone m s) (hcalls : s.calls t = pc :: rest) (hpast : pc.past = true)
    (hcont : s.state.cont t ≠ some (.lock m)) (pc' : OncePc) (hpast' : pc'.past = true)
    {log : List OnceRecord} (hfollows : pc'.Follows log) :
    Undone m { s with calls := Function.update s.calls t (pc' :: rest), log := log } := by
  obtain ⟨howner, hrest, -⟩ := h.past hcalls hpast
  have hothers := (h.owned t howner).1
  refine ⟨fun u hu => ?_, fun u hu => ?_, fun hn => ?_, fun o ho => ?_⟩
  · have hut : u ≠ t := by
      rintro rfl
      exact hcont hu
    show (Function.update s.calls t (pc' :: rest) u).head? = _
    rw [Function.update_of_ne hut]
    exact h.suspended u hu
  · have hu : (Function.update s.calls t (pc' :: rest) u).head? = some .locking := hu
    by_cases hut : u = t
    · subst hut
      rw [Function.update_self, List.head?_cons, Option.some.injEq] at hu
      rw [hu] at hpast'
      cases hpast'
    · rw [Function.update_of_ne hut] at hu
      exact h.waiting u hu
  · cases howner.symm.trans hn
  · obtain rfl := Option.some.inj (howner.symm.trans ho)
    refine ⟨fun u hu => ?_, pc', ?_, hfollows⟩
    · show (Function.update s.calls t (pc' :: rest) u).filter _ = []
      rw [Function.update_of_ne hu]
      exact hothers u hu
    · show (Function.update s.calls t (pc' :: rest) t).filter _ = [pc']
      rw [Function.update_self, List.filter_cons_of_pos hpast', hrest]

/-- The first thread takes the mutex. -/
theorem Undone.take (h : Undone m s) (hcalls : s.calls t = .lock :: rest)
    (hfree : s.state.kernel.owner m = none) (state : State)
    (howner : state.kernel.owner m = some t)
    (hqueue : state.kernel.queue (.mutex m) = s.state.kernel.queue (.mutex m))
    (hcont : ∀ u, state.cont u = some (.lock m) → u ≠ t ∧ s.state.cont u = some (.lock m)) :
    Undone m { s with state := state, calls := Function.update s.calls t (.check :: rest) } := by
  obtain ⟨hstarts, hnil⟩ := h.free hfree
  refine ⟨fun u hu => ?_, fun u hu => ?_, fun hn => ?_, fun o ho => ?_⟩
  · obtain ⟨hut, hu⟩ := hcont u hu
    show (Function.update s.calls t (.check :: rest) u).head? = _
    rw [Function.update_of_ne hut]
    exact h.suspended u hu
  · have hu : (Function.update s.calls t (.check :: rest) u).head? = some .locking := hu
    show u ∈ state.kernel.queue (.mutex m)
    rw [hqueue]
    by_cases hut : u = t
    · subst hut
      rw [Function.update_self, List.head?_cons] at hu
      cases hu
    · rw [Function.update_of_ne hut] at hu
      exact h.waiting u hu
  · cases howner.symm.trans hn
  · obtain rfl := Option.some.inj (howner.symm.trans ho)
    refine ⟨fun u hu => ?_, .check, ?_, hstarts⟩
    · show (Function.update s.calls t (.check :: rest) u).filter _ = []
      rw [Function.update_of_ne hu]
      exact hnil u
    · show (Function.update s.calls t (.check :: rest) t).filter _ = [.check]
      have hrest := hnil t
      rw [hcalls] at hrest
      rw [Function.update_self, List.filter_cons_of_pos rfl]
      exact congrArg _ hrest

/-- Another thread waits for the mutex. -/
theorem Undone.wait (h : Undone m s) (hcalls : s.calls t = .lock :: rest)
    (hsome : (s.state.kernel.owner m).isSome) (state : State)
    (howner : state.kernel.owner m = s.state.kernel.owner m)
    (hqueue : ∀ u, u = t ∨ u ∈ s.state.kernel.queue (.mutex m) →
      u ∈ state.kernel.queue (.mutex m))
    (hcont : ∀ u, state.cont u = some (.lock m) → u = t ∨ s.state.cont u = some (.lock m)) :
    Undone m { s with state := state, calls := Function.update s.calls t (.locking :: rest) } := by
  have hsame : ∀ u, (Function.update s.calls t (.locking :: rest) u).filter OncePc.past =
      (s.calls u).filter OncePc.past := fun u => by
    by_cases hu : u = t
    · subst hu
      rw [Function.update_self, hcalls]
      rfl
    · rw [Function.update_of_ne hu]
  refine ⟨fun u hu => ?_, fun u hu => ?_, fun hn => ?_, fun o ho => ?_⟩
  · show (Function.update s.calls t (.locking :: rest) u).head? = _
    by_cases hut : u = t
    · subst hut
      rw [Function.update_self, List.head?_cons]
    · rw [Function.update_of_ne hut]
      exact h.suspended u ((hcont u hu).resolve_left hut)
  · have hu : (Function.update s.calls t (.locking :: rest) u).head? = some .locking := hu
    refine hqueue u ?_
    by_cases hut : u = t
    · exact .inl hut
    · rw [Function.update_of_ne hut] at hu
      exact .inr (h.waiting u hu)
  · rw [howner] at hn
    rw [hn] at hsome
    cases hsome
  · obtain ⟨hothers, pc, hpc, hfollows⟩ := h.owned o (howner ▸ ho)
    exact ⟨fun u hu => (hsame u).trans (hothers u hu), pc, (hsame o).trans hpc, hfollows⟩

/-- `pthread_mutex_lock`, before `done` is set. -/
theorem Undone.lockMutex (h : Undone m s) (hs : Sched idle s.state.kernel)
    (hnested : Nested s.calls)
    (hcalls : s.calls s.state.kernel.running = .lock :: rest)
    (hstep : s.lockMutex idle m s.state.kernel.running = some s') :
    Undone m s' ∧ s'.done = s.done ∧
      (s'.log = s.log ∨ s'.log = s.log ++ [.returned s.state.kernel.running .EDEADLK]) := by
  obtain ⟨state, hstate, rfl⟩ := Option.map_eq_some_iff.mp hstep
  obtain ⟨h0, hrun, rfl⟩ := step_call hstate
  have hcont := fun u => makeCall_cont (s := s.state) (c := .lock m) (d := .lock m) (t := u) hrun
  rcases hs.begin_lock h0 m with ⟨-, hb⟩ | ⟨hsome, hb⟩ | ⟨hnone, hb⟩
  · -- a call from the init routine
    rw [hb] at hcont ⊢
    have hothers : ∀ u, (s.state.makeCall (.lock m)).cont u = some (.lock m) →
        u ≠ s.state.kernel.running ∧ s.state.cont u = some (.lock m) := fun u hu => by
      simpa using hcont u hu
    have hframe : Undone m { s with state := s.state.makeCall (.lock m) } :=
      h.frame ⟨by simp [hb], by simp [hb], fun u hu => (hothers u hu).2⟩
    have hrest : rest.filter OncePc.past = (s.calls s.state.kernel.running).filter OncePc.past := by
      rw [hcalls]
      rfl
    have hinner : rest.head? ≠ some .locking := fun hhead => by
      have hmem : .locking ∈ (s.calls s.state.kernel.running).tail := by
        rw [hcalls]
        exact List.mem_of_head? hhead
      cases hnested _ _ hmem
    have hback := (hframe.setCalls _ (fun hu => (hothers _ hu).1 rfl) hinner hrest).record
      (r := .returned s.state.kernel.running .EDEADLK) rfl
    refine ⟨?_, rfl, .inr rfl⟩
    show Undone m (OnceState.leave _ _ .EDEADLK)
    rw [leave_eq (s := { s with state := s.state.makeCall (.lock m) }) hcalls]
    exact hback
  · rw [hb] at hcont ⊢
    obtain ⟨ready, hready⟩ := hs.ready_eq h0
    have hkernel : (s.state.makeCall (.lock m)).kernel =
        (s.state.kernel.tthCsMove .ready (.mutex m) .mutex).execSwitch := by
      rw [s.state.makeCall_kernel, hb]
    have hwait := h.wait hcalls hsome (s.state.makeCall (.lock m)) (by rw [hkernel]; simp)
      (fun u hu => ?_) fun u hu => (hcont u hu).imp (fun h => h.1) fun h => h.2
    · refine ⟨?_, rfl, .inl rfl⟩
      show Undone m (OnceState.goto _ _ .locking)
      rw [goto_eq (s := { s with state := s.state.makeCall (.lock m) }) hcalls]
      exact hwait
    · rw [hkernel, Kernel.execSwitch_queue, Kernel.mem_tthCsMove hs.wf _ hready]
      by_cases heq : u = s.state.kernel.running
      · exact .inl ⟨heq, rfl⟩
      · exact .inr ⟨heq, hu.resolve_left heq⟩
  · rw [hb] at hcont ⊢
    have hkernel : (s.state.makeCall (.lock m)).kernel = s.state.kernel.takeMutex m := by
      rw [s.state.makeCall_kernel, hb]
    have htake := h.take hcalls hnone (s.state.makeCall (.lock m))
      (by rw [hkernel]; exact Function.update_self _ _ _) (by rw [hkernel]; rfl) fun u hu => by
        simpa using hcont u hu
    refine ⟨?_, rfl, .inl rfl⟩
    show Undone m (OnceState.goto _ _ .check)
    rw [goto_eq (s := { s with state := s.state.makeCall (.lock m) }) hcalls]
    exact htake

end Undone

/-! ## When `done` is set -/

section Done

variable {s : OnceState} {t : Tid}

theorem Done.setState (h : Done s) (state : State) : Done { s with state := state } :=
  ⟨h.starts, h.ended, h.calls⟩

theorem Done.setCalls (h : Done s) (t : Tid) (calls : List OncePc)
    (hcalls : .routine ∉ calls ∧ .write ∉ calls) :
    Done { s with calls := Function.update s.calls t calls } := by
  refine ⟨h.starts, h.ended, fun u => ?_⟩
  show .routine ∉ Function.update s.calls t calls u ∧ .write ∉ Function.update s.calls t calls u
  by_cases hu : u = t
  · subst hu
    rwa [Function.update_self]
  · rw [Function.update_of_ne hu]
    exact h.calls u

theorem Done.goto (h : Done s) {pc : OncePc} (hroutine : pc ≠ .routine) (hwrite : pc ≠ .write) :
    Done (s.goto t pc) := by
  refine h.setCalls _ _ ⟨fun hmem => ?_, fun hmem => ?_⟩
  · rcases List.mem_cons.mp hmem with heq | hmem
    · exact hroutine heq.symm
    · exact (h.calls t).1 (List.mem_of_mem_tail hmem)
  · rcases List.mem_cons.mp hmem with heq | hmem
    · exact hwrite heq.symm
    · exact (h.calls t).2 (List.mem_of_mem_tail hmem)

theorem Done.leave (h : Done s) (code : Code) : Done (s.leave t code) := by
  have htail := h.setCalls t (s.calls t).tail
    ⟨fun hmem => (h.calls t).1 (List.mem_of_mem_tail hmem),
      fun hmem => (h.calls t).2 (List.mem_of_mem_tail hmem)⟩
  refine ⟨?_, htail.ended.snoc _, htail.calls⟩
  show TinyThreads.starts (s.log ++ [.returned t code]) ≤ 1
  rw [starts_snoc]
  exact h.starts

end Done

/-! ## Steps -/

section Steps

variable {idle : Tid} {m : MutexId} {s s' : OnceState} {t : Tid} {pc : OncePc} {rest : List OncePc}

theorem Nested.update (h : Nested s.calls) {calls : List OncePc}
    (hcalls : ∀ pc ∈ calls.tail, pc = .routine) : Nested (Function.update s.calls t calls) := by
  intro u
  by_cases hu : u = t
  · subst hu
    rwa [Function.update_self]
  · rw [Function.update_of_ne hu]
    exact h u

theorem Nested.goto (h : Nested s.calls) (pc : OncePc) : Nested (s.goto t pc).calls := h.update (h t)

theorem Nested.leave (h : Nested s.calls) (code : Code) : Nested (s.leave t code).calls :=
  h.update fun pc hpc => h t pc (List.mem_of_mem_tail hpc)

theorem not_mem_of_past {l : List OncePc} (h : l.filter OncePc.past = []) :
    .routine ∉ l ∧ .write ∉ l := by
  rw [List.filter_eq_nil_iff] at h
  exact ⟨fun hmem => h _ hmem rfl, fun hmem => h _ hmem rfl⟩

/-- Steps of `pthread_once` keep the schedule. -/
theorem pthreadOnce_sched (hs : Sched idle s.state.kernel)
    (hstep : s.pthreadOnce idle m t pc = some s') : Sched idle s'.state.kernel := by
  cases pc with
  | read | check | routine | write =>
    rw [OnceState.pthreadOnce, Option.ite_none_right_eq_some, Option.some.injEq] at hstep
    obtain ⟨-, rfl⟩ := hstep
    first | exact hs | (split_ifs <;> exact hs)
  | lock | unlock =>
    obtain ⟨state, hstate, rfl⟩ := Option.map_eq_some_iff.mp hstep
    have hs' := sched_step hs hstate
    split <;> exact hs'
  | locking | unlocking =>
    obtain ⟨state, hstate, rfl⟩ := Option.map_eq_some_iff.mp hstep
    exact sched_step hs hstate

theorem pthreadOnce_nested (h : Nested s.calls) (hstep : s.pthreadOnce idle m t pc = some s') :
    Nested s'.calls := by
  cases pc with
  | read | check =>
    rw [OnceState.pthreadOnce, Option.ite_none_right_eq_some, Option.some.injEq] at hstep
    obtain ⟨-, rfl⟩ := hstep
    split_ifs
    · first | exact h.leave _ | exact h.goto _
    · exact h.goto _
  | routine | write =>
    rw [OnceState.pthreadOnce, Option.ite_none_right_eq_some, Option.some.injEq] at hstep
    obtain ⟨-, rfl⟩ := hstep
    exact h.goto _
  | lock | unlock =>
    obtain ⟨state, -, rfl⟩ := Option.map_eq_some_iff.mp hstep
    have h' : Nested { s with state := state }.calls := h
    split
    all_goals first | exact h'.goto _ | exact h'.leave _
  | locking | unlocking =>
    obtain ⟨state, -, rfl⟩ := Option.map_eq_some_iff.mp hstep
    have h' : Nested { s with state := state }.calls := h
    first | exact h'.goto _ | exact h'.leave _

/-- A step of `pthread_once` before `done` is set. -/
theorem Undone.step (h : Undone m s) (hs : Sched idle s.state.kernel) (hnested : Nested s.calls)
    (hfirst : EndedFirst s.log) (hdone : s.done = false)
    (hcalls : s.calls s.state.kernel.running = pc :: rest)
    (hstep : s.pthreadOnce idle m s.state.kernel.running pc = some s') :
    EndedFirst s'.log ∧ (s'.done = false → Undone m s') ∧ (s'.done = true → Done s') := by
  have hundone : ∀ {s'}, s'.done = s.done → Undone m s' →
      (s'.done = false → Undone m s') ∧ (s'.done = true → Done s') := fun hsame hundone =>
    ⟨fun _ => hundone, fun htrue => by rw [hsame, hdone] at htrue; cases htrue⟩
  cases pc with
  | read =>
    rw [OnceState.pthreadOnce, Option.ite_none_right_eq_some, Option.some.injEq, hdone] at hstep
    obtain ⟨⟨h0, hrun⟩, rfl⟩ := hstep
    have hlock := h.setCalls (.lock :: rest) (by rw [hrun]; simp) (by simp) (by rw [hcalls]; rfl)
    refine ⟨hfirst, hundone rfl ?_⟩
    show Undone m (s.goto _ .lock)
    rwa [goto_eq hcalls]
  | lock =>
    obtain ⟨hundone', hsame, hlog⟩ := h.lockMutex hs hnested hcalls hstep
    refine ⟨?_, hundone hsame hundone'⟩
    rcases hlog with hlog | hlog
    · rwa [hlog]
    · rw [hlog]
      exact hfirst.snoc nofun
  | locking =>
    obtain ⟨state, hstate, -⟩ := Option.map_eq_some_iff.mp hstep
    refine absurd ?_ (h.not_locking hs (step_finish hstate).1)
    rw [hcalls]
    rfl
  | check =>
    rw [OnceState.pthreadOnce, Option.ite_none_right_eq_some, Option.some.injEq, hdone] at hstep
    obtain ⟨⟨h0, hrun⟩, rfl⟩ := hstep
    obtain ⟨-, -, hstarts⟩ := h.past hcalls rfl
    have hstarted : starts (s.log ++ [.started s.state.kernel.running]) = 1 := by
      rw [starts_snoc, show starts s.log = 0 from hstarts]
      rfl
    have hroutine := h.advance hcalls rfl (by rw [hrun]; simp) .routine rfl hstarted
    refine ⟨hfirst.snoc nofun, hundone rfl ?_⟩
    show Undone m ((s.goto _ .routine).record _)
    rw [goto_eq hcalls]
    exact hroutine
  | routine =>
    rw [OnceState.pthreadOnce, Option.ite_none_right_eq_some, Option.some.injEq] at hstep
    obtain ⟨⟨h0, hrun⟩, rfl⟩ := hstep
    obtain ⟨-, -, hstarts⟩ := h.past hcalls rfl
    have hended : starts (s.log ++ [.ended s.state.kernel.running]) = 1 ∧
        Ended (s.log ++ [.ended s.state.kernel.running]) := by
      rw [starts_snoc]
      exact ⟨hstarts, _, List.mem_append_right _ List.mem_cons_self⟩
    have hwrite := h.advance hcalls rfl (by rw [hrun]; simp) .write rfl hended
    refine ⟨hfirst.snoc nofun, hundone rfl ?_⟩
    show Undone m ((s.goto _ .write).record _)
    rw [goto_eq hcalls]
    exact hwrite
  | write =>
    rw [OnceState.pthreadOnce, Option.ite_none_right_eq_some, Option.some.injEq] at hstep
    obtain ⟨-, rfl⟩ := hstep
    obtain ⟨howner, hrest, hstarts, hended⟩ := h.past hcalls rfl
    refine ⟨hfirst, nofun, fun _ => ⟨hstarts.le, hended, fun u => ?_⟩⟩
    show .routine ∉ (s.goto _ .unlock).calls u ∧ .write ∉ (s.goto _ .unlock).calls u
    rw [goto_eq hcalls]
    by_cases hu : u = s.state.kernel.running
    · subst hu
      simpa using not_mem_of_past hrest
    · simpa [Function.update_of_ne hu] using not_mem_of_past ((h.owned _ howner).1 u hu)
  | unlock | unlocking => exact absurd (h.past hcalls rfl).2.2 id

/-- A step of `pthread_once` when `done` is set. -/
theorem Done.step (h : Done s) (hfirst : EndedFirst s.log) (hdone : s.done = true)
    (hcalls : s.calls s.state.kernel.running = pc :: rest)
    (hstep : s.pthreadOnce idle m s.state.kernel.running pc = some s') :
    EndedFirst s'.log ∧ s'.done = true ∧ Done s' := by
  have hmem : pc ∈ s.calls s.state.kernel.running := by
    rw [hcalls]
    exact List.mem_cons_self
  cases pc with
  | read =>
    rw [OnceState.pthreadOnce, Option.ite_none_right_eq_some, Option.some.injEq, hdone] at hstep
    obtain ⟨-, rfl⟩ := hstep
    exact ⟨hfirst.snoc fun _ _ => h.ended, hdone, h.leave _⟩
  | check =>
    rw [OnceState.pthreadOnce, Option.ite_none_right_eq_some, Option.some.injEq, hdone] at hstep
    obtain ⟨-, rfl⟩ := hstep
    exact ⟨hfirst, hdone, h.goto nofun nofun⟩
  | routine => exact absurd hmem (h.calls _).1
  | write => exact absurd hmem (h.calls _).2
  | lock | unlock =>
    obtain ⟨state, -, rfl⟩ := Option.map_eq_some_iff.mp hstep
    have h' := h.setState state
    split
    all_goals first
      | exact ⟨hfirst, hdone, h'.goto nofun nofun⟩
      | exact ⟨hfirst.snoc fun _ _ => h.ended, hdone, h'.leave _⟩
  | locking =>
    obtain ⟨state, -, rfl⟩ := Option.map_eq_some_iff.mp hstep
    exact ⟨hfirst, hdone, (h.setState state).goto nofun nofun⟩
  | unlocking =>
    obtain ⟨state, -, rfl⟩ := Option.map_eq_some_iff.mp hstep
    exact ⟨hfirst.snoc fun _ _ => h.ended, hdone, (h.setState state).leave _⟩

/-- **An event.** -/
theorem OnceInv.step {e : OnceEvent} (h : OnceInv idle m s) (hstep : s.step idle m e = some s') :
    OnceInv idle m s' := by
  cases e with
  | kernel e =>
    rw [OnceState.step, Option.ite_none_right_eq_some] at hstep
    obtain ⟨haside, hstep⟩ := hstep
    obtain ⟨state, hstate, rfl⟩ := Option.map_eq_some_iff.mp hstep
    refine ⟨sched_step h.sched hstate, h.nested, h.endedFirst, fun hdone => ?_,
      fun hdone => (h.isDone hdone).setState state⟩
    have hundone := h.undone hdone
    refine hundone.frame (step_frame hstate ?_ ?_)
    · rintro c rfl
      exact haside.2
    · rintro rfl hlock
      have houtside : s.Outside s.state.kernel.running := haside
      rw [OnceState.Outside, hundone.suspended _ hlock] at houtside
      simp at houtside
  | enter =>
    rw [OnceState.step, Option.ite_none_right_eq_some, Option.some.injEq] at hstep
    obtain ⟨⟨⟨h0, hrun⟩, -, houtside⟩, rfl⟩ := hstep
    have hinner : ∀ pc ∈ s.calls s.state.kernel.running, pc = .routine := fun pc hpc => by
      cases hcalls : s.calls s.state.kernel.running with
      | nil =>
        rw [hcalls] at hpc
        cases hpc
      | cons top rest =>
        have hnested := h.nested s.state.kernel.running
        rw [OnceState.Outside, hcalls] at houtside
        rw [hcalls] at hpc hnested
        rcases List.mem_cons.mp hpc with rfl | hpc
        · simpa using houtside
        · exact hnested pc hpc
    refine ⟨h.sched, h.nested.update hinner, h.endedFirst, fun hdone => ?_, fun hdone => ?_⟩
    · exact (h.undone hdone).setCalls _ (by rw [hrun]; simp) (by simp) rfl
    · refine (h.isDone hdone).setCalls _ _ ?_
      simpa using (h.isDone hdone).calls s.state.kernel.running
  | once =>
    obtain ⟨pc, hhead, hstep⟩ := Option.bind_eq_some_iff.mp hstep
    obtain ⟨rest, hcalls⟩ := List.head?_eq_some_iff.mp hhead
    have hsched := pthreadOnce_sched h.sched hstep
    have hnested := pthreadOnce_nested h.nested hstep
    cases hdone : s.done with
    | false =>
      obtain ⟨hfirst, hundone, hisDone⟩ :=
        (h.undone hdone).step h.sched h.nested h.endedFirst hdone hcalls hstep
      exact ⟨hsched, hnested, hfirst, hundone, hisDone⟩
    | true =>
      obtain ⟨hfirst, hdone', hisDone⟩ := (h.isDone hdone).step h.endedFirst hdone hcalls hstep
      exact ⟨hsched, hnested, hfirst, fun hfalse => absurd hfalse (by simp [hdone']),
        fun _ => hisDone⟩

end Steps

/-! ## Runs -/

section Runs

variable {idle : Tid} {m : MutexId} {s₀ s : OnceState} {es : List OnceEvent}

theorem Unused.onceInv (h : Unused idle m s₀) : OnceInv idle m s₀ where
  sched := h.unlocked.sched
  nested t := by rw [h.calls]; exact nofun
  endedFirst l l' t heq := by rw [h.log] at heq; simp at heq
  undone _ := by
    refine ⟨fun t ht => absurd ht (h.unlocked.cont t).1, fun t ht => ?_, fun _ => ?_, fun o ho => ?_⟩
    · rw [h.calls] at ht
      cases ht
    · exact ⟨by rw [h.log]; rfl, fun t => by rw [h.calls]; rfl⟩
    · rw [h.unlocked.owner] at ho
      cases ho
  isDone hdone := by rw [h.done] at hdone; cases hdone

theorem OnceInv.starts_le (h : OnceInv idle m s) : starts s.log ≤ 1 := by
  cases hdone : s.done with
  | true => exact (h.isDone hdone).starts
  | false =>
    have hundone := h.undone hdone
    cases howner : s.state.kernel.owner m with
    | none => exact (hundone.free howner).1.le.trans (Nat.zero_le 1)
    | some o =>
      obtain ⟨-, pc, -, hfollows⟩ := hundone.owned o howner
      cases pc with
      | check => exact (show starts s.log = 0 from hfollows).le.trans (Nat.zero_le 1)
      | routine => exact (show starts s.log = 1 from hfollows).le
      | write => exact hfollows.1.le
      | _ => exact hfollows.elim

/-- **`pthread_once`.** From an unused control object, in every run of any threads the init routine is
started at most once, and it has returned whenever a call has returned 0. -/
theorem once_initialises (h₀ : Unused idle m s₀)
    (h : Path (OnceState.step idle m) anyStep s₀ es s) :
    starts s.log ≤ 1 ∧ EndedFirst s.log := by
  have hinv : OnceInv idle m s :=
    h.invariant h₀.onceInv fun s e t hs _ ht => hs.step ht
  exact ⟨hinv.starts_le, hinv.endedFirst⟩

/-- The threads of `twoReady`, and a control object that is not used yet. -/
def onceUnused : OnceState where
  state := twoReady
  done := false
  calls _ := []
  log := []

/-- While thread 1 is in the init routine, it yields, and thread 2 waits for the mutex. -/
def onceTwice : List OnceEvent :=
  [.enter, .once, .once, .once, .kernel (.call .yield), .enter, .once, .once, .kernel .finish, .once,
    .once, .once, .kernel (.call .yield), .once, .once, .once]

theorem once_initialises_twice : ∃ s, Path (OnceState.step 0 0) anyStep onceUnused onceTwice s ∧
    s.log = [.started 1, .ended 1, .returned 1 .zero, .returned 2 .zero] ∧
      starts s.log ≤ 1 ∧ EndedFirst s.log :=
  ⟨_, path_get (by decide), by decide, once_initialises
    ⟨twoReady_unlocked 0, rfl, fun _ => rfl, rfl⟩ (path_get (by decide))⟩

end Runs

end OlivePiccolo.TinyThreads
