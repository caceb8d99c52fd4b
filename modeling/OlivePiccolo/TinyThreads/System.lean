import OlivePiccolo.Library.Runs
import OlivePiccolo.TinyThreads.Calls

/-!
# Threads and interrupts on one kernel

The running thread makes a call when it is outside every critical section, or finishes the call
it was suspended in. An interrupt may be taken between calls; its handlers post semaphores and
run the tick, and the outermost exit switches threads when the head of the ready list has
changed. A run is any sequence of these events.
-/

namespace OlivePiccolo.TinyThreads

/-- The kernel, and where each thread goes on when it is switched to. -/
structure State where
  kernel : Kernel
  /-- The call a thread is suspended in, `none` outside the critical sections. -/
  cont : Tid → Option Call
  /-- From a `lock` or `trylock` that returned 0 until the thread's next `unlock` call. -/
  holds : Tid → MutexId → Bool

/-- What can happen next. -/
inductive Event
  | call (c : Call)
  | finish
  | intEnter
  | intPost (s : SemId)
  | intTick
  | intExit
  deriving DecidableEq, Repr

namespace State

/-- Calling `unlock` ends the holding. -/
def onCall (holds : Tid → MutexId → Bool) (t : Tid) : Call → Tid → MutexId → Bool
  | .unlock m => Function.update holds t (Function.update (holds t) m false)
  | _ => holds

/-- A `lock` or `trylock` that returns 0 starts it. -/
def onReturn (holds : Tid → MutexId → Bool) (t : Tid) : Call → Code → Tid → MutexId → Bool
  | .lock m, .zero | .trylock m, .zero => Function.update holds t (Function.update (holds t) m true)
  | _, _ => holds

/-- The running thread makes the call `c`. -/
def makeCall (s : State) (c : Call) : State :=
  let t := s.kernel.running
  let holds := onCall s.holds t c
  match s.kernel.begin c with
  | (k, none) => { kernel := k, cont := Function.update s.cont t (some c), holds := holds }
  | (k, some code) => { kernel := k, cont := s.cont, holds := onReturn holds t c code }

/-- The running thread comes back from the switch inside the call `c`; it then returns 0. -/
def finishCall (s : State) (c : Call) : State :=
  let t := s.kernel.running
  { kernel := s.kernel.finish c
    cont := Function.update s.cont t none
    holds := onReturn s.holds t c .zero }

/-- `tth_int_tick`, when its preemption interval is over. -/
def tick (k : Kernel) : Kernel :=
  if k.roundRobin k.running then k.schedYield.1 else k

/-- One event. The idle thread only yields; interrupts are taken only outside critical sections,
and a thread that was suspended inside one first finishes its call. -/
def step (idle : Tid) (s : State) : Event → Option State
  | .call c =>
    if s.kernel.intLevel = 0 ∧ s.cont s.kernel.running = none ∧
        (s.kernel.running = idle → c = .yield) then some (s.makeCall c) else none
  | .finish =>
    if s.kernel.intLevel = 0 then (s.cont s.kernel.running).map s.finishCall else none
  | .intEnter =>
    if s.cont s.kernel.running = none then
      some { s with kernel := { s.kernel with intLevel := s.kernel.intLevel + 1 } } else none
  | .intPost sem =>
    if 0 < s.kernel.intLevel then some { s with kernel := (s.kernel.semPost sem).1 } else none
  | .intTick =>
    if 0 < s.kernel.intLevel then some { s with kernel := tick s.kernel } else none
  | .intExit =>
    if 0 < s.kernel.intLevel then
      some { s with
        kernel := { s.kernel with intLevel := s.kernel.intLevel - 1 }.tthCsSwitch } else none

end State

/-! ## The scheduler invariant -/

/-- The lists are well formed, the idle thread is ready, and outside interrupts the head of the
ready list is running. -/
structure Sched (idle : Tid) (k : Kernel) : Prop where
  wf : k.Wf
  idle_ready : idle ∈ k.queue .ready
  head_runs : k.intLevel = 0 → (k.queue .ready).head? = some k.running

namespace Sched

variable {idle : Tid} {k : Kernel}

theorem ready_eq (h : Sched idle k) (h0 : k.intLevel = 0) :
    ∃ rest, k.queue .ready = k.running :: rest := by
  have hh := h.head_runs h0
  rcases hq : k.queue .ready with _ | ⟨t, rest⟩
  · simp [hq] at hh
  · rw [hq, List.head?_cons, Option.some.injEq] at hh
    exact ⟨rest, by rw [hh]⟩

/-- Fields outside the lists do not matter. -/
theorem congr (h : Sched idle k) {k' : Kernel} (hq : k'.queue = k.queue)
    (hr : k'.running = k.running) (hl : k'.intLevel = k.intLevel) : Sched idle k' where
  wf := ⟨by rw [hq]; exact h.wf.nodup, by rw [hq]; exact h.wf.disjoint⟩
  idle_ready := by rw [hq]; exact h.idle_ready
  head_runs := by rw [hq, hr, hl]; exact h.head_runs

/-- A switch at level 0 makes the head of the ready list run. -/
theorem tthCsSwitch (hw : k.Wf) (hi : idle ∈ k.queue .ready) : Sched idle k.tthCsSwitch where
  wf := ⟨by rw [k.tthCsSwitch_queue]; exact hw.nodup, by rw [k.tthCsSwitch_queue]; exact hw.disjoint⟩
  idle_ready := by rwa [k.tthCsSwitch_queue]
  head_runs h0 := by
    rw [k.tthCsSwitch_intLevel] at h0
    exact k.head_tthCsSwitch h0 (List.ne_nil_of_mem hi)

/-- Moving a thread into the ready list keeps the idle thread there. -/
theorem idle_move_ready (hw : k.Wf) (hi : idle ∈ k.queue .ready) (src : Anchor) (w : WaitState) :
    idle ∈ (k.tthCsMove src .ready w).queue .ready := by
  rcases h : k.queue src with _ | ⟨t, rest⟩
  · rwa [Kernel.tthCsMove_nil _ w h]
  · rw [Kernel.mem_tthCsMove hw w h]
    by_cases he : idle = t
    · exact Or.inl ⟨he, rfl⟩
    · exact Or.inr ⟨he, hi⟩

/-- The running thread leaves the ready list; the idle thread stays. -/
theorem idle_move_away (h : Sched idle k) (h0 : k.intLevel = 0) (hr : k.running ≠ idle)
    (dst : Anchor) (w : WaitState) : idle ∈ (k.tthCsMove .ready dst w).queue .ready := by
  obtain ⟨rest, hq⟩ := h.ready_eq h0
  rw [Kernel.mem_tthCsMove h.wf w hq]
  exact Or.inr ⟨hr.symm, h.idle_ready⟩

/-- After the running thread has left the ready list, a switch is due. -/
theorem needsSwitch_move_away (h : Sched idle k) (h0 : k.intLevel = 0) {dst : Anchor}
    (hd : dst ≠ .ready) (w : WaitState) : (k.tthCsMove .ready dst w).needsSwitch = true := by
  obtain ⟨rest, hq⟩ := h.ready_eq h0
  have hnd := h.wf.nodup .ready
  rw [hq, List.nodup_cons] at hnd
  unfold Kernel.needsSwitch
  rw [Kernel.tthCsMove_queue w hq hd.symm, Function.update_of_ne hd.symm, Function.update_self]
  simp only [Kernel.tthCsMove_intLevel, h0, Kernel.tthCsMove_running, beq_self_eq_true,
    Bool.true_and, bne_iff_ne, ne_eq]
  intro he
  exact hnd.1 (List.mem_of_mem_head? he)

/-- A move into the ready list, followed by a switch. -/
theorem move_ready (h : Sched idle k) (src : Anchor) (w : WaitState) (code : Code) :
    Sched idle ((k.tthCsMove src .ready w).switchThen code).1 :=
  tthCsSwitch (h.wf.tthCsMove _ _ _) (idle_move_ready h.wf h.idle_ready src w)

/-- `pthread_mutex_lock`: the caller owns the mutex, waits for its owner, or takes it. -/
theorem begin_lock (h : Sched idle k) (h0 : k.intLevel = 0) (m : MutexId) :
    (k.owner m = some k.running ∧ k.begin (.lock m) = (k, some .EDEADLK)) ∨
      ((k.owner m).isSome ∧
        k.begin (.lock m) = ((k.tthCsMove .ready (.mutex m) .mutex).execSwitch, none)) ∨
      (k.owner m = none ∧ k.begin (.lock m) = (k.takeMutex m, some .zero)) := by
  by_cases hself : k.owner m = some k.running
  · exact .inl ⟨hself, by simp [Kernel.begin, Kernel.tthCsMutexLock, hself]⟩
  by_cases hsome : (k.owner m).isSome
  · have hsw : (k.tthCsMove .ready (.mutex m) .mutex).needsSwitch = true :=
      h.needsSwitch_move_away h0 (by simp) .mutex
    exact .inr (.inl ⟨hsome, by simp [Kernel.begin, Kernel.tthCsMutexLock, hself, hsome, hsw]⟩)
  · have hnone : k.owner m = none := by simpa using hsome
    exact .inr (.inr ⟨hnone, by simp [Kernel.begin, Kernel.tthCsMutexLock, hnone]⟩)

/-- Every call keeps the invariant. -/
theorem begin (h : Sched idle k) (h0 : k.intLevel = 0) {c : Call}
    (hc : k.running = idle → c = .yield) : Sched idle (k.begin c).1 := by
  -- what leaves the ready list is the running thread, and that is not the idle thread
  have haway : ∀ dst w, c ≠ .yield → Sched idle (k.tthCsMove .ready dst w).tthCsSwitch :=
    fun dst w hy => tthCsSwitch (h.wf.tthCsMove _ _ _)
      (h.idle_move_away h0 (fun e => hy (hc e)) dst w)
  cases c with
  | lock m =>
    simp only [Kernel.begin, Kernel.tthCsMutexLock, ↓reduceIte]
    split_ifs with _ _ hs
    · exact h
    · have := haway (.mutex m) .mutex (by simp)
      rwa [Kernel.tthCsSwitch, if_pos hs] at this
    · exact absurd (h.needsSwitch_move_away h0 (by simp) _) hs
    · exact h.congr rfl rfl rfl
  | trylock m =>
    simp only [Kernel.begin, Kernel.tthCsMutexLock, Bool.false_eq_true, ↓reduceIte]
    split_ifs
    · exact h
    · exact h
    · exact h.congr rfl rfl rfl
  | unlock m =>
    simp only [Kernel.begin, Kernel.pthreadMutexUnlock, Kernel.tthCsMutexUnlock]
    split_ifs
    · exact h
    · have hd : Sched idle (k.dropMutex m) := h.congr rfl rfl rfl
      exact hd.move_ready _ _ _
  | yield => exact h.move_ready _ _ _
  | semWait s =>
    simp only [Kernel.begin, Kernel.semWait]
    split_ifs
    · exact h.congr rfl rfl rfl
    · exact haway (.sem s) .sem (by simp)
  | semTrywait s =>
    simp only [Kernel.begin, Kernel.semTrywait]
    split_ifs
    · exact h.congr rfl rfl rfl
    · exact h
  | semPost s =>
    simp only [Kernel.begin, Kernel.semPost]
    split_ifs
    · exact h.move_ready _ _ _
    · exact h
    · exact h.congr rfl rfl rfl

end Sched

/-- The scheduler invariant is kept by every event. -/
theorem sched_step {idle : Tid} {s t : State} {e : Event} (h : Sched idle s.kernel)
    (hs : s.step idle e = some t) : Sched idle t.kernel := by
  cases e with
  | call c =>
    simp only [State.step, Option.ite_none_right_eq_some, Option.some.injEq] at hs
    obtain ⟨⟨h0, -, hc⟩, rfl⟩ := hs
    have hb := h.begin h0 hc
    unfold State.makeCall
    split
    · rename_i hk; rw [hk] at hb; exact hb
    · rename_i hk; rw [hk] at hb; exact hb
  | finish =>
    simp only [State.step, Option.ite_none_right_eq_some, Option.map_eq_some_iff] at hs
    obtain ⟨-, c, -, rfl⟩ := hs
    cases c <;> first | exact h | exact h.congr rfl rfl rfl
  | intEnter =>
    simp only [State.step, Option.ite_none_right_eq_some, Option.some.injEq] at hs
    obtain ⟨-, rfl⟩ := hs
    exact ⟨⟨h.wf.nodup, h.wf.disjoint⟩, h.idle_ready, fun h0 => absurd h0 (by simp)⟩
  | intPost sem =>
    simp only [State.step, Option.ite_none_right_eq_some, Option.some.injEq] at hs
    obtain ⟨-, rfl⟩ := hs
    simp only [Kernel.semPost]
    split_ifs
    · exact h.move_ready _ _ _
    · exact h
    · exact h.congr rfl rfl rfl
  | intTick =>
    simp only [State.step, Option.ite_none_right_eq_some, Option.some.injEq] at hs
    obtain ⟨-, rfl⟩ := hs
    simp only [State.tick]
    split_ifs
    · exact h.move_ready _ _ _
    · exact h
  | intExit =>
    simp only [State.step, Option.ite_none_right_eq_some, Option.some.injEq] at hs
    obtain ⟨-, rfl⟩ := hs
    exact Sched.tthCsSwitch ⟨h.wf.nodup, h.wf.disjoint⟩ h.idle_ready

end OlivePiccolo.TinyThreads
