import OlivePiccolo.Tth.Structure

/-!
# The variables of the kernel

Next to its lists, the kernel has a clock, the values of its semaphores, and for each thread a result
or the end of its sleep. They change only where they are written: by a tick, by the calls of a
semaphore, and by the calls that create, end or put to sleep a thread (`exec_steady`,
`steady_intTick`).
-/

namespace OlivePiccolo.Tth

open Links

/-- The call is about the semaphore. -/
def Call.about (sem : SemId) : Call → Prop
  | .semInit sem' _ _ | .semPost sem' | .semWait sem' | .semTrywait sem' => sem' = sem
  | _ => False

/-- The event is about the semaphore. -/
def Event.about (sem : SemId) : Event → Prop
  | .call c => c.about sem
  | .intPost sem' => sem' = sem
  | _ => False

/-- The call writes the time-out or the result of the thread. -/
def Call.stores (k : Kernel) (t : Tid) : Call → Prop
  | .create (some object) _ => object = t
  | .exit _ | .usleep _ => k.running = t
  | _ => False

/-- The event writes the time-out or the result of the thread. -/
def Event.stores (s : State) (t : Tid) : Event → Prop
  | .call c => c.stores s.kernel t
  | _ => False

/-- The clock stays, and so do the threads' variables and the semaphores that are not written. -/
structure Kernel.Steady (stores : Tid → Prop) (about : SemId → Prop) (k k' : Kernel) : Prop where
  time : k'.time = k.time
  shared : ∀ t, ¬ stores t → k'.shared t = k.shared t
  value : ∀ sem, ¬ about sem → k'.value sem = k.value sem

section Steady

variable {stores : Tid → Prop} {about : SemId → Prop} {k k' k'' : Kernel} {src : Anchor}
  {dst : Option Anchor} {w : WaitState} {r : Kernel × Outcome} {s s' : State} {e : Event}

@[simp] theorem settle_kernel (s : State) (t : Tid) (r : Kernel × Outcome) :
    (s.settle t r).kernel = r.1 := by
  obtain ⟨k, o⟩ := r
  cases o <;> rfl

theorem Kernel.Steady.refl (k : Kernel) : k.Steady stores about k :=
  ⟨rfl, fun _ _ => rfl, fun _ _ => rfl⟩

theorem Kernel.Steady.same (htime : k'.time = k.time) (hshared : k'.shared = k.shared)
    (hvalue : k'.value = k.value) : k.Steady stores about k' :=
  ⟨htime, fun _ _ => by rw [hshared], fun _ _ => by rw [hvalue]⟩

theorem Kernel.Steady.trans (h : k.Steady stores about k') (h' : k'.Steady stores about k'') :
    k.Steady stores about k'' :=
  ⟨h'.time.trans h.time, fun t ht => (h'.shared t ht).trans (h.shared t ht),
    fun sem hsem => (h'.value sem hsem).trans (h.value sem hsem)⟩

theorem steady_move (h : k.tthCsMove src dst w = some k') : k.Steady stores about k' := by
  obtain ⟨th, -, rfl⟩ := Option.map_eq_some_iff.mp h
  exact .same rfl rfl rfl

theorem steady_switch (k : Kernel) : k.Steady stores about k.tthCsSwitch := by
  rw [Kernel.tthCsSwitch]
  split_ifs
  · exact .same rfl rfl rfl
  · exact .same rfl rfl rfl

theorem steady_switchThen (k : Kernel) (o : Result) :
    k.Steady stores about (k.switchThen o).1 := by
  rw [switchThen_fst]
  exact steady_switch k

theorem steady_move_then {o : Result}
    (h : (k.tthCsMove src dst w).map (fun k => k.switchThen o) = some r) :
    k.Steady stores about r.1 := by
  obtain ⟨k1, hmove, rfl⟩ := Option.map_eq_some_iff.mp h
  exact (steady_move hmove).trans (steady_switchThen k1 o)

theorem steady_move_cont {o : Outcome}
    (h : (k.tthCsMove src dst w).map (fun k => (k.tthCsSwitch, o)) = some r) :
    k.Steady stores about r.1 := by
  obtain ⟨k1, hmove, rfl⟩ := Option.map_eq_some_iff.mp h
  exact (steady_move hmove).trans (steady_switch k1)

theorem steady_moveWhile {p : Kernel → Tid → Bool} {fuel : ℕ}
    (h : Kernel.moveWhile p src fuel k = some k') : k.Steady stores about k' := by
  induction fuel generalizing k with
  | zero => cases h
  | succ fuel ih =>
    rw [Kernel.moveWhile] at h
    split at h
    · cases h
      exact .same rfl rfl rfl
    · split_ifs at h
      · obtain ⟨k1, hmove, hrest⟩ := Option.bind_eq_some_iff.mp h
        exact (steady_move hmove).trans (ih hrest)
      · cases h
        exact .same rfl rfl rfl

theorem steady_mutexLock {m : MutexId} {wait : Bool} (h : k.tthCsMutexLock m wait = some r) :
    k.Steady stores about r.1 := by
  rw [Kernel.tthCsMutexLock] at h
  split_ifs at h
  · cases h
    exact .same rfl rfl rfl
  · exact steady_move_cont h
  · cases h
    exact .same rfl rfl rfl
  · cases h
    exact .same rfl rfl rfl

theorem steady_mutexUnlock {m : MutexId} {p : Kernel × Option Errno}
    (h : k.tthCsMutexUnlock m = some p) : k.Steady stores about p.1 := by
  rw [Kernel.tthCsMutexUnlock] at h
  split_ifs at h
  · cases h
    exact .same rfl rfl rfl
  · obtain ⟨k1, hmove, rfl⟩ := Option.map_eq_some_iff.mp h
    have hdrop : k.Steady stores about (k.dropMutex m) := .same rfl rfl rfl
    exact hdrop.trans (steady_move hmove)

theorem steady_joined {t : Tid} (h : k.joined t = some r) : k.Steady stores about r.1 := by
  rw [Kernel.joined] at h
  split_ifs at h
  cases h
  exact .same rfl rfl rfl

theorem steady_semPost {sem : SemId} (habout : about sem) (h : k.semPost sem = some r) :
    k.Steady stores about r.1 := by
  rw [Kernel.semPost] at h
  split_ifs at h
  · exact steady_move_then h
  · cases h
    exact .same rfl rfl rfl
  · cases h
    refine ⟨rfl, fun _ _ => rfl, fun sem' hsem => Function.update_of_ne ?_ _ _⟩
    rintro rfl
    exact hsem habout

theorem steady_exit {retval : BitVec 32} (hstores : stores k.running)
    (h : k.pthreadExit retval = some r) : k.Steady stores about r.1 := by
  have hshared : k.Steady stores about
      { k with shared := Function.update k.shared k.running retval } := by
    refine ⟨rfl, fun t ht => Function.update_of_ne ?_ _ _, fun _ _ => rfl⟩
    rintro rfl
    exact ht hstores
  rw [Kernel.pthreadExit] at h
  dsimp only at h
  split_ifs at h
  · exact hshared.trans (steady_move_cont h)
  · obtain ⟨k1, hmove, hrest⟩ := Option.bind_eq_some_iff.mp h
    exact hshared.trans ((steady_move hmove).trans (steady_move_cont hrest))

theorem steady_usleep {us : BitVec 32} (hstores : stores k.running) (h : k.usleep us = some r) :
    k.Steady stores about r.1 := by
  rw [Kernel.usleep] at h
  split_ifs at h
  · exact steady_move_then h
  · cases h
    exact .same rfl rfl rfl
  · obtain ⟨slot, -, rfl⟩ := Option.map_eq_some_iff.mp h
    have hshared : k.Steady stores about
        { k.fallAsleep us with link := place (k.fallAsleep us).link slot k.running } := by
      refine ⟨rfl, fun t ht => Function.update_of_ne ?_ _ _, fun _ _ => rfl⟩
      rintro rfl
      exact ht hstores
    exact hshared.trans (steady_switchThen _ _)

/-- What a call writes. -/
theorem call_steady {c : Call} (h : k.call c = some r) :
    k.Steady (c.stores k) (c.about ·) r.1 := by
  cases c with
  | create object attr =>
    cases h
    cases object with
    | none => exact .same rfl rfl rfl
    | some t =>
      exact ⟨rfl, fun u hu => Function.update_of_ne (fun heq => hu heq.symm) _ _, fun _ _ => rfl⟩
  | exit retval => exact steady_exit rfl h
  | join t =>
    rw [Kernel.call, Kernel.pthreadJoin] at h
    split_ifs at h
    · cases h
      exact .same rfl rfl rfl
    · cases h
      exact .same rfl rfl rfl
    · exact steady_move_cont h
    · exact steady_joined h
  | detach t =>
    rw [Kernel.call, Kernel.pthreadDetach] at h
    split_ifs at h
    · cases h
      exact .same rfl rfl rfl
    · cases h
      exact .same rfl rfl rfl
  | yield => exact steady_move_then h
  | usleep us => exact steady_usleep rfl h
  | semInit sem pshared value =>
    cases h
    rw [Kernel.semInit]
    split_ifs
    · exact .same rfl rfl rfl
    · exact .same rfl rfl rfl
    · exact ⟨rfl, fun _ _ => rfl, fun sem' hsem => Function.update_of_ne (fun heq => hsem heq.symm)
        _ _⟩
  | semDestroy sem =>
    rw [Kernel.call, Kernel.semDestroy] at h
    split_ifs at h
    cases h
    exact .same rfl rfl rfl
  | semGetvalue sem =>
    cases h
    exact .same rfl rfl rfl
  | semPost sem => exact @steady_semPost _ (Call.about · (.semPost sem)) _ _ _ rfl h
  | semWait sem =>
    rw [Kernel.call, Kernel.semWait] at h
    split_ifs at h
    · cases h
      exact ⟨rfl, fun _ _ => rfl, fun sem' hsem => Function.update_of_ne (fun heq => hsem heq.symm)
        _ _⟩
    · exact steady_move_then h
  | semTrywait sem =>
    cases h
    rw [Kernel.semTrywait]
    split_ifs
    · exact ⟨rfl, fun _ _ => rfl, fun sem' hsem => Function.update_of_ne (fun heq => hsem heq.symm)
        _ _⟩
    · exact .same rfl rfl rfl
  | mutexInit m =>
    cases h
    exact .same rfl rfl rfl
  | mutexDestroy m =>
    cases h
    rw [Kernel.pthreadMutexDestroy]
    split_ifs
    · exact .same rfl rfl rfl
    · exact .same rfl rfl rfl
  | mutexLock m => exact steady_mutexLock h
  | mutexTrylock m => exact steady_mutexLock h
  | mutexUnlock m =>
    obtain ⟨⟨k1, e⟩, hunlock, rfl⟩ := Option.map_eq_some_iff.mp h
    have hsteady : k.Steady ((Call.mutexUnlock m).stores k) (Call.mutexUnlock m).about k1 :=
      steady_mutexUnlock hunlock
    cases e with
    | some e => exact hsteady
    | none => exact hsteady.trans (steady_switchThen k1 .zero)
  | condInit c =>
    cases h
    exact .same rfl rfl rfl
  | condDestroy c =>
    cases h
    exact .same rfl rfl rfl
  | condBroadcast c =>
    obtain ⟨k1, hloop, rfl⟩ := Option.map_eq_some_iff.mp h
    exact (steady_moveWhile hloop).trans (steady_switchThen k1 .zero)
  | condSignal c => exact steady_move_then h
  | condWait c m =>
    obtain ⟨⟨k1, e⟩, hunlock, hrest⟩ := Option.bind_eq_some_iff.mp h
    have hsteady : k.Steady ((Call.condWait c m).stores k) (Call.condWait c m).about k1 :=
      steady_mutexUnlock hunlock
    cases e with
    | some e =>
      cases hrest
      exact hsteady
    | none => exact hsteady.trans (steady_move_cont hrest)
  | idle =>
    cases h
    rw [Kernel.tthIdle]
    split
    · exact .same rfl rfl rfl
    · exact .same rfl rfl rfl

/-- Going on with a call writes none of these variables. -/
theorem resume_steady {c : Cont} (h : k.resume c = some r) : k.Steady stores about r.1 := by
  cases c with
  | returns o =>
    cases h
    exact .same rfl rfl rfl
  | relock m =>
    cases h
    exact .same rfl rfl rfl
  | condWait c m => exact steady_mutexLock h
  | join t => exact steady_joined h
  | insert t =>
    obtain ⟨th, -, rfl⟩ := Option.map_eq_some_iff.mp h
    have hput : k.Steady stores about { k with toThreads := th } := .same rfl rfl rfl
    exact hput.trans (steady_switchThen _ .zero)
  | free t _ | freeStack t =>
    obtain ⟨k1, hfree, rfl⟩ := Option.map_eq_some_iff.mp h
    rw [Kernel.freeObject] at hfree
    split_ifs at hfree
    · cases hfree
      exact .same rfl rfl rfl
    · cases hfree
      exact .same rfl rfl rfl

theorem steady_preempt {usPerTick : ℕ} (h : State.preempt k usPerTick = some k') :
    k.Steady stores about k' := by
  simp only [State.preempt] at h
  split_ifs at h
  · cases h
    exact .same rfl rfl rfl
  · obtain ⟨p, hyield, rfl⟩ := Option.map_eq_some_iff.mp h
    have hcount : k.Steady stores about { k with
        preemptionUs := (k.preemptionUs + usPerTick).bmod (2 ^ 32) - preemptionInterval * 1000 } :=
      .same rfl rfl rfl
    exact hcount.trans (steady_move_then hyield)
  · cases h
    exact .same rfl rfl rfl

/-- A tick only moves the clock. -/
theorem steady_intTick {ticksPerSec : ℕ} (h : State.tthIntTick k ticksPerSec = some k') :
    { k with time := k.time + BitVec.ofNat 32 (1000000 / ticksPerSec) }.Steady stores about k' := by
  obtain ⟨k1, htick, hpreempt⟩ := Option.bind_eq_some_iff.mp h
  exact (steady_moveWhile htick).trans (steady_preempt hpreempt)

/-- What an event writes, but for a tick. -/
theorem exec_steady {ticksPerSec : ℕ} (hexec : s.exec ticksPerSec e = some s')
    (hne : e ≠ .intTick) : s.kernel.Steady (e.stores s) (e.about ·) s'.kernel := by
  cases e with
  | call c =>
    obtain ⟨r, hcall, rfl⟩ := Option.map_eq_some_iff.mp hexec
    rw [settle_kernel]
    exact call_steady hcall
  | resume =>
    obtain ⟨c, -, hresume⟩ := Option.bind_eq_some_iff.mp hexec
    obtain ⟨r, hr, rfl⟩ := Option.map_eq_some_iff.mp hresume
    rw [settle_kernel]
    exact resume_steady hr
  | intEnter =>
    obtain ⟨k, henter, rfl⟩ := Option.map_eq_some_iff.mp hexec
    rw [State.tthIntEnter, Option.ite_none_right_eq_some] at henter
    cases henter.2
    exact .same rfl rfl rfl
  | intPost sem =>
    obtain ⟨r, hpost, rfl⟩ := Option.map_eq_some_iff.mp hexec
    exact @steady_semPost _ (Event.about · (.intPost sem)) _ _ _ rfl hpost
  | intTick => exact absurd rfl hne
  | intExit =>
    obtain ⟨k, hexit, rfl⟩ := Option.map_eq_some_iff.mp hexec
    rw [State.tthIntExit] at hexit
    split_ifs at hexit
    cases hexit
    have hlevel : s.kernel.Steady (Event.stores s · .intExit) (Event.about · .intExit)
        { s.kernel with intLevel := s.kernel.intLevel - 1 } := .same rfl rfl rfl
    exact hlevel.trans (steady_switch _)
  | release t =>
    cases hexec
    exact .same rfl rfl rfl

end Steady

end OlivePiccolo.Tth
