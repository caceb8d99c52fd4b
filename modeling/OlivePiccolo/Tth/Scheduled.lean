import OlivePiccolo.Tth.Lifecycle

/-!
# Calls keep the schedule

Outside interrupts, the first thread of `tth_ready` is running (`Scheduled`). The calls take the first
thread of `tth_ready` to be their caller; so each of them comes to an end, and keeps the threads in
their places, or moves them to other ones and switches to the first thread then.
-/

namespace OlivePiccolo.Tth

open Links

/-- The threads are in their places, and the first one that is ready is running. -/
structure Scheduled (k : Kernel) (cont : Tid → Option Cont) (q : Anchor → List Tid) : Prop where
  placed : Placed k.toThreads cont q
  running_ready : k.running ∈ q .ready
  head : k.intLevel = 0 → (q .ready).head? = some k.running

/-- The invariant. -/
def Inv (s : State) : Prop := ∃ q, Scheduled s.kernel s.cont q

/-- Where the thread goes on. -/
def Outcome.next : Outcome → Option Cont
  | .cont c => some c
  | _ => none

/-- The call comes to an end, and the invariant is kept. -/
def Settles (s : State) (o : Option (Kernel × Outcome)) : Prop :=
  ∃ r, o = some r ∧ Inv (s.settle s.kernel.running r)

section Switch

variable {k : Kernel} {cont : Tid → Option Cont} {q q' : Anchor → List Tid} {s : State} {t : Tid}

@[simp] theorem tthCsSwitch_toThreads (k : Kernel) : k.tthCsSwitch.toThreads = k.toThreads := by
  rw [Kernel.tthCsSwitch]
  split_ifs <;> rfl

/-- `tth_cs_switch` outside interrupts. -/
theorem Placed.switch (h : Placed k.toThreads cont q) (h0 : k.intLevel = 0) :
    Scheduled k.tthCsSwitch cont q := by
  obtain ⟨t, rest, hq⟩ := List.exists_cons_of_ne_nil (List.ne_nil_of_mem h.idle_ready)
  have hhead : k.link (.head .ready) = some t := by rw [h.lists.links.head_eq, hq, List.head?_cons]
  have hrun : k.tthCsSwitch.running = t := by
    rw [Kernel.tthCsSwitch]
    by_cases hs : k.needsSwitch = true
    · rw [if_pos hs, Kernel.execSwitch, hhead]
      rfl
    · rw [if_neg hs]
      simp only [Kernel.needsSwitch, h0, hhead, beq_self_eq_true, Bool.true_and, bne_iff_ne, ne_eq,
        Option.some.injEq, not_not] at hs
      exact hs.symm
  refine ⟨by rwa [tthCsSwitch_toThreads], ?_, fun _ => ?_⟩
  · rw [hrun, hq]
    exact List.mem_cons_self
  · rw [hrun, hq, List.head?_cons]

/-- The end of a call, or the point where its thread goes on later. -/
theorem inv_settle {r : Kernel × Outcome}
    (h : Scheduled r.1 (Function.update s.cont t r.2.next) q) : Inv (s.settle t r) := by
  obtain ⟨k, o⟩ := r
  cases o with
  | result result => exact ⟨q, h⟩
  | cont c => exact ⟨q, h⟩
  | gone => exact ⟨q, h⟩

theorem switchThen_eq (k : Kernel) (r : Result) :
    ∃ o : Outcome, k.switchThen r = (k.tthCsSwitch, o) ∧ ∀ c, o.next = some c → c.plain = true := by
  rw [Kernel.switchThen, Kernel.tthCsSwitch]
  by_cases hs : k.needsSwitch = true
  · rw [if_pos hs, if_pos hs]
    refine ⟨_, rfl, ?_⟩
    rintro c ⟨⟩
    rfl
  · rw [if_neg hs, if_neg hs]
    refine ⟨_, rfl, ?_⟩
    rintro c ⟨⟩

/-- `tth_cs_move` of the kernel. -/
theorem tthCsMove_eq {src : Anchor} {dst : Option Anchor} {w : WaitState} {th : Threads}
    (h : k.toThreads.tthCsMove src dst w = some th) :
    k.tthCsMove src dst w = some { k with toThreads := th } := by
  rw [Kernel.tthCsMove, h, Option.map_some]

end Switch

/-- Threads become ready, as long as the first one on their list meets the condition. -/
theorem Placed.moveWhile {cont : Tid → Option Cont} (src : Anchor) (hsrc : src.plain = true)
    (hne : src ≠ .ready) (p : Kernel → Tid → Bool) {fuel : ℕ} {k : Kernel}
    {q : Anchor → List Tid} (h : Placed k.toThreads cont q) (hfuel : (q src).length < fuel) :
    ∃ th q', Kernel.moveWhile p src fuel k = some { k with toThreads := th } ∧ Placed th cont q' ∧
      Kept k.toThreads th q q' ∧ ∀ u ∈ q .ready, u ∈ q' .ready := by
  induction fuel generalizing k q with
  | zero => exact absurd hfuel (Nat.not_lt_zero _)
  | succ fuel ih =>
    have hhead := h.lists.links.head_eq src
    cases hq : q src with
    | nil =>
      rw [hq] at hhead
      refine ⟨k.toThreads, q, ?_, h, Kept.refl _ _, fun _ hu => hu⟩
      simp only [Kernel.moveWhile, hhead, List.head?_nil]
    | cons t rest =>
      rw [hq, List.head?_cons] at hhead
      rw [hq, List.length_cons] at hfuel
      by_cases hp : p k t = true
      · obtain ⟨th, q', hmove, hplaced, hkept, hready, hrest⟩ := h.wake src hsrc
        have hlen : (q' src).length < fuel := by
          rw [hrest hne, hq, List.tail_cons]
          omega
        obtain ⟨th', q'', hloop, hplaced', hkept', hready'⟩ :=
          ih (k := { k with toThreads := th }) hplaced hlen
        refine ⟨th', q'', ?_, hplaced', hkept.trans hkept',
          fun u hu => hready' u (hready u hu)⟩
        simp only [Kernel.moveWhile, hhead, hp, if_true, tthCsMove_eq hmove, Option.bind_some]
        exact hloop
      · refine ⟨k.toThreads, q, ?_, h, Kept.refl _ _, fun _ hu => hu⟩
        simp only [Kernel.moveWhile, hhead, hp, Bool.false_eq_true, if_false]

/-! ## The running thread -/

section Calls

variable {s : State} {q q' : Anchor → List Tid} {k : Kernel} {th : Threads}

theorem Scheduled.live_running (h : Scheduled s.kernel s.cont q) :
    s.kernel.Live s.kernel.running :=
  h.placed.live_of_mem (by simp) h.running_ready

theorem Scheduled.not_waiting (h : Scheduled s.kernel s.cont q) (u : Tid) :
    s.kernel.running ∉ q (.thread u) :=
  h.placed.not_mem h.running_ready (by simp)

/-- The call returns, and nothing has changed of the threads. -/
theorem Scheduled.settle_same (h : Scheduled s.kernel s.cont q) (hth : k.toThreads =
    s.kernel.toThreads) (hrun : k.running = s.kernel.running)
    (hlevel : k.intLevel = s.kernel.intLevel) (r : Result) :
    Settles s (some (k, .result r)) := by
  refine ⟨_, rfl, inv_settle (q := q) ⟨?_, ?_, ?_⟩⟩
  · show Placed k.toThreads _ q
    rw [hth]
    exact h.placed.setCont_plain (by rintro d ⟨⟩) (by rintro ⟨⟩) h.not_waiting
  · show k.running ∈ q .ready
    rw [hrun]
    exact h.running_ready
  · show k.intLevel = 0 → (q .ready).head? = some k.running
    rw [hrun, hlevel]
    exact h.head

/-- The threads are in their places again, and a switch follows. -/
theorem Placed.settle_switch {o : Outcome} (h0 : k.intLevel = 0)
    (hp : Placed k.toThreads (Function.update s.cont s.kernel.running o.next) q) :
    Settles s (some (k.tthCsSwitch, o)) :=
  ⟨_, rfl, inv_settle (hp.switch h0)⟩

/-- Threads have moved between plain lists, and a switch follows. -/
theorem Scheduled.settle_kept (h : Scheduled s.kernel s.cont q) (hp : Placed k.toThreads s.cont q')
    (h0 : k.intLevel = 0) (hkept : Kept s.kernel.toThreads k.toThreads q q') {o : Outcome}
    (ho : ∀ c, o.next = some c → c.plain = true) : Settles s (some (k.tthCsSwitch, o)) :=
  (hp.setCont_plain ho (fun _ => hkept.live _ h.live_running)
    fun u hu => h.not_waiting u (hkept.waiting _ u hu)).settle_switch h0

theorem Scheduled.settle_switchThen (h : Scheduled s.kernel s.cont q)
    (hp : Placed k.toThreads s.cont q') (h0 : k.intLevel = 0)
    (hkept : Kept s.kernel.toThreads k.toThreads q q') (r : Result) :
    Settles s (some (k.switchThen r)) := by
  obtain ⟨o, heq, ho⟩ := switchThen_eq k r
  rw [heq]
  exact h.settle_kept hp h0 hkept ho

variable (h : Scheduled s.kernel s.cont q)
include h

/-! ## Calls that leave the lists alone -/

/-- An object without waiters is initialised. -/
theorem Scheduled.settle_init {a : Anchor} (ha : s.kernel.link (.head a) = none)
    (hth : k.toThreads = { s.kernel.toThreads with
      link := Function.update s.kernel.link (.head a) none })
    (hrun : k.running = s.kernel.running) (hlevel : k.intLevel = s.kernel.intLevel) (r : Result) :
    Settles s (some (k, .result r)) := by
  have hsame : Function.update s.kernel.link (.head a) none = s.kernel.link :=
    Function.update_eq_self_iff.mpr ha.symm
  refine h.settle_same ?_ hrun hlevel r
  rw [hth, hsame]

theorem Scheduled.semInit (sem : SemId) (hnone : s.kernel.link (.head (.sem sem)) = none)
    (pshared : Bool) (value : ℕ) : Settles s (some (s.kernel.semInit sem pshared value)) := by
  rw [Kernel.semInit]
  split_ifs
  · exact h.settle_same (by rfl) (by rfl) (by rfl) _
  · exact h.settle_same (by rfl) (by rfl) (by rfl) _
  · exact h.settle_init hnone (by rfl) (by rfl) (by rfl) _

theorem Scheduled.semTrywait (sem : SemId) : Settles s (some (s.kernel.semTrywait sem)) := by
  rw [Kernel.semTrywait]
  split_ifs
  · exact h.settle_same (by rfl) (by rfl) (by rfl) _
  · exact h.settle_same (by rfl) (by rfl) (by rfl) _

theorem Scheduled.pthreadMutexDestroy (m : MutexId) :
    Settles s (some (s.kernel.pthreadMutexDestroy m)) := by
  rw [Kernel.pthreadMutexDestroy]
  split_ifs
  · exact h.settle_same (by rfl) (by rfl) (by rfl) _
  · exact h.settle_same (by rfl) (by rfl) (by rfl) _

/-! ## The lists of live threads -/

variable (h0 : s.kernel.intLevel = 0)
include h0

/-- A thread becomes ready, and a switch follows. -/
theorem Scheduled.wake {src : Anchor} (hsrc : src.plain = true) (r : Result) :
    Settles s ((s.kernel.tthCsMove src (some .ready) .ready).map fun k => k.switchThen r) := by
  obtain ⟨th, q', hmove, hp, hkept, -⟩ := h.placed.wake src hsrc
  rw [tthCsMove_eq hmove, Option.map_some]
  exact h.settle_switchThen (k := { s.kernel with toThreads := th }) hp h0 hkept r

/-- The caller leaves `tth_ready`. -/
theorem Scheduled.leave (hidle : s.kernel.running ≠ tthIdleThread) (dst : Anchor) (w : WaitState)
    (hdst : dst.plain = true) (hw : w.live = true) :
    ∃ th q', s.kernel.tthCsMove .ready (some dst) w = some { s.kernel with toThreads := th } ∧
      Placed th s.cont q' ∧ Kept s.kernel.toThreads th q q' := by
  obtain ⟨th, q', hmove, hp, hkept, -⟩ := h.placed.move .ready dst w rfl hdst hw fun hhead => by
    rw [h.head h0, Option.some.injEq] at hhead
    exact absurd hhead hidle
  exact ⟨th, q', tthCsMove_eq hmove, hp, hkept⟩

theorem Scheduled.schedYield : Settles s s.kernel.schedYield := h.wake h0 rfl .zero

theorem Scheduled.usleep (hidle : s.kernel.running ≠ tthIdleThread) (us : BitVec 32) :
    Settles s (s.kernel.usleep us) := by
  rw [Kernel.usleep]
  split_ifs
  · exact h.schedYield h0
  · exact h.settle_same (by rfl) (by rfl) (by rfl) _
  · obtain ⟨rest, hq⟩ := List.head?_eq_some_iff.mp (h.head h0)
    obtain ⟨htake, hoff⟩ := h.placed.lists.take hq
    have hobj := h.live_running.1
    have hstamped := h.placed.lists.stamped _ _ h.running_ready
    have hasleep : Lists (s.kernel.fallAsleep us).toThreads
        (Function.update q .ready rest) :=
      ⟨htake.links, htake.ordered, htake.stamped, htake.mem_objects⟩
    obtain ⟨slot, hseek, hlists⟩ := hasleep.sleep hoff hobj hstamped
      ((s.kernel.fallAsleep us).wakesEarlier us)
    have hmoved : Moved q (Function.update (Function.update q .ready rest) .sleeping
        (insertBehind ((s.kernel.fallAsleep us).wakesEarlier us) s.kernel.running
          (Function.update q .ready rest .sleeping))) s.kernel.running (some .sleeping) := by
      intro a u
      rw [mem_put, h.placed.lists.mem_take hq, Option.some.injEq, eq_comm (a := a)]
    have hwaits : s.kernel.toThreads.Waits { (s.kernel.fallAsleep us).toThreads with
        link := place (s.kernel.fallAsleep us).link slot s.kernel.running } s.kernel.running
          .sleep := ⟨rfl, rfl, rfl, rfl, rfl⟩
    have hplain : Anchor.ready.plain = true := rfl
    have hp := h.placed.moved hplain h.running_ready rfl rfl
      (fun heq => absurd heq hidle) hwaits hlists hmoved
    have hkept := hwaits.kept rfl rfl hmoved
    show Settles s ((seek (s.kernel.fallAsleep us).link _ _ _).map _)
    rw [hseek, Option.map_some]
    exact h.settle_switchThen (k := { s.kernel.fallAsleep us with
      link := place (s.kernel.fallAsleep us).link slot s.kernel.running }) hp h0 hkept .zero

theorem Scheduled.semPost (sem : SemId) : Settles s (s.kernel.semPost sem) := by
  rw [Kernel.semPost]
  split_ifs
  · exact h.wake h0 rfl .zero
  · exact h.settle_same (by rfl) (by rfl) (by rfl) _
  · exact h.settle_same (by rfl) (by rfl) (by rfl) _

theorem Scheduled.semWait (hidle : s.kernel.running ≠ tthIdleThread) (sem : SemId) :
    Settles s (s.kernel.semWait sem) := by
  rw [Kernel.semWait]
  split_ifs
  · exact h.settle_same (by rfl) (by rfl) (by rfl) _
  · obtain ⟨th, q', hmove, hp, hkept⟩ := h.leave h0 hidle (.sem sem) .sem rfl rfl
    rw [hmove, Option.map_some]
    exact h.settle_switchThen (k := { s.kernel with toThreads := th }) hp h0 hkept _

theorem Scheduled.tthCsMutexLock (hidle : s.kernel.running ≠ tthIdleThread) (m : MutexId)
    (wait : Bool) : Settles s (s.kernel.tthCsMutexLock m wait) := by
  rw [Kernel.tthCsMutexLock]
  split_ifs
  · exact h.settle_same (by rfl) (by rfl) (by rfl) _
  · obtain ⟨th, q', hmove, hp, hkept⟩ := h.leave h0 hidle (.mutex m) .mutex rfl rfl
    rw [hmove, Option.map_some]
    refine h.settle_kept (k := { s.kernel with toThreads := th }) hp h0 hkept ?_
    rintro c ⟨⟩
    rfl
  · exact h.settle_same (by rfl) (by rfl) (by rfl) _
  · exact h.settle_same (by rfl) (by rfl) (by rfl) _

/-- `tth_cs_mutex_unlock` makes a waiter ready, or returns an error. -/
theorem Scheduled.tthCsMutexUnlock (m : MutexId) :
    s.kernel.tthCsMutexUnlock m = some (s.kernel, some .EPERM) ∨
      ∃ k q', s.kernel.tthCsMutexUnlock m = some (k, none) ∧ Placed k.toThreads s.cont q' ∧
        Kept s.kernel.toThreads k.toThreads q q' ∧ k.intLevel = 0 ∧
          (∀ u ∈ q .ready, u ∈ q' .ready) := by
  rw [Kernel.tthCsMutexUnlock]
  split_ifs
  · exact .inl rfl
  · obtain ⟨th, q', hmove, hp, hkept, hready, -⟩ := h.placed.wake (.mutex m) rfl
    refine .inr ⟨{ s.kernel.dropMutex m with toThreads := th }, q', ?_, hp, hkept, h0, hready⟩
    rw [tthCsMove_eq (k := s.kernel.dropMutex m) hmove, Option.map_some]

theorem Scheduled.pthreadMutexUnlock (m : MutexId) :
    Settles s (s.kernel.pthreadMutexUnlock m) := by
  rw [Kernel.pthreadMutexUnlock]
  rcases h.tthCsMutexUnlock h0 m with heq | ⟨k, q', heq, hp, hkept, hlevel, -⟩
  · rw [heq, Option.map_some]
    exact h.settle_same (by rfl) (by rfl) (by rfl) _
  · rw [heq, Option.map_some]
    exact h.settle_switchThen hp hlevel hkept .zero

theorem Scheduled.pthreadCondBroadcast (c : CondId) :
    Settles s (s.kernel.pthreadCondBroadcast c) := by
  obtain ⟨th, q', hloop, hp, hkept, -⟩ := h.placed.moveWhile (.cond c) rfl (by simp)
    (fun _ _ => true) (h.placed.lists.length_lt (.cond c))
  rw [Kernel.pthreadCondBroadcast, hloop, Option.map_some]
  exact h.settle_switchThen (k := { s.kernel with toThreads := th }) hp h0 hkept .zero

theorem Scheduled.pthreadCondSignal (c : CondId) : Settles s (s.kernel.pthreadCondSignal c) :=
  h.wake h0 rfl .zero

/-- `pthread_cond_wait` takes the first thread off `tth_ready`, be it the caller or not. -/
theorem Scheduled.pthreadCondWait (hidle : s.kernel.running ≠ tthIdleThread) (c : CondId)
    (m : MutexId) : Settles s (s.kernel.pthreadCondWait c m) := by
  rw [Kernel.pthreadCondWait]
  rcases h.tthCsMutexUnlock h0 m with heq | ⟨k, q', heq, hp, hkept, hlevel, hready⟩
  · rw [heq, Option.bind_some]
    exact h.settle_same (by rfl) (by rfl) (by rfl) _
  · rw [heq, Option.bind_some]
    -- that thread is the caller or the one that has been made ready
    have hhead : (q' .ready).head? = some tthIdleThread → Anchor.cond c = .ready := fun hhead =>
      absurd (hp.eq_idle hhead (hready _ h.running_ready)) hidle
    obtain ⟨th, q'', hmove, hp', hkept', -⟩ := hp.move .ready (.cond c) .cond rfl rfl rfl hhead
    have hall := hkept.trans hkept'
    show Settles s ((k.tthCsMove .ready (some (.cond c)) .cond).map _)
    rw [tthCsMove_eq hmove, Option.map_some]
    refine Placed.settle_switch (k := { k with toThreads := th }) hlevel
      (hp'.setCont (fun _ => hall.live _ h.live_running)
        (fun u hu => h.not_waiting u (hall.waiting _ u hu)) ?_ ?_ ?_ ?_)
    · rintro t ⟨⟩
    · rintro t ⟨⟩
    · rintro t ⟨⟩
    · exact fun heq => absurd heq hidle

/-! ## The life of a thread -/

omit h0 in
/-- A new thread is not in a call yet. -/
theorem Scheduled.started_eq {c : Call} (hc : c.Valid s.kernel) :
    State.started s.cont c = s.cont := by
  cases c with
  | create object attr =>
    cases object with
    | none => rfl
    | some t =>
      have hnone := (h.placed.ne_of_not_mem hc.1).2.2
      exact Function.update_eq_self_iff.mpr hnone.symm
  | _ => rfl

omit h0 in
theorem Scheduled.pthreadCreate {object : Option Tid} {attr : Attr}
    (hc : (Call.create object attr).Valid s.kernel) :
    Settles s (some (s.kernel.pthreadCreate object attr)) := by
  cases object with
  | none => exact h.settle_same (by rfl) (by rfl) (by rfl) _
  | some t =>
    have hnotMem : t ∉ s.kernel.objects := hc.1
    have hp := h.placed.create hnotMem hc.2.1
    have hlive : (s.kernel.pthreadCreate (some t) attr).1.Live s.kernel.running :=
      hp.live_of_mem (by simp) h.running_ready
    refine ⟨_, rfl, inv_settle (q := q) ⟨?_, h.running_ready, h.head⟩⟩
    refine hp.setCont (fun _ => hlive) h.not_waiting ?_ ?_ ?_ ?_
    · rintro u ⟨⟩
    · rintro u ⟨⟩
      refine ⟨List.mem_cons_self, Function.update_self _ _ _, fun v _ hv => ?_⟩
      exact hnotMem (h.placed.insert v t hv).1
    · rintro u ⟨⟩
    · rintro - d m ⟨⟩

/-- The critical section of `pthread_create`. -/
theorem Scheduled.insertObject {t : Tid} (hcont : s.cont s.kernel.running = some (.insert t)) :
    Settles s (s.kernel.insertObject t) := by
  obtain ⟨hobj, hinval⟩ := h.placed.insert _ t hcont
  -- the caller is on its way out
  have hp := h.placed.setCont_plain (u := s.kernel.running) (c := none) (by rintro d ⟨⟩)
    (by rintro ⟨⟩) h.not_waiting
  have hinsert : ∀ u, Function.update s.cont s.kernel.running none u ≠ some (.insert t) := by
    intro u hu
    by_cases heq : u = s.kernel.running
    · subst heq
      rw [Function.update_self] at hu
      cases hu
    · rw [Function.update_of_ne heq] at hu
      exact heq (h.placed.insert_unique u _ t hu hcont)
  obtain ⟨th, q', hput, hp', hkept⟩ := hp.put hobj hinval hinsert
  obtain ⟨o, heq, ho⟩ := switchThen_eq { s.kernel with toThreads := th } .zero
  rw [Kernel.insertObject, hput, Option.map_some, heq]
  refine Placed.settle_switch (k := { s.kernel with toThreads := th }) (q := q') h0 ?_
  have hnext := hp'.setCont_plain (u := s.kernel.running) ho
    (fun _ => hkept.live _ h.live_running) fun u hu => h.not_waiting u (hkept.waiting _ u hu)
  rwa [Function.update_idem] at hnext

theorem Scheduled.pthreadExit (hidle : s.kernel.running ≠ tthIdleThread) (retval : BitVec 32) :
    Settles s (s.kernel.pthreadExit retval) := by
  rw [Kernel.pthreadExit]
  by_cases hdet : s.kernel.detached s.kernel.running = true
  · obtain ⟨th, q', hmove, hp⟩ := h.placed.exit_detached (h.head h0) hidle hdet
    have hmove' := tthCsMove_eq (k := { s.kernel with
      shared := Function.update s.kernel.shared s.kernel.running retval }) hmove
    simp only [hdet, if_true, hmove', Option.map_some]
    exact Placed.settle_switch (q := q') h0 hp
  · obtain ⟨th, th', q', hmove, hmove', hp⟩ := h.placed.exit_joinable (h.head h0) hidle
    have hmove := tthCsMove_eq (k := { s.kernel with
      shared := Function.update s.kernel.shared s.kernel.running retval }) hmove
    have hmove' := tthCsMove_eq (k := { s.kernel with
      shared := Function.update s.kernel.shared s.kernel.running retval, toThreads := th }) hmove'
    simp only [hdet, Bool.false_eq_true, if_false, hmove, Option.bind_some]
    rw [hmove', Option.map_some]
    exact Placed.settle_switch (q := q') h0 hp

omit h0 in
/-- The target has ended: `free` is next. -/
theorem Scheduled.joined {t : Tid} (hobj : t ∈ s.kernel.objects)
    (hjoin : s.kernel.waitstate t = .join) (hunique : s.kernel.autostack t = true →
      ∀ u, u ≠ s.kernel.running → joining s.cont u ≠ some t) :
    Settles s (s.kernel.joined t) := by
  rw [Kernel.joined, if_pos hobj]
  refine ⟨_, rfl, inv_settle (q := q) ⟨?_, h.running_ready, h.head⟩⟩
  refine h.placed.setCont (fun _ => h.live_running) h.not_waiting ?_ ?_ ?_ ?_
  · rintro u ⟨⟩
    exact ⟨hobj, hjoin, hunique⟩
  · rintro u ⟨⟩
  · rintro u ⟨⟩
  · rintro - d m ⟨⟩

theorem Scheduled.pthreadJoin (hidle : s.kernel.running ≠ tthIdleThread) {t : Tid}
    (hobj : t ∈ s.kernel.objects) (hunique : s.kernel.detached t = false →
      s.kernel.waitstate t = .join → s.kernel.autostack t = true →
        ∀ u, u ≠ s.kernel.running → joining s.cont u ≠ some t) :
    Settles s (s.kernel.pthreadJoin t) := by
  rw [Kernel.pthreadJoin]
  split_ifs with hinval hself hstate
  · exact h.settle_same (by rfl) (by rfl) (by rfl) _
  · exact h.settle_same (by rfl) (by rfl) (by rfl) _
  · simp only [Bool.or_eq_true, not_or, Bool.not_eq_true] at hinval
    have hnone : q (.thread t) = [] := by
      have hhead := h.placed.lists.links.head_eq (.thread t)
      rw [Option.isSome_eq_false_iff, Option.isNone_iff_eq_none] at hinval
      rw [hinval.2] at hhead
      exact List.head?_eq_none_iff.mp hhead.symm
    obtain ⟨th, q', hmove, hp⟩ := h.placed.join (h.head h0) hidle hobj hinval.1 hnone hstate
    rw [tthCsMove_eq hmove, Option.map_some]
    exact Placed.settle_switch (k := { s.kernel with toThreads := th }) (q := q') h0 hp
  · simp only [Bool.or_eq_true, not_or, Bool.not_eq_true] at hinval
    rw [ne_eq, not_not] at hstate
    exact h.joined hobj hstate (hunique hinval.1 hstate)

omit h0 in
theorem Scheduled.pthreadDetach {t : Tid}
    (hcrash : s.kernel.detached t = false → (s.kernel.link (.head (.thread t))).isSome = false) :
    Settles s (s.kernel.pthreadDetach t) := by
  rw [Kernel.pthreadDetach]
  split_ifs with hdet hwaiter
  · exact h.settle_same (by rfl) (by rfl) (by rfl) _
  · rw [Bool.not_eq_true] at hdet
    rw [hcrash hdet] at hwaiter
    cases hwaiter
  · rw [Bool.not_eq_true, Option.isSome_eq_false_iff, Option.isNone_iff_eq_none] at hwaiter
    have hnone : q (.thread t) = [] := by
      have hhead := h.placed.lists.links.head_eq (.thread t)
      rw [hwaiter] at hhead
      exact List.head?_eq_none_iff.mp hhead.symm
    have hp := h.placed.detach hnone
    refine ⟨_, rfl, inv_settle (q := q) ⟨?_, h.running_ready, h.head⟩⟩
    exact hp.setCont_plain (by rintro d ⟨⟩) (by rintro ⟨⟩) h.not_waiting

omit h0 in
/-- An object is freed, if it has been allocated. -/
theorem Scheduled.freeObject {t : Tid} (hobj : t ∈ s.kernel.objects)
    (hlive : (s.kernel.waitstate t).live = false) (hdetach : t ∉ q .detach)
    (hwaiting : ∀ u, u ∉ q (.thread t)) (huse : s.kernel.autostack t = true →
      ∀ u, u ≠ s.kernel.running → (s.cont u).bind Cont.uses ≠ some t) (r : Result) :
    Settles s ((s.kernel.freeObject t).map fun k => (k, .result r)) := by
  have hp := h.placed.setCont_plain (u := s.kernel.running) (c := none) (by rintro d ⟨⟩)
    (by rintro ⟨⟩) h.not_waiting
  rw [Kernel.freeObject, if_pos hobj, Option.map_some]
  refine ⟨_, rfl, inv_settle (q := q) ?_⟩
  by_cases hauto : s.kernel.autostack t = true
  · simp only [hauto, if_true]
    refine ⟨hp.remove hlive hdetach (fun u => ?_) hwaiting, h.running_ready, h.head⟩
    by_cases heq : u = s.kernel.running
    · subst heq
      rw [Function.update_self]
      simp
    · rw [Function.update_of_ne heq]
      exact huse hauto u heq
  · simp only [hauto, Bool.false_eq_true, if_false]
    exact ⟨hp, h.running_ready, h.head⟩

omit h0 in
theorem Scheduled.tthIdle (hidle : s.kernel.running = tthIdleThread) :
    Settles s (some s.kernel.tthIdle) := by
  have hhead := h.placed.lists.links.head_eq .detach
  rw [Kernel.tthIdle]
  cases hq : q .detach with
  | nil =>
    rw [hq] at hhead
    rw [hhead]
    exact h.settle_same (by rfl) (by rfl) (by rfl) _
  | cons t rest =>
    rw [hq] at hhead
    rw [hhead]
    have hready : Function.update q .detach rest .ready = q .ready :=
      Function.update_of_ne (by simp) _ _
    refine ⟨_, rfl, inv_settle (q := Function.update q .detach rest) ⟨?_, ?_, ?_⟩⟩
    · rw [hidle]
      exact h.placed.reclaim hq
    · rw [hready]
      exact h.running_ready
    · rw [hready]
      exact h.head

end Calls

end OlivePiccolo.Tth
