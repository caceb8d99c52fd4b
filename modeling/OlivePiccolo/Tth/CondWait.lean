import OlivePiccolo.Tth.Waiters

/-!
# Waiting on a condition

`pthread_cond_wait` unlocks the mutex and then puts the first thread of `tth_ready` to sleep. That is
its caller only as long as the unlock has not readied a thread with a higher priority: then it is this
thread that sleeps, and the caller returns 0 without a signal (`not_condWaits`). If no thread with a
higher priority waits for the mutex, the caller sleeps until a signal or a broadcast has moved it back
(`condWaits_iff`).
-/

namespace OlivePiccolo.Tth

open Links

/-- A signal or a broadcast on the condition. -/
def Event.wakes (c : CondId) : Event → Prop
  | .call (.condSignal c') | .call (.condBroadcast c') => c' = c
  | _ => False

/-- A thread waits on a condition, inside its `pthread_cond_wait`. -/
structure WaitsOn (s : State) (t : Tid) (c : CondId) (m : MutexId) : Prop where
  listed : t ∈ s.kernel.list (.cond c)
  cont : s.cont t = some (.condWait c m)
  not_returned : s.result t = none

/-- A signal or a broadcast of a run has moved the thread back to the ready ones. -/
def Woken (ticksPerSec : ℕ) (s : State) (t : Tid) (c : CondId) (es : List Event) : Prop :=
  ∃ es1 e es2 s1 s2, es = es1 ++ e :: es2 ∧
    Runs.Path (State.exec ticksPerSec) (fun s e => Enabled s e ∧ ¬ LateJoin s e) s es1 s1 ∧
    s1.exec ticksPerSec e = some s2 ∧ e.wakes c ∧ t ∈ s1.kernel.list (.cond c) ∧
    t ∈ s2.kernel.list .ready

/-- What `pthread_cond_wait` is for. The mutex is released, the caller and no other thread leaves the
ready ones to wait on the condition, and goes on only when it has been woken. -/
def CondWaits (ticksPerSec : ℕ) (s : State) (c : CondId) (m : MutexId) : Prop :=
  ∃ s', s.exec ticksPerSec (.call (.condWait c m)) = some s' ∧ s'.kernel.owner m = none ∧
    (∀ u, u ∈ s'.kernel.list (.cond c) ↔
      u = s.kernel.running ∨ u ∈ s.kernel.list (.cond c)) ∧
    (∀ u, u ∈ s'.kernel.list .ready ↔ (u ≠ s.kernel.running ∧ u ∈ s.kernel.list .ready) ∨
      (s.kernel.list (.mutex m)).head? = some u) ∧
    ∀ es s'', Runs.Path (State.exec ticksPerSec) (fun s e => Enabled s e ∧ ¬ LateJoin s e)
      s' es s'' → Woken ticksPerSec s' s.kernel.running c es ∨ WaitsOn s'' s.kernel.running c m

/-! ## Threads that do not run -/

section Others

variable {s s' : State} {e : Event} {ticksPerSec : ℕ} {t : Tid}

theorem settle_of_ne (s : State) {u : Tid} (r : Kernel × Outcome) (ht : t ≠ u) :
    (s.settle u r).cont t = s.cont t ∧ (s.settle u r).result t = s.result t := by
  obtain ⟨k, o⟩ := r
  cases o <;> exact ⟨Function.update_of_ne ht _ _, Function.update_of_ne ht _ _⟩

/-- Only the running thread goes on with its call. -/
theorem exec_others (henabled : Enabled s e) (hexec : s.exec ticksPerSec e = some s')
    (ht : t ≠ s.kernel.running) (hobj : t ∈ s.kernel.objects) :
    s'.cont t = s.cont t ∧ s'.result t = s.result t := by
  cases e with
  | call c =>
    obtain ⟨r, -, rfl⟩ := Option.map_eq_some_iff.mp hexec
    obtain ⟨hcont, hresult⟩ :=
      settle_of_ne { s with cont := State.started s.cont c } r ht
    refine ⟨hcont.trans ?_, hresult⟩
    cases c with
    | create object attr =>
      cases object with
      | none => rfl
      | some u =>
        have hne : t ≠ u := by
          rintro rfl
          exact henabled.2.2.1.1 hobj
        exact Function.update_of_ne hne _ _
    | _ => rfl
  | resume =>
    obtain ⟨c, -, hresume⟩ := Option.bind_eq_some_iff.mp hexec
    obtain ⟨r, -, rfl⟩ := Option.map_eq_some_iff.mp hresume
    exact settle_of_ne s r ht
  | intEnter | intPost | intTick | intExit =>
    obtain ⟨k, -, rfl⟩ := Option.map_eq_some_iff.mp hexec
    exact ⟨rfl, rfl⟩
  | release u =>
    cases hexec
    exact ⟨rfl, rfl⟩

end Others

/-! ## The waiters of a condition -/

section Waiters

variable {k k' : Kernel} {cont : Tid → Option Cont} {q q' : Anchor → List Tid} {c : CondId}
  {m : MutexId} {t : Tid} {r : Kernel × Outcome} {s s' : State} {e : Event} {ticksPerSec : ℕ}

theorem tthCsSwitch_owner (k : Kernel) : k.tthCsSwitch.owner = k.owner := by
  rw [Kernel.tthCsSwitch]
  split_ifs <;> rfl

theorem Anchor.waits_cond (c : CondId) : (Anchor.cond c).Waits := ⟨rfl, nofun⟩

/-- A thread that is not moved stays on its list. -/
theorem Moved.mem_of_ne {u : Tid} {a : Anchor} {dst : Option Anchor} (h : Moved q q' t dst)
    (hne : u ≠ t) (hu : u ∈ q a) : u ∈ q' a := (h a u).mpr (.inr ⟨hne, hu⟩)

theorem Moved.self {dst : Anchor} (h : Moved q q' t (some dst)) : t ∈ q' dst :=
  (h dst t).mpr (.inl ⟨rfl, rfl⟩)

/-- A signal wakes a waiter, or leaves it on the list. -/
theorem Lists.signal (h : Lists k.toThreads q) (ht : t ∈ q (.cond c))
    (hr : k.pthreadCondSignal c = some r) (h' : Lists r.1.toThreads q') :
    t ∈ q' .ready ∨ t ∈ q' (.cond c) := by
  obtain ⟨k1, hmove, rfl⟩ := Option.map_eq_some_iff.mp hr
  obtain ⟨th, hth, rfl⟩ := Option.map_eq_some_iff.mp hmove
  rw [switchThen_fst, tthCsSwitch_toThreads] at h'
  obtain ⟨u, rest, hq⟩ := List.exists_cons_of_ne_nil (List.ne_nil_of_mem ht)
  obtain ⟨link, q1, hmove', hlists, hmoved, -⟩ := h.move hq .ready .ready
  cases hmove'.symm.trans hth
  obtain rfl := hlists.links.unique h'.links
  by_cases hut : t = u
  · subst hut
    exact .inl hmoved.self
  · exact .inr (hmoved.mem_of_ne hut ht)

/-- A broadcast wakes all waiters. -/
theorem Lists.broadcast (h : Lists k.toThreads q) (ht : t ∈ q (.cond c))
    (hr : k.pthreadCondBroadcast c = some r) (h' : Lists r.1.toThreads q') : t ∈ q' .ready := by
  obtain ⟨k1, hloop, rfl⟩ := Option.map_eq_some_iff.mp hr
  rw [switchThen_fst, tthCsSwitch_toThreads] at h'
  obtain ⟨q1, hlists, -, htake, -⟩ :=
    Lists.moveWhile (by simp) (fun _ _ => true) (fun _ _ _ => rfl) h hloop
  obtain rfl := hlists.links.unique h'.links
  refine htake t ?_
  rwa [List.takeWhile_eq_self_iff.mpr fun _ _ => rfl]

/-- Another thread that begins to wait leaves a waiter on the list. -/
theorem Scheduled.condWait_stays (h : Scheduled k cont q) (ht : t ∈ q (.cond c))
    (hr : k.pthreadCondWait c m = some r) (h' : Lists r.1.toThreads q') : t ∈ q' (.cond c) := by
  obtain ⟨⟨k1, e⟩, hunlock, hrest⟩ := Option.bind_eq_some_iff.mp hr
  have hmoves : k.toThreads.Moves (Eq (.mutex m)) k1.toThreads :=
    moves_mutexUnlock rfl hunlock
  have hquiet := hmoves.quiet (a := .cond c) (by simp) (by simp)
  obtain ⟨⟨q1, hlists1, heq⟩, -⟩ := hquiet q h.placed.lists
  have ht1 : t ∈ q1 (.cond c) := heq ▸ ht
  cases e with
  | some e =>
    cases hrest
    obtain rfl := hlists1.links.unique h'.links
    exact ht1
  | none =>
    obtain ⟨k2, hmove, rfl⟩ := Option.map_eq_some_iff.mp hrest
    obtain ⟨th, hth, rfl⟩ := Option.map_eq_some_iff.mp hmove
    rw [tthCsSwitch_toThreads] at h'
    cases hq : q1 .ready with
    | nil =>
      cases (hlists1.move_nil hq _ _).symm.trans hth
      obtain rfl := hlists1.links.unique h'.links
      exact ht1
    | cons u rest =>
      obtain ⟨link, q2, hmove', hlists2, hmoved, -⟩ := hlists1.move hq (.cond c) .cond
      cases hmove'.symm.trans hth
      obtain rfl := hlists2.links.unique h'.links
      by_cases hut : t = u
      · subst hut
        exact hmoved.self
      · exact hmoved.mem_of_ne hut ht1

/-- **An event, for a thread that waits on a condition.** Only a signal or a broadcast takes it off
the list, and makes it ready then. -/
theorem Scheduled.waiter_exec (h : Scheduled s.kernel s.cont q) (ht : t ∈ q (.cond c))
    (henabled : Enabled s e) (hexec : s.exec ticksPerSec e = some s')
    (h' : Lists s'.kernel.toThreads q') :
    (e.wakes c ∧ t ∈ q' .ready) ∨ t ∈ q' (.cond c) := by
  by_cases htouch : e.touches s (.cond c)
  · cases e with
    | call call =>
      obtain ⟨r, hcall, rfl⟩ := Option.map_eq_some_iff.mp hexec
      rw [settle_kernel] at h'
      cases call with
      | condInit c' =>
        -- a condition with waiters is not initialised
        obtain rfl := Anchor.cond.inj htouch
        have hhead := h.placed.lists.links.head_eq (.cond c)
        rw [henabled.2.2.1] at hhead
        rw [List.head?_eq_none_iff.mp hhead.symm] at ht
        cases ht
      | condSignal c' =>
        obtain rfl := Anchor.cond.inj htouch
        exact (h.placed.lists.signal ht hcall h').imp_left fun hready => ⟨rfl, hready⟩
      | condBroadcast c' =>
        obtain rfl := Anchor.cond.inj htouch
        exact .inl ⟨rfl, h.placed.lists.broadcast ht hcall h'⟩
      | condWait c' m' =>
        rcases htouch with heq | heq
        · obtain rfl := Anchor.cond.inj heq
          exact .inr (h.condWait_stays ht hcall h')
        · cases heq
      | _ => cases htouch
    | resume =>
      obtain ⟨d, -, hd⟩ := htouch
      cases d <;> cases hd
    | _ => cases htouch
  · right
    have hquiet := h.exec_quietAt (Anchor.waits_cond c) henabled htouch hexec
    rw [(hquiet.lists h.placed.lists h').1]
    exact ht

/-- A thread waits until it is woken. -/
theorem WaitsOn.path {es : List Event} (hinv : Inv s) (h : WaitsOn s t c m)
    (hpath : Runs.Path (State.exec ticksPerSec) (fun s e => Enabled s e ∧ ¬ LateJoin s e) s es s') :
    Inv s' ∧ (Woken ticksPerSec s t c es ∨ WaitsOn s' t c m) := by
  induction hpath with
  | nil => exact ⟨hinv, .inr h⟩
  | @snoc es s1 s2 e hpath hok hexec ih =>
    obtain ⟨⟨q, hsched⟩, hwait⟩ := ih
    obtain ⟨q', hsched'⟩ := hsched.exec hok.1 hok.2 hexec
    refine ⟨⟨q', hsched'⟩, ?_⟩
    rcases hwait with ⟨es1, e1, es2, t1, t2, rfl, hrest⟩ | hwait
    · exact .inl ⟨es1, e1, es2 ++ [e], t1, t2, by simp, hrest⟩
    · have ht := hwait.listed
      rw [hsched.placed.lists.list_eq] at ht
      have hlists' := hsched'.placed.lists
      rcases hsched.waiter_exec ht hok.1 hexec hlists' with ⟨hwakes, hready⟩ | hstays
      · left
        refine ⟨es, e, [], s1, s2, rfl, hpath, hexec, hwakes, hwait.listed, ?_⟩
        rwa [hlists'.list_eq]
      · right
        have hne : t ≠ s1.kernel.running := by
          rintro rfl
          exact hsched.placed.not_mem hsched.running_ready (by simp) ht
        obtain ⟨hcont, hresult⟩ :=
          exec_others hok.1 hexec hne (hsched.placed.lists.mem_objects _ _ ht)
        exact ⟨by rwa [hlists'.list_eq], hcont.trans hwait.cont,
          hresult.trans hwait.not_returned⟩

end Waiters

/-! ## Who is put to sleep -/

section Unlock

variable {th : Threads} {k : Kernel} {cont : Tid → Option Cont} {q q' : Anchor → List Tid}
  {t : Tid} {m : MutexId}

theorem Threads.Before.asymm {u : Tid} (h : th.Before t u) : ¬ th.Before u t := by
  unfold Threads.Before at h ⊢
  omega

/-- The first thread of a list in order is the one before all other ones. -/
theorem head_of_before {l : List Tid} (h : l.Pairwise th.Before) (ht : t ∈ l)
    (hbefore : ∀ u ∈ l, u ≠ t → th.Before t u) : l.head? = some t := by
  cases l with
  | nil => cases ht
  | cons u l =>
    rw [List.head?_cons, Option.some.injEq]
    by_contra hne
    have hmem := (List.mem_cons.mp ht).resolve_left (Ne.symm hne)
    exact (List.rel_of_pairwise_cons h hmem).asymm (hbefore u List.mem_cons_self hne)

/-- The running thread is before all other ready threads. -/
theorem Scheduled.before (h : Scheduled k cont q) (h0 : k.intLevel = 0) {u : Tid}
    (hu : u ∈ q .ready) (hne : u ≠ k.running) : k.Before k.running u := by
  obtain ⟨rest, hq⟩ := List.head?_eq_some_iff.mp (h.head h0)
  have hordered := h.placed.lists.ordered .ready (by simp)
  rw [hq] at hu hordered
  exact List.rel_of_pairwise_cons hordered ((List.mem_cons.mp hu).resolve_left hne)

/-- A thread that becomes ready is in front of the running one if its priority is higher. -/
theorem Scheduled.head_arrive (h : Scheduled k cont q) (h0 : k.intLevel = 0) {w : WaitState}
    {link : Memory Anchor Tid} (ht : t ∉ q .ready) (hlists : Lists (k.arrive t w link) q')
    (hmoved : Moved q q' t (some .ready)) :
    (q' .ready).head? =
      some (if k.schedpriority t ≤ k.schedpriority k.running then k.running else t) := by
  have hordered := hlists.ordered .ready (by simp)
  have hrun : k.running ≠ t := ne_of_mem_of_not_mem h.running_ready ht
  split_ifs with hle
  · refine head_of_before hordered (hmoved.mem_of_ne hrun h.running_ready) fun u hu hne => ?_
    rcases (hmoved _ u).mp hu with ⟨rfl, -⟩ | ⟨hut, hu⟩
    · rcases Nat.lt_or_eq_of_le hle with hlt | heq
      · exact .inl hlt
      · refine .inr ⟨heq.symm, ?_⟩
        rw [Threads.arrive_arrived, Threads.arrive_arrived_of_ne hrun]
        exact h.placed.lists.stamped _ _ h.running_ready
    · exact (before_arrive hrun hut).mpr (h.before h0 hu hne)
  · refine head_of_before hordered hmoved.self fun u hu hne => .inl ?_
    have hu := (((hmoved _ u).mp hu).resolve_left fun heq => hne heq.1).2
    show k.schedpriority u < k.schedpriority t
    by_cases hur : u = k.running
    · subst hur
      omega
    · have hbefore := h.before h0 hu hur
      unfold Threads.Before at hbefore
      omega

/-- Where the threads are behind an unlock, and which one is the first that is ready. -/
theorem Scheduled.unlock (h : Scheduled k cont q) (h0 : k.intLevel = 0)
    (howner : k.owner m = some k.running) :
    ∃ th q' v, k.tthCsMutexUnlock m = some ({ k.dropMutex m with toThreads := th }, none) ∧
      Lists th q' ∧ (q' .ready).head? = some v ∧
      (v = k.running ↔ ∀ u ∈ q (.mutex m), k.schedpriority u ≤ k.schedpriority k.running) ∧
      ∀ a u, u ∈ q' a ↔ ((q (.mutex m)).head? = some u ∧ a = .ready) ∨
        ((q (.mutex m)).head? ≠ some u ∧ u ∈ q a) := by
  have hunlock : k.tthCsMutexUnlock m =
      ((k.dropMutex m).tthCsMove (.mutex m) (some .ready) .ready).map fun k => (k, none) := by
    rw [Kernel.tthCsMutexUnlock, if_neg (not_not.mpr howner)]
  have hlists : Lists (k.dropMutex m).toThreads q := h.placed.lists
  rw [hunlock]
  cases hq : q (.mutex m) with
  | nil =>
    have hmove := tthCsMove_eq (k := k.dropMutex m) (hlists.move_nil hq (some .ready) .ready)
    rw [hmove, Option.map_some]
    refine ⟨_, q, k.running, rfl, hlists, h.head h0, ?_, fun a u => by simp⟩
    exact iff_of_true rfl fun u hu => absurd hu List.not_mem_nil
  | cons t rest =>
    obtain ⟨link, q', hmove, hlists', hmoved, -⟩ := hlists.move hq .ready .ready
    have ht : t ∈ q (.mutex m) := by
      rw [hq]
      exact List.mem_cons_self
    have hready : t ∉ q .ready := h.placed.not_mem ht (by simp)
    rw [tthCsMove_eq (k := k.dropMutex m) hmove, Option.map_some]
    refine ⟨_, q', _, rfl, hlists', h.head_arrive h0 hready hlists' hmoved, ?_, fun a u => ?_⟩
    · -- of the waiters, the first one has the highest priority
      have hordered := hlists.ordered (.mutex m) (by simp)
      rw [hq] at hordered
      split_ifs with hle
      · refine iff_of_true rfl fun u hu => ?_
        rcases List.mem_cons.mp hu with rfl | hu
        · exact hle
        · have hbefore : k.Before t u := List.rel_of_pairwise_cons hordered hu
          unfold Threads.Before at hbefore
          omega
      · refine iff_of_false ?_ fun hall => hle (hall t List.mem_cons_self)
        exact (ne_of_mem_of_not_mem h.running_ready hready).symm
    · rw [hmoved, List.head?_cons]
      simp only [Option.some.injEq, ne_eq, eq_comm]

end Unlock

/-! ## The call -/

section CondWait

variable {s s' : State} {q : Anchor → List Tid} {c : CondId} {m : MutexId} {ticksPerSec : ℕ}
  {es : List Event}

theorem exec_call {call : Call} {r : Kernel × Outcome} (hcall : s.kernel.call call = some r) :
    s.exec ticksPerSec (.call call) =
      some ({ s with cont := State.started s.cont call }.settle s.kernel.running r) := by
  rw [State.exec, State.makeCall, hcall, Option.map_some]

/-- What `pthread_cond_wait` does: the thread `v` is put to sleep. -/
theorem Scheduled.condWait_exec (h : Scheduled s.kernel s.cont q) (h0 : s.kernel.intLevel = 0)
    (howner : s.kernel.owner m = some s.kernel.running) :
    ∃ s' q1 q' v, s.exec ticksPerSec (.call (.condWait c m)) = some s' ∧
      s'.kernel.owner m = none ∧ s'.cont s.kernel.running = some (.condWait c m) ∧
      s'.result s.kernel.running = none ∧ Lists s'.kernel.toThreads q' ∧
      Moved q1 q' v (some (.cond c)) ∧
      (v = s.kernel.running ↔ ∀ u ∈ q (.mutex m), s.kernel.schedpriority u ≤
        s.kernel.schedpriority s.kernel.running) ∧
      ∀ a u, u ∈ q1 a ↔ ((q (.mutex m)).head? = some u ∧ a = .ready) ∨
        ((q (.mutex m)).head? ≠ some u ∧ u ∈ q a) := by
  obtain ⟨th, q1, v, hunlock, hlists, hhead, hv, hq1⟩ := h.unlock h0 howner
  obtain ⟨rest, hready⟩ := List.head?_eq_some_iff.mp hhead
  obtain ⟨link, q', hmove, hlists', hmoved, -⟩ := hlists.move hready (.cond c) .cond
  have hcall : s.kernel.call (.condWait c m) = some
      ({ s.kernel.dropMutex m with toThreads := th.arrive v .cond link }.tthCsSwitch,
        .cont (.condWait c m)) := by
    rw [Kernel.call, Kernel.pthreadCondWait, hunlock, Option.bind_some]
    show (Kernel.tthCsMove _ .ready (some (.cond c)) .cond).map _ = _
    rw [tthCsMove_eq (k := { s.kernel.dropMutex m with toThreads := th }) hmove, Option.map_some]
  refine ⟨_, q1, q', v, exec_call hcall, ?_, Function.update_self _ _ _, Function.update_self _ _ _, ?_,
    hmoved, hv, hq1⟩
  · show (Kernel.tthCsSwitch _).owner m = none
    rw [tthCsSwitch_owner]
    exact Function.update_self _ _ _
  · show Lists (Kernel.tthCsSwitch _).toThreads q'
    rwa [tthCsSwitch_toThreads]

/-- **`pthread_cond_wait`, at the end of a run.** It does what it is for exactly if no thread with a
higher priority than that of the caller waits for the mutex. -/
theorem condWaits_iff
    (hpath : Runs.Path (State.exec ticksPerSec) (fun s e => Enabled s e ∧ ¬ LateJoin s e) State.init
      es s)
    (henabled : Enabled s (.call (.condWait c m)))
    (howner : s.kernel.owner m = some s.kernel.running) :
    CondWaits ticksPerSec s c m ↔
      ∀ u ∈ s.kernel.list (.mutex m), s.kernel.schedpriority u ≤
        s.kernel.schedpriority s.kernel.running := by
  obtain ⟨q, hsched⟩ := inv_init.path hpath
  have hlists := hsched.placed.lists
  obtain ⟨s', q1, q', v, hexec, hdropped, hcont, hresult, hlists', hmoved, hv, hq1⟩ :=
    @Scheduled.condWait_exec _ _ c m ticksPerSec hsched henabled.1 howner
  -- the unlock leaves the waiters of the condition alone, and the caller is not one of them
  have hcond : ∀ u, u ∈ q1 (.cond c) ↔ u ∈ q (.cond c) := fun u => by
    rw [hq1]
    refine ⟨fun hu => (hu.resolve_left (by simp)).2, fun hu => .inr ⟨fun hhead => ?_, hu⟩⟩
    exact hsched.placed.not_mem (List.mem_of_head? hhead) (by simp) hu
  have hnot : s.kernel.running ∉ q (.cond c) :=
    hsched.placed.not_mem hsched.running_ready (by simp)
  rw [hlists.list_eq, ← hv]
  constructor
  · rintro ⟨s1, hexec1, -, hwaiters, -⟩
    cases hexec1.symm.trans hexec
    have hmem := (hwaiters s.kernel.running).mpr (.inl rfl)
    rw [hlists'.list_eq, hmoved] at hmem
    rcases hmem with ⟨heq, -⟩ | ⟨-, hmem⟩
    · exact heq.symm
    · exact absurd ((hcond _).mp hmem) hnot
  · rintro rfl
    have hlisted : s.kernel.running ∈ s'.kernel.list (.cond c) := by
      rw [hlists'.list_eq]
      exact hmoved.self
    refine ⟨s', hexec, hdropped, fun u => ?_, fun u => ?_, fun es' s'' hpath' => ?_⟩
    · rw [hlists'.list_eq, hlists.list_eq, hmoved, hcond]
      by_cases hu : u = s.kernel.running
      · simp [hu]
      · simp [hu]
    · rw [hlists'.list_eq, hlists.list_eq, hlists.list_eq, hmoved, hq1]
      by_cases hhead : (q (.mutex m)).head? = some u
      · have hne : u ≠ s.kernel.running := by
          rintro rfl
          exact hsched.placed.not_mem hsched.running_ready (by simp) (List.mem_of_head? hhead)
        simp [hhead, hne]
      · simp [hhead]
    · have hinv' := inv_init.path
        (hpath.snoc ⟨henabled, by rintro ⟨⟩⟩ hexec)
      exact (WaitsOn.path hinv' ⟨hlisted, hcont, hresult⟩ hpath').2

/-- The attributes of a thread with a lower priority. -/
def patient : Attr := { joinable with schedpriority := 5 }

/-- While the default thread sleeps, a thread with a lower priority comes to wait for its mutex. -/
def waitPatient : List Event :=
  [.call (.mutexLock 0), .call (.create (some 2) patient), .resume, .call (.usleep 1000),
    .call (.mutexLock 0), .intEnter, .intTick, .intExit, .resume]

/-- `condWaits_iff` with this waiter: the condition holds. -/
theorem condWaits_iff_patient : ∃ s, Runs.Path (State.exec 1000)
    (fun s e => Enabled s e ∧ ¬ LateJoin s e) State.init waitPatient s ∧
      s.kernel.list (.mutex 0) = [2] ∧ CondWaits 1000 s 0 0 :=
  ⟨_, Runs.path_get (by decide), by decide, (condWaits_iff (Runs.path_get (by decide)) (by decide)
    (by decide)).mpr (by decide)⟩

/-- The attributes of a thread with a higher priority. -/
def urgent : Attr := { joinable with schedpriority := 20 }

/-- The default thread owns a mutex that a thread with a higher priority waits for. -/
def waitUrgent : List Event :=
  [.call (.mutexLock 0), .call (.create (some 2) urgent), .resume, .call (.mutexLock 0), .resume]

theorem not_condWaits : ¬ ∀ es s, Runs.Path (State.exec 1000)
    (fun s e => Enabled s e ∧ ¬ LateJoin s e) State.init es s →
      Enabled s (.call (.condWait 0 0)) → s.kernel.owner 0 = some s.kernel.running →
        CondWaits 1000 s 0 0 := by
  intro hclaim
  have hpath : Runs.Path (State.exec 1000) (fun s e => Enabled s e ∧ ¬ LateJoin s e) State.init
    waitUrgent _ := Runs.path_get (by decide)
  obtain ⟨s', hexec, -, hwaiters, -⟩ := hclaim waitUrgent _ hpath (by decide) (by decide)
  -- thread 2 is the one that waits
  have hlist : (((Runs.exec (State.exec 1000) (fun s e => Enabled s e ∧ ¬ LateJoin s e) State.init
      waitUrgent).get (by decide)).exec 1000 (.call (.condWait 0 0))).map
        (fun s => s.kernel.list (.cond 0)) = some [2] := by decide
  rw [hexec, Option.map_some, Option.some.injEq] at hlist
  have hmem := (hwaiters tthDefaultThread).mpr (.inl (by decide))
  rw [hlist] at hmem
  revert hmem
  decide

end CondWait

end OlivePiccolo.Tth
