import OlivePiccolo.Tth.Scheduled

/-!
# The structure of the scheduler

In every state of a run, the lists of TinyThreads end and share no thread, every live thread is on one
of them, they are in order, and the first thread that is ready is running (`Structure`). This takes
that no `pthread_join` finds its target ended while another one, that has waited for it, is still to
come to its `free` (`LateJoin`): the two of them free the same object, and the thread that is
created there in between loses its memory while it is on a list (`not_scheduler_structure`).
-/

namespace OlivePiccolo.Tth

open Links

/-- A `pthread_join` that returns at once, for a target that has ended but is still being joined. Both
calls will free its stack. -/
def LateJoin (s : State) : Event → Prop
  | .call (.join t) =>
    s.kernel.detached t = false ∧ s.kernel.waitstate t = .join ∧ s.kernel.autostack t = true ∧
      ∃ u ∈ s.kernel.objects, joining s.cont u = some t
  | _ => False

instance (s : State) : (e : Event) → Decidable (LateJoin s e)
  | .call (.join _) => inferInstanceAs (Decidable (_ ∧ _ ∧ _ ∧ ∃ _ ∈ _, _ = _))
  | .call (.create _ _) | .call (.exit _) | .call (.detach _) | .call .yield | .call (.usleep _)
  | .call (.semInit _ _ _) | .call (.semDestroy _) | .call (.semGetvalue _) | .call (.semPost _)
  | .call (.semWait _) | .call (.semTrywait _) | .call (.mutexInit _) | .call (.mutexDestroy _)
  | .call (.mutexLock _) | .call (.mutexTrylock _) | .call (.mutexUnlock _) | .call (.condInit _)
  | .call (.condDestroy _) | .call (.condBroadcast _) | .call (.condSignal _)
  | .call (.condWait _ _) | .call .idle | .resume | .intEnter | .intPost _ | .intTick | .intExit
  | .release _ => .isFalse id

/-- Calls of `tth_crash`. -/
def Crashes (s : State) : Event → Prop
  | .call (.detach t) =>
    s.kernel.detached t = false ∧ (s.kernel.link (.head (.thread t))).isSome = true
  | .call (.semDestroy sem) => (s.kernel.link (.head (.sem sem))).isSome = true
  | .intEnter => 2 ^ 31 ≤ s.kernel.intLevel + 1
  | _ => False

/-- The structure of the scheduler, with the lists that the memory holds. -/
structure Structure (k : Kernel) (q : Anchor → List Tid) : Prop where
  /-- The lists end. -/
  chain : ∀ a, Chain k.link (.head a) (q a)
  nodup : ∀ a, (q a).Nodup
  disjoint : ∀ a b, a ≠ b → (q a).Disjoint (q b)
  live : ∀ t, k.Live t → ∃! a, t ∈ q a
  live_of_mem : ∀ a, a ≠ .detach → ∀ t ∈ q a, k.Live t
  dead : ∀ t ∈ q .detach, k.waitstate t = .dead
  ordered : ∀ a, a ≠ .sleeping → (q a).Pairwise k.Before
  idle_last : (q .ready).getLast? = some tthIdleThread
  running : k.intLevel = 0 → k.link (.head .ready) = some k.running
  highest : k.intLevel = 0 → ∀ t ∈ q .ready, k.schedpriority t ≤ k.schedpriority k.running

def State.Structured (s : State) : Prop := ∃ q, Structure s.kernel q

/-! ## Calls -/

section Calls

variable {s : State} {q : Anchor → List Tid}

/-- Every call that can be made comes to an end. -/
theorem Scheduled.call (h : Scheduled s.kernel s.cont q) {c : Call}
    (henabled : Enabled s (.call c)) (hlate : ¬ LateJoin s (.call c))
    (hcrash : ¬ Crashes s (.call c)) : Settles s (s.kernel.call c) := by
  obtain ⟨h0, hnone, hvalid, hidle, hidle'⟩ := henabled
  have hne : c ≠ .yield → c ≠ .idle → s.kernel.running ≠ tthIdleThread := fun hy hi heq =>
    (hidle heq).elim hy hi
  cases c with
  | create object attr => exact h.pthreadCreate hvalid
  | exit retval => exact h.pthreadExit h0 (hne (by simp) (by simp)) retval
  | join t =>
    refine h.pthreadJoin h0 (hne (by simp) (by simp)) hvalid fun hdet hjoin hauto u _ hu => ?_
    have hobj : u ∈ s.kernel.objects := by
      obtain ⟨d, hd, -⟩ := Option.bind_eq_some_iff.mp hu
      exact (h.placed.cont_live u (by rw [hd]; rfl)).1
    exact hlate ⟨hdet, hjoin, hauto, u, hobj, hu⟩
  | detach t =>
    refine h.pthreadDetach fun hdet => ?_
    rw [← Bool.not_eq_true]
    exact fun hwaiter => hcrash ⟨hdet, hwaiter⟩
  | yield => exact h.schedYield h0
  | usleep us => exact h.usleep h0 (hne (by simp) (by simp)) us
  | semInit sem pshared value => exact h.semInit sem hvalid pshared value
  | semDestroy sem =>
    have hwaiter : ¬ (s.kernel.link (.head (.sem sem))).isSome = true := hcrash
    rw [Kernel.call, Kernel.semDestroy, if_neg hwaiter]
    exact h.settle_same (by rfl) (by rfl) (by rfl) _
  | semGetvalue sem => exact h.settle_same (by rfl) (by rfl) (by rfl) _
  | semPost sem => exact h.semPost h0 sem
  | semWait sem => exact h.semWait h0 (hne (by simp) (by simp)) sem
  | semTrywait sem => exact h.semTrywait sem
  | mutexInit m => exact h.settle_init hvalid (by rfl) (by rfl) (by rfl) _
  | mutexDestroy m => exact h.pthreadMutexDestroy m
  | mutexLock m => exact h.tthCsMutexLock h0 (hne (by simp) (by simp)) m true
  | mutexTrylock m => exact h.tthCsMutexLock h0 (hne (by simp) (by simp)) m false
  | mutexUnlock m => exact h.pthreadMutexUnlock h0 m
  | condInit c => exact h.settle_init hvalid (by rfl) (by rfl) (by rfl) _
  | condDestroy c => exact h.settle_same (by rfl) (by rfl) (by rfl) _
  | condBroadcast c => exact h.pthreadCondBroadcast h0 c
  | condSignal c => exact h.pthreadCondSignal h0 c
  | condWait c m => exact h.pthreadCondWait h0 (hne (by simp) (by simp)) c m
  | idle => exact h.tthIdle (hidle' rfl)

/-- A thread that joins another one, and does not wait for it, finds that it has ended. -/
theorem Scheduled.ended_of_joining (h : Scheduled s.kernel s.cont q) {t : Tid}
    (hjoining : joining s.cont s.kernel.running = some t) :
    t ∈ s.kernel.objects ∧ s.kernel.waitstate t = .join := by
  obtain ⟨hobj, hwait | hjoin⟩ := h.placed.joins _ t hjoining
  · exact absurd hwait (h.not_waiting t)
  · exact ⟨hobj, hjoin⟩

/-- Nobody waits for a thread that is dead. -/
theorem Placed.not_waiting_dead {th : Threads} {cont : Tid → Option Cont} {t : Tid}
    (h : Placed th cont q) (hdead : th.waitstate t = .dead) (u : Tid) : u ∉ q (.thread t) := by
  intro hu
  obtain ⟨hobj, hdet, -⟩ := h.target u t hu
  rw [h.dead_detached t hobj hdead] at hdet
  cases hdet

/-- Going on with a call comes to an end. -/
theorem Scheduled.resume (h : Scheduled s.kernel s.cont q) (h0 : s.kernel.intLevel = 0) {c : Cont}
    (hc : s.cont s.kernel.running = some c) : Settles s (s.kernel.resume c) := by
  cases c with
  | returns r => exact h.settle_same (by rfl) (by rfl) (by rfl) _
  | relock m => exact h.settle_same (by rfl) (by rfl) (by rfl) _
  | condWait c m =>
    refine h.tthCsMutexLock h0 (fun hidle => ?_) m true
    rw [hidle] at hc
    exact h.placed.idle_cont c m hc
  | join t =>
    have hjoining : joining s.cont s.kernel.running = some t := by
      rw [joining, hc]
      rfl
    obtain ⟨hobj, hjoin⟩ := h.ended_of_joining hjoining
    exact h.joined hobj hjoin fun hauto u hu hu' =>
      hu (h.placed.joins_unique u _ t hauto hu' hjoining)
  | free t retval =>
    have hjoining : joining s.cont s.kernel.running = some t := by
      rw [joining, hc]
      rfl
    obtain ⟨hobj, hjoin⟩ := h.ended_of_joining hjoining
    refine h.freeObject hobj (by rw [hjoin]; rfl) (fun hd => ?_) (fun u hu => ?_)
      (fun hauto u hu huse => ?_) _
    · have hdead := h.placed.dead t hd
      rw [hjoin] at hdead
      cases hdead
    · exact (h.placed.target u t hu).2.2 hjoin
    · rcases uses_cases huse with hu' | hu' | hu'
      · exact hu (h.placed.joins_unique u _ t hauto hu' hjoining)
      · have hinval := (h.placed.insert u t hu').2
        rw [hjoin] at hinval
        cases hinval
      · have hdead := (h.placed.freeStack u t hu').2.2.1
        rw [hjoin] at hdead
        cases hdead
  | insert t => exact h.insertObject h0 hc
  | freeStack t =>
    obtain ⟨hidle, hobj, hdead, hdetach⟩ := h.placed.freeStack _ t hc
    refine h.freeObject hobj (by rw [hdead]; rfl) hdetach (h.placed.not_waiting_dead hdead)
      (fun _ u hu huse => ?_) _
    rcases uses_cases huse with hu' | hu' | hu'
    · rcases (h.placed.joins u t hu').2 with hwait | hjoin
      · exact h.placed.not_waiting_dead hdead u hwait
      · rw [hdead] at hjoin
        cases hjoin
    · have hinval := (h.placed.insert u t hu').2
      rw [hdead] at hinval
      cases hinval
    · exact hu ((h.placed.freeStack u t hu').1.trans hidle.symm)

end Calls

/-! ## Interrupts -/

section Interrupts

variable {k : Kernel} {cont : Tid → Option Cont} {q : Anchor → List Tid}

/-- In an interrupt, there is no switch. -/
theorem tthCsSwitch_of_level (hlevel : 0 < k.intLevel) : k.tthCsSwitch = k := by
  have hneeds : k.needsSwitch = false := by
    rw [Kernel.needsSwitch, beq_eq_false_iff_ne.mpr (by omega), Bool.false_and]
  rw [Kernel.tthCsSwitch, hneeds]
  rfl

theorem switchThen_fst (k : Kernel) (r : Result) : (k.switchThen r).1 = k.tthCsSwitch := by
  rw [Kernel.switchThen, Kernel.tthCsSwitch]
  split_ifs <;> rfl

/-- Threads become ready in an interrupt. -/
theorem Scheduled.interrupt {th : Threads} {q' : Anchor → List Tid} (h : Scheduled k cont q)
    (hlevel : 0 < k.intLevel) (hp : Placed th cont q') (hready : ∀ u ∈ q .ready, u ∈ q' .ready) :
    Scheduled { k with toThreads := th } cont q' := by
  refine ⟨hp, hready _ h.running_ready, fun h0 => ?_⟩
  have h0 : k.intLevel = 0 := h0
  omega

/-- Other variables change. -/
theorem Scheduled.congr {k' : Kernel} (h : Scheduled k cont q) (hth : k'.toThreads = k.toThreads)
    (hrun : k'.running = k.running) (hlevel : k'.intLevel = 0 → k.intLevel = 0) :
    Scheduled k' cont q := by
  refine ⟨hth ▸ h.placed, ?_, fun h0 => ?_⟩
  · rw [hrun]
    exact h.running_ready
  · rw [hrun]
    exact h.head (hlevel h0)

theorem Scheduled.wake_interrupt (h : Scheduled k cont q) (hlevel : 0 < k.intLevel) (src : Anchor)
    (hsrc : src.plain = true) (r : Result) :
    ∃ p q', (k.tthCsMove src (some .ready) .ready).map (fun k => k.switchThen r) = some p ∧
      Scheduled p.1 cont q' := by
  obtain ⟨th, q', hmove, hp, -, hready, -⟩ := h.placed.wake src hsrc
  refine ⟨_, q', by rw [tthCsMove_eq hmove, Option.map_some], ?_⟩
  have hswitch : (Kernel.switchThen { k with toThreads := th } r).1 = { k with toThreads := th } :=
    (switchThen_fst _ r).trans (tthCsSwitch_of_level hlevel)
  rw [hswitch]
  exact h.interrupt hlevel hp hready

theorem Scheduled.semPost_interrupt (h : Scheduled k cont q) (hlevel : 0 < k.intLevel)
    (sem : SemId) : ∃ p q', k.semPost sem = some p ∧ Scheduled p.1 cont q' := by
  rw [Kernel.semPost]
  split_ifs
  · exact h.wake_interrupt hlevel (.sem sem) rfl .zero
  · exact ⟨_, q, rfl, h⟩
  · exact ⟨_, q, rfl, h.congr rfl rfl id⟩

theorem Scheduled.preempt (h : Scheduled k cont q) (hlevel : 0 < k.intLevel) (usPerTick : ℕ) :
    ∃ k' q', State.preempt k usPerTick = some k' ∧ Scheduled k' cont q' := by
  simp only [State.preempt]
  split_ifs
  · exact ⟨_, q, rfl, h.congr rfl rfl id⟩
  · have hcount : Scheduled { k with
        preemptionUs := (k.preemptionUs + usPerTick).bmod (2 ^ 32) - preemptionInterval * 1000 }
          cont q := h.congr rfl rfl id
    obtain ⟨p, q', hyield, hsched⟩ := hcount.wake_interrupt hlevel .ready rfl .zero
    refine ⟨p.1, q', ?_, hsched⟩
    rw [Kernel.schedYield, hyield, Option.map_some]
  · exact ⟨_, q, rfl, h.congr rfl rfl id⟩

theorem Scheduled.tthIntTick (h : Scheduled k cont q) (hlevel : 0 < k.intLevel)
    (ticksPerSec : ℕ) :
    ∃ k' q', State.tthIntTick k ticksPerSec = some k' ∧ Scheduled k' cont q' := by
  have hticked : Scheduled
      { k with time := k.time + BitVec.ofNat 32 (1000000 / ticksPerSec) } cont q :=
    h.congr rfl rfl id
  obtain ⟨th, q', hloop, hp, -, hready⟩ := hticked.placed.moveWhile .sleeping rfl (by simp)
    Kernel.timedOut (h.placed.lists.length_lt .sleeping)
  obtain ⟨k', q'', hpreempt, hsched⟩ :=
    (hticked.interrupt hlevel hp hready).preempt hlevel (1000000 / ticksPerSec)
  refine ⟨k', q'', ?_, hsched⟩
  rw [State.tthIntTick, Kernel.tthSleepTick, hloop, Option.bind_some, hpreempt]

theorem Scheduled.tthIntExit (h : Scheduled k cont q) (hlevel : 0 < k.intLevel) :
    ∃ k', State.tthIntExit k = some k' ∧ Scheduled k' cont q := by
  rw [State.tthIntExit, if_neg (by omega)]
  refine ⟨_, rfl, ?_⟩
  by_cases hlast : k.intLevel = 1
  · have hp : Placed { k with intLevel := k.intLevel - 1 }.toThreads cont q := h.placed
    exact hp.switch (by show k.intLevel - 1 = 0; omega)
  · rw [tthCsSwitch_of_level (by show 0 < k.intLevel - 1; omega)]
    refine h.congr rfl rfl fun h0 => ?_
    have h0 : k.intLevel - 1 = 0 := h0
    omega

end Interrupts

/-! ## Runs -/

/-- The lists of `tth_initialize`. -/
def initLists : Anchor → List Tid
  | .ready => [tthDefaultThread, tthIdleThread]
  | _ => []

theorem eq_ready_of_mem {a : Anchor} {t : Tid} (ht : t ∈ initLists a) : a = .ready := by
  cases a with
  | ready => rfl
  | sleeping | detach | thread | mutex | sem | cond => cases ht

theorem mem_initLists_ready {t : Tid} :
    t ∈ initLists .ready ↔ t = tthDefaultThread ∨ t = tthIdleThread := by
  simp [initLists]

theorem lists_init : Lists Kernel.init.toThreads initLists := by
  refine ⟨⟨fun a => ?_, fun a b t ha hb => ?_⟩, fun a _ => ?_, fun a t ht => ?_, fun a t ht => ?_⟩
  · cases a with
    | ready => exact ⟨rfl, rfl, rfl⟩
    | sleeping | detach | thread | mutex | sem | cond => rfl
  · rw [eq_ready_of_mem ha, eq_ready_of_mem hb]
  · cases a with
    | ready => exact List.pairwise_pair.mpr (.inl (Nat.zero_lt_succ 9))
    | sleeping | detach | thread | mutex | sem | cond => exact List.Pairwise.nil
  · obtain rfl := eq_ready_of_mem ht
    rcases mem_initLists_ready.mp ht with rfl | rfl <;> decide
  · obtain rfl := eq_ready_of_mem ht
    exact ht

theorem placed_init : Placed Kernel.init.toThreads State.init.cont initLists := by
  have hready : ∀ t ∈ Kernel.init.objects, t ∈ initLists .ready := fun t ht => ht
  have hnil : ∀ u t, u ∉ initLists (.thread t) := fun u t hu => by cases eq_ready_of_mem hu
  refine ⟨⟨lists_init, List.mem_cons_of_mem _ List.mem_cons_self, fun t ht => ?_, fun t => ?_,
    fun t ht => ?_, fun t _ hdead => ?_⟩, ?_⟩
  · rcases mem_initLists_ready.mp (hready t ht) with rfl | rfl <;> decide
  · constructor
    · rintro ⟨a, -, ht⟩
      obtain rfl := eq_ready_of_mem ht
      exact ⟨ht, rfl⟩
    · exact fun ht => ⟨.ready, by simp, hready t ht.1⟩
  · cases eq_ready_of_mem ht
  · cases hdead
  · -- no thread is in a call
    refine ⟨fun u t hu => absurd hu (hnil u t), fun u v t hu => absurd hu (hnil u t),
      fun u t hu => absurd hu (hnil u t), ?_, ?_, ?_, ?_, ?_, ?_, ?_⟩
    · rintro u t ⟨⟩
    · rintro u v t - ⟨⟩
    · rintro u t ⟨⟩
    · rintro u v t ⟨⟩
    · rintro u t ⟨⟩
    · rintro u ⟨⟩
    · rintro c m ⟨⟩

theorem inv_init : Inv State.init :=
  ⟨initLists, placed_init, List.mem_cons_self, fun _ => rfl⟩

/-- Every event that can happen comes to an end, and keeps the invariant. -/
theorem Inv.step {s : State} (h : Inv s) (ticksPerSec : ℕ) {e : Event} (henabled : Enabled s e)
    (hlate : ¬ LateJoin s e) (hcrash : ¬ Crashes s e) :
    ∃ s', s.exec ticksPerSec e = some s' ∧ Inv s' := by
  obtain ⟨q, h⟩ := h
  cases e with
  | call c =>
    obtain ⟨r, hcall, hinv⟩ := h.call henabled hlate hcrash
    refine ⟨_, ?_, hinv⟩
    rw [State.exec, State.makeCall, h.started_eq henabled.2.2.1, hcall, Option.map_some]
  | resume =>
    obtain ⟨c, hc⟩ := Option.isSome_iff_exists.mp henabled.2
    obtain ⟨r, hresume, hinv⟩ := h.resume henabled.1 hc
    refine ⟨_, ?_, hinv⟩
    rw [State.exec, State.resume, hc, Option.bind_some, hresume, Option.map_some]
  | intEnter =>
    have hlt : s.kernel.intLevel + 1 < 2 ^ 31 := Nat.lt_of_not_le hcrash
    refine ⟨_, by rw [State.exec, State.tthIntEnter, if_pos hlt, Option.map_some], q, ?_⟩
    exact h.congr rfl rfl fun h0 => absurd h0 (Nat.succ_ne_zero _)
  | intPost sem =>
    obtain ⟨p, q', hpost, hsched⟩ := h.semPost_interrupt henabled sem
    exact ⟨_, by rw [State.exec, hpost, Option.map_some], q', hsched⟩
  | intTick =>
    obtain ⟨k', q', htick, hsched⟩ := h.tthIntTick henabled ticksPerSec
    exact ⟨_, by rw [State.exec, htick, Option.map_some], q', hsched⟩
  | intExit =>
    obtain ⟨k', hexit, hsched⟩ := h.tthIntExit henabled
    exact ⟨_, by rw [State.exec, hexit, Option.map_some], q, hsched⟩
  | release t =>
    obtain ⟨hobj, hauto, hended, hdetach, huse⟩ := henabled
    rw [(h.placed.lists.links.chain .detach).nodes (h.placed.lists.length_lt .detach).le] at hdetach
    have hnone : ∀ u, (s.cont u).bind Cont.uses ≠ some t := by
      intro u hu
      obtain ⟨c, hc, -⟩ := Option.bind_eq_some_iff.mp hu
      exact huse u (h.placed.cont_live u (by rw [hc]; rfl)).1 hu
    have hwaiting : ∀ u, u ∉ q (.thread t) := by
      intro u hu
      refine hnone u ?_
      rw [h.placed.waiting u t hu]
      rfl
    have hlive : (s.kernel.waitstate t).live = false := by
      rcases hended with hw | hw <;> rw [hw] <;> rfl
    exact ⟨_, rfl, q, h.placed.remove hlive hdetach hnone hwaiting, h.running_ready, h.head⟩

/-- The idle thread is the last one that is ready. -/
theorem Places.idle_last {th : Threads} {q : Anchor → List Tid} (h : Places th q) :
    (q .ready).getLast? = some tthIdleThread := by
  obtain ⟨front, t, hq⟩ := List.eq_nil_or_concat' (q .ready) |>.resolve_left
    (List.ne_nil_of_mem h.idle_ready)
  have hidle := h.idle_ready
  have hordered := h.lists.ordered .ready (by simp)
  have hzero := (h.priority _ (h.lists.mem_objects _ _ hidle)).mpr rfl
  have ht : t ∈ th.objects := h.lists.mem_objects .ready t (by rw [hq]; simp)
  rw [hq, List.getLast?_concat]
  rw [hq, List.mem_append, List.mem_singleton] at hidle
  rcases hidle with hfront | rfl
  · rw [hq, List.pairwise_append] at hordered
    rcases hordered.2.2 _ hfront t List.mem_cons_self with hlt | ⟨heq, -⟩
    · rw [hzero] at hlt
      exact absurd hlt (Nat.not_lt_zero _)
    · rw [(h.priority t ht).mp (heq.symm.trans hzero)]
  · rfl

theorem Inv.structured {s : State} (h : Inv s) : s.Structured := by
  obtain ⟨q, h⟩ := h
  refine ⟨q, h.placed.lists.links.chain, h.placed.lists.links.nodup, fun a b hab t ha hb => ?_,
    fun t ht => ?_, fun a ha t => h.placed.live_of_mem ha, h.placed.dead, h.placed.lists.ordered,
    h.placed.idle_last, fun h0 => ?_, fun h0 t ht => ?_⟩
  · exact h.placed.not_mem ha hab hb
  · obtain ⟨a, -, ha⟩ := (h.placed.live t).mpr ht
    exact ⟨a, ha, fun b hb => h.placed.lists.links.disjoint b a t hb ha⟩
  · rw [h.placed.lists.links.head_eq, h.head h0]
  · obtain ⟨rest, hq⟩ := List.head?_eq_some_iff.mp (h.head h0)
    have hordered := h.placed.lists.ordered .ready (by simp)
    rw [hq, List.pairwise_cons] at hordered
    rw [hq, List.mem_cons] at ht
    rcases ht with rfl | ht
    · exact Nat.le_refl _
    · rcases hordered.1 t ht with hlt | ⟨heq, -⟩
      · exact hlt.le
      · exact heq.ge

/-- A call of `tth_crash` has no next state. -/
theorem exec_of_crashes {s : State} (ticksPerSec : ℕ) {e : Event} (h : Crashes s e) :
    s.exec ticksPerSec e = none := by
  cases e with
  | call c =>
    cases c with
    | detach t =>
      have hcall : s.kernel.call (.detach t) = none := by
        rw [Kernel.call, Kernel.pthreadDetach, h.1, if_neg (by simp), if_pos h.2]
      rw [State.exec, State.makeCall, hcall, Option.map_none]
    | semDestroy sem =>
      have hwaiter : (s.kernel.link (.head (.sem sem))).isSome = true := h
      have hcall : s.kernel.call (.semDestroy sem) = none := by
        rw [Kernel.call, Kernel.semDestroy, if_pos hwaiter]
      rw [State.exec, State.makeCall, hcall, Option.map_none]
    | _ => exact h.elim
  | intEnter =>
    have hle : 2 ^ 31 ≤ s.kernel.intLevel + 1 := h
    rw [State.exec, State.tthIntEnter, if_neg (Nat.not_lt.mpr hle), Option.map_none]
  | resume | intPost | intTick | intExit | release => exact h.elim

/-- An event that is not a late join, with the lists before and after it. -/
theorem Scheduled.exec {s s' : State} {q : Anchor → List Tid} (h : Scheduled s.kernel s.cont q)
    {ticksPerSec : ℕ} {e : Event} (henabled : Enabled s e) (hlate : ¬ LateJoin s e)
    (hexec : s.exec ticksPerSec e = some s') : ∃ q', Scheduled s'.kernel s'.cont q' := by
  have hcrash : ¬ Crashes s e := fun hcrash => by
    cases (exec_of_crashes ticksPerSec hcrash).symm.trans hexec
  obtain ⟨next, hnext, hinv⟩ := Inv.step ⟨q, h⟩ ticksPerSec henabled hlate hcrash
  cases hnext.symm.trans hexec
  exact hinv

/-- A run without a late join keeps the invariant. -/
theorem Inv.path {s s' : State} {ticksPerSec : ℕ} {es : List Event} (h : Inv s)
    (hpath : Runs.Path (State.exec ticksPerSec) (fun s e => Enabled s e ∧ ¬ LateJoin s e) s es s') :
    Inv s' :=
  hpath.invariant h fun _ _ _ ⟨_, hsched⟩ hok hexec => hsched.exec hok.1 hok.2 hexec

/-- **Structure of the scheduler.** In every run without a late join, every state has the structure,
and everything that can happen there, but for a crash or a late join, comes to an end. -/
theorem scheduler_structure (ticksPerSec : ℕ) {es : List Event} {s : State}
    (h : Runs.Path (State.exec ticksPerSec) (fun s e => Enabled s e ∧ ¬ LateJoin s e) State.init
      es s) :
    s.Structured ∧ ∀ e, Enabled s e → ¬ LateJoin s e → ¬ Crashes s e →
      (s.exec ticksPerSec e).isSome := by
  have hinv : Inv s := inv_init.path h
  refine ⟨hinv.structured, fun e henabled hlate hcrash => ?_⟩
  obtain ⟨s', hs', -⟩ := hinv.step ticksPerSec henabled hlate hcrash
  rw [hs']
  rfl

/-- The attributes of the threads below. -/
def joinable : Attr := ⟨false, 10, true, true⟩

/-- A thread is created, joined, interrupted while it runs, ends, and is freed. -/
def joinOnce : List Event :=
  [.call (.create (some 2) joinable), .resume, .call (.join 2), .intEnter, .intTick, .intExit,
    .call (.exit 5), .resume, .resume]

theorem scheduler_structure_join : ∃ s, Runs.Path (State.exec 1000)
    (fun s e => Enabled s e ∧ ¬ LateJoin s e) State.init joinOnce s ∧ s.Structured ∧
      s.result tthDefaultThread = some (.retval 5) :=
  ⟨_, Runs.path_get (by decide), (scheduler_structure 1000 (Runs.path_get (by decide))).1,
    by decide⟩

/-- Thread 2 ends while thread 3 joins it. Before thread 3 goes on, the default thread joins thread 2
too, and frees it; the next thread that is created has its address, and is ready when thread 3 frees
it once more. The one that is created then is ready twice. -/
def joinTwice : List Event :=
  [.call (.create (some 2) joinable), .resume, .call (.create (some 3) joinable), .resume,
    .call .yield, .call .yield, .call (.join 2), .resume, .call .yield, .resume, .call (.exit 0),
    .resume, .call (.join 2), .resume, .call (.create (some 2) joinable), .resume, .call .yield,
    .resume, .resume, .call (.create (some 2) joinable), .resume]

theorem not_scheduler_structure : ¬ ∀ es s, Runs.Path (State.exec 1000) Enabled State.init es s →
    s.Structured := by
  intro hclaim
  have hpath : Runs.Path (State.exec 1000) Enabled State.init joinTwice _ :=
    Runs.path_get (by decide +kernel)
  obtain ⟨q, h⟩ := hclaim joinTwice _ hpath
  obtain ⟨l, -, hl⟩ := (h.chain .ready).of_some (n := 3) (by decide +kernel)
  obtain ⟨l', -, hl'⟩ := hl.of_some (n := 2) (by decide +kernel)
  obtain ⟨l'', rfl, -⟩ := hl'.of_some (n := 2) (by decide +kernel)
  exact hl'.not_mem List.mem_cons_self

end OlivePiccolo.Tth
