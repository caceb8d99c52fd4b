import Mathlib.Data.List.Nodup
import OlivePiccolo.Tth.CondWait
import OlivePiccolo.Tth.Semaphore

/-!
# The stacks of the threads

The stack of a thread that has ended is freed by the thread that has joined it, or by the idle
thread if it was detached when it ended. A thread is not told from another one that had its object
before by its address, so a ledger counts the threads that are created at an address, and records
when they end, are freed and are joined (`Ledger`). Every stack is freed once, after its thread has
ended (`reclaimed`), as long as nobody joins a thread that has ended and is or has been joined,
joins itself, or detaches a thread that has ended: such a thread is not on `tth_detach`, and is
never freed (`not_reclaimed`).
-/

namespace OlivePiccolo.Tth

open Links

/-- The states of a thread that has ended. -/
def WaitState.ended : WaitState → Bool
  | .join | .dead => true
  | _ => false

/-- What is seen of a thread: of the `life`-th one with this object. -/
inductive StackRecord
  | exited (t : Tid) (life : ℕ)
  /-- Its `autostack` has been passed to `free`. -/
  | freed (t : Tid) (life : ℕ)
  /-- A `pthread_join` of it has returned. -/
  | joined (t : Tid) (life : ℕ) (r : Result)
  deriving DecidableEq, Repr

/-- The thread that has been freed. -/
def StackRecord.freedLife : StackRecord → Option (Tid × ℕ)
  | .freed t n => some (t, n)
  | _ => none

/-- The thread that has been joined: `pthread_join` has returned 0. -/
def StackRecord.joinedLife : StackRecord → Option (Tid × ℕ)
  | .joined t n (.retval _) => some (t, n)
  | _ => none

/-- A state with what has been seen of the threads. -/
structure Ledger where
  state : State
  /-- How many threads have been created with this object. -/
  life : Tid → ℕ
  log : List StackRecord

namespace Ledger

def init : Ledger := ⟨State.init, fun _ => 0, []⟩

def callLives (s : Ledger) : Call → Tid → ℕ
  | .create (some t) _ => Function.update s.life t (s.life t + 1)
  | _ => s.life

/-- The number of threads with each object, after an event. -/
def lives (s : Ledger) : Event → Tid → ℕ
  | .call c => s.callLives c
  | _ => s.life

/-- What is seen when the running thread returns from `pthread_join`. -/
def joinRecord (s : Ledger) (s' : State) (t : Tid) : List StackRecord :=
  (s'.result s.state.kernel.running).toList.map (.joined t (s.life t))

def callRecords (s : Ledger) (s' : State) : Call → List StackRecord
  | .exit _ => [.exited s.state.kernel.running (s.life s.state.kernel.running)]
  | .join t => s.joinRecord s' t
  | _ => []

def resumeRecords (s : Ledger) (s' : State) : Cont → List StackRecord
  | .free t _ => .freed t (s.life t) :: s.joinRecord s' t
  | .freeStack t => [.freed t (s.life t)]
  | _ => []

/-- What is seen of an event. -/
def records (s : Ledger) (s' : State) : Event → List StackRecord
  | .call c => s.callRecords s' c
  | .resume => (s.state.cont s.state.kernel.running).elim [] (s.resumeRecords s')
  | _ => []

/-- What an event does, with the ledger. -/
def exec (ticksPerSec : ℕ) (s : Ledger) (e : Event) : Option Ledger :=
  (s.state.exec ticksPerSec e).map fun s' => ⟨s', s.lives e, s.log ++ s.records s' e⟩

/-- The thread that has this object now has been joined. -/
def HasJoined (s : Ledger) (t : Tid) : Prop :=
  (t, s.life t) ∈ s.log.filterMap StackRecord.joinedLife

instance (s : Ledger) (t : Tid) : Decidable (s.HasJoined t) := inferInstanceAs (Decidable (_ ∈ _))

/-- The steps that leave a stack to nobody, or to two threads: a thread that has ended is joined once
more, or is detached; or a thread joins itself. -/
def Disrupts (s : Ledger) : Event → Prop
  | .call (.join t) =>
    s.state.kernel.detached t = false ∧
      ((t = s.state.kernel.running ∧ s.state.kernel.link (.head (.thread t)) = none) ∨
        (s.state.kernel.waitstate t = .join ∧
          ((∃ u ∈ s.state.kernel.objects, joining s.state.cont u = some t) ∨ s.HasJoined t)))
  | .call (.detach t) =>
    s.state.kernel.detached t = false ∧ s.state.kernel.waitstate t = .join
  | _ => False

instance (s : Ledger) : (e : Event) → Decidable (s.Disrupts e)
  | .call (.join _) => inferInstanceAs (Decidable (_ ∧ (_ ∧ _ ∨ _ ∧ (_ ∨ _))))
  | .call (.detach _) => inferInstanceAs (Decidable (_ ∧ _))
  | .call (.create _ _) | .call (.exit _) | .call .yield | .call (.usleep _)
  | .call (.semInit _ _ _) | .call (.semDestroy _) | .call (.semGetvalue _) | .call (.semPost _)
  | .call (.semWait _) | .call (.semTrywait _) | .call (.mutexInit _) | .call (.mutexDestroy _)
  | .call (.mutexLock _) | .call (.mutexTrylock _) | .call (.mutexUnlock _) | .call (.condInit _)
  | .call (.condDestroy _) | .call (.condBroadcast _) | .call (.condSignal _)
  | .call (.condWait _ _) | .call .idle | .resume | .intEnter | .intPost _ | .intTick | .intExit
  | .release _ => .isFalse id

/-- What the calls are to see to. -/
structure Reclaims (s : Ledger) : Prop where
  /-- No stack is freed twice. -/
  freed_once : (s.log.filterMap StackRecord.freedLife).Nodup
  /-- A stack is freed when its thread has ended, -/
  freed_exited : ∀ l l' t n, s.log = l ++ .freed t n :: l' → .exited t n ∈ l
  /-- and the thread is never on a list again. -/
  freed_off : ∀ t, .freed t (s.life t) ∈ s.log → ∀ a, t ∉ s.state.kernel.list a
  /-- At most one `pthread_join` returns 0, -/
  joined_once : (s.log.filterMap StackRecord.joinedLife).Nodup
  /-- and any other one returns `EINVAL`. -/
  joined_else : ∀ t n r, .joined t n r ∈ s.log → (∃ v, r = .retval v) ∨ r = .code .EINVAL
  /-- A detached thread that has ended is on `tth_detach`; or the idle thread has taken it from there,
  and frees it next; or it has been freed. -/
  detached : ∀ t, (s.state.kernel.waitstate t).ended = true → s.state.kernel.detached t = true →
    t ∈ s.state.kernel.list .detach ∨ s.state.cont tthIdleThread = some (.freeStack t) ∨
      .freed t (s.life t) ∈ s.log

end Ledger

/-! ## Threads at rest -/

/-- The thread does not end, and if it has ended it stays where it is. -/
structure Rests (th th' : Threads) (q q' : Anchor → List Tid) (t : Tid) : Prop where
  waitstate : (th.waitstate t).ended = true ∨ (th'.waitstate t).ended = true →
    th'.waitstate t = th.waitstate t
  detached : th.waitstate t = .join → th'.detached t = th.detached t
  detach : t ∈ q' .detach ↔ t ∈ q .detach

/-- Nobody on these lists has ended. -/
def Running (th : Threads) (q : Anchor → List Tid) : Prop :=
  ∀ a, a ≠ .detach → ∀ t ∈ q a, (th.waitstate t).ended = false

section Rests

variable {th th' th'' : Threads} {q q' q'' : Anchor → List Tid} {t u : Tid} {on : Anchor → Prop}
  {k : Kernel} {cont : Tid → Option Cont} {r : Kernel × Outcome}

theorem WaitState.ended_of_live {w : WaitState} (h : w.live = true) : w.ended = false := by
  cases w <;> first | rfl | cases h

theorem WaitState.ended_iff {w : WaitState} : w.ended = true ↔ w = .join ∨ w = .dead := by
  cases w <;> simp [WaitState.ended]

theorem Places.running (h : Places th q) : Running th q := fun _ ha _ ht =>
  WaitState.ended_of_live (h.live_of_mem ha ht).2

theorem Rests.refl (th : Threads) (q : Anchor → List Tid) (t : Tid) : Rests th th q q t :=
  ⟨fun _ => rfl, fun _ => rfl, .rfl⟩

theorem Rests.trans (h : Rests th th' q q' t) (h' : Rests th' th'' q' q'' t) :
    Rests th th'' q q'' t := by
  refine ⟨fun hended => ?_, fun hjoin => ?_, h'.detach.trans h.detach⟩
  · rcases hended with hended | hended
    · have heq := h.waitstate (.inl hended)
      rw [h'.waitstate (.inl (by rwa [heq])), heq]
    · have heq := h'.waitstate (.inr hended)
      rw [heq] at hended ⊢
      exact h.waitstate (.inr hended)
  · have heq := h.waitstate (.inl (by rw [hjoin]; rfl))
    exact (h'.detached (heq.trans hjoin)).trans (h.detached hjoin)

/-- Moves leave the threads at rest. -/
theorem Threads.Moves.rests (h : th.Moves on th') (hon : ¬ on .detach) (hq : Lists th q)
    (hrun : Running th q) :
    ∃ q', Lists th' q' ∧ Running th' q' ∧ ∀ t, Rests th th' q q' t := by
  induction h with
  | refl => exact ⟨q, hq, hrun, Rests.refl th q⟩
  | @move th1 th2 src dst w _ hsrc hdst hw hmove ih =>
    obtain ⟨q1, hq1, hrun1, hrests⟩ := ih
    have hne : ∀ {a : Anchor}, a = .ready ∨ on a → a ≠ .detach := by
      rintro a ha rfl
      exact ha.elim nofun hon
    cases hlist : q1 src with
    | nil =>
      cases (hq1.move_nil hlist (some dst) w).symm.trans hmove
      exact ⟨q1, hq1, hrun1, hrests⟩
    | cons u rest =>
      obtain ⟨link, q2, hmove', hq2, hmoved, -⟩ := hq1.move hlist dst w
      cases hmove'.symm.trans hmove
      have hwaits := th1.waits_arrive u w link
      have hu : u ∈ q1 src := by
        rw [hlist]
        exact List.mem_cons_self
      have hlive := WaitState.ended_of_live hw
      refine ⟨q2, hq2, fun a ha t ht => ?_, fun t => (hrests t).trans ⟨?_, fun _ => rfl, ?_⟩⟩
      · rcases (hmoved a t).mp ht with ⟨rfl, -⟩ | ⟨htu, ht⟩
        · rwa [hwaits.self]
        · rw [hwaits.of_ne htu]
          exact hrun1 a ha t ht
      · by_cases htu : t = u
        · subst htu
          rw [hwaits.self, hlive, hrun1 src (hne hsrc) t hu]
          simp
        · exact fun _ => hwaits.of_ne htu
      · rw [hmoved]
        constructor
        · rintro (⟨-, heq⟩ | ⟨-, ht⟩)
          · exact absurd (Option.some.inj heq) (hne hdst)
          · exact ht
        · refine fun ht => .inr ⟨?_, ht⟩
          rintro rfl
          exact hne hsrc (hq1.links.disjoint _ _ t hu ht)

/-- Nothing has happened to the thread. -/
theorem Rests.of_eq (hw : th'.waitstate t = th.waitstate t) (hd : th'.detached t = th.detached t)
    (hdetach : t ∈ q' .detach ↔ t ∈ q .detach) : Rests th th' q q' t :=
  ⟨fun _ => hw, fun _ => hd, hdetach⟩

/-- `pthread_exit`: the running thread ends, the other ones are at rest. -/
theorem Scheduled.exit_rests (h : Scheduled k cont q) (h0 : k.intLevel = 0) {retval : BitVec 32}
    (hr : k.pthreadExit retval = some r) (h' : Lists r.1.toThreads q') :
    r.1.waitstate k.running = (if k.detached k.running then .dead else .join) ∧
      r.1.detached k.running = k.detached k.running ∧
        (k.detached k.running = true → k.running ∈ q' .detach) ∧
          ∀ t, t ≠ k.running → Rests k.toThreads r.1.toThreads q q' t := by
  obtain ⟨rest, hq⟩ := List.head?_eq_some_iff.mp (h.head h0)
  rw [Kernel.pthreadExit] at hr
  dsimp only at hr
  split_ifs at hr with hdetached
  · obtain ⟨k1, hmove, rfl⟩ := Option.map_eq_some_iff.mp hr
    obtain ⟨th1, hth, rfl⟩ := Option.map_eq_some_iff.mp hmove
    obtain ⟨link, q1, hmove', hlists, hmoved, -⟩ := h.placed.lists.move hq .detach .dead
    cases hmove'.symm.trans hth
    rw [tthCsSwitch_toThreads] at h' ⊢
    obtain rfl := hlists.links.unique h'.links
    have hwaits := k.toThreads.waits_arrive k.running .dead link
    rw [if_pos hdetached]
    refine ⟨hwaits.self, rfl, fun _ => hmoved.self, fun t ht => .of_eq (hwaits.of_ne ht) rfl ?_⟩
    rw [hmoved]
    simp [ht]
  · obtain ⟨k1, hmove, hrest⟩ := Option.bind_eq_some_iff.mp hr
    obtain ⟨k2, hmove2, rfl⟩ := Option.map_eq_some_iff.mp hrest
    obtain ⟨th1, hth, rfl⟩ := Option.map_eq_some_iff.mp hmove
    obtain ⟨th2, hth2, rfl⟩ := Option.map_eq_some_iff.mp hmove2
    obtain ⟨link, q1, hmove', hlists, hmoved⟩ := h.placed.lists.move_off hq .join
    cases hmove'.symm.trans hth
    rw [tthCsSwitch_toThreads] at h' ⊢
    -- the thread that has waited for the end becomes ready
    have hjoiner : Threads.Moves (fun a => a = .thread k.running) _ _ :=
      .single (.inr rfl) (.inl rfl) rfl hth2
    have hrunning : Running { k.toThreads with
        waitstate := Function.update k.waitstate k.running .join, link := link } q1 := by
      intro a ha t ht
      obtain ⟨hne, ht⟩ := ((hmoved a t).mp ht).resolve_left fun heq => by cases heq.2
      show (Function.update k.waitstate k.running .join t).ended = false
      rw [Function.update_of_ne hne]
      exact h.placed.running a ha t ht
    obtain ⟨q2, hq2, -, hrests⟩ := hjoiner.rests (by simp) hlists hrunning
    obtain rfl := hq2.links.unique h'.links
    rw [if_neg hdetached]
    refine ⟨?_, (hrests _).detached (Function.update_self _ _ _), fun hd => absurd hd hdetached,
      fun t ht => ?_⟩
    · have hself : Function.update k.waitstate k.running .join k.running = .join :=
        Function.update_self _ _ _
      have hended : (Function.update k.waitstate k.running .join k.running).ended = true := by
        rw [hself]
        rfl
      exact ((hrests k.running).waitstate (.inl hended)).trans hself
    · have hoff : Rests k.toThreads { k.toThreads with
          waitstate := Function.update k.waitstate k.running .join, link := link } q q1 t :=
        .of_eq (Function.update_of_ne ht _ _) rfl (by rw [hmoved]; simp [ht])
      exact hoff.trans (hrests t)

/-- `usleep`. -/
theorem Scheduled.usleep_rests (h : Scheduled k cont q) (h0 : k.intLevel = 0) {us : BitVec 32}
    (hr : k.usleep us = some r) (h' : Lists r.1.toThreads q') (t : Tid) :
    Rests k.toThreads r.1.toThreads q q' t := by
  rw [Kernel.usleep] at hr
  split_ifs at hr
  · have hmoves : k.toThreads.Moves (fun _ => False) r.1.toThreads :=
      (movesCall_move_then (.inl rfl) (.inl rfl) rfl r hr).1
    obtain ⟨q1, hq1, -, hrests⟩ := hmoves.rests id h.placed.lists h.placed.running
    obtain rfl := hq1.links.unique h'.links
    exact hrests t
  · cases hr
    obtain rfl := h.placed.lists.links.unique h'.links
    exact .refl _ _ _
  · obtain ⟨rest, hq⟩ := List.head?_eq_some_iff.mp (h.head h0)
    obtain ⟨htake, hoff⟩ := h.placed.lists.take hq
    have hlive := h.placed.live_of_mem (by simp) h.running_ready
    have hstamped := h.placed.lists.stamped _ _ h.running_ready
    have hasleep : Lists (k.fallAsleep us).toThreads (Function.update q .ready rest) :=
      ⟨htake.links, htake.ordered, htake.stamped, htake.mem_objects⟩
    obtain ⟨slot, hseek, hlists⟩ := hasleep.sleep hoff hlive.1 hstamped
      ((k.fallAsleep us).wakesEarlier us)
    obtain ⟨slot', hseek', rfl⟩ := Option.map_eq_some_iff.mp hr
    cases hseek.symm.trans hseek'
    rw [switchThen_fst, tthCsSwitch_toThreads] at h' ⊢
    obtain rfl := hlists.links.unique h'.links
    refine ⟨fun hended => ?_, fun _ => rfl, ?_⟩
    · show Function.update k.waitstate k.running .sleep t = k.waitstate t
      have hended : (k.waitstate t).ended = true ∨
        (Function.update k.waitstate k.running .sleep t).ended = true := hended
      by_cases ht : t = k.running
      · subst ht
        rw [Function.update_self, WaitState.ended_of_live hlive.2] at hended
        simp [WaitState.ended] at hended
      · exact Function.update_of_ne ht _ _
    · rw [Function.update_of_ne (by simp), Function.update_of_ne (by simp)]

/-- The critical section of `pthread_create`. -/
theorem Scheduled.insert_rests (h : Scheduled k cont q) {u v : Tid}
    (hcont : cont v = some (.insert u)) (hr : k.insertObject u = some r)
    (h' : Lists r.1.toThreads q') (t : Tid) : Rests k.toThreads r.1.toThreads q q' t := by
  obtain ⟨hobj, hinval⟩ := h.placed.insert v u hcont
  have hdetach : u ∉ q .detach := fun hd => by
    cases hinval.symm.trans (h.placed.dead u hd)
  have hoff := h.placed.off (by rw [hinval]; rfl) hdetach
  obtain ⟨link, hput, hlists⟩ := h.placed.lists.put hoff hobj .ready .ready
  rw [Kernel.insertObject, hput, Option.map_some, Option.some.injEq] at hr
  subst hr
  rw [switchThen_fst, tthCsSwitch_toThreads] at h' ⊢
  obtain rfl := hlists.links.unique h'.links
  have hwaits := k.toThreads.waits_arrive u .ready link
  refine ⟨fun hended => ?_, fun _ => rfl, by rw [Function.update_of_ne (by simp)]⟩
  by_cases ht : t = u
  · subst ht
    rw [hinval] at hended
    have hself : (k.toThreads.arrive t .ready link).waitstate t = .ready := hwaits.self
    rw [hself] at hended
    simp [WaitState.ended] at hended
  · exact hwaits.of_ne ht

end Rests

/-! ## Events -/

/-- What happens to the thread is more than a move. -/
def Event.changes (s : State) (t : Tid) : Event → Prop
  | .call (.create (some u) _) => t = u
  | .call (.exit _) => t = s.kernel.running
  | .call (.detach u) => t = u ∧ s.kernel.detached u = false ∧ s.kernel.waitstate u = .join
  | .call .idle => s.kernel.link (.head .detach) = some t
  | _ => False

section Events

variable {s s' : State} {q q' : Anchor → List Tid} {e : Event} {ticksPerSec : ℕ} {t u : Tid}

theorem Event.not_lists_detach (s : State) (e : Event) : ¬ e.lists s .detach := by
  intro h
  cases e with
  | call c =>
    cases c with
    | condWait => rcases h with h | h <;> cases h
    | _ => cases h
  | resume =>
    obtain ⟨c, -, h⟩ := h
    cases c <;> cases h
  | _ => cases h

/-- **An event leaves the threads at rest** that it does not change. -/
theorem Scheduled.exec_rests (h : Scheduled s.kernel s.cont q) (henabled : Enabled s e)
    (hexec : s.exec ticksPerSec e = some s') (h' : Lists s'.kernel.toThreads q')
    (ht : ¬ e.changes s t) : Rests s.kernel.toThreads s'.kernel.toThreads q q' t := by
  cases hspecial : e.special s with
  | false =>
    obtain ⟨q1, hq1, -, hrests⟩ := (exec_moves henabled hspecial hexec).rests
      (e.not_lists_detach s) h.placed.lists h.placed.running
    obtain rfl := hq1.links.unique h'.links
    exact hrests t
  | true =>
    cases e with
    | call c =>
      obtain ⟨r, hcall, rfl⟩ := Option.map_eq_some_iff.mp hexec
      rw [settle_kernel] at h' ⊢
      cases c with
      | create object attr =>
        cases hcall
        cases object with
        | none =>
          obtain rfl := h.placed.lists.links.unique h'.links
          exact .refl _ _ _
        | some u =>
          have hlists := (h.placed.create henabled.2.2.1.1 henabled.2.2.1.2.1).lists
          obtain rfl := hlists.links.unique h'.links
          exact .of_eq (Function.update_of_ne ht _ _) (Function.update_of_ne ht _ _) .rfl
      | exit retval => exact (h.exit_rests henabled.1 hcall h').2.2.2 t ht
      | detach u =>
        rw [Kernel.call, Kernel.pthreadDetach] at hcall
        split_ifs at hcall
        · cases hcall
          obtain rfl := h.placed.lists.links.unique h'.links
          exact .refl _ _ _
        · cases hcall
          obtain rfl := h.placed.lists.links.unique h'.links
          refine ⟨fun _ => rfl, fun hjoin => Function.update_of_ne ?_ _ _, .rfl⟩
          rintro rfl
          exact ht ⟨rfl, by simpa using ‹¬ s.kernel.detached t = true›, hjoin⟩
      | usleep us => exact h.usleep_rests henabled.1 hcall h' t
      | idle =>
        cases hcall
        have hhead := h.placed.lists.links.head_eq .detach
        have ht : s.kernel.link (.head .detach) ≠ some t := ht
        rw [Kernel.tthIdle] at h' ⊢
        cases hq : q .detach with
        | nil =>
          rw [hq] at hhead
          rw [hhead] at h' ⊢
          obtain rfl := h.placed.lists.links.unique h'.links
          exact .refl _ _ _
        | cons u rest =>
          rw [hq, List.head?_cons] at hhead
          rw [hhead] at h' ht ⊢
          have hut : t ≠ u := fun heq => ht (by rw [heq])
          have htake := (h.placed.lists.take hq).1
          obtain rfl := htake.links.unique h'.links
          refine .of_eq rfl rfl ?_
          rw [Function.update_self, hq, List.mem_cons]
          simp [hut]
      | _ => cases hspecial
    | resume =>
      obtain ⟨c, hc, hresume⟩ := Option.bind_eq_some_iff.mp hexec
      obtain ⟨r, hr, rfl⟩ := Option.map_eq_some_iff.mp hresume
      rw [settle_kernel] at h' ⊢
      rw [Event.special, hc] at hspecial
      cases c with
      | insert u => exact h.insert_rests hc hr h' t
      | free u _ | freeStack u =>
        obtain ⟨k1, hfree, rfl⟩ := Option.map_eq_some_iff.mp hr
        rw [Kernel.freeObject] at hfree
        split_ifs at hfree
        all_goals
          cases hfree
          obtain rfl := h.placed.lists.links.unique h'.links
          exact .of_eq rfl rfl .rfl
      | _ => cases hspecial
    | release u =>
      cases hexec
      obtain rfl := h.placed.lists.links.unique h'.links
      exact .of_eq rfl rfl .rfl
    | _ => cases hspecial

/-- Only the running thread goes on somewhere else. -/
theorem exec_cont_of_ne (hexec : s.exec ticksPerSec e = some s') (hu : u ≠ s.kernel.running)
    {c : Cont} (hc : s'.cont u = some c) : s.cont u = some c := by
  cases e with
  | call d =>
    obtain ⟨r, -, rfl⟩ := Option.map_eq_some_iff.mp hexec
    rw [(settle_of_ne { s with cont := State.started s.cont d } r hu).1] at hc
    cases d with
    | create object attr =>
      cases object with
      | none => exact hc
      | some t =>
        have hc : Function.update s.cont t none u = some c := hc
        by_cases hut : u = t
        · subst hut
          rw [Function.update_self] at hc
          cases hc
        · rwa [Function.update_of_ne hut] at hc
    | _ => exact hc
  | resume =>
    obtain ⟨d, -, hresume⟩ := Option.bind_eq_some_iff.mp hexec
    obtain ⟨r, -, rfl⟩ := Option.map_eq_some_iff.mp hresume
    rwa [(settle_of_ne s r hu).1] at hc
  | intEnter | intPost | intTick | intExit =>
    obtain ⟨k, -, rfl⟩ := Option.map_eq_some_iff.mp hexec
    exact hc
  | release t =>
    cases hexec
    exact hc

/-- The running thread goes on where its call says. -/
theorem settle_cont_self (s : State) (t : Tid) (r : Kernel × Outcome) :
    (s.settle t r).cont t = r.2.next := by
  obtain ⟨k, o⟩ := r
  cases o <;> exact Function.update_self _ _ _

/-- What a call of the running thread leaves behind. -/
theorem exec_call_cases {c : Call} (hexec : s.exec ticksPerSec (.call c) = some s') :
    ∃ r, s.kernel.call c = some r ∧ s'.kernel = r.1 ∧ s'.cont s.kernel.running = r.2.next ∧
      s'.result s.kernel.running = r.2.returned := by
  obtain ⟨r, hcall, rfl⟩ := Option.map_eq_some_iff.mp hexec
  exact ⟨r, hcall, settle_kernel _ _ _, settle_cont_self _ _ _, settle_result _ _ _⟩

theorem exec_resume_cases (hexec : s.exec ticksPerSec .resume = some s') :
    ∃ d r, s.cont s.kernel.running = some d ∧ s.kernel.resume d = some r ∧ s'.kernel = r.1 ∧
      s'.cont s.kernel.running = r.2.next ∧ s'.result s.kernel.running = r.2.returned := by
  obtain ⟨d, hd, hresume⟩ := Option.bind_eq_some_iff.mp hexec
  obtain ⟨r, hr, rfl⟩ := Option.map_eq_some_iff.mp hresume
  exact ⟨d, r, hd, hr, settle_kernel _ _ _, settle_cont_self _ _ _, settle_result _ _ _⟩

/-- Where a thread is about to free another one. -/
def Cont.frees : Cont → Option Tid
  | .join t | .free t _ | .freeStack t => some t
  | _ => none

theorem Cont.frees_of_joins {c : Cont} (h : c.joins = some t) : c.frees = some t := by
  cases c <;> first | exact h | cases h

theorem Cont.uses_of_frees {c : Cont} (h : c.frees = some t) : c.uses = some t := by
  cases c <;> first | exact h | cases h

theorem switchThen_frees {k : Kernel} {r : Result} {c : Cont}
    (hc : (k.switchThen r).2.next = some c) (t : Tid) : c.frees ≠ some t := by
  rw [Kernel.switchThen] at hc
  split_ifs at hc
  · cases hc
    intro hfrees
    cases hfrees
  · cases hc

/-- **How a thread comes to free another one.** By a join, or as the idle thread by taking it from
`tth_detach`; or it was about to do so before. -/
theorem exec_frees (henabled : Enabled s e) (hexec : s.exec ticksPerSec e = some s') {c : Cont}
    (hc : s'.cont u = some c) (ht : c.frees = some t) :
    (e = .call (.join t) ∧ u = s.kernel.running) ∨
      (e = .call .idle ∧ s.kernel.link (.head .detach) = some t ∧ c = .freeStack t) ∨
        ∃ d, s.cont u = some d ∧ d.frees = some t ∧ d.joins = c.joins := by
  by_cases hu : u = s.kernel.running
  swap
  · exact .inr (.inr ⟨c, exec_cont_of_ne hexec hu hc, ht, rfl⟩)
  subst hu
  cases e with
  | call d =>
    obtain ⟨r, hcall, rfl⟩ := Option.map_eq_some_iff.mp hexec
    rw [settle_cont_self] at hc
    cases hspecial : d.special with
    | false =>
      have huses : r.2.next.bind Cont.uses = some t := by
        rw [hc]
        exact Cont.uses_of_frees ht
      have hlists := (call_moves henabled.2.2.1 hspecial r hcall).2 t huses
      cases d with
      | join v =>
        cases hlists
        exact .inl ⟨rfl, rfl⟩
      | condWait => rcases hlists with h | h <;> cases h
      | _ => cases hlists
    | true =>
      cases d with
      | create object attr =>
        cases hcall
        cases object <;> cases hc
        cases ht
      | exit retval =>
        rw [Kernel.call, Kernel.pthreadExit] at hcall
        dsimp only at hcall
        split_ifs at hcall
        · obtain ⟨k1, -, rfl⟩ := Option.map_eq_some_iff.mp hcall
          cases hc
        · obtain ⟨k1, -, hrest⟩ := Option.bind_eq_some_iff.mp hcall
          obtain ⟨k2, -, rfl⟩ := Option.map_eq_some_iff.mp hrest
          cases hc
      | detach v =>
        rw [Kernel.call, Kernel.pthreadDetach] at hcall
        split_ifs at hcall <;> cases hcall <;> cases hc
      | usleep us =>
        rw [Kernel.call, Kernel.usleep] at hcall
        split_ifs at hcall
        · obtain ⟨k1, -, rfl⟩ := Option.map_eq_some_iff.mp hcall
          exact absurd ht (switchThen_frees hc t)
        · cases hcall
          cases hc
        · obtain ⟨slot, -, rfl⟩ := Option.map_eq_some_iff.mp hcall
          exact absurd ht (switchThen_frees hc t)
      | idle =>
        cases hcall
        rw [Kernel.tthIdle] at hc
        split at hc
        · cases hc
        · rename_i v hhead
          cases hc
          cases ht
          exact .inr (.inl ⟨rfl, hhead, rfl⟩)
      | _ => cases hspecial
  | resume =>
    obtain ⟨d, hd, hresume⟩ := Option.bind_eq_some_iff.mp hexec
    obtain ⟨r, hr, rfl⟩ := Option.map_eq_some_iff.mp hresume
    rw [settle_cont_self] at hc
    cases hspecial : d.special with
    | false =>
      have huses : r.2.next.bind Cont.uses = some t := by
        rw [hc]
        exact Cont.uses_of_frees ht
      have hlists := (resume_moves hspecial r hr).2 t huses
      cases d with
      | join v =>
        cases hlists
        rw [Kernel.resume, Kernel.joined] at hr
        split_ifs at hr
        cases hr
        cases hc
        exact .inr (.inr ⟨_, hd, rfl, rfl⟩)
      | _ => cases hlists
    | true =>
      cases d with
      | insert v =>
        obtain ⟨th, -, rfl⟩ := Option.map_eq_some_iff.mp hr
        exact absurd ht (switchThen_frees hc t)
      | free v _ | freeStack v =>
        obtain ⟨k1, -, rfl⟩ := Option.map_eq_some_iff.mp hr
        cases hc
      | _ => cases hspecial
  | intEnter | intPost | intTick | intExit =>
    obtain ⟨k, -, rfl⟩ := Option.map_eq_some_iff.mp hexec
    exact .inr (.inr ⟨c, hc, ht, rfl⟩)
  | release v =>
    cases hexec
    exact .inr (.inr ⟨c, hc, ht, rfl⟩)

/-- The idle thread comes to its `free` only by going on. -/
theorem Scheduled.idle_frees (h : Scheduled s.kernel s.cont q) (henabled : Enabled s e)
    (hexec : s.exec ticksPerSec e = some s')
    (hcont : s.cont tthIdleThread = some (.freeStack t)) :
    s'.cont tthIdleThread = some (.freeStack t) ∨
      (e = .resume ∧ s.kernel.running = tthIdleThread) := by
  by_cases hrun : s.kernel.running = tthIdleThread
  swap
  · left
    have hobj := h.placed.lists.mem_objects _ _ h.placed.idle_ready
    rwa [(exec_others henabled hexec (Ne.symm hrun) hobj).1]
  cases e with
  | call c =>
    have hnone := henabled.2.1
    rw [hrun, hcont] at hnone
    cases hnone
  | resume => exact .inr ⟨rfl, hrun⟩
  | intEnter | intPost | intTick | intExit =>
    obtain ⟨k, -, rfl⟩ := Option.map_eq_some_iff.mp hexec
    exact .inl hcont
  | release v =>
    cases hexec
    exact .inl hcont

end Events

/-! ## The log -/

/-- The thread that a record counts for. -/
def StackRecord.mark : StackRecord → Option (Tid × ℕ)
  | .exited t n | .freed t n | .joined t n (.retval _) => some (t, n)
  | _ => none

/-- The parts of `Ledger.Reclaims` that are about the log. -/
structure LogSound (log : List StackRecord) : Prop where
  freed_once : (log.filterMap StackRecord.freedLife).Nodup
  freed_exited : ∀ l l' t n, log = l ++ .freed t n :: l' → .exited t n ∈ l
  joined_once : (log.filterMap StackRecord.joinedLife).Nodup
  joined_else : ∀ t n r, .joined t n r ∈ log → (∃ v, r = .retval v) ∨ r = .code .EINVAL

section Log

variable {log : List StackRecord} {r : StackRecord} {t : Tid} {n : ℕ}

theorem mem_freed : (t, n) ∈ log.filterMap StackRecord.freedLife ↔ .freed t n ∈ log := by
  rw [List.mem_filterMap]
  constructor
  · rintro ⟨r, hr, heq⟩
    cases r <;> cases heq
    exact hr
  · exact fun hr => ⟨_, hr, rfl⟩

theorem mem_joined : (t, n) ∈ log.filterMap StackRecord.joinedLife ↔
    ∃ v, .joined t n (.retval v) ∈ log := by
  rw [List.mem_filterMap]
  constructor
  · rintro ⟨r, hr, heq⟩
    cases r with
    | joined u l res =>
      cases res <;> cases heq
      exact ⟨_, hr⟩
    | _ => cases heq
  · exact fun ⟨v, hr⟩ => ⟨_, hr, rfl⟩

theorem nodup_filterMap_snoc {f : StackRecord → Option (Tid × ℕ)}
    (h : (log.filterMap f).Nodup) (hr : ∀ x, f r = some x → x ∉ log.filterMap f) :
    ((log ++ [r]).filterMap f).Nodup := by
  rw [List.filterMap_append]
  cases hf : f r with
  | none => simpa [hf] using h
  | some x =>
    have hnot := hr x hf
    have hnodup := h.concat hnot
    rw [List.concat_eq_append] at hnodup
    simpa [hf] using hnodup

/-- One more record. -/
theorem LogSound.snoc (h : LogSound log)
    (hfreed : ∀ t n, r = .freed t n → .freed t n ∉ log ∧ .exited t n ∈ log)
    (hjoined : ∀ t n res, r = .joined t n res →
      (∃ v, res = .retval v ∧ (t, n) ∉ log.filterMap StackRecord.joinedLife) ∨
        res = .code .EINVAL) : LogSound (log ++ [r]) := by
  refine ⟨nodup_filterMap_snoc h.freed_once ?_, ?_, nodup_filterMap_snoc h.joined_once ?_, ?_⟩
  · rintro ⟨t, n⟩ hx
    cases r <;> cases hx
    exact fun hmem => (hfreed _ _ rfl).1 (mem_freed.mp hmem)
  · intro l l' t n heq
    rcases List.eq_nil_or_concat l' with rfl | ⟨l'', r', rfl⟩
    · obtain ⟨rfl, hlast⟩ := List.append_inj' heq rfl
      exact (hfreed t n (List.singleton_inj.mp hlast)).2
    · rw [List.concat_eq_append, ← List.cons_append, ← List.append_assoc] at heq
      exact h.freed_exited l l'' t n (List.append_inj' heq rfl).1
  · rintro ⟨t, n⟩ hx
    cases r with
    | joined u l res =>
      rcases hjoined u l res rfl with ⟨v, rfl, hnot⟩ | rfl
      · cases hx
        exact hnot
      · cases hx
    | _ => cases hx
  · intro t n res hmem
    rcases List.mem_append.mp hmem with hmem | hmem
    · exact h.joined_else t n res hmem
    · rcases hjoined t n res (List.mem_singleton.mp hmem).symm with ⟨v, rfl, -⟩ | rfl
      · exact .inl ⟨v, rfl⟩
      · exact .inr rfl

end Log

/-! ## The invariant -/

/-- What holds of the thread that has the object `t` now. -/
structure LifeInv (s : Ledger) (q : Anchor → List Tid) (t : Tid) : Prop where
  exited : (s.state.kernel.waitstate t).ended = true → .exited t (s.life t) ∈ s.log
  joinable : s.state.kernel.waitstate t = .join → s.state.kernel.detached t = false
  dead : s.state.kernel.waitstate t = .dead → t ∈ q .detach ∨
    s.state.cont tthIdleThread = some (.freeStack t) ∨ .freed t (s.life t) ∈ s.log
  freed : .freed t (s.life t) ∈ s.log → (s.state.kernel.waitstate t).ended = true ∧
    t ∉ q .detach ∧ (∀ u c, s.state.cont u = some c → c.frees ≠ some t) ∧
      (s.state.kernel.waitstate t = .join → s.HasJoined t)
  joined : s.HasJoined t → .freed t (s.life t) ∈ s.log

/-- The invariant. -/
structure LedgerInv (s : Ledger) (q : Anchor → List Tid) : Prop where
  sched : Scheduled s.state.kernel s.state.cont q
  known : ∀ r ∈ s.log, ∀ t n, r.mark = some (t, n) → n ≤ s.life t
  one_join : ∀ u v t, joining s.state.cont u = some t → joining s.state.cont v = some t → u = v
  lives : ∀ t, LifeInv s q t
  log : LogSound s.log

section Invariant

variable {s : Ledger} {s' : State} {q q' : Anchor → List Tid} {e : Event} {ticksPerSec : ℕ}
  {t : Tid}

theorem records_freeStack (s' : State)
    (hcont : s.state.cont s.state.kernel.running = some (.freeStack t)) :
    s.records s' .resume = [.freed t (s.life t)] := by
  rw [Ledger.records, hcont]
  rfl

/-- A thread that is freed does not come into somebody's hands again. -/
theorem LedgerInv.not_frees (h : LedgerInv s q) (henabled : Enabled s.state e)
    (hok : ¬ s.Disrupts e) (hexec : s.state.exec ticksPerSec e = some s')
    (hfreed : .freed t (s.life t) ∈ s.log) (u : Tid) (c : Cont) (hc : s'.cont u = some c) :
    c.frees ≠ some t := by
  intro ht
  obtain ⟨hended, hdetach, hfrees, hjoined⟩ := (h.lives t).freed hfreed
  rcases exec_frees henabled hexec hc ht with ⟨rfl, rfl⟩ | ⟨-, hhead, -⟩ | ⟨d, hd, hdt, -⟩
  · obtain ⟨r, hcall, rfl⟩ := Option.map_eq_some_iff.mp hexec
    rw [settle_cont_self] at hc
    rcases WaitState.ended_iff.mp hended with hw | hw
    · exact hok ⟨(h.lives t).joinable hw, .inr ⟨hw, .inr (hjoined hw)⟩⟩
    · have hdet := h.sched.placed.dead_detached t henabled.2.2.1 hw
      rw [Kernel.call, Kernel.pthreadJoin, hdet, Bool.true_or, if_pos rfl] at hcall
      cases hcall
      cases hc
  · rw [h.sched.placed.lists.links.head_eq] at hhead
    exact hdetach (List.mem_of_head? hhead)
  · exact hfrees u d hd hdt

/-- **An event, for a thread** that it does not change, and that it records nothing of. -/
theorem LedgerInv.life (h : LedgerInv s q) (henabled : Enabled s.state e) (hok : ¬ s.Disrupts e)
    (hexec : s.state.exec ticksPerSec e = some s') (h' : Lists s'.kernel.toThreads q')
    (hchange : ¬ e.changes s.state t) (hlife : s.lives e t = s.life t)
    (hmark : ∀ r ∈ s.records s' e, r.mark ≠ some (t, s.life t)) :
    LifeInv ⟨s', s.lives e, s.log ++ s.records s' e⟩ q' t := by
  have hl := h.lives t
  have hrests := h.sched.exec_rests henabled hexec h' hchange
  have hmem : ∀ r : StackRecord, r.mark = some (t, s.life t) →
      (r ∈ s.log ++ s.records s' e ↔ r ∈ s.log) := fun r hr => by
    rw [List.mem_append, or_iff_left fun hmem => hmark r hmem hr]
  have hjoined : Ledger.HasJoined ⟨s', s.lives e, s.log ++ s.records s' e⟩ t ↔ s.HasJoined t := by
    rw [Ledger.HasJoined, Ledger.HasJoined, mem_joined, mem_joined]
    show (∃ v, .joined t (s.lives e t) (.retval v) ∈ s.log ++ s.records s' e) ↔ _
    rw [hlife]
    exact exists_congr fun v => hmem _ rfl
  refine ⟨fun hended => ?_, fun hw => ?_, fun hw => ?_, fun hfreed => ?_, fun hj => ?_⟩
  · show .exited t (s.lives e t) ∈ s.log ++ s.records s' e
    rw [hlife, hmem _ rfl]
    exact hl.exited (hrests.waitstate (.inr hended) ▸ hended)
  · have hsame := hrests.waitstate (.inr (by rw [hw]; rfl))
    have hjoin := hsame.symm.trans hw
    exact (hrests.detached hjoin).trans (hl.joinable hjoin)
  · have hsame := hrests.waitstate (.inr (by rw [hw]; rfl))
    show t ∈ q' .detach ∨ s'.cont tthIdleThread = some (.freeStack t) ∨
      .freed t (s.lives e t) ∈ s.log ++ s.records s' e
    rw [hlife, hmem _ rfl, hrests.detach]
    rcases hl.dead (hsame.symm.trans hw) with hdetach | hidle | hfreed
    · exact .inl hdetach
    · rcases h.sched.idle_frees henabled hexec hidle with hidle' | ⟨rfl, hrun⟩
      · exact .inr (.inl hidle')
      · rw [records_freeStack s' (hrun.symm ▸ hidle)] at hmark
        exact (hmark _ List.mem_cons_self rfl).elim
    · exact .inr (.inr hfreed)
  · have hfreed : .freed t (s.lives e t) ∈ s.log ++ s.records s' e := hfreed
    rw [hlife, hmem _ rfl] at hfreed
    obtain ⟨hended, hdetach, -, hjoin⟩ := hl.freed hfreed
    have hsame := hrests.waitstate (.inl hended)
    refine ⟨?_, ?_, h.not_frees henabled hok hexec hfreed, fun hw => hjoined.mpr (hjoin ?_)⟩
    · exact hsame ▸ hended
    · rwa [hrests.detach]
    · exact hsame.symm.trans hw
  · show .freed t (s.lives e t) ∈ s.log ++ s.records s' e
    rw [hlife, hmem _ rfl]
    exact hl.joined (hjoined.mp hj)

/-! ### The threads that an event changes -/

/-- A thread ends. -/
theorem LedgerInv.life_exit (h : LedgerInv s q) {retval : BitVec 32}
    (henabled : Enabled s.state (.call (.exit retval)))
    (hexec : s.state.exec ticksPerSec (.call (.exit retval)) = some s')
    (h' : Lists s'.kernel.toThreads q') :
    LifeInv ⟨s', s.life, s.log ++ [.exited s.state.kernel.running (s.life s.state.kernel.running)]⟩ q'
      s.state.kernel.running := by
  obtain ⟨r, hcall, hkernel, -, -⟩ := exec_call_cases hexec
  rw [hkernel] at h'
  have hl := h.lives s.state.kernel.running
  have hlive := WaitState.ended_of_live h.sched.live_running.2
  obtain ⟨hw, hdet, hdetach, -⟩ := h.sched.exit_rests henabled.1 hcall h'
  rw [← hkernel] at hw hdet
  -- this one has not been freed yet
  have hnot : .freed s.state.kernel.running (s.life s.state.kernel.running) ∉ s.log := fun hfreed => by
    have hended := (hl.freed hfreed).1
    rw [hlive] at hended
    cases hended
  refine ⟨fun _ => ?_, fun hjoin => ?_, fun hdead => .inl ?_, fun hfreed => ?_, fun hjoined => ?_⟩
  · exact List.mem_append_right _ List.mem_cons_self
  · rw [hdet]
    rw [hw] at hjoin
    split_ifs at hjoin with hd
    simpa using hd
  · rw [hw] at hdead
    split_ifs at hdead with hd
    exact hdetach hd
  · refine absurd ?_ hnot
    simpa using hfreed
  · obtain ⟨v, hv⟩ := mem_joined.mp hjoined
    refine absurd (hl.joined (mem_joined.mpr ⟨v, ?_⟩)) hnot
    simpa using hv

/-- A new thread. -/
theorem LedgerInv.life_create (h : LedgerInv s q) {attr : Attr}
    (hexec : s.state.exec ticksPerSec (.call (.create (some t) attr)) = some s') :
    LifeInv ⟨s', Function.update s.life t (s.life t + 1), s.log⟩ q' t := by
  obtain ⟨r, hcall, hkernel, -, -⟩ := exec_call_cases hexec
  cases hcall
  have hinval : s'.kernel.waitstate t = .inval := by
    rw [hkernel]
    exact Function.update_self _ _ _
  have hnew : ∀ r ∈ s.log, r.mark ≠ some (t, s.life t + 1) := fun r hr hmark =>
    absurd (h.known r hr t _ hmark) (Nat.not_succ_le_self _)
  have hlife : Function.update s.life t (s.life t + 1) t = s.life t + 1 := Function.update_self _ _ _
  refine ⟨fun hended => ?_, fun hjoin => ?_, fun hdead => ?_, fun hfreed => ?_, fun hjoined => ?_⟩
  · rw [hinval] at hended
    cases hended
  · cases hinval.symm.trans hjoin
  · cases hinval.symm.trans hdead
  · have hfreed : .freed t (Function.update s.life t (s.life t + 1) t) ∈ s.log := hfreed
    rw [hlife] at hfreed
    exact absurd rfl (hnew _ hfreed)
  · obtain ⟨v, hv⟩ := mem_joined.mp hjoined
    have hv : .joined t (Function.update s.life t (s.life t + 1) t) (.retval v) ∈ s.log := hv
    rw [hlife] at hv
    exact absurd rfl (hnew _ hv)

/-- The idle thread takes a thread from `tth_detach`. -/
theorem LedgerInv.life_idle (h : LedgerInv s q) (hrun : s.state.kernel.running = tthIdleThread)
    (hhead : s.state.kernel.link (.head .detach) = some t)
    (hexec : s.state.exec ticksPerSec (.call .idle) = some s') :
    LifeInv ⟨s', s.life, s.log⟩ q' t := by
  obtain ⟨r, hcall, hkernel, hcont, -⟩ := exec_call_cases hexec
  cases hcall
  have hl := h.lives t
  rw [Kernel.tthIdle, hhead] at hkernel hcont
  have hdetach : t ∈ q .detach := by
    rw [h.sched.placed.lists.links.head_eq] at hhead
    exact List.mem_of_head? hhead
  have hnot : .freed t (s.life t) ∉ s.log := fun hfreed => (hl.freed hfreed).2.1 hdetach
  have hthreads : s'.kernel.waitstate t = s.state.kernel.waitstate t ∧
      s'.kernel.detached t = s.state.kernel.detached t := by
    rw [hkernel]
    exact ⟨rfl, rfl⟩
  refine ⟨fun hended => hl.exited (hthreads.1 ▸ hended), fun hjoin => ?_,
    fun _ => .inr (.inl (hrun ▸ hcont)), fun hfreed => absurd hfreed hnot, hl.joined⟩
  exact hthreads.2.trans (hl.joinable (hthreads.1.symm.trans hjoin))

/-- A thread at its `free` is the only one that is about to free the other one, and that one has ended.
-/
theorem LedgerInv.free_alone (h : LedgerInv s q) {c : Cont}
    (hcont : s.state.cont s.state.kernel.running = some c) (hspecial : c.special = true)
    (ht : c.frees = some t) :
    (s.state.kernel.waitstate t).ended = true ∧ t ∉ q .detach ∧
      ∀ u d, s.state.cont u = some d → d.frees = some t → u = s.state.kernel.running := by
  have hplaced := h.sched.placed
  cases c with
  | free v retval =>
    cases ht
    have hjoining : joining s.state.cont s.state.kernel.running = some t := by
      rw [joining, hcont]
      rfl
    obtain ⟨-, hw⟩ := h.sched.ended_of_joining hjoining
    refine ⟨by rw [hw]; rfl, fun hd => ?_, fun u d hd hdt => ?_⟩
    · cases hw.symm.trans (hplaced.dead t hd)
    · cases d with
      | join | free =>
        refine h.one_join u _ t ?_ hjoining
        rw [joining, hd]
        exact hdt
      | freeStack =>
        cases hdt
        cases hw.symm.trans (hplaced.freeStack u t hd).2.2.1
      | _ => cases hdt
  | freeStack v =>
    cases ht
    obtain ⟨hrun, -, hw, hdetach⟩ := hplaced.freeStack _ t hcont
    refine ⟨by rw [hw]; rfl, hdetach, fun u d hd hdt => ?_⟩
    cases d with
    | join | free =>
      have hjoining : joining s.state.cont u = some t := by
        rw [joining, hd]
        exact hdt
      rcases (hplaced.joins u t hjoining).2 with hwaits | hjoin
      · exact absurd hwaits (hplaced.not_waiting_dead hw u)
      · cases hw.symm.trans hjoin
    | freeStack =>
      cases hdt
      rw [hrun]
      exact (hplaced.freeStack u t hd).1
    | _ => cases hdt
  | join => cases hspecial
  | _ => cases ht

/-- A thread is freed, and joined if it has not been detached. -/
theorem LedgerInv.life_free (h : LedgerInv s q) {c : Cont}
    (hcont : s.state.cont s.state.kernel.running = some c) (hspecial : c.special = true)
    (ht : c.frees = some t) (henabled : Enabled s.state .resume)
    (hexec : s.state.exec ticksPerSec .resume = some s') (h' : Lists s'.kernel.toThreads q')
    {log : List StackRecord} (hfreed : .freed t (s.life t) ∈ log)
    (hlog : ∀ r ∈ s.log, r ∈ log) (hjoined : s.state.kernel.waitstate t = .join →
      ∃ v, .joined t (s.life t) (.retval v) ∈ log) : LifeInv ⟨s', s.life, log⟩ q' t := by
  obtain ⟨hended, hdetach, halone⟩ := h.free_alone hcont hspecial ht
  have hl := h.lives t
  have hrests := h.sched.exec_rests (t := t) henabled hexec h' id
  have hw := hrests.waitstate (.inl hended)
  have hnone : s'.cont s.state.kernel.running = none := by
    obtain ⟨d, r, hd, hr, -, hnext, -⟩ := exec_resume_cases hexec
    cases hcont.symm.trans hd
    rw [hnext]
    cases c with
    | free v _ | freeStack v =>
      obtain ⟨k, -, rfl⟩ := Option.map_eq_some_iff.mp hr
      rfl
    | join => cases hspecial
    | _ => cases ht
  have hfrees : ∀ u d, s'.cont u = some d → d.frees ≠ some t := fun u d hd hdt => by
    rcases exec_frees henabled hexec hd hdt with ⟨heq, -⟩ | ⟨heq, -⟩ | ⟨d', hd', hdt', -⟩
    · cases heq
    · cases heq
    · rw [halone u d' hd' hdt'] at hd
      cases hnone.symm.trans hd
  refine ⟨fun _ => hlog _ (hl.exited hended), fun hjoin => ?_, fun _ => .inr (.inr hfreed),
    fun _ => ⟨hw ▸ hended, ?_, hfrees, fun hjoin => ?_⟩, fun _ => hfreed⟩
  · have hjoin := hw.symm.trans hjoin
    exact (hrests.detached hjoin).trans (hl.joinable hjoin)
  · rwa [hrests.detach]
  · exact mem_joined.mpr (hjoined (hw.symm.trans hjoin))

/-! ### Steps -/

theorem Ledger.disrupts_of_lateJoin (h : LateJoin s.state e) : s.Disrupts e := by
  cases e with
  | call c =>
    cases c with
    | join t =>
      obtain ⟨hdet, hw, -, hjoins⟩ := h
      exact ⟨hdet, .inr ⟨hw, .inl hjoins⟩⟩
    | _ => cases h
  | _ => cases h

/-- A `pthread_join` that returns at once. -/
theorem Ledger.join_returned (hok : ¬ s.Disrupts (.call (.join t)))
    (hexec : s.state.exec ticksPerSec (.call (.join t)) = some s') :
    s.joinRecord s' t = [] ∨ s.joinRecord s' t = [.joined t (s.life t) (.code .EINVAL)] := by
  obtain ⟨r, hcall, -, -, hresult⟩ := exec_call_cases hexec
  rw [Ledger.joinRecord, hresult]
  rw [Kernel.call, Kernel.pthreadJoin] at hcall
  split_ifs at hcall with hinval hself hw
  · cases hcall
    exact .inr rfl
  · refine absurd ?_ hok
    simp only [Bool.or_eq_true, not_or, Bool.not_eq_true, Option.isSome_eq_false_iff,
      Option.isNone_iff_eq_none] at hinval
    exact ⟨hinval.1, .inl ⟨hself, hinval.2⟩⟩
  · obtain ⟨k, -, rfl⟩ := Option.map_eq_some_iff.mp hcall
    exact .inl rfl
  · rw [Kernel.joined] at hcall
    split_ifs at hcall
    cases hcall
    exact .inl rfl

/-- At its `free`, a `pthread_join` returns 0. -/
theorem Ledger.free_returned {v : BitVec 32}
    (hcont : s.state.cont s.state.kernel.running = some (.free t v))
    (hexec : s.state.exec ticksPerSec .resume = some s') :
    s.records s' .resume = [.freed t (s.life t), .joined t (s.life t) (.retval v)] := by
  obtain ⟨d, r, hd, hr, -, -, hresult⟩ := exec_resume_cases hexec
  cases hcont.symm.trans hd
  obtain ⟨k, -, rfl⟩ := Option.map_eq_some_iff.mp hr
  rw [Ledger.records, hcont]
  show .freed t (s.life t) :: s.joinRecord s' t = _
  rw [Ledger.joinRecord, hresult]
  rfl

/-- At most one thread joins another one. -/
theorem LedgerInv.one_join_step (h : LedgerInv s q) (henabled : Enabled s.state e)
    (hok : ¬ s.Disrupts e) (hexec : s.state.exec ticksPerSec e = some s') {u v : Tid}
    (hu : joining s'.cont u = some t) (hv : joining s'.cont v = some t) : u = v := by
  have hcases : ∀ w, joining s'.cont w = some t →
      (e = .call (.join t) ∧ w = s.state.kernel.running) ∨ joining s.state.cont w = some t := by
    intro w hw
    obtain ⟨c, hc, hjoins⟩ := Option.bind_eq_some_iff.mp hw
    rcases exec_frees henabled hexec hc (Cont.frees_of_joins hjoins) with hjoin | ⟨-, -, rfl⟩ |
      ⟨d, hd, -, hdj⟩
    · exact .inl hjoin
    · cases hjoins
    · right
      rw [joining, hd]
      exact hdj.trans hjoins
  -- a thread that is being joined is not joined by another thread
  have hnew : ∀ w, e = .call (.join t) → joining s'.cont s.state.kernel.running = some t →
      joining s.state.cont w = some t → False := by
    rintro w rfl hrun hw
    obtain ⟨c, hc, hjoins⟩ := Option.bind_eq_some_iff.mp hrun
    obtain ⟨r, hcall, -, hnext, -⟩ := exec_call_cases hexec
    have hobj : w ∈ s.state.kernel.objects := by
      obtain ⟨d, hd, -⟩ := Option.bind_eq_some_iff.mp hw
      exact (h.sched.placed.cont_live w (by rw [hd]; rfl)).1
    rcases (h.sched.placed.joins w t hw).2 with hwaits | hended
    · have hhead : (s.state.kernel.link (.head (.thread t))).isSome = true := by
        rw [h.sched.placed.lists.links.head_eq]
        obtain ⟨x, rest, hx⟩ := List.exists_cons_of_ne_nil (List.ne_nil_of_mem hwaits)
        rw [hx]
        rfl
      rw [Kernel.call, Kernel.pthreadJoin, hhead, Bool.or_true, if_pos rfl] at hcall
      cases hcall
      rw [hnext] at hc
      cases hc
    · exact hok ⟨(h.lives t).joinable hended, .inr ⟨hended, .inl ⟨w, hobj, hw⟩⟩⟩
  rcases hcases u hu with ⟨he, rfl⟩ | hu' <;> rcases hcases v hv with ⟨he', rfl⟩ | hv'
  · rfl
  · exact (hnew v he hu hv').elim
  · exact (hnew u he' hv hu').elim
  · exact h.one_join u v t hu' hv'

/-- What is logged of an event. -/
theorem LedgerInv.log_step (h : LedgerInv s q) (henabled : Enabled s.state e) (hok : ¬ s.Disrupts e)
    (hexec : s.state.exec ticksPerSec e = some s') : LogSound (s.log ++ s.records s' e) := by
  have hnil : LogSound (s.log ++ []) := by
    rw [List.append_nil]
    exact h.log
  cases e with
  | call c =>
    cases c with
    | exit retval => exact h.log.snoc nofun nofun
    | join t =>
      show LogSound (s.log ++ s.joinRecord s' t)
      rcases Ledger.join_returned hok hexec with heq | heq
      · rw [heq]
        exact hnil
      · rw [heq]
        refine h.log.snoc nofun ?_
        rintro u n res ⟨⟩
        exact .inr rfl
    | _ => exact hnil
  | resume =>
    obtain ⟨c, r, hc, -⟩ := exec_resume_cases hexec
    cases c with
    | free t v =>
      obtain ⟨hended, -, -⟩ := h.free_alone hc rfl rfl
      have hnot : .freed t (s.life t) ∉ s.log := fun hfreed =>
        ((h.lives t).freed hfreed).2.2.1 _ _ hc rfl
      have hfirst : LogSound (s.log ++ [.freed t (s.life t)]) := by
        refine h.log.snoc ?_ nofun
        rintro u n ⟨⟩
        exact ⟨hnot, (h.lives t).exited hended⟩
      rw [Ledger.free_returned hc hexec, List.append_cons]
      refine hfirst.snoc nofun ?_
      rintro u n res ⟨⟩
      refine .inl ⟨v, rfl, fun hmem => hnot ((h.lives t).joined ?_)⟩
      rw [Ledger.HasJoined]
      simpa [StackRecord.joinedLife] using hmem
    | freeStack t =>
      obtain ⟨hended, -, -⟩ := h.free_alone hc rfl rfl
      rw [records_freeStack s' hc]
      refine h.log.snoc ?_ nofun
      rintro u n ⟨⟩
      exact ⟨fun hfreed => ((h.lives t).freed hfreed).2.2.1 _ _ hc rfl, (h.lives t).exited hended⟩
    | _ =>
      rw [Ledger.records, hc]
      exact hnil
  | _ => exact hnil

/-- What an event does to a thread. -/
theorem LedgerInv.lives_step (h : LedgerInv s q) (henabled : Enabled s.state e)
    (hok : ¬ s.Disrupts e) (hexec : s.state.exec ticksPerSec e = some s')
    (h' : Lists s'.kernel.toThreads q') (t : Tid) :
    LifeInv ⟨s', s.lives e, s.log ++ s.records s' e⟩ q' t := by
  cases e with
  | call c =>
    cases c with
    | create object attr =>
      cases object with
      | none => exact h.life henabled hok hexec h' id rfl fun r hr => by cases hr
      | some u =>
        by_cases htu : t = u
        · subst htu
          have hlife : LifeInv ⟨s', _, s.log⟩ q' t := h.life_create hexec
          rwa [← List.append_nil s.log] at hlife
        · exact h.life henabled hok hexec h' htu (Function.update_of_ne htu _ _) nofun
    | exit retval =>
      by_cases ht : t = s.state.kernel.running
      · subst ht
        exact h.life_exit henabled hexec h'
      · refine h.life henabled hok hexec h' ht rfl fun r hr hmark => ?_
        obtain rfl := List.mem_singleton.mp hr
        cases hmark
        exact ht rfl
    | join u =>
      refine h.life henabled hok hexec h' id rfl fun r hr => ?_
      have hr : r ∈ s.joinRecord s' u := hr
      rcases Ledger.join_returned hok hexec with heq | heq
      · rw [heq] at hr
        cases hr
      · rw [heq] at hr
        obtain rfl := List.mem_singleton.mp hr
        intro hmark
        cases hmark
    | detach u =>
      exact h.life henabled hok hexec h' (fun hchange => hok hchange.2) rfl fun r hr => by cases hr
    | idle =>
      by_cases hhead : s.state.kernel.link (.head .detach) = some t
      · have hlife : LifeInv ⟨s', _, s.log⟩ q' t :=
          h.life_idle (henabled.2.2.2.2 rfl) hhead hexec
        rwa [← List.append_nil s.log] at hlife
      · exact h.life henabled hok hexec h' hhead rfl fun r hr => by cases hr
    | _ => exact h.life henabled hok hexec h' id rfl fun r hr => by cases hr
  | resume =>
    obtain ⟨c, r, hc, -⟩ := exec_resume_cases hexec
    cases c with
    | free u v =>
      have hrecords := Ledger.free_returned hc hexec
      by_cases htu : t = u
      · subst htu
        have hmem : ∀ x ∈ s.records s' .resume, x ∈ s.log ++ s.records s' .resume := fun x hx =>
          List.mem_append_right _ hx
        rw [hrecords] at hmem ⊢
        exact h.life_free hc rfl rfl henabled hexec h' (hmem _ (by simp))
          (fun _ hx => List.mem_append_left _ hx) fun _ => ⟨v, hmem _ (by simp)⟩
      · refine h.life henabled hok hexec h' id rfl fun x hx hmark => ?_
        rw [hrecords] at hx
        simp only [List.mem_cons, List.not_mem_nil, or_false] at hx
        rcases hx with rfl | rfl <;>
        · cases hmark
          exact htu rfl
    | freeStack u =>
      have hrecords := records_freeStack s' hc
      by_cases htu : t = u
      · subst htu
        rw [hrecords]
        have hdead := (h.sched.placed.freeStack _ t hc).2.2.1
        exact h.life_free hc rfl rfl henabled hexec h' (List.mem_append_right _ List.mem_cons_self)
          (fun _ hx => List.mem_append_left _ hx) fun hjoin => by cases hdead.symm.trans hjoin
      · refine h.life henabled hok hexec h' id rfl fun x hx hmark => ?_
        rw [hrecords] at hx
        obtain rfl := List.mem_singleton.mp hx
        cases hmark
        exact htu rfl
    | _ =>
      refine h.life henabled hok hexec h' id rfl ?_
      rw [Ledger.records, hc]
      intro r hr
      cases hr
  | _ => exact h.life henabled hok hexec h' id rfl fun r hr => by cases hr

/-- What is logged is about the threads that are there, or have been. -/
theorem LedgerInv.known_step (h : LedgerInv s q) (hok : ¬ s.Disrupts e)
    (hexec : s.state.exec ticksPerSec e = some s') {r : StackRecord}
    (hr : r ∈ s.log ++ s.records s' e) {n : ℕ} (hmark : r.mark = some (t, n)) :
    n ≤ s.lives e t := by
  have hle : s.life t ≤ s.lives e t := by
    cases e with
    | call c =>
      cases c with
      | create object attr =>
        cases object with
        | none => exact le_rfl
        | some u =>
          show s.life t ≤ Function.update s.life u (s.life u + 1) t
          by_cases htu : t = u
          · subst htu
            rw [Function.update_self]
            exact Nat.le_succ _
          · rw [Function.update_of_ne htu]
      | _ => exact le_rfl
    | _ => exact le_rfl
  refine Nat.le_trans ?_ hle
  rcases List.mem_append.mp hr with hr | hr
  · exact h.known r hr t n hmark
  · cases e with
    | call c =>
      cases c with
      | exit retval =>
        obtain rfl := List.mem_singleton.mp hr
        cases hmark
        exact le_rfl
      | join u =>
        have hr : r ∈ s.joinRecord s' u := hr
        rcases Ledger.join_returned hok hexec with heq | heq
        · rw [heq] at hr
          cases hr
        · rw [heq] at hr
          obtain rfl := List.mem_singleton.mp hr
          cases hmark
      | _ => cases hr
    | resume =>
      obtain ⟨c, r', hc, -⟩ := exec_resume_cases hexec
      cases c with
      | free u v =>
        rw [Ledger.free_returned hc hexec] at hr
        simp only [List.mem_cons, List.not_mem_nil, or_false] at hr
        rcases hr with rfl | rfl <;>
        · cases hmark
          exact le_rfl
      | freeStack u =>
        rw [records_freeStack s' hc] at hr
        obtain rfl := List.mem_singleton.mp hr
        cases hmark
        exact le_rfl
      | _ =>
        rw [Ledger.records, hc] at hr
        cases hr
    | _ => cases hr

end Invariant

/-! ## Runs -/

section Runs

variable {s s' : Ledger} {q : Anchor → List Tid} {e : Event} {ticksPerSec : ℕ} {es : List Event}

/-- **An event** that does not leave a stack to nobody, or to two threads. -/
theorem LedgerInv.step (h : LedgerInv s q) (henabled : Enabled s.state e) (hok : ¬ s.Disrupts e)
    (hexec : s.exec ticksPerSec e = some s') : ∃ q', LedgerInv s' q' := by
  obtain ⟨state, hstate, rfl⟩ := Option.map_eq_some_iff.mp hexec
  obtain ⟨q', hsched⟩ :=
    h.sched.exec henabled (fun hlate => hok (Ledger.disrupts_of_lateJoin hlate)) hstate
  exact ⟨q', hsched, fun r hr t n hmark => h.known_step hok hstate hr hmark,
    fun u v t hu hv => h.one_join_step henabled hok hstate hu hv,
    h.lives_step henabled hok hstate hsched.placed.lists, h.log_step henabled hok hstate⟩

theorem ledgerInv_init : LedgerInv Ledger.init initLists where
  sched := ⟨placed_init, List.mem_cons_self, fun _ => rfl⟩
  known := nofun
  one_join := nofun
  lives t := ⟨nofun, nofun, nofun, nofun, nofun⟩
  log := ⟨.nil, fun l l' t n heq => by simp [Ledger.init] at heq, .nil, nofun⟩

/-- What the invariant says about the claims on the calls. -/
theorem LedgerInv.reclaims (h : LedgerInv s q) : s.Reclaims := by
  have hlists := h.sched.placed.lists
  refine ⟨h.log.freed_once, h.log.freed_exited, fun t hfreed a => ?_, h.log.joined_once,
    h.log.joined_else, fun t hended hdetached => ?_⟩
  · obtain ⟨hended, hdetach, -⟩ := (h.lives t).freed hfreed
    have hlive : (s.state.kernel.waitstate t).live = false := by
      rcases WaitState.ended_iff.mp hended with hw | hw <;>
      · rw [hw]
        rfl
    rw [hlists.list_eq]
    exact h.sched.placed.off hlive hdetach a
  · rcases WaitState.ended_iff.mp hended with hw | hw
    · rw [(h.lives t).joinable hw] at hdetached
      cases hdetached
    · rw [hlists.list_eq]
      exact (h.lives t).dead hw

/-- **Stacks are reclaimed once.** In every run in which no thread that has ended is detached, or is
joined when it is or has been joined, and no thread joins itself. -/
theorem reclaimed (hpath : Runs.Path (Ledger.exec ticksPerSec)
    (fun s e => Enabled s.state e ∧ ¬ s.Disrupts e) Ledger.init es s) : s.Reclaims := by
  obtain ⟨q, h⟩ := hpath.invariant (I := fun s => ∃ q, LedgerInv s q) ⟨initLists, ledgerInv_init⟩
    fun _ _ _ ⟨_, h⟩ hok hexec => h.step hok.1 hok.2 hexec
  exact h.reclaims

/-- Thread 2 is joined; thread 3 is detached, and the idle thread frees it. -/
def joinAndDetach : List Event :=
  [.call (.create (some 2) joinable), .resume,
    .call (.create (some 3) { joinable with detached := true }), .resume, .call (.join 2),
    .call (.exit 5), .call (.exit 0), .resume, .resume, .call (.usleep 1000), .call .idle, .resume]

theorem reclaimed_both : ∃ s, Runs.Path (Ledger.exec 1000)
    (fun s e => Enabled s.state e ∧ ¬ s.Disrupts e) Ledger.init joinAndDetach s ∧ s.Reclaims ∧
      s.log = [.exited 2 1, .exited 3 1, .freed 2 1, .joined 2 1 (.retval 5), .freed 3 1] :=
  ⟨_, Runs.path_get (by decide), reclaimed (Runs.path_get (by decide)), by decide⟩

/-- Thread 2 ends, and is detached then. -/
def detachLate : List Event :=
  [.call (.create (some 2) urgent), .resume, .call (.exit 0), .resume, .call (.detach 2)]

theorem not_reclaimed : ¬ ∀ es s, Runs.Path (Ledger.exec 1000) (fun s e => Enabled s.state e)
    Ledger.init es s → s.Reclaims := by
  intro hclaim
  have hpath : Runs.Path (Ledger.exec 1000) (fun s e => Enabled s.state e) Ledger.init detachLate _ :=
    Runs.path_get (by decide)
  have hlost := (hclaim detachLate _ hpath).detached 2 (by decide) (by decide)
  revert hlost
  decide

end Runs

end OlivePiccolo.Tth
