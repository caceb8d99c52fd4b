import OlivePiccolo.TinyThreads.System
import OlivePiccolo.Tth.Structure

/-!
# Mutexes, semaphores and `sched_yield` alone

`TinyThreads` has only the calls on mutexes and semaphores and `sched_yield`, and works on lists.
This relates it to the whole kernel with its pointers: while no thread sleeps, each of these calls
does the same to the lists that the pointers represent (`Refines.call`), and so every run of the
whole kernel that goes on with these calls and with interrupts is one of `TinyThreads`
(`kernel_refines`).
-/

namespace OlivePiccolo.Tth

open Links Runs

/-! ## The abstraction -/

/-- The lists that `TinyThreads` has. -/
def anchorOf : TinyThreads.Anchor → Anchor
  | .ready => .ready
  | .mutex m => .mutex m
  | .sem s => .sem s

def waitstateOf : TinyThreads.WaitState → WaitState
  | .inval => .inval
  | .ready => .ready
  | .mutex => .mutex
  | .sem => .sem

/-- The wait states that `TinyThreads` does not have are `inval` there. -/
def WaitState.abstract : WaitState → TinyThreads.WaitState
  | .ready => .ready
  | .mutex => .mutex
  | .sem => .sem
  | _ => .inval

def resultOf : TinyThreads.Code → Result
  | .zero => .zero
  | .EPERM => .code .EPERM
  | .EAGAIN => .code .EAGAIN
  | .EBUSY => .code .EBUSY
  | .EDEADLK => .code .EDEADLK
  | .minusOne => .minusOne .EOVERFLOW

def Call.abstract : Call → Option TinyThreads.Call
  | .mutexLock m => some (.lock m)
  | .mutexTrylock m => some (.trylock m)
  | .mutexUnlock m => some (.unlock m)
  | .yield => some .yield
  | .semWait s => some (.semWait s)
  | .semTrywait s => some (.semTrywait s)
  | .semPost s => some (.semPost s)
  | _ => none

def Event.abstract : Event → Option TinyThreads.Event
  | .call c => c.abstract.map .call
  | .resume => some .finish
  | .intEnter => some .intEnter
  | .intPost s => some (.intPost s)
  | .intTick => some .intTick
  | .intExit => some .intExit
  | .release _ => none

/-- The events of `TinyThreads` that match one: a tick may not preempt. -/
def Matched (e : Event) (es : List TinyThreads.Event) : Prop :=
  es = e.abstract.toList ∨ e = .intTick ∧ es = []

/-- Where a thread goes on behind the switch of a call. -/
def contOf : TinyThreads.Call → Cont
  | .lock m => .relock m
  | _ => .returns .zero

/-- What becomes of a call; without a code, it is suspended. -/
def outcomeOf (c : TinyThreads.Call) : Option TinyThreads.Code → Outcome
  | none => .cont (contOf c)
  | some code => .result (resultOf code)

/-- The thread is behind the switch of a call that then locks a mutex or only returns 0. -/
def Cont.basic : Cont → Bool
  | .returns .zero | .relock _ => true
  | _ => false

/-- A call that goes on like this; of those that only return, `sched_yield` stands for all. -/
def Cont.abstract : Cont → TinyThreads.Call
  | .relock m => .lock m
  | _ => .yield

def Kernel.abstract (k : Kernel) : TinyThreads.Kernel where
  queue a := k.list (anchorOf a)
  running := k.running
  intLevel := k.intLevel
  schedpriority := k.schedpriority
  roundRobin := k.roundRobin
  waitstate t := (k.waitstate t).abstract
  owner := k.owner
  value := k.value

/-- Which mutexes the threads hold is not in the kernel. -/
def State.abstract (s : State) (holds : Tid → MutexId → Bool) : TinyThreads.State where
  kernel := s.kernel.abstract
  cont t := (s.cont t).map Cont.abstract
  holds := holds

/-- The pointers represent the lists, and no thread sleeps. -/
structure Refines (k : Kernel) (a : TinyThreads.Kernel) : Prop where
  lists : ∃ q, Lists k.toThreads q ∧ q .sleeping = []
  abstract : k.abstract = a

/-- The call `c` has had the same outcome. -/
structure Matches (c : TinyThreads.Call) (r : Kernel × Outcome)
    (r' : TinyThreads.Kernel × Option TinyThreads.Code) : Prop where
  kernel : Refines r.1 r'.1
  outcome : r.2 = outcomeOf c r'.2

/-- The states are related, and the scheduler of `TinyThreads` keeps its invariant. -/
structure Simulates (s : State) (a : TinyThreads.State) : Prop where
  kernel : Refines s.kernel a.kernel
  cont : ∀ t, s.cont t = (a.cont t).map contOf
  sched : TinyThreads.Sched tthIdleThread a.kernel

/-! ## Moves and switches -/

section Kernel

variable {k : Kernel} {a : TinyThreads.Kernel} {q : Anchor → List Tid}

theorem anchorOf_injective : Function.Injective anchorOf := by
  intro x y h
  cases x <;> cases y <;> cases h <;> rfl

theorem anchorOf_ne_sleeping (x : TinyThreads.Anchor) : anchorOf x ≠ .sleeping := by
  cases x <;> simp [anchorOf]

theorem abstract_waitstateOf (w : TinyThreads.WaitState) : (waitstateOf w).abstract = w := by
  cases w <;> rfl

theorem Lists.abstract_queue (h : Lists k.toThreads q) : k.abstract.queue = q ∘ anchorOf := by
  funext x
  exact h.list_eq _

theorem update_anchorOf (q : Anchor → List Tid) (x : TinyThreads.Anchor) (l : List Tid) :
    Function.update q (anchorOf x) l ∘ anchorOf = Function.update (q ∘ anchorOf) x l :=
  Function.update_comp_eq_of_injective q anchorOf_injective x l

/-- Behind all threads whose priority is not lower, a thread is in its place. -/
theorem insert_eq_insertBehind (k : Kernel) (t : Tid) (l : List Tid) :
    k.abstract.insert t l = insertBehind (k.notLower t) t l := by
  have htest : (fun u => decide ¬ k.schedpriority u < k.schedpriority t) = k.notLower t := by
    funext u
    simp only [Threads.notLower, Nat.not_lt]
  unfold TinyThreads.Kernel.insert
  rw [List.orderedInsert_eq_take_drop]
  exact congrArg (fun p => l.takeWhile p ++ t :: l.dropWhile p) htest

/-- A thread arrives on a list of `TinyThreads`. -/
theorem abstract_arrive {link : Memory Anchor Tid} {t : Tid} {rest : List Tid}
    {src dst : TinyThreads.Anchor} (w : TinyThreads.WaitState) (hlists : Lists k.toThreads q)
    (hq : q (anchorOf src) = t :: rest)
    (hlists' : Lists (k.arrive t (waitstateOf w) link)
      (Function.update (Function.update q (anchorOf src) rest) (anchorOf dst)
        (insertBehind (k.notLower t) t (Function.update q (anchorOf src) rest (anchorOf dst))))) :
    Kernel.abstract { k with toThreads := k.arrive t (waitstateOf w) link } =
      k.abstract.tthCsMove src dst w := by
  let k' : Kernel := { k with toThreads := k.arrive t (waitstateOf w) link }
  have hcons : k.abstract.queue src = t :: rest := by
    rw [hlists.abstract_queue]
    exact hq
  have hqueue : k'.abstract.queue = Function.update (Function.update k.abstract.queue src rest) dst
      (k.abstract.insert t (Function.update k.abstract.queue src rest dst)) := by
    rw [insert_eq_insertBehind, hlists.abstract_queue, ← update_anchorOf]
    exact (Lists.abstract_queue (k := k') hlists').trans (update_anchorOf _ dst _)
  have hwait : k'.abstract.waitstate = Function.update k.abstract.waitstate t w := by
    funext u
    by_cases hu : u = t
    · subst hu
      simp [k', Kernel.abstract, Threads.arrive, abstract_waitstateOf]
    · simp [k', Kernel.abstract, Threads.arrive, hu]
  calc k'.abstract = { k.abstract with
          queue := k'.abstract.queue, waitstate := k'.abstract.waitstate } := rfl
    _ = k.abstract.tthCsMove src dst w := by
        rw [hqueue, hwait]
        simp only [TinyThreads.Kernel.tthCsMove, hcons]

/-- `tth_cs_move` does the same to the lists. -/
theorem Refines.move (h : Refines k a) (src dst : TinyThreads.Anchor)
    (w : TinyThreads.WaitState) :
    ∃ k', k.tthCsMove (anchorOf src) (some (anchorOf dst)) (waitstateOf w) = some k' ∧
      Refines k' (a.tthCsMove src dst w) := by
  obtain ⟨⟨q, hlists, hawake⟩, rfl⟩ := h
  cases hq : q (anchorOf src) with
  | nil =>
    have hnil : k.abstract.queue src = [] := by
      rw [hlists.abstract_queue]
      exact hq
    rw [TinyThreads.Kernel.tthCsMove_nil dst w hnil]
    exact ⟨k, tthCsMove_eq (hlists.move_nil hq _ _), ⟨q, hlists, hawake⟩, rfl⟩
  | cons t rest =>
    obtain ⟨link, hmove, hlists'⟩ := hlists.move_lists hq (anchorOf dst) (waitstateOf w)
    refine ⟨_, tthCsMove_eq hmove, ⟨_, hlists', ?_⟩, abstract_arrive w hlists hq hlists'⟩
    rw [Function.update_of_ne (anchorOf_ne_sleeping dst).symm,
      Function.update_of_ne (anchorOf_ne_sleeping src).symm, hawake]

theorem Refines.head (h : Refines k a) (x : TinyThreads.Anchor) :
    k.link (.head (anchorOf x)) = (a.queue x).head? := by
  obtain ⟨⟨q, hlists, -⟩, rfl⟩ := h
  rw [hlists.abstract_queue, hlists.links.head_eq]
  rfl

theorem Refines.running (h : Refines k a) : k.running = a.running :=
  congrArg TinyThreads.Kernel.running h.abstract

theorem Refines.intLevel (h : Refines k a) : k.intLevel = a.intLevel :=
  congrArg TinyThreads.Kernel.intLevel h.abstract

theorem Refines.owner (h : Refines k a) : k.owner = a.owner :=
  congrArg TinyThreads.Kernel.owner h.abstract

theorem Refines.value (h : Refines k a) : k.value = a.value :=
  congrArg TinyThreads.Kernel.value h.abstract

theorem Refines.needsSwitch (h : Refines k a) : k.needsSwitch = a.needsSwitch := by
  have hhead : k.link (.head .ready) = (a.queue .ready).head? := h.head .ready
  rw [Kernel.needsSwitch, TinyThreads.Kernel.needsSwitch, hhead, h.intLevel, h.running]

theorem Refines.execSwitch (h : Refines k a) : Refines k.execSwitch a.execSwitch := by
  have hhead : k.link (.head .ready) = (a.queue .ready).head? := h.head .ready
  refine ⟨h.lists, ?_⟩
  rw [Kernel.execSwitch, TinyThreads.Kernel.execSwitch, hhead, ← List.headD_eq_head?_getD]
  obtain ⟨-, rfl⟩ := h
  rfl

theorem Refines.tthCsSwitch (h : Refines k a) : Refines k.tthCsSwitch a.tthCsSwitch := by
  rw [Kernel.tthCsSwitch, TinyThreads.Kernel.tthCsSwitch, h.needsSwitch]
  split_ifs
  · exact h.execSwitch
  · exact h

/-- A switch as the last statement but the return. -/
theorem Refines.switchThen (h : Refines k a) {c : TinyThreads.Call}
    (hc : contOf c = .returns .zero) : Matches c (k.switchThen .zero) (a.switchThen .zero) := by
  rw [Kernel.switchThen, TinyThreads.Kernel.switchThen, TinyThreads.Kernel.tthCsSwitch,
    h.needsSwitch]
  split_ifs
  · exact ⟨h.execSwitch, by rw [outcomeOf, hc]⟩
  · exact ⟨h, rfl⟩

/-- A call that moves a thread, switches and returns. -/
theorem Refines.move_then (h : Refines k a) {c : TinyThreads.Call} (hc : contOf c = .returns .zero)
    (src dst : TinyThreads.Anchor) (w : TinyThreads.WaitState) :
    ∃ r, (k.tthCsMove (anchorOf src) (some (anchorOf dst)) (waitstateOf w)).map
        (fun k => k.switchThen .zero) = some r ∧
      Matches c r ((a.tthCsMove src dst w).switchThen .zero) := by
  obtain ⟨k', hmove, hk'⟩ := h.move src dst w
  exact ⟨_, by rw [hmove, Option.map_some], hk'.switchThen hc⟩

theorem Refines.takeMutex (h : Refines k a) (m : MutexId) :
    Refines (k.takeMutex m) (a.takeMutex m) :=
  ⟨h.lists, congrArg (fun a => a.takeMutex m) h.abstract⟩

theorem Refines.dropMutex (h : Refines k a) (m : MutexId) :
    Refines (k.dropMutex m) (a.dropMutex m) :=
  ⟨h.lists, congrArg (fun a => a.dropMutex m) h.abstract⟩

theorem Refines.setValue (h : Refines k a) (value : SemId → ℕ) :
    Refines { k with value := value } { a with value := value } :=
  ⟨h.lists, congrArg (fun a => { a with value := value }) h.abstract⟩

theorem Refines.setLevel (h : Refines k a) (level : ℕ) :
    Refines { k with intLevel := level } { a with intLevel := level } :=
  ⟨h.lists, congrArg (fun a => { a with intLevel := level }) h.abstract⟩

/-! ## Calls -/

/-- `tth_cs_mutex_lock`. A switch is due when it waits: the running thread was the first one. -/
theorem Refines.tthCsMutexLock (h : Refines k a) (hsched : TinyThreads.Sched tthIdleThread a)
    (h0 : a.intLevel = 0) (m : MutexId) {c : TinyThreads.Call} {wait : Bool}
    (hc : wait = true → c = .lock m) :
    ∃ r, k.tthCsMutexLock m wait = some r ∧ Matches c r (a.tthCsMutexLock m wait) := by
  unfold Kernel.tthCsMutexLock TinyThreads.Kernel.tthCsMutexLock
  rw [h.owner, h.running]
  split_ifs with hself hsome hwait
  · exact ⟨_, rfl, h, rfl⟩
  · obtain ⟨k', hmove, hk'⟩ := h.move .ready (.mutex m) .mutex
    have hne : TinyThreads.Anchor.mutex m ≠ .ready := by simp
    have hswitch := hsched.needsSwitch_move_away h0 hne .mutex
    obtain rfl := hc hwait
    refine ⟨(k'.tthCsSwitch, .cont (.relock m)), ?_, ?_⟩
    · exact (congrArg (Option.map _) hmove).trans (Option.map_some ..)
    · rw [Kernel.tthCsSwitch, hk'.needsSwitch, if_pos hswitch, if_pos hswitch]
      exact ⟨hk'.execSwitch, rfl⟩
  · exact ⟨_, rfl, h, rfl⟩
  · exact ⟨_, rfl, h.takeMutex m, rfl⟩

theorem Refines.pthreadMutexUnlock (h : Refines k a) (m : MutexId) :
    ∃ r, k.pthreadMutexUnlock m = some r ∧ Matches (.unlock m) r (a.pthreadMutexUnlock m) := by
  unfold Kernel.pthreadMutexUnlock TinyThreads.Kernel.pthreadMutexUnlock Kernel.tthCsMutexUnlock
    TinyThreads.Kernel.tthCsMutexUnlock
  rw [h.owner, h.running]
  split_ifs
  · exact ⟨_, rfl, h, rfl⟩
  · obtain ⟨k', hmove, hk'⟩ := (h.dropMutex m).move (.mutex m) .ready .ready
    refine ⟨k'.switchThen .zero, ?_, hk'.switchThen rfl⟩
    rw [show (k.dropMutex m).tthCsMove (.mutex m) (some .ready) .ready = some k' from hmove]
    rfl

theorem Refines.schedYield (h : Refines k a) :
    ∃ r, k.schedYield = some r ∧ Matches .yield r a.schedYield :=
  h.move_then rfl .ready .ready .ready

theorem Refines.semWait (h : Refines k a) (s : SemId) :
    ∃ r, k.semWait s = some r ∧ Matches (.semWait s) r (a.semWait s) := by
  unfold Kernel.semWait TinyThreads.Kernel.semWait
  rw [h.value]
  split_ifs
  · exact ⟨_, rfl, h.setValue _, rfl⟩
  · exact h.move_then rfl .ready (.sem s) .sem

theorem Refines.semTrywait (h : Refines k a) (s : SemId) :
    Matches (.semTrywait s) (k.semTrywait s) (a.semTrywait s) := by
  unfold Kernel.semTrywait TinyThreads.Kernel.semTrywait
  rw [h.value]
  split_ifs
  · exact ⟨h.setValue _, rfl⟩
  · exact ⟨h, rfl⟩

theorem Refines.semPost (h : Refines k a) (s : SemId) :
    ∃ r, k.semPost s = some r ∧ Matches (.semPost s) r (a.semPost s) := by
  have hhead : k.link (.head (.sem s)) = (a.queue (.sem s)).head? := h.head (.sem s)
  have hwaiter : (k.link (.head (.sem s))).isSome = true ↔ a.queue (.sem s) ≠ [] := by
    rw [hhead, List.isSome_head?]
  have hmax : semValueMax = TinyThreads.semValueMax := rfl
  unfold Kernel.semPost TinyThreads.Kernel.semPost
  rw [h.value, hmax, if_congr hwaiter rfl rfl]
  split_ifs
  · exact h.move_then rfl (.sem s) .ready .ready
  · exact ⟨_, rfl, h, rfl⟩
  · exact ⟨_, rfl, h.setValue _, rfl⟩

/-- Each call does the same to the lists, and has the same outcome. -/
theorem Refines.call (h : Refines k a) (hsched : TinyThreads.Sched tthIdleThread a)
    (h0 : a.intLevel = 0) {c : Call} {c' : TinyThreads.Call} (hc : c.abstract = some c') :
    ∃ r, k.call c = some r ∧ Matches c' r (a.begin c') := by
  cases c with
  | mutexLock m =>
    cases hc
    exact h.tthCsMutexLock hsched h0 m fun _ => rfl
  | mutexTrylock m =>
    cases hc
    exact h.tthCsMutexLock hsched h0 m nofun
  | mutexUnlock m =>
    cases hc
    exact h.pthreadMutexUnlock m
  | yield =>
    cases hc
    exact h.schedYield
  | semWait s =>
    cases hc
    exact h.semWait s
  | semTrywait s =>
    cases hc
    exact ⟨_, rfl, h.semTrywait s⟩
  | semPost s =>
    cases hc
    exact h.semPost s
  | _ => cases hc

/-- What is left of a call behind its switch. -/
theorem Refines.resume (h : Refines k a) (c : TinyThreads.Call) :
    ∃ k', k.resume (contOf c) = some (k', .result .zero) ∧ Refines k' (a.finish c) := by
  cases c with
  | lock m => exact ⟨_, rfl, h.takeMutex m⟩
  | trylock | unlock | yield | semWait | semTrywait | semPost => exact ⟨k, rfl, h⟩

/-! ## Interrupts -/

/-- Other variables of the kernel are not in `TinyThreads`. -/
theorem Refines.setTime (h : Refines k a) (time : BitVec 32) (preemptionUs : ℤ) :
    Refines { k with time := time, preemptionUs := preemptionUs } a := ⟨h.lists, h.abstract⟩

/-- Nobody is woken by a tick. -/
theorem Refines.tthSleepTick (h : Refines k a) (usPerTick : ℕ) :
    ∃ k', k.tthSleepTick usPerTick = some k' ∧ Refines k' a := by
  obtain ⟨q, hlists, hawake⟩ := h.lists
  have hhead : k.link (.head .sleeping) = none := by rw [hlists.links.head_eq, hawake]; rfl
  refine ⟨_, ?_, h.setTime (k.time + BitVec.ofNat 32 usPerTick) k.preemptionUs⟩
  unfold Kernel.tthSleepTick Threads.fuel Kernel.moveWhile
  rw [hhead]

/-- Preemption is a tick of `TinyThreads`, when its interval is over. -/
theorem Refines.preempt (h : Refines k a) (usPerTick : ℕ) :
    ∃ k', State.preempt k usPerTick = some k' ∧
      (Refines k' a ∨ Refines k' (TinyThreads.State.tick a)) := by
  have hrun : k.roundRobin k.running = a.roundRobin a.running := by
    rw [← h.abstract]
    rfl
  unfold State.preempt TinyThreads.State.tick
  dsimp only
  rw [hrun]
  split
  · exact ⟨_, rfl, .inl (h.setTime k.time _)⟩
  · split_ifs
    · obtain ⟨r, hyield, hr⟩ := (h.setTime k.time
        ((k.preemptionUs + usPerTick).bmod (2 ^ 32) - preemptionInterval * 1000)).schedYield
      exact ⟨r.1, (congrArg (Option.map Prod.fst) hyield).trans (Option.map_some ..),
        .inr hr.kernel⟩
    · exact ⟨_, rfl, .inl (h.setTime k.time _)⟩

theorem Refines.tthIntTick (h : Refines k a) (ticksPerSec : ℕ) :
    ∃ k', State.tthIntTick k ticksPerSec = some k' ∧
      (Refines k' a ∨ Refines k' (TinyThreads.State.tick a)) := by
  obtain ⟨k₁, hsleep, h₁⟩ := h.tthSleepTick (1000000 / ticksPerSec)
  obtain ⟨k₂, hpreempt, h₂⟩ := h₁.preempt (1000000 / ticksPerSec)
  refine ⟨k₂, ?_, h₂⟩
  rw [State.tthIntTick, hsleep, Option.bind_some, hpreempt]

end Kernel

/-! ## Steps -/

section Steps

variable {s s' : State} {a : TinyThreads.State} {c : Call} {c' : TinyThreads.Call}

/-- The calls of `TinyThreads` do not start threads. -/
theorem started_of_abstract (hc : c.abstract = some c') (cont : Tid → Option Cont) :
    State.started cont c = cont := by
  cases c <;> first | rfl | cases hc

/-- A thread goes on where its call does. -/
theorem Simulates.update_cont (h : Simulates s a) (t : Tid) (o : Option TinyThreads.Call) :
    ∀ u, Function.update s.cont t (o.map contOf) u =
      (Function.update a.cont t o u).map contOf := by
  intro u
  by_cases hu : u = t
  · subst hu
    rw [Function.update_self, Function.update_self]
  · rw [Function.update_of_ne hu, Function.update_of_ne hu]
    exact h.cont u

theorem Simulates.makeCall (h : Simulates s a) (hnone : a.cont a.kernel.running = none)
    {r : Kernel × Outcome} (hr : Matches c' r (a.kernel.begin c'))
    (hsched : TinyThreads.Sched tthIdleThread (a.makeCall c').kernel) :
    Simulates (s.settle s.kernel.running r) (a.makeCall c') := by
  obtain ⟨k, o⟩ := r
  obtain ⟨hk, ho⟩ := hr
  unfold TinyThreads.State.makeCall at hsched ⊢
  rcases hb : a.kernel.begin c' with ⟨k', _ | code⟩
  · rw [hb] at hk ho hsched
    obtain rfl : o = .cont (contOf c') := ho
    refine ⟨hk, fun u => ?_, hsched⟩
    rw [h.kernel.running]
    exact h.update_cont _ (some c') u
  · rw [hb] at hk ho hsched
    obtain rfl : o = .result (resultOf code) := ho
    refine ⟨hk, fun u => ?_, hsched⟩
    have hsame : Function.update a.cont a.kernel.running none = a.cont := by
      rw [← hnone, Function.update_eq_self]
    rw [h.kernel.running]
    exact (h.update_cont a.kernel.running none u).trans (by rw [hsame])

theorem Simulates.cont_none (h : Simulates s a) (hnone : s.cont s.kernel.running = none) :
    a.cont a.kernel.running = none := by
  rw [h.cont, Option.map_eq_none_iff, h.kernel.running] at hnone
  exact hnone

/-- The event happens in `TinyThreads`, and leads to a related state. -/
def Follows (a : TinyThreads.State) (e : Event) (s' : State) : Prop :=
  ∃ es b, Matched e es ∧ Path (TinyThreads.State.step tthIdleThread) anyStep a es b ∧
    Simulates s' b

theorem follows_single {e : Event} {e' : TinyThreads.Event} {b : TinyThreads.State}
    (he : e.abstract = some e') (hstep : a.step tthIdleThread e' = some b)
    (hb : Simulates s' b) : Follows a e s' :=
  ⟨[e'], b, .inl (by rw [he]; rfl), Path.single trivial hstep, hb⟩

/-- An interrupt does something with the kernel. -/
theorem Simulates.interrupt (h : Simulates s a) {k : Kernel} {b : TinyThreads.Kernel}
    {e : Event} {e' : TinyThreads.Event} (he : e.abstract = some e') (hk : Refines k b)
    (hstep : a.step tthIdleThread e' = some { a with kernel := b }) :
    Follows a e { s with kernel := k } :=
  follows_single he hstep ⟨hk, h.cont, TinyThreads.sched_step h.sched hstep⟩

theorem Simulates.call (h : Simulates s a) (hc : c.abstract = some c')
    (henabled : Enabled s (.call c)) (hcall : s.makeCall c = some s') :
    Follows a (.call c) s' := by
  obtain ⟨h0, hnone, -, hidle, -⟩ := henabled
  have h0' : a.kernel.intLevel = 0 := h.kernel.intLevel ▸ h0
  have hnone' := h.cont_none hnone
  have hidle' : a.kernel.running = tthIdleThread → c' = .yield := by
    intro hrun
    rw [← h.kernel.running] at hrun
    rcases hidle hrun with rfl | rfl
    · exact (Option.some.inj hc).symm
    · cases hc
  obtain ⟨r, hr, hmatches⟩ := h.kernel.call h.sched h0' hc
  have hstep : a.step tthIdleThread (.call c') = some (a.makeCall c') :=
    if_pos ⟨h0', hnone', hidle'⟩
  rw [State.makeCall, started_of_abstract hc, hr, Option.map_some, Option.some.injEq] at hcall
  subst hcall
  exact follows_single (congrArg (Option.map TinyThreads.Event.call) hc) hstep
    (h.makeCall hnone' hmatches (TinyThreads.sched_step h.sched hstep))

theorem Simulates.resume (h : Simulates s a) (h0 : s.kernel.intLevel = 0)
    (hresume : s.resume = some s') : Follows a .resume s' := by
  have h0' : a.kernel.intLevel = 0 := h.kernel.intLevel ▸ h0
  obtain ⟨d, hd, hresume⟩ := Option.bind_eq_some_iff.mp hresume
  rw [h.cont, h.kernel.running] at hd
  obtain ⟨c, hc, rfl⟩ := Option.map_eq_some_iff.mp hd
  obtain ⟨k', hk, hrefines⟩ := h.kernel.resume c
  have hstep : a.step tthIdleThread .finish = some (a.finishCall c) := by
    simp only [TinyThreads.State.step, if_pos h0', hc, Option.map_some]
  rw [hk, Option.map_some, Option.some.injEq] at hresume
  subst hresume
  refine follows_single rfl hstep
    ⟨hrefines, fun u => ?_, TinyThreads.sched_step h.sched hstep⟩
  rw [h.kernel.running]
  exact h.update_cont _ none u

/-- Every step with an event of `TinyThreads` is one of it, but for a tick that does not preempt. -/
theorem Simulates.step (h : Simulates s a) {ticksPerSec : ℕ} {e : Event}
    (he : e.abstract.isSome = true) (henabled : Enabled s e)
    (hexec : s.exec ticksPerSec e = some s') : Follows a e s' := by
  cases e with
  | call c =>
    obtain ⟨e', he'⟩ := Option.isSome_iff_exists.mp he
    obtain ⟨c', hc, -⟩ := Option.map_eq_some_iff.mp he'
    exact h.call hc henabled hexec
  | resume => exact h.resume henabled.1 hexec
  | intEnter =>
    obtain ⟨k, hk, rfl⟩ := Option.map_eq_some_iff.mp hexec
    rw [State.tthIntEnter, Option.ite_none_right_eq_some, Option.some.injEq] at hk
    obtain ⟨-, rfl⟩ := hk
    have hnone : a.cont a.kernel.running = none := by
      cases hc : a.cont a.kernel.running with
      | none => rfl
      | some c =>
        -- every place that is related to one of `TinyThreads` is inside a critical section
        have henabled : (s.cont s.kernel.running).any Cont.inside = false := henabled
        rw [h.cont, h.kernel.running, hc] at henabled
        cases c <;> cases henabled
    refine h.interrupt rfl (h.kernel.setLevel (s.kernel.intLevel + 1)) ?_
    rw [h.kernel.intLevel]
    exact if_pos hnone
  | intPost sem =>
    have hlevel : 0 < a.kernel.intLevel := h.kernel.intLevel ▸ henabled
    obtain ⟨r, hr, hexec⟩ := Option.map_eq_some_iff.mp hexec
    obtain ⟨r', hr', hmatches⟩ := h.kernel.semPost sem
    cases hr.symm.trans hr'
    subst hexec
    exact h.interrupt rfl hmatches.kernel (if_pos hlevel)
  | intTick =>
    have hlevel : 0 < a.kernel.intLevel := h.kernel.intLevel ▸ henabled
    obtain ⟨k, hk, rfl⟩ := Option.map_eq_some_iff.mp hexec
    obtain ⟨k', hk', hsame | htick⟩ := h.kernel.tthIntTick ticksPerSec
    · cases hk.symm.trans hk'
      exact ⟨[], a, .inr ⟨rfl, rfl⟩, .nil, hsame, h.cont, h.sched⟩
    · cases hk.symm.trans hk'
      exact h.interrupt rfl htick (if_pos hlevel)
  | intExit =>
    have hlevel : 0 < a.kernel.intLevel := h.kernel.intLevel ▸ henabled
    obtain ⟨k, hk, rfl⟩ := Option.map_eq_some_iff.mp hexec
    rw [State.tthIntExit, Option.ite_none_left_eq_some, Option.some.injEq] at hk
    obtain ⟨-, rfl⟩ := hk
    refine h.interrupt rfl (h.kernel.setLevel (s.kernel.intLevel - 1)).tthCsSwitch ?_
    rw [h.kernel.intLevel]
    exact if_pos hlevel
  | release t => cases he

end Steps

/-! ## Runs -/

/-- In a state of the whole kernel, the lists of `TinyThreads` keep its invariant. -/
theorem Scheduled.sched {k : Kernel} {cont : Tid → Option Cont} {q : Anchor → List Tid}
    (h : Scheduled k cont q) : TinyThreads.Sched tthIdleThread k.abstract := by
  have hqueue := h.placed.lists.abstract_queue
  refine ⟨⟨fun x => ?_, fun x y t hx hy => ?_⟩, ?_, fun h0 => ?_⟩
  · rw [hqueue]
    exact h.placed.lists.links.nodup _
  · rw [hqueue] at hx hy
    exact anchorOf_injective (h.placed.lists.links.disjoint _ _ t hx hy)
  · rw [hqueue]
    exact h.placed.idle_ready
  · rw [hqueue]
    exact h.head h0

/-- A state of the whole kernel, in which no thread sleeps and every thread is at a place that
`TinyThreads` has. -/
theorem Inv.simulates {s : State} (h : Inv s) (hawake : s.kernel.link (.head .sleeping) = none)
    (hbasic : ∀ t ∈ s.kernel.objects, (s.cont t).all Cont.basic = true)
    (holds : Tid → MutexId → Bool) : Simulates s (s.abstract holds) := by
  obtain ⟨q, h⟩ := h
  refine ⟨⟨⟨q, h.placed.lists, ?_⟩, rfl⟩, fun t => ?_, h.sched⟩
  · rw [h.placed.lists.links.head_eq] at hawake
    exact List.head?_eq_none_iff.mp hawake
  · show s.cont t = ((s.cont t).map Cont.abstract).map contOf
    cases hc : s.cont t with
    | none => rfl
    | some d =>
      have hd := hbasic t (h.placed.cont_live t (by rw [hc]; rfl)).1
      rw [hc] at hd
      cases d with
      | returns r =>
        cases r with
        | zero => rfl
        | code | minusOne | retval | value => cases hd
      | relock m => rfl
      | condWait | join | free | insert | freeStack => cases hd

/-- **Refinement.** From every state that the whole kernel reaches without a late join, in which no
thread sleeps and every thread is outside of the calls or has only to lock a mutex or to return 0,
every further run with the events that `TinyThreads` has is one of `TinyThreads`, event by event, but
for ticks that do not preempt. -/
theorem kernel_refines {ticksPerSec : ℕ} {s t : State} {es fs : List Event}
    (hreach : Path (State.exec ticksPerSec) (fun s e => Enabled s e ∧ ¬ LateJoin s e) State.init
      es s)
    (hawake : s.kernel.link (.head .sleeping) = none)
    (hbasic : ∀ t ∈ s.kernel.objects, (s.cont t).all Cont.basic = true)
    (hrun : Path (State.exec ticksPerSec) (fun s e => Enabled s e ∧ e.abstract.isSome = true) s
      fs t)
    (holds : Tid → MutexId → Bool) :
    ∃ gss b, List.Forall₂ Matched fs gss ∧
      Path (TinyThreads.State.step tthIdleThread) anyStep (s.abstract holds) gss.flatten b ∧
        Simulates t b :=
  hrun.simulated ((inv_init.path hreach).simulates hawake hbasic holds)
    fun _ _ _ _ h hok hexec => h.step hok.2 hok.1 hexec

/-- Thread 2 is created. -/
def creation : List Event := [.call (.create (some 2) joinable), .resume]

/-- The default thread locks a mutex and is preempted; thread 2 waits for the mutex, an interrupt
posts a semaphore, and the default thread unlocks the mutex and yields to thread 2, which then has
it. -/
def handOver : List Event :=
  [.call (.mutexLock 0), .intEnter, .intTick, .intExit, .call (.mutexLock 0), .intEnter,
    .intPost 5, .intExit, .call (.mutexUnlock 0), .call .yield, .resume]

theorem kernel_refines_handOver : ∃ s t gss b,
    Path (State.exec 100) (fun s e => Enabled s e ∧ ¬ LateJoin s e) State.init creation s ∧
      Path (State.exec 100) (fun s e => Enabled s e ∧ e.abstract.isSome = true) s handOver t ∧
        List.Forall₂ Matched handOver gss ∧
          Path (TinyThreads.State.step tthIdleThread) anyStep (s.abstract fun _ _ => false)
            gss.flatten b ∧
            Simulates t b ∧ t.kernel.owner 0 = some 2 := by
  have hreach : Path (State.exec 100) (fun s e => Enabled s e ∧ ¬ LateJoin s e) State.init creation
      ((exec (State.exec 100) (fun s e => Enabled s e ∧ ¬ LateJoin s e) State.init creation).get
        (by decide)) := path_get (by decide)
  have hrun : Path (State.exec 100) (fun s e => Enabled s e ∧ e.abstract.isSome = true)
      ((exec (State.exec 100) (fun s e => Enabled s e ∧ ¬ LateJoin s e) State.init creation).get
        (by decide)) handOver _ := path_get (by decide)
  obtain ⟨gss, b, hmatched, hpath, hsim⟩ :=
    kernel_refines hreach (by decide) (by decide) hrun fun _ _ => false
  exact ⟨_, _, gss, b, hreach, hrun, hmatched, hpath, hsim, by decide⟩

end OlivePiccolo.Tth
