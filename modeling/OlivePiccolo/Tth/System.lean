import OlivePiccolo.Library.Runs
import OlivePiccolo.Tth.Calls

/-!
# Threads and interrupts

A state is the kernel, and where each thread goes on. The running thread makes a call, or goes on with
one; interrupts come in between, when the running thread is outside of a critical section. A run is
any sequence of such events.
-/

namespace OlivePiccolo.Tth

open Links

/-- `tth_idle_thread`. -/
def tthIdleThread : Tid := 0

/-- `tth_default_thread`. -/
def tthDefaultThread : Tid := 1

/-- `TTHREAD_PREEMPTION_INTERVAL`, in milliseconds. -/
def preemptionInterval : ℤ := 10

structure State where
  kernel : Kernel
  /-- Where a thread goes on, `none` if it is not in a call. -/
  cont : Tid → Option Cont
  /-- What the last call of a thread has returned. -/
  result : Tid → Option Result

/-- What can happen next. -/
inductive Event
  | call (c : Call)
  | resume
  | intEnter
  | intPost (s : SemId)
  | intTick
  | intExit
  /-- The memory of a stack that was not allocated by `pthread_create` may be used again. -/
  | release (t : Tid)
  deriving DecidableEq, Repr

/-- The state after `tth_initialize`. -/
def Kernel.init : Kernel where
  link
    | .head .ready => some tthDefaultThread
    | .follower t => if t = tthDefaultThread then some tthIdleThread else none
    | _ => none
  detached t := t = tthIdleThread
  schedpriority t := if t = tthIdleThread then 0 else 10
  waitstate _ := .zero
  autostack _ := false
  objects := [tthDefaultThread, tthIdleThread]
  arrivals := 2
  arrived t := if t = tthIdleThread then 1 else 0
  roundRobin t := t = tthDefaultThread
  shared _ := 0
  running := tthDefaultThread
  intLevel := 0
  time := 0
  preemptionUs := 0
  owner _ := none
  value _ := 0

namespace State

def init : State where
  kernel := Kernel.init
  cont _ := none
  result _ := none

/-! ## The code -/

/-- What becomes of the call of the thread `t`. -/
def settle (s : State) (t : Tid) (r : Kernel × Outcome) : State :=
  match r.2 with
  | .result result =>
    { kernel := r.1
      cont := Function.update s.cont t none
      result := Function.update s.result t (some result) }
  | .cont c =>
    { kernel := r.1
      cont := Function.update s.cont t (some c)
      result := Function.update s.result t none }
  | .gone =>
    { kernel := r.1
      cont := Function.update s.cont t none
      result := Function.update s.result t none }

/-- A new thread is not in a call. -/
def started (cont : Tid → Option Cont) : Call → Tid → Option Cont
  | .create (some object) _ => Function.update cont object none
  | _ => cont

/-- The running thread makes a call. -/
def makeCall (s : State) (c : Call) : Option State :=
  (s.kernel.call c).map ({ s with cont := started s.cont c }.settle s.kernel.running)

/-- The running thread goes on with its call. -/
def resume (s : State) : Option State :=
  (s.cont s.kernel.running).bind fun c =>
    (s.kernel.resume c).map (s.settle s.kernel.running)

/-- `tth_int_enter`. -/
def tthIntEnter (k : Kernel) : Option Kernel :=
  if k.intLevel + 1 < 2 ^ 31 then some { k with intLevel := k.intLevel + 1 } else none

/-- `tth_int_exit`. -/
def tthIntExit (k : Kernel) : Option Kernel :=
  if k.intLevel = 0 then none else some { k with intLevel := k.intLevel - 1 }.tthCsSwitch

/-- The end of `tth_int_tick`: preemption, when its interval is over. -/
def preempt (k : Kernel) (usPerTick : ℕ) : Option Kernel :=
  let k := { k with preemptionUs := (k.preemptionUs + usPerTick).bmod (2 ^ 32) }
  if k.preemptionUs < preemptionInterval * 1000 then some k
  else
    let k := { k with preemptionUs := k.preemptionUs - preemptionInterval * 1000 }
    if k.roundRobin k.running then k.schedYield.map Prod.fst else some k

/-- `tth_int_tick`. -/
def tthIntTick (k : Kernel) (ticksPerSec : ℕ) : Option Kernel :=
  (k.tthSleepTick (1000000 / ticksPerSec)).bind fun k => preempt k (1000000 / ticksPerSec)

/-- What an event does; nothing is the next state if it does not end, crashes the system or uses
memory that is not in use. -/
def exec (ticksPerSec : ℕ) (s : State) : Event → Option State
  | .call c => s.makeCall c
  | .resume => s.resume
  | .intEnter => (tthIntEnter s.kernel).map fun k => { s with kernel := k }
  | .intPost sem => (s.kernel.semPost sem).map fun r => { s with kernel := r.1 }
  | .intTick => (tthIntTick s.kernel ticksPerSec).map fun k => { s with kernel := k }
  | .intExit => (tthIntExit s.kernel).map fun k => { s with kernel := k }
  | .release t =>
    some { s with kernel.toThreads.objects := s.kernel.objects.filter (· ≠ t) }

end State

/-! ## What can happen -/

/-- What a caller has to see to: the memory of a new thread is not in use, and its priority is in
range; a thread that is joined or detached is there; an object is not initialised while threads wait
for it. -/
def Call.Valid (k : Kernel) : Call → Prop
  | .create (some object) attr =>
    object ∉ k.objects ∧ 1 ≤ attr.schedpriority ∧ attr.schedpriority ≤ 99
  | .join target | .detach target => target ∈ k.objects
  | .semInit s _ _ => k.link (.head (.sem s)) = none
  | .mutexInit m => k.link (.head (.mutex m)) = none
  | .condInit c => k.link (.head (.cond c)) = none
  | _ => True

instance (k : Kernel) : (c : Call) → Decidable (c.Valid k)
  | .create (some _) _ => inferInstanceAs (Decidable (_ ∧ _ ∧ _))
  | .join _ | .detach _ => inferInstanceAs (Decidable (_ ∈ _))
  | .semInit _ _ _ | .mutexInit _ | .condInit _ => inferInstanceAs (Decidable (_ = none))
  | .create none _ | .exit _ | .yield | .usleep _ | .semDestroy _ | .semGetvalue _ | .semPost _
  | .semWait _ | .semTrywait _ | .mutexDestroy _ | .mutexLock _ | .mutexTrylock _
  | .mutexUnlock _ | .condDestroy _ | .condBroadcast _ | .condSignal _ | .condWait _ _ | .idle =>
    .isTrue trivial

/-- The thread whose object is still to be used. -/
def Cont.uses : Cont → Option Tid
  | .join t | .free t _ | .insert t | .freeStack t => some t
  | _ => none

/-- The events that can happen. The idle thread only yields and reclaims. -/
def Enabled (s : State) : Event → Prop
  | .call c =>
    s.kernel.intLevel = 0 ∧ s.cont s.kernel.running = none ∧ c.Valid s.kernel ∧
      (s.kernel.running = tthIdleThread → c = .yield ∨ c = .idle) ∧
        (c = .idle → s.kernel.running = tthIdleThread)
  | .resume => s.kernel.intLevel = 0 ∧ (s.cont s.kernel.running).isSome
  | .intEnter => (s.cont s.kernel.running).any Cont.inside = false
  | .intPost _ | .intTick | .intExit => 0 < s.kernel.intLevel
  | .release t =>
    t ∈ s.kernel.objects ∧ s.kernel.autostack t = false ∧
      (s.kernel.waitstate t = .join ∨ s.kernel.waitstate t = .dead) ∧
        t ∉ nodes s.kernel.link s.kernel.fuel (.head .detach) ∧
          ∀ u ∈ s.kernel.objects, (s.cont u).bind Cont.uses ≠ some t

instance (s : State) : (e : Event) → Decidable (Enabled s e)
  | .call _ => inferInstanceAs (Decidable (_ ∧ _ ∧ _ ∧ _ ∧ _))
  | .resume => inferInstanceAs (Decidable (_ ∧ _))
  | .intEnter => inferInstanceAs (Decidable (_ = _))
  | .intPost _ | .intTick | .intExit => inferInstanceAs (Decidable (_ < _))
  | .release _ => inferInstanceAs (Decidable (_ ∧ _ ∧ _ ∧ _ ∧ _))

end OlivePiccolo.Tth
