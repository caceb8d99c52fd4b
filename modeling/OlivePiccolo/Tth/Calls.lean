import OlivePiccolo.Tth.Core

/-!
# The calls of TinyThreads

A call is modelled up to where it returns, or to where the thread goes on later (`Cont`): behind a
switch to another thread, inside the critical section; or outside of it, where an interrupt may come
first. `resume` is what is left of the call then. A call that does not end, crashes the system or
uses memory that has been freed has no outcome.
-/

namespace OlivePiccolo.Tth

open Links

/-- The error numbers. -/
inductive Errno
  | EPERM
  | EAGAIN
  | ENOMEM
  | EBUSY
  | EINVAL
  | ENOSYS
  | EDEADLK
  | EOVERFLOW
  deriving DecidableEq, Repr

/-- What a call returns. -/
inductive Result
  /-- `0`. -/
  | zero
  /-- The error number. -/
  | code (e : Errno)
  /-- `-1`, with this `errno`. -/
  | minusOne (errno : Errno)
  /-- `0`, with this value in `*retval`. -/
  | retval (v : BitVec 32)
  /-- `0`, with this value in `*sval`. -/
  | value (v : ℕ)
  deriving DecidableEq, Repr

/-- Where a thread goes on. -/
inductive Cont
  /-- Behind the switch of a call that does nothing more but return. -/
  | returns (r : Result)
  /-- Behind the switch of `tth_cs_mutex_lock`. -/
  | relock (m : MutexId)
  /-- Behind the switch of `pthread_cond_wait`. -/
  | condWait (c : CondId) (m : MutexId)
  /-- Behind the switch of `pthread_join`. -/
  | join (target : Tid)
  /-- At `free(target->autostack)` of `pthread_join`. -/
  | free (target : Tid) (retval : BitVec 32)
  /-- At the critical section of `pthread_create`. -/
  | insert (object : Tid)
  /-- At `free(stack)` of `tth_idle`. -/
  | freeStack (t : Tid)
  deriving DecidableEq, Repr

/-- Inside a critical section. -/
def Cont.inside : Cont → Bool
  | .free _ _ | .insert _ | .freeStack _ => false
  | _ => true

/-- The target of a `pthread_join` that has not returned. -/
def Cont.joins : Cont → Option Tid
  | .join t | .free t _ => some t
  | _ => none

/-- What becomes of a call. -/
inductive Outcome
  | result (r : Result)
  | cont (c : Cont)
  /-- The thread has ended. -/
  | gone
  deriving DecidableEq, Repr

/-- `pthread_attr_t`, without the address and the size of the stack. -/
structure Attr where
  detached : Bool
  schedpriority : ℕ
  roundRobin : Bool
  /-- The stack is allocated by `pthread_create`. -/
  autostack : Bool
  deriving DecidableEq, Repr

/-- The calls. That of the idle thread to `tth_idle` is one round up to `free`. -/
inductive Call
  /-- The object is at the end of the stack; `none` if there is no memory for the stack. -/
  | create (object : Option Tid) (attr : Attr)
  | exit (retval : BitVec 32)
  | join (target : Tid)
  | detach (target : Tid)
  | yield
  | usleep (us : BitVec 32)
  | semInit (s : SemId) (pshared : Bool) (value : ℕ)
  | semDestroy (s : SemId)
  | semGetvalue (s : SemId)
  | semPost (s : SemId)
  | semWait (s : SemId)
  | semTrywait (s : SemId)
  | mutexInit (m : MutexId)
  | mutexDestroy (m : MutexId)
  | mutexLock (m : MutexId)
  | mutexTrylock (m : MutexId)
  | mutexUnlock (m : MutexId)
  | condInit (c : CondId)
  | condDestroy (c : CondId)
  | condBroadcast (c : CondId)
  | condSignal (c : CondId)
  | condWait (c : CondId) (m : MutexId)
  | idle
  deriving DecidableEq, Repr

/-- `SEM_VALUE_MAX`. -/
def semValueMax : ℕ := 32767

namespace Kernel

/-- `tth_cs_switch`, followed by the end of the critical section and the return. -/
def switchThen (k : Kernel) (r : Result) : Kernel × Outcome :=
  if k.needsSwitch then (k.execSwitch, .cont (.returns r)) else (k, .result r)

/-! ## Threads -/

/-- `pthread_create`, up to its critical section: the new thread's object. -/
def pthreadCreate (k : Kernel) (object : Option Tid) (attr : Attr) : Kernel × Outcome :=
  match object with
  | none => (k, .result (.code .ENOMEM))
  | some object =>
    ({ k with
        link := Function.update (Function.update k.link (.head (.thread object)) none)
          (.follower object) none
        detached := Function.update k.detached object attr.detached
        schedpriority := Function.update k.schedpriority object attr.schedpriority
        roundRobin := Function.update k.roundRobin object attr.roundRobin
        waitstate := Function.update k.waitstate object .inval
        autostack := Function.update k.autostack object attr.autostack
        shared := Function.update k.shared object 0
        objects := object :: k.objects },
      .cont (.insert object))

/-- The critical section of `pthread_create`. What the object is taken from is a local variable. -/
def insertObject (k : Kernel) (object : Tid) : Option (Kernel × Outcome) :=
  (k.toThreads.tthCsPut object (some .ready) .ready).map fun th =>
    { k with toThreads := th }.switchThen .zero

/-- `pthread_exit`. -/
def pthreadExit (k : Kernel) (retval : BitVec 32) : Option (Kernel × Outcome) :=
  let target := k.running
  let k := { k with shared := Function.update k.shared target retval }
  if k.detached target then
    (k.tthCsMove .ready (some .detach) .dead).map fun k => (k.tthCsSwitch, .gone)
  else
    (k.tthCsMove .ready none .join).bind fun k =>
      (k.tthCsMove (.thread target) (some .ready) .ready).map fun k => (k.tthCsSwitch, .gone)

/-- `free(target->autostack)`, with the object at the end of the stack. -/
def freeObject (k : Kernel) (target : Tid) : Option Kernel :=
  if target ∈ k.objects then
    some (if k.autostack target then { k with objects := k.objects.filter (· ≠ target) } else k)
  else none

/-- `pthread_join`, once the target has ended: up to `free`. -/
def joined (k : Kernel) (target : Tid) : Option (Kernel × Outcome) :=
  if target ∈ k.objects then some (k, .cont (.free target (k.shared target))) else none

/-- `pthread_join`. -/
def pthreadJoin (k : Kernel) (target : Tid) : Option (Kernel × Outcome) :=
  if k.detached target || (k.link (.head (.thread target))).isSome then
    some (k, .result (.code .EINVAL))
  else if target = k.running then some (k, .result (.code .EDEADLK))
  else if k.waitstate target ≠ .join then
    (k.tthCsMove .ready (some (.thread target)) .thread).map fun k =>
      (k.tthCsSwitch, .cont (.join target))
  else k.joined target

/-- `pthread_detach`. -/
def pthreadDetach (k : Kernel) (target : Tid) : Option (Kernel × Outcome) :=
  if k.detached target then some (k, .result (.code .EINVAL))
  else if (k.link (.head (.thread target))).isSome then none
  else some ({ k with detached := Function.update k.detached target true }, .result .zero)

/-- `tth_idle`, up to `free(stack)`. -/
def tthIdle (k : Kernel) : Kernel × Outcome :=
  match k.link (.head .detach) with
  | none => (k, .result .zero)
  | some t => ({ k with link := take k.link .detach t }, .cont (.freeStack t))

/-- `sched_yield`. -/
def schedYield (k : Kernel) : Option (Kernel × Outcome) :=
  (k.tthCsMove .ready (some .ready) .ready).map fun k => k.switchThen .zero

/-! ## Sleep -/

/-- The test for going on in the loop of `usleep`. -/
def wakesEarlier (k : Kernel) (us : BitVec 32) (next : Tid) : Bool :=
  k.shared next - k.time < us

/-- The running thread is taken off `tth_ready`. -/
def fallAsleep (k : Kernel) (us : BitVec 32) : Kernel :=
  { k with
    shared := Function.update k.shared k.running (k.time + us)
    waitstate := Function.update k.waitstate k.running .sleep
    link := take k.link .ready k.running }

/-- `usleep`. -/
def usleep (k : Kernel) (us : BitVec 32) : Option (Kernel × Outcome) :=
  if us = 0 then k.schedYield
  else if 1000000 < us.toNat then some (k, .result (.minusOne .EINVAL))
  else
    let k := k.fallAsleep us
    (seek k.link (k.wakesEarlier us) k.fuel (.head .sleeping)).map fun slot =>
      { k with link := place k.link slot k.running }.switchThen .zero

/-- Move the threads of a list to `tth_ready`, as long as the first one meets the condition. -/
def moveWhile (p : Kernel → Tid → Bool) (src : Anchor) : ℕ → Kernel → Option Kernel
  | 0, _ => none
  | fuel + 1, k =>
    match k.link (.head src) with
    | none => some k
    | some t =>
      if p k t then (k.tthCsMove src (some .ready) .ready).bind (moveWhile p src fuel) else some k

/-- The test for going on in the loop of `tth_sleep_tick`. -/
def timedOut (k : Kernel) (t : Tid) : Bool := (k.shared t - k.time).toInt ≤ 0

/-- `tth_sleep_tick`. -/
def tthSleepTick (k : Kernel) (usPerTick : ℕ) : Option Kernel :=
  moveWhile timedOut .sleeping k.fuel { k with time := k.time + BitVec.ofNat 32 usPerTick }

/-! ## Semaphores -/

/-- `sem_init`. -/
def semInit (k : Kernel) (s : SemId) (pshared : Bool) (value : ℕ) : Kernel × Outcome :=
  if semValueMax < value then (k, .result (.minusOne .EINVAL))
  else if pshared then (k, .result (.minusOne .ENOSYS))
  else
    ({ k with
        value := Function.update k.value s value
        link := Function.update k.link (.head (.sem s)) none },
      .result .zero)

/-- `sem_destroy`. -/
def semDestroy (k : Kernel) (s : SemId) : Option (Kernel × Outcome) :=
  if (k.link (.head (.sem s))).isSome then none else some (k, .result .zero)

/-- `sem_post`. -/
def semPost (k : Kernel) (s : SemId) : Option (Kernel × Outcome) :=
  if (k.link (.head (.sem s))).isSome then
    (k.tthCsMove (.sem s) (some .ready) .ready).map fun k => k.switchThen .zero
  else if k.value s = semValueMax then some (k, .result (.minusOne .EOVERFLOW))
  else some ({ k with value := Function.update k.value s (k.value s + 1) }, .result .zero)

/-- `sem_wait`. -/
def semWait (k : Kernel) (s : SemId) : Option (Kernel × Outcome) :=
  if 0 < k.value s then
    some ({ k with value := Function.update k.value s (k.value s - 1) }, .result .zero)
  else (k.tthCsMove .ready (some (.sem s)) .sem).map fun k => k.switchThen .zero

/-- `sem_trywait`. -/
def semTrywait (k : Kernel) (s : SemId) : Kernel × Outcome :=
  if 0 < k.value s then
    ({ k with value := Function.update k.value s (k.value s - 1) }, .result .zero)
  else (k, .result (.code .EAGAIN))

/-! ## Mutexes -/

/-- `mutex->__priv.owner = tth_running`. -/
def takeMutex (k : Kernel) (m : MutexId) : Kernel :=
  { k with owner := Function.update k.owner m (some k.running) }

/-- `mutex->__priv.owner = NULL`. -/
def dropMutex (k : Kernel) (m : MutexId) : Kernel :=
  { k with owner := Function.update k.owner m none }

/-- `tth_cs_mutex_lock`. -/
def tthCsMutexLock (k : Kernel) (m : MutexId) (wait : Bool) : Option (Kernel × Outcome) :=
  if k.owner m = some k.running then some (k, .result (.code .EDEADLK))
  else if (k.owner m).isSome then
    if wait then
      (k.tthCsMove .ready (some (.mutex m)) .mutex).map fun k => (k.tthCsSwitch, .cont (.relock m))
    else some (k, .result (.code .EBUSY))
  else some (k.takeMutex m, .result .zero)

/-- `tth_cs_mutex_unlock`: `none` for 0. -/
def tthCsMutexUnlock (k : Kernel) (m : MutexId) : Option (Kernel × Option Errno) :=
  if k.owner m ≠ some k.running then some (k, some .EPERM)
  else ((k.dropMutex m).tthCsMove (.mutex m) (some .ready) .ready).map fun k => (k, none)

/-- `pthread_mutex_init`. -/
def pthreadMutexInit (k : Kernel) (m : MutexId) : Kernel × Outcome :=
  ({ k.dropMutex m with link := Function.update k.link (.head (.mutex m)) none }, .result .zero)

/-- `pthread_mutex_destroy`. -/
def pthreadMutexDestroy (k : Kernel) (m : MutexId) : Kernel × Outcome :=
  if (k.link (.head (.mutex m))).isSome || (k.owner m).isSome then (k, .result (.code .EBUSY))
  else (k, .result .zero)

/-- `pthread_mutex_unlock`. -/
def pthreadMutexUnlock (k : Kernel) (m : MutexId) : Option (Kernel × Outcome) :=
  (k.tthCsMutexUnlock m).map fun r =>
    match r.2 with
    | none => r.1.switchThen .zero
    | some e => (r.1, .result (.code e))

/-! ## Conditions -/

/-- `pthread_cond_init`. -/
def pthreadCondInit (k : Kernel) (c : CondId) : Kernel × Outcome :=
  ({ k with link := Function.update k.link (.head (.cond c)) none }, .result .zero)

/-- `pthread_cond_broadcast`. -/
def pthreadCondBroadcast (k : Kernel) (c : CondId) : Option (Kernel × Outcome) :=
  (moveWhile (fun _ _ => true) (.cond c) k.fuel k).map fun k => k.switchThen .zero

/-- `pthread_cond_signal`. -/
def pthreadCondSignal (k : Kernel) (c : CondId) : Option (Kernel × Outcome) :=
  (k.tthCsMove (.cond c) (some .ready) .ready).map fun k => k.switchThen .zero

/-- `pthread_cond_wait`. What it puts to sleep is the first thread of `tth_ready` behind the unlock.
-/
def pthreadCondWait (k : Kernel) (c : CondId) (m : MutexId) : Option (Kernel × Outcome) :=
  (k.tthCsMutexUnlock m).bind fun r =>
    match r.2 with
    | none =>
      (r.1.tthCsMove .ready (some (.cond c)) .cond).map fun k =>
        (k.tthCsSwitch, .cont (.condWait c m))
    | some e => some (r.1, .result (.code e))

/-! ## All of them -/

/-- A call of the running thread. -/
def call (k : Kernel) : Call → Option (Kernel × Outcome)
  | .create object attr => some (k.pthreadCreate object attr)
  | .exit retval => k.pthreadExit retval
  | .join target => k.pthreadJoin target
  | .detach target => k.pthreadDetach target
  | .yield => k.schedYield
  | .usleep us => k.usleep us
  | .semInit s pshared value => some (k.semInit s pshared value)
  | .semDestroy s => k.semDestroy s
  | .semGetvalue s => some (k, .result (.value (k.value s)))
  | .semPost s => k.semPost s
  | .semWait s => k.semWait s
  | .semTrywait s => some (k.semTrywait s)
  | .mutexInit m => some (k.pthreadMutexInit m)
  | .mutexDestroy m => some (k.pthreadMutexDestroy m)
  | .mutexLock m => k.tthCsMutexLock m true
  | .mutexTrylock m => k.tthCsMutexLock m false
  | .mutexUnlock m => k.pthreadMutexUnlock m
  | .condInit c => some (k.pthreadCondInit c)
  | .condDestroy _ => some (k, .result .zero)
  | .condBroadcast c => k.pthreadCondBroadcast c
  | .condSignal c => k.pthreadCondSignal c
  | .condWait c m => k.pthreadCondWait c m
  | .idle => some k.tthIdle

/-- The running thread goes on. -/
def resume (k : Kernel) : Cont → Option (Kernel × Outcome)
  | .returns r => some (k, .result r)
  | .relock m => some (k.takeMutex m, .result .zero)
  | .condWait _ m => k.tthCsMutexLock m true
  | .join target => k.joined target
  | .free target retval => (k.freeObject target).map fun k => (k, .result (.retval retval))
  | .insert object => k.insertObject object
  | .freeStack t => (k.freeObject t).map fun k => (k, .result .zero)

end Kernel

end OlivePiccolo.Tth
