import OlivePiccolo.TinyThreads.Kernel

/-!
# Mutex, semaphore and yield calls

Each call runs in one critical section, which `tth_cs_switch` may leave and come back to. It is
modelled by its two halves: `begin` runs up to the switch or the end, and `finish` is what is left
when the thread is switched to again. A switch that leaves the thread suspended returns no code
yet.
-/

namespace OlivePiccolo.TinyThreads

/-- The values the calls return: `0`, an `errno` value, or `-1`. -/
inductive Code
  | zero
  | EPERM
  | EAGAIN
  | EBUSY
  | EDEADLK
  | minusOne
  deriving DecidableEq, Repr

/-- The calls a thread can make. -/
inductive Call
  | lock (m : MutexId)
  | trylock (m : MutexId)
  | unlock (m : MutexId)
  | yield
  | semWait (s : SemId)
  | semTrywait (s : SemId)
  | semPost (s : SemId)
  deriving DecidableEq, Repr

/-- `SEM_VALUE_MAX`. -/
def semValueMax : ℕ := 32767

namespace Kernel

/-- `mutex->__priv.owner = tth_running`. -/
def takeMutex (k : Kernel) (m : MutexId) : Kernel :=
  { k with owner := Function.update k.owner m (some k.running) }

/-- `mutex->__priv.owner = NULL`. -/
def dropMutex (k : Kernel) (m : MutexId) : Kernel :=
  { k with owner := Function.update k.owner m none }

/-- `tth_cs_switch` as the last statement but `return code`. -/
def switchThen (k : Kernel) (code : Code) : Kernel × Option Code :=
  (k.tthCsSwitch, if k.needsSwitch then none else some code)

/-- `tth_cs_mutex_lock`, up to its switch. -/
def tthCsMutexLock (k : Kernel) (m : MutexId) (wait : Bool) : Kernel × Option Code :=
  if k.owner m = some k.running then (k, some .EDEADLK)
  else if (k.owner m).isSome then
    if wait then
      let k' := k.tthCsMove .ready (.mutex m) .mutex
      if k'.needsSwitch then (k'.execSwitch, none) else (k'.takeMutex m, some .zero)
    else (k, some .EBUSY)
  else (k.takeMutex m, some .zero)

/-- `tth_cs_mutex_unlock`. -/
def tthCsMutexUnlock (k : Kernel) (m : MutexId) : Kernel × Code :=
  if k.owner m ≠ some k.running then (k, .EPERM)
  else ((k.dropMutex m).tthCsMove (.mutex m) .ready .ready, .zero)

/-- `pthread_mutex_unlock`. -/
def pthreadMutexUnlock (k : Kernel) (m : MutexId) : Kernel × Option Code :=
  match k.tthCsMutexUnlock m with
  | (k', .zero) => k'.switchThen .zero
  | (k', code) => (k', some code)

/-- `sched_yield`. -/
def schedYield (k : Kernel) : Kernel × Option Code :=
  (k.tthCsMove .ready .ready .ready).switchThen .zero

/-- `sem_wait`. -/
def semWait (k : Kernel) (s : SemId) : Kernel × Option Code :=
  if 0 < k.value s then ({ k with value := Function.update k.value s (k.value s - 1) }, some .zero)
  else (k.tthCsMove .ready (.sem s) .sem).switchThen .zero

/-- `sem_trywait`. -/
def semTrywait (k : Kernel) (s : SemId) : Kernel × Option Code :=
  if 0 < k.value s then ({ k with value := Function.update k.value s (k.value s - 1) }, some .zero)
  else (k, some .EAGAIN)

/-- `sem_post`. -/
def semPost (k : Kernel) (s : SemId) : Kernel × Option Code :=
  if k.queue (.sem s) ≠ [] then (k.tthCsMove (.sem s) .ready .ready).switchThen .zero
  else if k.value s = semValueMax then (k, some .minusOne)
  else ({ k with value := Function.update k.value s (k.value s + 1) }, some .zero)

/-- A call of the running thread, up to its switch; `none` when it is suspended there. -/
def begin (k : Kernel) : Call → Kernel × Option Code
  | .lock m => k.tthCsMutexLock m true
  | .trylock m => k.tthCsMutexLock m false
  | .unlock m => k.pthreadMutexUnlock m
  | .yield => k.schedYield
  | .semWait s => k.semWait s
  | .semTrywait s => k.semTrywait s
  | .semPost s => k.semPost s

/-- What is left of a call after its switch. Only `tth_cs_mutex_lock` does something there: it
takes the mutex, whoever owns it by now. -/
def finish (k : Kernel) : Call → Kernel
  | .lock m => k.takeMutex m
  | _ => k

/-! ## What a call changes -/

@[simp] theorem tthCsSwitch_queue (k : Kernel) : k.tthCsSwitch.queue = k.queue := by
  unfold tthCsSwitch; split <;> rfl

@[simp] theorem tthCsSwitch_owner (k : Kernel) : k.tthCsSwitch.owner = k.owner := by
  unfold tthCsSwitch; split <;> rfl

@[simp] theorem tthCsSwitch_intLevel (k : Kernel) : k.tthCsSwitch.intLevel = k.intLevel := by
  unfold tthCsSwitch; split <;> rfl

/-- Does the call work on the mutex `m`? -/
def uses (m : MutexId) : Call → Prop
  | .lock m' | .trylock m' | .unlock m' => m' = m
  | _ => False

theorem switchThen_queue (k : Kernel) (code : Code) : (k.switchThen code).1.queue = k.queue :=
  k.tthCsSwitch_queue

theorem switchThen_owner (k : Kernel) (code : Code) : (k.switchThen code).1.owner = k.owner :=
  k.tthCsSwitch_owner

/-- Clearing the owner does not change what a move does to the lists. -/
theorem tthCsMove_dropMutex_queue (k : Kernel) (m : MutexId) (src dst : Anchor) (w : WaitState) :
    ((k.dropMutex m).tthCsMove src dst w).queue = (k.tthCsMove src dst w).queue := by
  have hqueue : (k.dropMutex m).queue = k.queue := rfl
  unfold tthCsMove
  rw [hqueue]
  rcases k.queue src with _ | ⟨t, rest⟩ <;> rfl

/-- A move between lists other than a mutex's leaves that mutex's waiters alone. -/
theorem tthCsMove_queue_of_ne (k : Kernel) {src dst a : Anchor} (w : WaitState) (hs : a ≠ src)
    (hd : a ≠ dst) : (k.tthCsMove src dst w).queue a = k.queue a := by
  unfold tthCsMove
  split
  · rfl
  · simp only [Function.update_of_ne hd, Function.update_of_ne hs]

/-- A call that works on another object leaves the owner and the waiters of `m` alone. -/
theorem begin_frame (k : Kernel) {m : MutexId} {c : Call} (hc : ¬ uses m c) :
    (k.begin c).1.owner m = k.owner m ∧ (k.begin c).1.queue (.mutex m) = k.queue (.mutex m) := by
  cases c with
  | lock m' | trylock m' =>
    have hne : m ≠ m' := fun e => hc e.symm
    simp only [begin, tthCsMutexLock]
    split_ifs <;>
      simp [takeMutex, tthCsMove_queue_of_ne, hne]
  | unlock m' =>
    have hne : m ≠ m' := fun e => hc e.symm
    simp only [begin, pthreadMutexUnlock, tthCsMutexUnlock]
    split_ifs
    · exact ⟨rfl, rfl⟩
    · simp [switchThen, dropMutex, tthCsMove_queue_of_ne, hne]
  | yield => simp [begin, schedYield, switchThen, tthCsMove_queue_of_ne]
  | semWait s =>
    simp only [begin, semWait]
    split_ifs <;> simp [switchThen, tthCsMove_queue_of_ne]
  | semTrywait s =>
    simp only [begin, semTrywait]
    split_ifs <;> exact ⟨rfl, rfl⟩
  | semPost s =>
    simp only [begin, semPost]
    split_ifs <;> simp [switchThen, tthCsMove_queue_of_ne]

end Kernel

end OlivePiccolo.TinyThreads
