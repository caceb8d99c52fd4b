import Mathlib.Data.Fintype.Basic
import Mathlib.Logic.Function.Basic
import OlivePiccolo.Library.Errno
import OlivePiccolo.Library.Memory
import OlivePiccolo.Library.Runs

/-!
# Workers and queued requests

The threads of `rubic_agent.c`: each worker runs `worker_thread`, and inside of it a runner, which
may call `rubic_agent_runner_notify_init` and `rubic_agent_runner_cooperate` at any time; and each
request runs `rubic_agent_method_queue` in a thread of the RPC server. A step is one access to what
the threads share (the fields of a worker, its mutex and its semaphore), or one reply. What the step
finds outside of these (the file system, the heap, the script) is its input.

The mutex lets one thread in at a time. `pthread_mutex_unlock` by another thread than the owner does
nothing, and neither does `pthread_mutex_lock` by the owner; the code ignores both errors.
-/

namespace OlivePiccolo.RubicAgent

/-! ## Requests -/

/-- A `peridot_rpc_server_async_context`, one for each request. -/
abbrev Ctx := ℕ

/-- The parameters of a request, as `bson_get_props` and the getters return them. -/
structure Params where
  /-- -1 if there is none. -/
  tid : ℤ
  /-- Empty if there is none. -/
  name : CString
  runtime : Option CString
  file : Option CString
  source : Option CString
  debug : ℤ

/-- The result document of a reply, or `NULL`. -/
inductive Output
  | null
  | tid (index : ℕ)
  | result (v : ℤ)
  deriving DecidableEq, Repr

/-- A call of `peridot_rpc_server_async_callback`. -/
structure Reply where
  context : Option Ctx
  output : Output
  errno : ℤ
  deriving DecidableEq, Repr

/-- What `worker_thread` hands to the runner: the runtime, `file_or_source` and the flags. -/
structure Job where
  runtime : Option ℕ
  fileOrSource : Option CString
  isFile : Bool
  debug : Bool
  autoboot : Bool

/-- `find_runtime`, among the names that have been registered; any name will do for `NULL`. -/
def findRuntime (runtimes : List CString) : Option CString → Option ℕ
  | none => if runtimes = [] then none else some 0
  | some name => runtimes.findIdx? (· = name)

/-- The job of a request. -/
def Params.job (runtimes : List CString) (p : Params) : Job where
  runtime := findRuntime runtimes p.runtime
  fileOrSource := p.file.or p.source
  isFile := p.file.isSome
  debug := p.debug ≠ 0
  autoboot := false

/-! ## Workers -/

/-- `worker->state`. -/
inductive WorkerState
  | idle
  | starting
  | running
  | aborting
  | failed
  | autoboot
  deriving DecidableEq, Repr

/-- Who can own the mutex of a worker: its thread, and the thread that handles a request. -/
inductive Party
  | thread
  | call (c : Ctx)
  deriving DecidableEq, Repr

/-- The next access of `rubic_agent_runner_notify_init`, with what it has read. -/
inductive NotifyPc
  | read
  | reply (context : Option Ctx)
  | clear (context : Option Ctx)
  | setState
  deriving DecidableEq, Repr

/-- The next access of `rubic_agent_runner_cooperate`, with its `rpc_ctx`. -/
inductive CooperatePc
  | read
  | clear (rpcCtx : Ctx)
  | abort (rpcCtx : Ctx)
  | test (rpcCtx : Ctx)
  | store (rpcCtx : Ctx)
  | reply (rpcCtx : Ctx) (errno : ℤ)
  deriving DecidableEq, Repr

/-- The next access of `worker_thread`. -/
inductive Pc
  /-- In `rubic_agent_service`, which then calls `worker_thread`. -/
  | service (autoboot : Bool)
  | entry
  | top
  | bootFailed
  | bootStarting
  | bootUnlock
  | setIdle
  | unlockIdle
  | semWait
  | lockRequest
  | readContext
  | setStarting
  | unlockRequest
  | invoke
  | runner
  /-- In `rubic_agent_runner_notify_init`, which has got memory or has not. -/
  | notifyInit (ok : Bool) (pc : NotifyPc)
  | cooperate (pc : CooperatePc)
  | lockEnd
  | testState
  | clearContext
  | replyError
  | readCallback
  | clearCallback
  | replyCallback
  deriving DecidableEq, Repr

/-- A `rubic_agent_worker`, and from `pc` on the locals of its thread. -/
structure Worker where
  threadIndex : ℕ
  state : WorkerState
  owner : Option Party
  sem : ℕ
  context : Option Ctx
  callbackContext : Option Ctx
  pc : Pc
  /-- `context` in `worker_thread`. -/
  localContext : Option Ctx
  job : Job
  result : ℤ
  /-- What the thread has passed to `peridot_rpc_server_async_callback`. -/
  replies : List Reply

namespace Worker

/-- `pthread_mutex_lock`. -/
def lock (w : Worker) (p : Party) : Option Worker :=
  if w.owner = none ∨ w.owner = some p then some { w with owner := some p } else none

/-- `pthread_mutex_unlock`. -/
def unlock (w : Worker) (p : Party) : Worker :=
  if w.owner = some p then { w with owner := none } else w

/-- `SEM_VALUE_MAX`. -/
def semValueMax : ℕ := 32767

/-- `sem_post`. -/
def semPost (w : Worker) : Worker :=
  if w.sem = semValueMax then w else { w with sem := w.sem + 1 }

/-- `sem_wait`. -/
def semWait (w : Worker) : Option Worker :=
  if 0 < w.sem then some { w with sem := w.sem - 1 } else none

/-- `peridot_rpc_server_async_callback`. -/
def callback (w : Worker) (context : Option Ctx) (output : Output) (errno : ℤ) : Worker :=
  { w with replies := w.replies ++ [⟨context, output, errno⟩] }

def goto (w : Worker) (pc : Pc) : Worker := { w with pc := pc }

end Worker

/-- What a step finds outside of the shared fields. -/
inductive Input
  | none
  /-- What `parse_boot_json` finds. -/
  | boot (file : Option (Option ℕ × CString))
  /-- The runner calls `rubic_agent_runner_notify_init`, which gets memory or does not. -/
  | notifyInit (ok : Bool)
  /-- The runner calls `rubic_agent_runner_cooperate`. -/
  | cooperate
  /-- The runner returns. -/
  | finish (result : ℤ)
  /-- `malloc` succeeds or fails. -/
  | malloc (ok : Bool)
  deriving DecidableEq

/-- The names that `rubic_agent_runner_cooperate` knows. -/
def abortName : CString := ⟨[0x61, 0x62, 0x6f, 0x72, 0x74], by decide⟩

def callbackName : CString := ⟨[0x63, 0x61, 0x6c, 0x6c, 0x62, 0x61, 0x63, 0x6b], by decide⟩

/-- The name that `rubic_agent_method_queue` knows. -/
def startName : CString := ⟨[0x73, 0x74, 0x61, 0x72, 0x74], by decide⟩

/-- What stays the same: the names of the runtimes and the parameters of the requests. -/
structure Config where
  runtimes : List CString
  params : Ctx → Params

/-- One step of `rubic_agent_runner_notify_init`. -/
def Worker.notifyInitStep (w : Worker) (ok : Bool) : NotifyPc → Worker
  | .read => w.goto (.notifyInit ok (.reply w.context))
  | .reply context =>
    (w.callback context (if ok then .tid w.threadIndex else .null) (if ok then 0 else -ENOMEM)).goto
      (.notifyInit ok (.clear context))
  | .clear _ => { w with context := none }.goto (.notifyInit ok .setState)
  | .setState => { w with state := if ok then .running else .failed }.goto .runner

/-- Where `rubic_agent_runner_cooperate` goes on by the name of the request. -/
def cooperateNext (name : CString) (c : Ctx) : CooperatePc :=
  if name = abortName then .abort c
  else if name = callbackName then .test c
  else .reply c (-ESRCH)

/-- One step of `rubic_agent_runner_cooperate`. -/
def Worker.cooperateStep (cfg : Config) (w : Worker) : CooperatePc → Worker
  | .read =>
    match w.context with
    | none => w.goto .runner
    | some c => w.goto (.cooperate (.clear c))
  | .clear c =>
    { w with context := none }.goto (.cooperate (cooperateNext (cfg.params c).name c))
  | .abort c => { w with state := .aborting }.goto (.cooperate (.reply c 0))
  | .test c =>
    w.goto (.cooperate (if w.callbackContext = none then .store c else .reply c EEXIST))
  | .store c => { w with callbackContext := some c }.goto .runner
  | .reply c errno => (w.callback (some c) .null errno).goto .runner

/-- One step of a worker's thread. -/
def Worker.threadStep (cfg : Config) (w : Worker) (input : Input) : Option Worker :=
  match w.pc, input with
  | .service autoboot, .none =>
    some ({ w with state := if autoboot then .autoboot else w.state }.goto .entry)
  | .entry, .none => (w.lock .thread).map (·.goto .top)
  | .top, .boot file =>
    if w.state = .autoboot then
      match file with
      | none => some (w.goto .bootFailed)
      | some (runtime, path) =>
        some ({ w with
          localContext := none
          job := ⟨runtime, some path, true, false, true⟩ }.goto .bootStarting)
    else none
  | .top, .none => if w.state = .autoboot then none else some (w.goto .setIdle)
  | .bootFailed, .none => some ({ w with state := .idle }.goto .top)
  | .bootStarting, .none => some ({ w with state := .starting }.goto .bootUnlock)
  | .bootUnlock, .none => some ((w.unlock .thread).goto .invoke)
  | .setIdle, .none => some ({ w with state := .idle }.goto .unlockIdle)
  | .unlockIdle, .none => some ((w.unlock .thread).goto .semWait)
  | .semWait, .none => w.semWait.map (·.goto .lockRequest)
  | .lockRequest, .none => (w.lock .thread).map (·.goto .readContext)
  | .readContext, .none =>
    some ({ w with localContext := w.context }.goto
      (if w.context = none then .unlockRequest else .setStarting))
  | .setStarting, .none => some ({ w with state := .starting }.goto .unlockRequest)
  | .unlockRequest, .none =>
    match w.localContext with
    | none => some ((w.unlock .thread).goto .top)
    | some c =>
      some ({ w.unlock .thread with job := (cfg.params c).job cfg.runtimes }.goto .invoke)
  | .invoke, .none =>
    if w.job.runtime = none ∨ w.job.fileOrSource = none then
      some ({ w with result := -ESRCH }.goto .clearContext)
    else some (w.goto .runner)
  | .runner, .notifyInit ok => some (w.goto (.notifyInit ok .read))
  | .runner, .cooperate => some (w.goto (.cooperate .read))
  | .runner, .finish result => some ({ w with result := result }.goto .lockEnd)
  | .notifyInit ok pc, .none => some (w.notifyInitStep ok pc)
  | .cooperate pc, .none => some (w.cooperateStep cfg pc)
  | .lockEnd, .none => (w.lock .thread).map (·.goto .testState)
  | .testState, .none =>
    some (w.goto (if w.state = .starting then .clearContext else .readCallback))
  | .clearContext, .none =>
    some ({ w with context := none }.goto
      (if w.localContext = none then .readCallback else .replyError))
  | .replyError, .none => some ((w.callback w.localContext .null w.result).goto .readCallback)
  | .readCallback, .none =>
    some ({ w with localContext := w.callbackContext }.goto
      (if w.callbackContext = none then .top else .clearCallback))
  | .clearCallback, .none => some ({ w with callbackContext := none }.goto .replyCallback)
  | .replyCallback, .malloc ok =>
    some ((w.callback w.localContext (if ok then .result w.result else .null)
      (if ok then 0 else -ENOMEM)).goto .top)
  | _, _ => none

/-! ## Calls -/

/-- The next access of `rubic_agent_method_queue`, with the worker that it looks at. -/
inductive CallPc (n : ℕ)
  | enter
  | tidLock (i : Fin n)
  | tidTest (i : Fin n)
  | tidBusy (i : Fin n)
  | tidStore (i : Fin n)
  | startLock (i : Fin n)
  | startTest (i : Fin n)
  | startSkip (i : Fin n)
  | startState (i : Fin n)
  | startStore (i : Fin n)
  | unlock (i : Fin n)
  | post (i : Fin n)
  /-- 0 has been returned. -/
  | queued (i : Fin n)
  /-- Another code has been returned. -/
  | failed (errno : ℤ)
  deriving DecidableEq, Repr

/-- The worker whose index comes next is looked at, or there is none left. -/
def startNext (n i : ℕ) : CallPc n := if h : i < n then .startLock ⟨i, h⟩ else .failed (-EBUSY)

/-- The beginning of `rubic_agent_method_queue`, up to its first lock. -/
def enterQueue (n : ℕ) (p : Params) : CallPc n :=
  if h : 0 ≤ p.tid ∧ p.tid < n then .tidLock ⟨p.tid.toNat, by omega⟩
  else if p.name = startName then startNext n 0
  else .failed (-ESRCH)

/-- The worker that the next step of a call is about. -/
def CallPc.target {n : ℕ} : CallPc n → Option (Fin n)
  | .tidLock i | .tidTest i | .tidBusy i | .tidStore i | .startLock i | .startTest i
  | .startSkip i | .startState i | .startStore i | .unlock i | .post i => some i
  | .enter | .queued _ | .failed _ => none

/-- One step of a call at its worker. -/
def callStep {n : ℕ} (c : Ctx) (pc : CallPc n) (w : Worker) : Option (CallPc n × Worker) :=
  match pc with
  | .tidLock i => (w.lock (.call c)).map (.tidTest i, ·)
  | .tidTest i => some (if w.context = none then .tidStore i else .tidBusy i, w)
  | .tidBusy _ => some (.failed (-EBUSY), w.unlock (.call c))
  | .tidStore i => some (.unlock i, { w with context := some c })
  | .startLock i => (w.lock (.call c)).map (.startTest i, ·)
  | .startTest i => some (if w.state = .idle then .startState i else .startSkip i, w)
  | .startSkip i => some (startNext n (i + 1), w.unlock (.call c))
  | .startState i => some (.startStore i, { w with state := .starting })
  | .startStore i => some (.unlock i, { w with context := some c })
  | .unlock i => some (.post i, w.unlock (.call c))
  | .post i => some (.queued i, w.semPost)
  | .enter | .queued _ | .failed _ => none

/-! ## The agent -/

/-- All workers, and how far the call for each request has come. -/
structure Agent (n : ℕ) where
  workers : Fin n → Worker
  calls : Ctx → CallPc n

/-- A step of a worker's thread or of a call. -/
inductive Event (n : ℕ)
  | thread (i : Fin n) (input : Input)
  | call (c : Ctx)
  deriving DecidableEq

namespace Agent

variable {n : ℕ}

/-- The agent with one worker changed. -/
def setWorker (s : Agent n) (i : Fin n) (w : Worker) : Agent n :=
  { s with workers := Function.update s.workers i w }

/-- The agent with one call gone on. -/
def setCall (s : Agent n) (c : Ctx) (pc : CallPc n) : Agent n :=
  { s with calls := Function.update s.calls c pc }

@[simp] theorem setWorker_self (s : Agent n) (i : Fin n) (w : Worker) :
    (s.setWorker i w).workers i = w := Function.update_self ..

theorem setWorker_of_ne (s : Agent n) {i j : Fin n} (h : j ≠ i) (w : Worker) :
    (s.setWorker i w).workers j = s.workers j := Function.update_of_ne h ..

@[simp] theorem setWorker_calls (s : Agent n) (i : Fin n) (w : Worker) :
    (s.setWorker i w).calls = s.calls := rfl

@[simp] theorem setCall_self (s : Agent n) (c : Ctx) (pc : CallPc n) :
    (s.setCall c pc).calls c = pc := Function.update_self ..

theorem setCall_of_ne (s : Agent n) {c c' : Ctx} (h : c' ≠ c) (pc : CallPc n) :
    (s.setCall c pc).calls c' = s.calls c' := Function.update_of_ne h ..

@[simp] theorem setCall_workers (s : Agent n) (c : Ctx) (pc : CallPc n) :
    (s.setCall c pc).workers = s.workers := rfl

/-- One step. -/
def step (cfg : Config) (s : Agent n) : Event n → Option (Agent n)
  | .thread i input => ((s.workers i).threadStep cfg input).map (s.setWorker i)
  | .call c =>
    match (s.calls c).target with
    | none =>
      if s.calls c = .enter then some (s.setCall c (enterQueue n (cfg.params c))) else none
    | some i =>
      (callStep c (s.calls c) (s.workers i)).map fun r => (s.setCall c r.1).setWorker i r.2

/-- After `rubic_agent_init`, which clears the workers. The thread of the first one is in
`rubic_agent_service`, and has created those of the others. -/
def initial (n : ℕ) (autoboot : Bool) : Agent n where
  workers i :=
    { threadIndex := 0
      state := .idle
      owner := none
      sem := 0
      context := none
      callbackContext := none
      pc := if i.val = 0 then .service autoboot else .entry
      localContext := none
      job := ⟨none, none, false, false, false⟩
      result := 0
      replies := [] }
  calls _ := .enter

theorem initial_pc (autoboot : Bool) (i : Fin n) :
    ((initial n autoboot).workers i).pc = .service autoboot ∨
      ((initial n autoboot).workers i).pc = .entry := by
  by_cases hi : i.val = 0
  · exact .inl (if_pos hi)
  · exact .inr (if_neg hi)

end Agent

end OlivePiccolo.RubicAgent
