import OlivePiccolo.ClientFs.Methods
import OlivePiccolo.RubicAgent.Info
import OlivePiccolo.RubicAgent.Phases
import OlivePiccolo.RubicAgent.ProgWrite
import OlivePiccolo.Rpc.Callee

/-!
# Requests without `params`

Who looks into the `params` of a request: the functions of most methods, and for a request that has
been queued the thread of a worker and `rubic_agent_runner_cooperate`. All of them begin with
`bson_get_props`, which reads the length of the document without a test for `NULL`. The service does
not test for it, either. So there are no such looks in a run if and only if every request for a
method that looks has a document (`no_null_look_iff`).
-/

namespace OlivePiccolo.RubicAgent

open Bson ClientFs Dialog Rpc Runs

/-! ## The methods -/

/-- The methods that are registered by `peridot_client_fs.c` and `rubic_agent.c`. -/
inductive Method
  | fs (method : FsMethod)
  | rubicInfo
  | rubicQueue
  | rubicStatus
  | rubicProgHash
  | rubicProgWrite
  | rubicProgReset
  deriving DecidableEq, Repr

def Method.name : Method → CString
  | fs .fsOpen => ⟨ascii ['f', 's', '.', 'o', 'p', 'e', 'n'], by decide⟩
  | fs .fsClose => ⟨ascii ['f', 's', '.', 'c', 'l', 'o', 's', 'e'], by decide⟩
  | fs .fsRead => ⟨ascii ['f', 's', '.', 'r', 'e', 'a', 'd'], by decide⟩
  | fs .fsHash => ⟨ascii ['f', 's', '.', 'h', 'a', 's', 'h'], by decide⟩
  | fs .fsWrite => ⟨ascii ['f', 's', '.', 'w', 'r', 'i', 't', 'e'], by decide⟩
  | fs .fsLseek => ⟨ascii ['f', 's', '.', 'l', 's', 'e', 'e', 'k'], by decide⟩
  | fs .fsIoctl => ⟨ascii ['f', 's', '.', 'i', 'o', 'c', 't', 'l'], by decide⟩
  | fs .fsCleanup => ⟨ascii ['f', 's', '.', 'c', 'l', 'e', 'a', 'n', 'u', 'p'], by decide⟩
  | rubicInfo => ⟨ascii ['r', 'u', 'b', 'i', 'c', '.', 'i', 'n', 'f', 'o'], by decide⟩
  | rubicQueue => ⟨ascii ['r', 'u', 'b', 'i', 'c', '.', 'q', 'u', 'e', 'u', 'e'], by decide⟩
  | rubicStatus => ⟨ascii ['r', 'u', 'b', 'i', 'c', '.', 's', 't', 'a', 't', 'u', 's'], by decide⟩
  | rubicProgHash =>
    ⟨ascii ['r', 'u', 'b', 'i', 'c', '.', 'p', 'r', 'o', 'g', '.', 'h', 'a', 's', 'h'], by decide⟩
  | rubicProgWrite =>
    ⟨ascii ['r', 'u', 'b', 'i', 'c', '.', 'p', 'r', 'o', 'g', '.', 'w', 'r', 'i', 't', 'e'],
      by decide⟩
  | rubicProgReset =>
    ⟨ascii ['r', 'u', 'b', 'i', 'c', '.', 'p', 'r', 'o', 'g', '.', 'r', 'e', 's', 'e', 't'],
      by decide⟩

def Method.all : List Method :=
  [.fs .fsOpen, .fs .fsClose, .fs .fsRead, .fs .fsHash, .fs .fsWrite, .fs .fsLseek, .fs .fsIoctl,
    .fs .fsCleanup, .rubicInfo, .rubicQueue, .rubicStatus, .rubicProgHash, .rubicProgWrite,
    .rubicProgReset]

def methodNamed (name : CString) : Option Method := Method.all.find? (·.name = name)

theorem methodNamed_name (method : Method) : methodNamed method.name = some method := by
  cases method with
  | fs method => cases method <;> decide
  | _ => decide

/-- The functions of these methods use `params`. -/
def Method.looks : Method → Bool
  | fs .fsCleanup | rubicInfo | rubicStatus | rubicProgReset => false
  | _ => true

/-! ## Looks into `params` -/

def keyTid : CString := ⟨ascii ['t', 'i', 'd'], by decide⟩

def keyRuntime : CString := ⟨ascii ['r', 'u', 'n', 't', 'i', 'm', 'e'], by decide⟩

def keyFile : CString := ⟨ascii ['f', 'i', 'l', 'e'], by decide⟩

def keySource : CString := ⟨ascii ['s', 'o', 'u', 'r', 'c', 'e'], by decide⟩

def keyDebug : CString := ⟨ascii ['d', 'e', 'b', 'u', 'g'], by decide⟩

/-- What the functions find around them: the entries and the algorithms of the file system, the
flash, whether there is memory for a block of it, and variables that are not initialised. -/
structure Build where
  entries : List PathEntry
  digests : List HashMethod
  flash : Flash.OnchipFlashDev
  memory : Bool
  stale : CString → ℤ

inductive AgentSaid
  /-- `bson_get_props(NULL, ...)`. -/
  | nullProps
  | prog (c : ProgSays)
  deriving DecidableEq

abbrev AgentProg := Dialog AgentSaid (BitVec 32)

/-- The first look into `params`. Behind it, `params` is not `NULL`. -/
def document (params : Option Mem) : AgentProg Mem :=
  match params with
  | none => do
    let _ ← ask .nullProps
    fault
  | some params => return params

/-- `bson_get_props`, whose result is ignored: the offsets that it has stored. -/
def storedProps (b : Build) (params : Mem) (names : List CString) : Access Keys := do
  return (← bsonGetProps params (names.map fun name => (name, b.stale name))).2

def emptyString : CString := ⟨[], CString.nil_noNul⟩

/-- The string `name` of a request, `""` if there is none. -/
def getName (b : Build) (params : Mem) : Access CString := do
  let keys ← storedProps b params [keyName]
  getMethod params (offAt keys 0)

/-- A string of a request, or `NULL`. -/
def getString (params : Mem) (off : ℤ) : Access (Option CString) := do
  match ← bsonGetString (some params) off with
  | some p => return some (← stringAt params p)
  | none => return none

/-- The beginning of `rubic_agent_method_queue`, up to its first lock. It looks for `name` only
behind `tid`. -/
def queueEntry (b : Build) (n : ℕ) (params : Mem) : Access (CallPc n) := do
  let keys ← storedProps b params [keyTid]
  let tid ← bsonGetInt32 (some params) (offAt keys 0) (-1)
  let name ← if 0 ≤ tid ∧ tid < n then some emptyString else getName b params
  return enterQueue n ⟨tid, name, none, none, none, 0⟩

/-- The job that `worker_thread` takes from a request. -/
def workerJob (b : Build) (runtimes : List CString) (params : Mem) : Access Job := do
  let keys ← storedProps b params [keyRuntime, keyFile, keySource, keyDebug]
  let runtime ← getString params (offAt keys 0)
  let file ← getString params (offAt keys 1)
  let source ← if file.isSome then some none else getString params (offAt keys 2)
  let debug ← bsonGetBoolean (some params) (offAt keys 3) 0
  return Params.job runtimes ⟨-1, emptyString, runtime, file, source, debug⟩

/-- What looks into `params`. -/
inductive Reader
  | method (method : Method)
  | workerThread
  | cooperate
  deriving DecidableEq, Repr

/-- It never says `bson_get_props(NULL, ...)`. Of the functions that do not use `params`, there is
nothing to say. -/
def Reader.NeverNull (b : Build) (cfg : Config) (n : ℕ) (params : Option Mem) : Reader → Prop
  | .method (.fs m) => ClientFs.NeverNull (m.call b.entries b.digests params)
  | .method .rubicQueue =>
    (document params >>= fun params => Dialog.access (queueEntry b n params)).OnlySays
      (· ≠ .nullProps)
  | .method .rubicProgHash =>
    (document params >>= fun params =>
      Dialog.access (Flash.rubicAgentMethodProgHash b.flash b.memory params)).OnlySays
        (· ≠ .nullProps)
  | .method .rubicProgWrite =>
    (document params >>= fun params =>
      (rubicAgentMethodProgWrite params).relabel .prog id).OnlySays (· ≠ .nullProps)
  | .method .rubicInfo | .method .rubicStatus | .method .rubicProgReset => True
  | .workerThread =>
    (document params >>= fun params => Dialog.access (workerJob b cfg.runtimes params)).OnlySays
      (· ≠ .nullProps)
  | .cooperate =>
    (document params >>= fun params => Dialog.access (getName b params)).OnlySays (· ≠ .nullProps)

def Reader.looks : Reader → Bool
  | .method m => m.looks
  | .workerThread | .cooperate => true

section Looks

variable {b : Build} {cfg : Config} {n : ℕ} {params : Option Mem}

theorem document_neverNull_iff {α : Type} {f : Mem → AgentProg α}
    (hf : ∀ params, (f params).OnlySays (· ≠ .nullProps)) :
    (document params >>= f).OnlySays (· ≠ .nullProps) ↔ params.isSome = true := by
  cases params with
  | none => exact iff_of_false (fun h => h.1 rfl) Bool.false_ne_true
  | some params => exact iff_of_true (hf params) rfl

/-- **One look.** Without a document, whatever looks passes `NULL` on. -/
theorem Reader.neverNull_iff (r : Reader) :
    r.NeverNull b cfg n params ↔ params.isSome = true ∨ r.looks = false := by
  cases r with
  | method m =>
    cases m with
    | fs m =>
      refine (fsCall_neverNull_iff m params).trans (or_congr_right ?_)
      cases m <;> decide
    | rubicQueue | rubicProgHash =>
      refine (document_neverNull_iff fun _ => .access _).trans (or_iff_left ?_).symm
      exact nofun
    | rubicProgWrite =>
      refine (document_neverNull_iff fun _ => .relabel _ _ nofun).trans (or_iff_left ?_).symm
      exact nofun
    | rubicInfo | rubicStatus | rubicProgReset => exact iff_of_true trivial (.inr rfl)
  | workerThread | cooperate =>
    refine (document_neverNull_iff fun _ => .access _).trans (or_iff_left ?_).symm
    exact nofun

end Looks

/-! ## The firmware -/

/-- The service with the methods that are registered, and the jobs of the requests. -/
structure Service where
  env : Surroundings
  registered : List Method
  handler : Method → Handler
  methods_eq : env.methods = registered.map fun method => ⟨method.name, handler method⟩
  jobs : Ctx → Mem

namespace Service

variable {srv : Service} {c : Ctx}

/-- The method that a request calls, and what `params` points to. -/
def called (srv : Service) (c : Ctx) : Option (Method × Option Mem) := do
  let (entry, p) ← (callee srv.env (srv.jobs c)).join
  let method ← methodNamed entry.name
  return (method, p.map fun p => (srv.jobs c).drop p.toNat)

/-- `context->params`. -/
def params (srv : Service) (c : Ctx) : Option Mem := (srv.called c).bind (·.2)

/-- A request for a method that looks has a document. -/
def Supplied (srv : Service) (c : Ctx) : Prop :=
  ∀ method params, srv.called c = some (method, params) →
    params.isSome = true ∨ method.looks = false

/-- What the service calls is the function of a registered method. -/
theorem called_of_callee {entry : MethodEntry} {p : Option ℤ}
    (h : callee srv.env (srv.jobs c) = some (some (entry, p))) :
    ∃ method ∈ srv.registered,
      srv.called c = some (method, p.map fun p => (srv.jobs c).drop p.toNat) ∧
        ∃ offId, peridotRpcServerService srv.env (srv.jobs c) =
          callMethod srv.env (srv.jobs c) offId p (srv.handler method) := by
  have hmem := mem_methods_of_callee h
  have hservice := service_of_callee h
  rw [srv.methods_eq] at hmem
  obtain ⟨method, hmethod, rfl⟩ := List.mem_map.mp hmem
  refine ⟨method, hmethod, ?_, hservice⟩
  simp only [called, h, Option.join_some, methodNamed_name, Option.bind_eq_bind, Option.bind_some,
    Option.pure_def]

theorem callee_of_called {method : Method} {params : Option Mem}
    (h : srv.called c = some (method, params)) :
    ∃ entry p, callee srv.env (srv.jobs c) = some (some (entry, p)) ∧
      params = p.map fun p => (srv.jobs c).drop p.toNat := by
  obtain ⟨⟨entry, p⟩, hcallee, h⟩ := Option.bind_eq_some_iff.mp h
  obtain ⟨method', -, h⟩ := Option.bind_eq_some_iff.mp h
  cases h
  exact ⟨entry, p, Option.join_eq_some_iff.mp hcallee, rfl⟩

/-- A well-formed request for a method that looks is supplied if its `params` is a document or an
array. -/
theorem supplied_iff {es : List Element} {method : Method} {params : Option Mem}
    (hdoc : IsDocument (srv.jobs c) es) (hscope : ScopeHarmless es serviceKeys)
    (h : srv.called c = some (method, params)) :
    srv.Supplied c ↔ HasParams es ∨ method.looks = false := by
  obtain ⟨entry, p, hcallee, hp⟩ := callee_of_called h
  have hsome : params.isSome = true ↔ HasParams es := by
    rw [hp, Option.isSome_map]
    exact params_isSome_iff hdoc hscope hcallee
  rw [← hsome]
  constructor
  · exact fun hsupplied => hsupplied method params h
  · intro hsupplied method' params' h'
    cases h.symm.trans h'
    exact hsupplied

theorem params_eq {method : Method} {params : Option Mem}
    (h : srv.called c = some (method, params)) : srv.params c = params := by
  rw [Service.params, h]
  rfl

end Service

/-- The agent, and a record of what has looked into which `params`. -/
structure Firmware (n : ℕ) where
  agent : Agent n
  log : List (Reader × Option Mem)

/-- A step: the service takes a job, or the agent goes on. -/
inductive FirmwareEvent (n : ℕ)
  | serve (c : Ctx)
  | thread (i : Fin n) (input : Input)
  | call (c : Ctx)

/-- The look of the next step of a worker, and the request. -/
def Worker.look (w : Worker) : Option (Reader × Ctx) :=
  match w.pc, w.localContext with
  | .unlockRequest, some c => some (.workerThread, c)
  | .cooperate (.clear c), _ => some (.cooperate, c)
  | _, _ => none

/-- What a worker looks at, it has been given. -/
theorem Worker.look_mentions {w : Worker} {r : Reader} {c : Ctx} (h : w.look = some (r, c)) :
    w.Mentions c := by
  unfold Worker.look at h
  split at h
  next c' _ hlocal =>
    cases h
    exact .inr (.inr (.inl hlocal))
  next c' hpc =>
    cases h
    exact .inr (.inr (.inr (.inl (by rw [hpc]; rfl))))
  next => cases h

theorem Agent.calls_of_thread {n : ℕ} {cfg : Config} {s s' : Agent n} {i : Fin n} {input : Input}
    (h : s.step cfg (.thread i input) = some s') : s'.calls = s.calls := by
  obtain ⟨w, -, rfl⟩ := Option.map_eq_some_iff.mp h
  rfl

theorem Agent.calls_of_call {n : ℕ} {cfg : Config} {s s' : Agent n} {c c' : Ctx}
    (h : s.step cfg (.call c) = some s') (hne : c' ≠ c) : s'.calls c' = s.calls c' := by
  cases Step.of_step h with
  | enter _ henter => exact setCall_of_ne s hne _
  | call _ i pc w hstep => exact setCall_of_ne s hne _

namespace Firmware

variable {n : ℕ}

def initial (n : ℕ) (autoboot : Bool) : Firmware n := ⟨.initial n autoboot, []⟩

/-- One step. The agent goes on as in `cfg`, whatever the documents hold. -/
def step (srv : Service) (cfg : Config) (s : Firmware n) : FirmwareEvent n → Option (Firmware n)
  | .serve c =>
    match srv.called c with
    | none => some s
    | some (.rubicQueue, params) =>
      if s.agent.calls c = .enter then
        (s.agent.step cfg (.call c)).map fun agent =>
          ⟨agent, s.log ++ [(.method .rubicQueue, params)]⟩
      else none
    | some (method, params) => some { s with log := s.log ++ [(.method method, params)] }
  | .thread i input =>
    (s.agent.step cfg (.thread i input)).map fun agent =>
      ⟨agent, s.log ++ (s.agent.workers i).look.toList.map fun r => (r.1, srv.params r.2)⟩
  | .call c =>
    if s.agent.calls c = .enter then none
    else (s.agent.step cfg (.call c)).map fun agent => { s with agent := agent }

/-- What is known behind the events: all looks are those of the requests that have been served. -/
structure Inv (srv : Service) (s : Firmware n) (es : List (FirmwareEvent n)) : Prop where
  stored : s.agent.Stored
  calls : ∀ c, s.agent.calls c ≠ .enter →
    .serve c ∈ es ∧ ∃ params, srv.called c = some (.rubicQueue, params)
  served : ∀ c method params, .serve c ∈ es → srv.called c = some (method, params) →
    (.method method, params) ∈ s.log
  logged : ∀ x ∈ s.log, ∃ c method, .serve c ∈ es ∧ srv.called c = some (method, x.2) ∧
    (x.1.looks = true → method.looks = true)

section Run

variable {srv : Service} {cfg : Config} {s s' : Firmware n} {es : List (FirmwareEvent n)}
  {e : FirmwareEvent n} {c : Ctx}

theorem inv_initial (autoboot : Bool) : Inv srv (initial n autoboot) [] where
  stored := Agent.stored_initial n autoboot
  calls _ h := absurd rfl h
  served _ _ _ h := absurd h List.not_mem_nil
  logged _ h := absurd h List.not_mem_nil

/-- A step that looks at nothing. -/
theorem Inv.quiet {agent : Agent n} (h : Inv srv s es) (hstored : agent.Stored)
    (hcalls : ∀ c, agent.calls c ≠ .enter → s.agent.calls c ≠ .enter)
    (he : ∀ c, e = .serve c → srv.called c = none) :
    Inv srv { s with agent := agent } (es ++ [e]) where
  stored := hstored
  calls c hc := ⟨List.mem_append_left _ (h.calls c (hcalls c hc)).1, (h.calls c (hcalls c hc)).2⟩
  served c method params hc hcalled := by
    rcases List.mem_append.mp hc with hc | hc
    · exact h.served c method params hc hcalled
    · cases (he c (List.mem_singleton.mp hc).symm).symm.trans hcalled
  logged x hx := by
    obtain ⟨c, method, hc, hrest⟩ := h.logged x hx
    exact ⟨c, method, List.mem_append_left _ hc, hrest⟩

/-- The service calls a method. -/
theorem Inv.serve {agent : Agent n} {method : Method} {params : Option Mem} (h : Inv srv s es)
    (hstored : agent.Stored) (hcalled : srv.called c = some (method, params))
    (hcalls : ∀ c', agent.calls c' ≠ .enter →
      s.agent.calls c' ≠ .enter ∨ c' = c ∧ method = .rubicQueue) :
    Inv srv ⟨agent, s.log ++ [(.method method, params)]⟩ (es ++ [.serve c]) where
  stored := hstored
  calls c' hc' := by
    rcases hcalls c' hc' with hc' | ⟨rfl, rfl⟩
    · exact ⟨List.mem_append_left _ (h.calls c' hc').1, (h.calls c' hc').2⟩
    · exact ⟨List.mem_append_right _ (List.mem_singleton.mpr rfl), params, hcalled⟩
  served c' method' params' hc' hcalled' := by
    rcases List.mem_append.mp hc' with hc' | hc'
    · exact List.mem_append_left _ (h.served c' method' params' hc' hcalled')
    · cases List.mem_singleton.mp hc'
      cases hcalled.symm.trans hcalled'
      exact List.mem_append_right _ (List.mem_singleton.mpr rfl)
  logged x hx := by
    rcases List.mem_append.mp hx with hx | hx
    · obtain ⟨c', method', hc', hrest⟩ := h.logged x hx
      exact ⟨c', method', List.mem_append_left _ hc', hrest⟩
    · rw [List.mem_singleton.mp hx]
      exact ⟨c, method, List.mem_append_right _ (List.mem_singleton.mpr rfl), hcalled, id⟩

/-- The thread of a worker goes on. What it looks at has come from the queue. -/
theorem Inv.thread {agent : Agent n} {i : Fin n} {input : Input} (h : Inv srv s es)
    (hstep : s.agent.step cfg (.thread i input) = some agent) :
    Inv srv ⟨agent, s.log ++ (s.agent.workers i).look.toList.map fun r => (r.1, srv.params r.2)⟩
      (es ++ [.thread i input]) := by
  have hcalls := Agent.calls_of_thread hstep
  have hquiet := h.quiet (e := .thread i input) (h.stored.step (.of_step hstep))
    (fun c hc => hcalls ▸ hc) nofun
  refine ⟨hquiet.stored, hquiet.calls, fun c method params hc hcalled => ?_, fun x hx => ?_⟩
  · exact List.mem_append_left _ (hquiet.served c method params hc hcalled)
  rcases List.mem_append.mp hx with hx | hx
  · exact hquiet.logged x hx
  obtain ⟨⟨r, c⟩, hlook, rfl⟩ := List.mem_map.mp hx
  have hstored := h.stored i c (Worker.look_mentions (Option.mem_toList.mp hlook))
  have hne : s.agent.calls c ≠ .enter := by
    intro henter
    rw [henter] at hstored
    cases hstored
  obtain ⟨hserved, params, hcalled⟩ := h.calls c hne
  refine ⟨c, .rubicQueue, List.mem_append_left _ hserved, ?_, fun _ => rfl⟩
  rw [Service.params_eq hcalled]
  exact hcalled

/-- **One step.** -/
theorem Inv.step (h : Inv srv s es) (hstep : s.step srv cfg e = some s') :
    Inv srv s' (es ++ [e]) := by
  cases e with
  | thread i input =>
    obtain ⟨agent, hagent, rfl⟩ := Option.map_eq_some_iff.mp hstep
    exact h.thread hagent
  | call c =>
    rw [Firmware.step] at hstep
    split_ifs at hstep with henter
    obtain ⟨agent, hagent, rfl⟩ := Option.map_eq_some_iff.mp hstep
    refine h.quiet (h.stored.step (.of_step hagent)) (fun c' hc' => ?_) nofun
    rcases eq_or_ne c' c with rfl | hne
    · exact henter
    · rwa [Agent.calls_of_call hagent hne] at hc'
  | serve c =>
    rw [Firmware.step] at hstep
    split at hstep
    next hnone =>
      cases hstep
      refine h.quiet h.stored (fun _ hc => hc) ?_
      rintro _ ⟨⟩
      exact hnone
    next params hcalled =>
      split_ifs at hstep with henter
      obtain ⟨agent, hagent, rfl⟩ := Option.map_eq_some_iff.mp hstep
      refine h.serve (h.stored.step (.of_step hagent)) hcalled fun c' hc' => ?_
      rcases eq_or_ne c' c with rfl | hne
      · exact .inr ⟨rfl, rfl⟩
      · rw [Agent.calls_of_call hagent hne] at hc'
        exact .inl hc'
    next method params _ hcalled =>
      cases hstep
      exact h.serve h.stored hcalled fun _ hc => .inl hc

/-- **A run.** -/
theorem inv_of_path {autoboot : Bool}
    (h : Path (Firmware.step srv cfg) anyStep (initial n autoboot) es s) : Inv srv s es := by
  induction h with
  | nil => exact inv_initial autoboot
  | snoc _ _ hstep ih => exact ih.step hstep

end Run

end Firmware

/-- **Missing documents.** In every run, `bson_get_props` is never called with `NULL` if and only if
every request that the service has taken has a document if its method looks for one. -/
theorem no_null_look_iff (b : Build) (srv : Service) (cfg : Config) (n : ℕ) (autoboot : Bool)
    (es : List (FirmwareEvent n)) (s : Firmware n)
    (h : Path (Firmware.step srv cfg) anyStep (.initial n autoboot) es s) :
    (∀ x ∈ s.log, x.1.NeverNull b cfg n x.2) ↔ ∀ c, .serve c ∈ es → srv.Supplied c := by
  have hinv := Firmware.inv_of_path h
  constructor
  · intro hlog c hc method params hcalled
    exact (Reader.method method).neverNull_iff.mp (hlog _ (hinv.served c method params hc hcalled))
  · intro hsupplied x hx
    obtain ⟨c, method, hc, hcalled, hlooks⟩ := hinv.logged x hx
    refine x.1.neverNull_iff.mpr ((hsupplied c hc method x.2 hcalled).imp_right fun hno => ?_)
    exact Bool.eq_false_of_not_eq_true fun hx => Bool.false_ne_true (hno.symm.trans (hlooks hx))

/-! ## The failing request -/

/-- All methods are registered, and all of them succeed. -/
def serviceOf (job : Mem) : Service where
  env := plentiful (Method.all.map fun method =>
    ⟨method.name, if method = .rubicQueue then .async fun _ _ => 0 else .sync fun _ _ => (none, 0)⟩)
  registered := Method.all
  handler method :=
    if method = .rubicQueue then .async fun _ _ => 0 else .sync fun _ _ => (none, 0)
  methods_eq := rfl
  jobs _ := job

/-- A request to `rubic.queue`, with `params` or without. -/
def queueRequest (params : List Element) : Mem :=
  encodeDocument (.mk keyJsonrpc (.string jsonrpcVer.bytes) ::
    .mk keyMethod (.string Method.rubicQueue.name.bytes) :: params)

/-- A request to start a script. -/
def startRequest : Mem :=
  queueRequest [.mk keyParams (.document [.mk keyName (.string startName.bytes),
    .mk keySource (.string startName.bytes)])]

/-- The request is taken, queued, and read by the only worker. -/
def startEvents : List (FirmwareEvent 1) :=
  List.replicate 5 (.thread ⟨0, Nat.one_pos⟩ .none) ++ [.serve 2] ++
    List.replicate 6 (.call 2) ++ List.replicate 5 (.thread ⟨0, Nat.one_pos⟩ .none)

def plainBuild : Build where
  entries := []
  digests := [hashMd5, hashCrc32 Digest.crc32Table]
  flash := Flash.OnchipFlashDev.ufmData
  memory := true
  stale _ := 0

/-- `no_null_look_iff` of a run in which a script is started. -/
theorem no_null_look_iff_start : ∃ s : Firmware 1, s.log.length = 2 ∧
    ((∀ x ∈ s.log, x.1.NeverNull plainBuild startAndTid 1 x.2) ↔
      ∀ c, .serve c ∈ startEvents → (serviceOf startRequest).Supplied c) := by
  have hrun : (exec (Firmware.step (serviceOf startRequest) startAndTid) anyStep
      (.initial 1 false) startEvents).map (·.log.length) = some 2 := by decide +kernel
  obtain ⟨s, hs, hlog⟩ := Option.map_eq_some_iff.mp hrun
  exact ⟨s, hlog, no_null_look_iff _ _ _ _ _ _ _ (path_of_exec hs)⟩

/-- Without `params`, `rubic_agent_method_queue` passes `NULL` on. -/
theorem not_no_null_look : ¬ ∀ (b : Build) (srv : Service) (cfg : Config) (n : ℕ) (autoboot : Bool)
    (es : List (FirmwareEvent n)) (s : Firmware n),
    Path (Firmware.step srv cfg) anyStep (.initial n autoboot) es s →
    ∀ x ∈ s.log, x.1.NeverNull b cfg n x.2 := by
  intro hall
  have hrun : (exec (Firmware.step (serviceOf (queueRequest [])) startAndTid) anyStep
      (.initial 1 false) [.serve 2]).map (·.log) = some [(.method .rubicQueue, none)] := by
    decide +kernel
  obtain ⟨s, hs, hlog⟩ := Option.map_eq_some_iff.mp hrun
  have hmem : (.method .rubicQueue, none) ∈ s.log := by
    rw [hlog]
    exact List.mem_singleton.mpr rfl
  have hnever := hall plainBuild _ _ _ _ _ _ (path_of_exec hs) _ hmem
  rcases (Reader.neverNull_iff _).mp hnever with hsome | hlooks
  · cases hsome
  · cases hlooks

end OlivePiccolo.RubicAgent
