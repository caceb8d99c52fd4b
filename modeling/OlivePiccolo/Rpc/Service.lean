import OlivePiccolo.Bson.Writer
import OlivePiccolo.Rpc.Sink

/-!
# The RPC service

`peridot_rpc_server_service` takes a job, calls the method that it names and replies to it. A job is
the memory from the first byte of its data on. What the service does to the heap and the packets that
it sends are `Effect`s, in their order.
-/

namespace OlivePiccolo.Rpc

open Bson

/-! ## Names and numbers -/

/-- The bytes of a string literal. -/
def ascii (l : List Char) : List UInt8 := l.map fun c => UInt8.ofNat c.toNat

def keyJsonrpc : CString := ⟨ascii ['j', 's', 'o', 'n', 'r', 'p', 'c'], by decide⟩

def keyMethod : CString := ⟨ascii ['m', 'e', 't', 'h', 'o', 'd'], by decide⟩

def keyParams : CString := ⟨ascii ['p', 'a', 'r', 'a', 'm', 's'], by decide⟩

def keyId : CString := ⟨ascii ['i', 'd'], by decide⟩

def keyResult : CString := ⟨ascii ['r', 'e', 's', 'u', 'l', 't'], by decide⟩

def keyError : CString := ⟨ascii ['e', 'r', 'r', 'o', 'r'], by decide⟩

def keyCode : CString := ⟨ascii ['c', 'o', 'd', 'e'], by decide⟩

/-- `PERIDOT_RPCSRV_JSONRPC_VER`. -/
def jsonrpcVer : CString := ⟨ascii ['2', '.', '0'], by decide⟩

/-- `JSONRPC_ERR_PARSE_ERROR`. -/
def errParseError : BitVec 32 := BitVec.ofInt 32 (-32700)

/-- `JSONRPC_ERR_INVALID_REQUEST`. -/
def errInvalidRequest : BitVec 32 := BitVec.ofInt 32 (-32600)

/-- `JSONRPC_ERR_METHOD_NOT_FOUND`. -/
def errMethodNotFound : BitVec 32 := BitVec.ofInt 32 (-32601)

/-- `JSONRPC_ERR_INTERNAL_ERROR`. -/
def errInternalError : BitVec 32 := BitVec.ofInt 32 (-32603)

/-! ## The code -/

/-- The function of a method, given the job and the pointer `params` into it. A synchronous one
returns the result, and leaves a value in `errno`; an asynchronous one returns an error. -/
inductive Handler
  | sync (call : Mem → Option ℤ → Option Mem × BitVec 32)
  | async (call : Mem → Option ℤ → BitVec 32)

/-- `peridot_rpc_server_method_entry`. -/
structure MethodEntry where
  name : CString
  handler : Handler

/-- What the service finds around it: the registered methods, what the calls of `malloc` of one reply
return, and variables that are not initialised. -/
structure Surroundings where
  methods : List MethodEntry
  malloc : ℕ → ℕ → Option Mem
  errorDoc : Mem
  offJsonrpc : ℤ
  offMethod : ℤ
  offParams : ℤ
  offId : ℤ
  /-- `malloc` returns as much memory as it is asked for, and never half of the address space. -/
  malloc_length : ∀ i n m, malloc i n = some m → m.length = n ∧ n < 2 ^ 31
  errorDoc_length : errorDoc.length = 16

/-- Memory for everything. -/
def plentiful (methods : List MethodEntry) : Surroundings where
  methods := methods
  malloc _ n := if n < 2 ^ 31 then some (List.replicate n 0) else none
  errorDoc := List.replicate 16 0
  offJsonrpc := 0
  offMethod := 0
  offParams := 0
  offId := 0
  malloc_length i n m h := by
    split_ifs at h with hn
    cases h
    exact ⟨List.length_replicate, hn⟩
  errorDoc_length := List.length_replicate

/-- What the service does. -/
inductive Effect
  /-- `free(job)`. -/
  | freeJob
  /-- `free(result)`, not of `NULL`. -/
  | freeResult
  /-- `free(output)`. -/
  | freeOutput
  /-- `peridot_sw_hostbridge_gen2_source` of a packet with these bytes. -/
  | source (bytes : List UInt8)
  deriving DecidableEq, Repr

/-- `free(result)`. -/
def freeResult (result : Option Mem) : List Effect := if result.isSome then [.freeResult] else []

/-- The document after a call of a writer. -/
def written (w : Written) : Access Mem := w.bind Prod.fst

/-- The error document, for an error. -/
def makeErrorDoc (errorDoc : Mem) (resultErrno : BitVec 32) : Access Mem :=
  if resultErrno = 0 then some errorDoc
  else do
    let doc ← bsonCreateEmptyDocument errorDoc
    written (bsonSetInt32 (some doc) keyCode resultErrno)

/-- The last element of the reply, measured: the result, or the error. -/
def measureAnswer (result : Option Mem) (errorDoc : Mem) (resultErrno : BitVec 32) : Access ℤ :=
  if resultErrno = 0 then
    match result with
    | some result => bsonMeasureSubdocument keyResult result
    | none => bsonMeasureNull keyResult
  else bsonMeasureSubdocument keyError errorDoc

/-- The last element of the reply, set: the result, or the error. -/
def setAnswer (output : Mem) (result : Option Mem) (errorDoc : Mem) (resultErrno : BitVec 32) :
    Access Mem :=
  if resultErrno = 0 then
    match result with
    | some result => written (bsonSetSubdocument (some output) keyResult result)
    | none => written (bsonSetNull (some output) keyResult)
  else written (bsonSetSubdocument (some output) keyError errorDoc)

/-- `reply_len`, measured. -/
def replyLen (job : Mem) (offId : ℤ) (result : Option Mem) (errorDoc : Mem)
    (resultErrno : BitVec 32) : Access ℤ := do
  let jsonrpc ← bsonMeasureString keyJsonrpc jsonrpcVer
  let id ← bsonMeasureElement keyId (some job) offId
  let answer ← measureAnswer result errorDoc resultErrno
  return (5 + jsonrpc + id + answer).bmod (2 ^ 32)

/-- The reply, built in the output buffer. -/
def buildReply (output job : Mem) (offId : ℤ) (result : Option Mem) (errorDoc : Mem)
    (resultErrno : BitVec 32) : Access Mem := do
  let output ← bsonCreateEmptyDocument output
  let output ← written (bsonSetString (some output) keyJsonrpc jsonrpcVer)
  let output ← written (bsonSetElement (some output) keyId (some job) offId)
  setAnswer output result errorDoc resultErrno

/-- `send_reply`, from the label `reply` on: `none` if there is no memory for the output. -/
def attempt (env : Surroundings) (i : ℕ) (job : Mem) (offId : ℤ) (result : Option Mem)
    (resultErrno : BitVec 32) : Access (Option (List Effect)) := do
  let errorDoc ← makeErrorDoc env.errorDoc resultErrno
  let len ← replyLen job offId result errorDoc resultErrno
  match env.malloc i (len % 2 ^ 32).toNat with
  | none => return none
  | some output =>
    let output ← buildReply output job offId result errorDoc resultErrno
    let bytes ← output.readBytes 0 len
    let freed := if resultErrno = 0 then freeResult result else []
    return some ([.freeJob] ++ freed ++ [.source bytes, .freeOutput])

/-- `send_reply`. Without memory for a result, it tries again with an error. -/
def sendReply (env : Surroundings) (job : Mem) (offId : ℤ) (result : Option Mem)
    (resultErrno : BitVec 32) : Access (List Effect) := do
  match ← attempt env 0 job offId result resultErrno with
  | some effects => return effects
  | none =>
    if resultErrno ≠ 0 then return [.freeJob]
    else
      match ← attempt env 1 job offId none errInternalError with
      | some effects => return freeResult result ++ effects
      | none => return freeResult result ++ [.freeJob]

/-- `peridot_rpc_server_find_method`. -/
def findMethod (job : Mem) (name : ℤ) : List MethodEntry → Access (Option MethodEntry)
  | [] => some none
  | entry :: entries => do
    if ← job.strcmpEq name entry.name.bytes then return some entry
    else findMethod job name entries

/-- `strcmp(s, PERIDOT_RPCSRV_JSONRPC_VER) == 0`, for the default value `""`, too. -/
def isJsonrpcVer (job : Mem) (s : Option ℤ) : Access Bool :=
  match s with
  | none => some false
  | some p => job.strcmpEq p jsonrpcVer.bytes

/-- The end of `peridot_rpc_server_service`: a notification is not replied to. -/
def finish (env : Surroundings) (job : Mem) (offId : ℤ) (result : Option Mem)
    (errno : BitVec 32) : Access (List Effect) :=
  if offId < 0 then some (freeResult result ++ [.freeJob])
  else sendReply env job offId result (if result.isSome then 0 else errno)

/-- The call of a method. An asynchronous one that has been queued keeps the job. -/
def callMethod (env : Surroundings) (job : Mem) (offId : ℤ) (params : Option ℤ) (h : Handler) :
    Access (List Effect) :=
  match h with
  | .sync call => finish env job offId (call job params).1 (call job params).2
  | .async call =>
    if call job params = 0 then some [] else finish env job offId none (call job params)

/-- `peridot_rpc_server_service`, with a job. -/
def peridotRpcServerService (env : Surroundings) (job : Mem) : Access (List Effect) := do
  let (found, keys) ← bsonGetProps job [(keyJsonrpc, env.offJsonrpc), (keyMethod, env.offMethod),
    (keyParams, env.offParams), (keyId, env.offId)]
  let off i := (keys.getD i (keyId, -1)).2
  if found ≤ 0 then sendReply env job (off 3) none errParseError
  else
    let jsonrpc ← bsonGetString (some job) (off 0)
    if !(← isJsonrpcVer job jsonrpc) then sendReply env job (off 3) none errInvalidRequest
    else
      match ← bsonGetString (some job) (off 1) with
      | none => sendReply env job (off 3) none errInvalidRequest
      | some method =>
        match ← findMethod job method env.methods with
        | none => finish env job (off 3) none errMethodNotFound
        | some entry =>
          callMethod env job (off 3) (← bsonGetSubdocument (some job) (off 2)) entry.handler

/-- The packets that are sent. -/
def packets (effects : List Effect) : List (List UInt8) :=
  effects.filterMap fun
    | .source bytes => some bytes
    | _ => none

end OlivePiccolo.Rpc
