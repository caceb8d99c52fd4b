import OlivePiccolo.Library.Dialog
import OlivePiccolo.Library.StringSearch
import OlivePiccolo.RubicAgent.Queue

/-!
# The boot file

`parse_boot_json` of `rubic_agent.c`: the file is read into a buffer on the stack and parsed in
place. `open`, `read`, `close` and `malloc` are behind `BootSaid`.
-/

namespace OlivePiccolo.RubicAgent

open Dialog

/-- A registered storage. Its path leaves room for the name of the boot file, as that of the callers
of `rubic_agent_register_storage` does. -/
structure Storage where
  name : CString
  path : CString
  room : path.bytes.length ≤ 245
  deriving DecidableEq, Repr

/-- `"/boot.json"`. -/
def BOOT_JSON : List UInt8 := [47, 98, 111, 111, 116, 46, 106, 115, 111, 110]

/-- `"internal"`. -/
def INTERNAL : CString := ⟨[105, 110, 116, 101, 114, 110, 97, 108], by decide⟩

/-- `"/mnt/internal"`, the mount point that `main.c` registers. -/
def Storage.internal : Storage where
  name := INTERNAL
  path := ⟨[47, 109, 110, 116, 47, 105, 110, 116, 101, 114, 110, 97, 108], by decide⟩
  room := by decide

/-- `"\t\r\n "`. -/
def JSON_SPACES : List UInt8 := [9, 13, 10, 32]

/-- `"runtime"`. -/
def RUNTIME : List UInt8 := [114, 117, 110, 116, 105, 109, 101]

/-- `"file"`. -/
def FILE : List UInt8 := [102, 105, 108, 101]

def RUNNER_FLAG_FILE : ℕ := 1
def RUNNER_FLAG_AUTOBOOT : ℕ := 8

/-- What the code says to the outside. -/
inductive BootSaid
  | open (path : List UInt8)
  | read (n : ℕ)
  | close
  | malloc (n : ℕ)
  deriving DecidableEq, Repr

/-- The result of a call, 0 for a `NULL`, and the bytes that `read` stores. -/
structure BootReply where
  result : ℤ
  data : List UInt8
  deriving DecidableEq, Repr

/-- What `parse_boot_json` returns: a path or `NULL`, `*pruntime` and `*pflags`. -/
structure Boot where
  path : Option (List UInt8)
  runtime : Option ℕ
  flags : ℕ
  deriving DecidableEq, Repr

/-- `strskip`. -/
def strskip (m : Mem) (s : ℕ) (skip : List UInt8) : Access ℕ :=
  (m.strpbrk s skip).bind fun first =>
    if first = some s then (m.strspn s skip).map (s + ·) else some s

/-- `find_runtime`, of a string in memory. -/
def findRuntimeAt (m : Mem) (name : ℕ) : List CString → Access (Option ℕ)
  | [] => some none
  | runtime :: runtimes => (m.strcmpEq name runtime.bytes).bind fun eq =>
    if eq then some (some 0) else (findRuntimeAt m name runtimes).map (Option.map (· + 1))

/-! ## The parser -/

/-- The variables of the parser. -/
structure Parse where
  buffer : Mem
  input : ℕ
  file : Option ℕ
  runtime : Option ℕ
  deriving DecidableEq, Repr

/-- What follows a round: another one, the end of the JSON, or `syntax_error`. -/
inductive Next
  | again (s : Parse)
  | closed (s : Parse)
  | syntaxError (s : Parse)
  deriving DecidableEq, Repr

/-- The check behind a value. -/
def Parse.separator (s : Parse) : Dialog BootSaid BootReply Next := do
  let c ← access s.buffer[s.input]?
  if c = 125 then return .closed s
  else
    let c ← access s.buffer[s.input + 1]?
    if c ≠ 44 then return .syntaxError s
    else return .again { s with input := s.input + 2 }

/-- The loop that goes to the end of a string: where its quote is. -/
def stringLoop (buffer : Mem) : ℕ → ℕ → Dialog BootSaid BootReply (Option ℕ)
  | 0, _ => late
  | rounds + 1, input => do
    match ← access (buffer.strpbrk input [92, 34]) with
    | none => return none
    | some input =>
      let c ← access buffer[input]?
      if c = 34 then return some input
      else if c = 92 then stringLoop buffer rounds (input + 2)
      else stringLoop buffer rounds input

/-- A value that is a string, from `val` to the quote at `input`. -/
def Parse.stringValue (s : Parse) (runtimes : List CString) (key val : ℕ) (input : ℕ) :
    Dialog BootSaid BootReply Next := do
  let buffer ← access (s.buffer.poke input 0)
  let input ← access (strskip buffer (input + 1) JSON_SPACES)
  let isRuntime ← access (buffer.strcmpEq key RUNTIME)
  if isRuntime then
    let runtime ← access (findRuntimeAt buffer val runtimes)
    Parse.separator { s with buffer := buffer, input := input, runtime := runtime }
  else
    let isFile ← access (buffer.strcmpEq key FILE)
    if isFile then Parse.separator { s with buffer := buffer, input := input, file := some val }
    else Parse.separator { s with buffer := buffer, input := input }

/-- A value. A string has at most 256 escapes in the buffer. -/
def Parse.value (s : Parse) (runtimes : List CString) (key : ℕ) :
    Dialog BootSaid BootReply Next := do
  let c ← access s.buffer[s.input]?
  if c ≠ 34 then
    match ← access (s.buffer.strpbrk (s.input + 1) [123, 125, 91, 93, 44]) with
    | none => return .syntaxError s
    | some input => Parse.separator { s with input := input }
  else
    match ← stringLoop s.buffer 256 (s.input + 1) with
    | none => return .syntaxError s
    | some input => s.stringValue runtimes key (s.input + 1) input

/-- A round of the loop over the members. -/
def Parse.member (s : Parse) (runtimes : List CString) : Dialog BootSaid BootReply Next := do
  let input ← access (strskip s.buffer s.input JSON_SPACES)
  let c ← access s.buffer[input]?
  if c ≠ 34 then return .syntaxError s
  else
    let key := input + 1
    match ← access (s.buffer.strchr key 34) with
    | none => return .syntaxError s
    | some input =>
      let buffer ← access (s.buffer.poke input 0)
      let input ← access (strskip buffer (input + 1) JSON_SPACES)
      let c ← access buffer[input]?
      if c ≠ 58 then return .syntaxError { s with buffer := buffer }
      else
        let input ← access (strskip buffer (input + 1) JSON_SPACES)
        Parse.value { s with buffer := buffer, input := input } runtimes key

/-- The loop over the members: whether it has come to the end of the JSON. -/
def parseLoop (runtimes : List CString) : ℕ → Parse → Dialog BootSaid BootReply (Bool × Parse)
  | 0, _ => late
  | rounds + 1, s => do
    match ← s.member runtimes with
    | .again s => parseLoop runtimes rounds s
    | .closed s => return (true, s)
    | .syntaxError s => return (false, s)

/-- The path that is returned: a copy of the string at `file`, with the path of the storage in front
of it if it is not a full path. -/
def fullPath (storage : Storage) (buffer : Mem) (file : ℕ) :
    Dialog BootSaid BootReply (Option (List UInt8)) := do
  let c ← access buffer[file]?
  let name ← access (buffer.stringAt file)
  if c ≠ 47 then
    let reply ← ask (.malloc (storage.path.bytes.length + 1 + name.length + 1))
    return if reply.result = 0 then none else some (storage.path.bytes ++ 47 :: name)
  else
    let reply ← ask (.malloc (name.length + 1))
    return if reply.result = 0 then none else some name

/-- From `Parse JSON` on. Every round takes some of the 256 bytes. -/
def parseBuffer (storage : Storage) (runtimes : List CString) (buffer : Mem) :
    Dialog BootSaid BootReply Boot := do
  let flags := RUNNER_FLAG_AUTOBOOT ||| RUNNER_FLAG_FILE
  let input ← access (strskip buffer 0 JSON_SPACES)
  let c ← access buffer[input]?
  if c ≠ 123 then return ⟨none, findRuntime runtimes none, flags⟩
  else
    let (closed, s) ← parseLoop runtimes 257 ⟨buffer, input + 1, none, findRuntime runtimes none⟩
    match closed, s.file with
    | true, some file =>
      let path ← fullPath storage s.buffer file
      return ⟨path, s.runtime, flags⟩
    | _, _ => return ⟨none, s.runtime, flags⟩

/-! ## The file -/

/-- The loop that reads the file: the buffer, but for an error. -/
def readLoop : ℕ → Mem → ℕ → Dialog BootSaid BootReply (Option Mem)
  | 0, _, _ => late
  | rounds + 1, buffer, i => do
    let reply ← ask (.read (255 - i))
    if reply.result < 0 then
      let _ ← ask .close
      return none
    else if reply.result = 0 then
      let _ ← ask .close
      return some buffer
    else
      let buffer ← access (buffer.pokes i reply.data)
      readLoop rounds buffer (i + reply.result.toNat)

/-- The buffer with the name of the file: `strncpy`, which writes NULs behind a short string, and
`strncat`. -/
def Storage.bootPath (storage : Storage) : Mem :=
  storage.path.bytes ++ BOOT_JSON ++ List.replicate (246 - storage.path.bytes.length) 0

/-- `parse_boot_json`. Every read but the last one takes some of the 255 bytes. -/
def parseBootJson (storages : List Storage) (runtimes : List CString) :
    Dialog BootSaid BootReply Boot := do
  let none' : Boot := ⟨none, findRuntime runtimes none, RUNNER_FLAG_AUTOBOOT ||| RUNNER_FLAG_FILE⟩
  match storages.find? (·.name = INTERNAL) with
  | none => return none'
  | some storage =>
    let fd ← ask (.open (storage.path.bytes ++ BOOT_JSON))
    if fd.result < 0 then return none'
    else
      match ← readLoop 256 storage.bootPath 0 with
      | none => return none'
      | some buffer => parseBuffer storage runtimes buffer

end OlivePiccolo.RubicAgent
