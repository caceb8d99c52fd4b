import OlivePiccolo.Bson.Shrink
import OlivePiccolo.ClientFs.Open
import OlivePiccolo.ClientFs.Table
import OlivePiccolo.Digest.Crc32
import OlivePiccolo.Digest.Md5
import OlivePiccolo.Library.Fair
import OlivePiccolo.Library.Tracking
import OlivePiccolo.Rpc.Assemble

/-!
# The methods of the file system

The functions of `peridot_client_fs.c` that are called by the RPC server, as programs: they say what
they ask of the heap, of the table of descriptors and of the operating system, and hear the answers.
The blocks that they work in are values. Every write into a block is checked, and one that is outside
of its block is said as well (`stray`), and so is a look into a request without `params`
(`fsCall_neverNull_iff`).
-/

namespace OlivePiccolo.ClientFs

open Bson Dialog Digest Rpc

/-- `PERIDOT_CLIENT_FS_MAX_FDS`. -/
def maxFds : ℕ := 16

def keyFd : CString := ⟨ascii ['f', 'd'], by decide⟩

def keyLength : CString := ⟨ascii ['l', 'e', 'n', 'g', 't', 'h'], by decide⟩

theorem data_noNul : 0 ∉ ascii ['d', 'a', 't', 'a'] := by decide

theorem hash_noNul : 0 ∉ ascii ['h', 'a', 's', 'h'] := by decide

theorem offset_noNul : 0 ∉ ascii ['o', 'f', 'f', 's', 'e', 't'] := by decide

def keyData : CString := ⟨ascii ['d', 'a', 't', 'a'], data_noNul⟩

def keyHash : CString := ⟨ascii ['h', 'a', 's', 'h'], hash_noNul⟩

def keyOffset : CString := ⟨ascii ['o', 'f', 'f', 's', 'e', 't'], offset_noNul⟩

def keyWhence : CString := ⟨ascii ['w', 'h', 'e', 'n', 'c', 'e'], by decide⟩

def keyReq : CString := ⟨ascii ['r', 'e', 'q'], by decide⟩

def keyArg : CString := ⟨ascii ['a', 'r', 'g'], by decide⟩

def keyResponse : CString := ⟨ascii ['r', 'e', 's', 'p', 'o', 'n', 's', 'e'], by decide⟩

/-! ## What the methods say -/

/-- A buffer argument. -/
inductive Buffer
  | null
  /-- A variable that has not been assigned. -/
  | unassigned
  /-- In a live block of this size, at the offset. -/
  | inside (size : ℕ) (offset : ℤ)
  deriving DecidableEq, Repr

/-- The variables that hold blocks of memory. -/
inductive Block
  | result
  | buf
  deriving DecidableEq, Repr

inductive FsSaid
  /-- `bson_get_props(NULL, ...)`. -/
  | nullProps
  /-- An access to a block of memory outside of it. -/
  | stray
  | malloc (block : Block) (size : ℕ)
  | free (block : Block)
  /-- `ALT_SEM_PEND(sem_lock, 0)`. -/
  | semPend
  /-- `ALT_SEM_POST(sem_lock)`. -/
  | semPost
  | irqDisable
  | irqEnable
  /-- A read of `vfd_list`. -/
  | getVfd (vfd : ℤ)
  /-- A write to `vfd_list`. -/
  | setVfd (vfd v : ℤ)
  | osOpen (call : OpenCall)
  | osClose (fd : ℤ)
  | osRead (fd : ℤ) (buf : Buffer) (len : ℤ)
  | osWrite (fd : ℤ) (buf : Buffer) (len : ℤ)
  | osLseek (fd offset whence : ℤ)
  /-- With the length of the binary `arg` of the request, 0 if there is none. -/
  | osIoctl (fd req : ℤ) (arg : Buffer) (argLen : ℤ)
  deriving DecidableEq

/-- An answer: what a call returns, `errno`, what has been written into the buffer, or a block of
memory. -/
structure FsReply where
  result : ℤ
  errno : ℤ
  data : List UInt8
  block : Option Mem

abbrev FsProg := Dialog FsSaid FsReply

/-- What a method returns, and what it stores in `errno`, if it does. -/
structure FsResult where
  result : Option Mem
  errno : Option ℤ
  deriving DecidableEq

def noResult (errno : ℤ) : FsResult := ⟨none, some errno⟩

/-! ## Steps -/

/-- An access to a block of memory. -/
def checked {α : Type} : Access α → FsProg α
  | some a => return a
  | none => do
    let _ ← ask .stray
    fault

/-- `malloc`, of an `int`. -/
def malloc (block : Block) (size : ℤ) : FsProg (Option Mem) := do
  return (← ask (.malloc block (size % 2 ^ 32).toNat)).block

def free (block : Block) : FsProg Unit := do
  let _ ← ask (.free block)

def getVfd (vfd : ℤ) : FsProg ℤ := do
  return (← ask (.getVfd vfd)).result

def setVfd (vfd v : ℤ) : FsProg Unit := do
  let _ ← ask (.setVfd vfd v)

/-- `bson_get_props`. Behind it, `params` is not `NULL`. -/
def getProps (params : Option Mem) (names : List CString) : FsProg (Mem × ℤ × Keys) :=
  match params with
  | none => do
    let _ ← ask .nullProps
    fault
  | some params => do
    let (found, keys) ← Dialog.access (bsonGetProps params (names.map (·, 0)))
    return (params, found, keys)

/-- The offset that `bson_get_props` has stored for a key. -/
def offAt (keys : Keys) (i : ℕ) : ℤ := (keys.getD i (keyFd, -1)).2

/-- `bson_set_int32`. -/
def setInt32 (doc : Mem) (key : CString) (value : ℤ) : FsProg Mem :=
  checked (written (bsonSetInt32 (some doc) key (BitVec.ofInt 32 value)))

/-- `bson_set_binary_generic`, and the pointer to the data if it is stored. -/
def setBinary (doc : Mem) (key : CString) (binlen : ℤ) : FsProg (Mem × Option ℤ) := do
  let (doc', _, buf) ← checked (bsonSetBinaryGeneric (some doc) key binlen true)
  return (doc'.getD doc, buf)

/-- The buffer argument with a pointer into a block, or with a variable without a value. -/
def bufferAt (m : Mem) : Option ℤ → Buffer
  | some p => .inside m.length p
  | none => .unassigned

/-- Bytes are written through a pointer into a block. Without a value, it does not point there. -/
def fill (m : Mem) (p : Option ℤ) (bytes : List UInt8) : FsProg Mem :=
  match p with
  | some p => checked (m.pokes p bytes)
  | none => return m

/-- `bson_shrink_binary`. -/
def shrink (m : Mem) (buf : Option ℤ) (binlen : ℤ) : FsProg Mem := do
  let p ← checked buf
  let (m, _) ← checked (bsonShrinkBinary m p binlen)
  return m

/-! ## The table -/

/-- The loop of `peridot_client_fs_alloc_vfd`, from `vfd` on. -/
def allocVfdLoop (vfd : ℤ) : ℕ → FsProg ℤ
  | 0 => do
    let _ ← ask .semPost
    return -1
  | n + 1 => do
    if (← getVfd vfd) = VFD_FREE then
      setVfd vfd VFD_ALLOC
      let _ ← ask .semPost
      return vfd
    else allocVfdLoop (vfd + 1) n

/-- `peridot_client_fs_alloc_vfd`. -/
def allocVfd : FsProg ℤ := do
  let _ ← ask .semPend
  allocVfdLoop 0 maxFds

/-- `peridot_client_fs_free_vfd`. -/
def freeVfd (vfd : ℤ) : FsProg Unit := setVfd vfd VFD_FREE

/-- The section of `peridot_client_fs_open` with the interrupts disabled: `vfd`, or -1. -/
def commitVfd (vfd fd : ℤ) : FsProg ℤ := do
  let _ ← ask .irqDisable
  if (← getVfd vfd) = VFD_ALLOC then
    setVfd vfd fd
    let _ ← ask .irqEnable
    return vfd
  else
    setVfd vfd VFD_FREE
    let _ ← ask .irqEnable
    return -1

/-- `peridot_client_fs_get_fd`: `vfd` and `fd`, or an error. -/
def getFd (params : Mem) (offVfd : ℤ) : FsProg (Except ℤ (ℤ × ℤ)) := do
  if offVfd < 0 then return .error invalidParams
  else
    let vfd ← Dialog.access (bsonGetInt32 (some params) offVfd (-1))
    if vfd < 0 ∨ maxFds ≤ vfd then return .error EBADF
    else
      let fd ← getVfd vfd
      if fd < 0 then return .error EBADF else return .ok (vfd, fd)

/-! ## The methods -/

/-- How the methods with a descriptor begin: they look their members up, of which `fd` is the first,
and get the descriptor. -/
def withFd (params : Option Mem) (names : List CString)
    (body : Mem → Keys → ℤ → ℤ → FsProg FsResult) : FsProg FsResult := do
  let (params, found, keys) ← getProps params names
  if found < 0 then return noResult invalidRequest
  else
    match ← getFd params (offAt keys 0) with
    | .error errno => return noResult errno
    | .ok (vfd, fd) => body params keys vfd fd

/-- The second half of `peridot_client_fs_open`. -/
def openFile (call : OpenCall) : FsProg FsResult := do
  let fdLen ← Dialog.access (bsonMeasureInt32 keyFd)
  match ← malloc .result (5 + fdLen) with
  | none => return noResult ENOMEM
  | some result =>
    let vfd ← allocVfd
    if vfd < 0 then
      free .result
      return noResult EMFILE
    else
      let r ← ask (.osOpen call)
      if r.result < 0 then
        free .result
        freeVfd vfd
        return noResult r.errno
      else
        let vfd ← commitVfd vfd r.result
        if vfd < 0 then
          free .result
          let _ ← ask (.osClose r.result)
          return noResult EBADF
        else
          let result ← checked (bsonCreateEmptyDocument result)
          let result ← setInt32 result keyFd vfd
          return ⟨some result, some 0⟩

/-- `peridot_client_fs_open`. Its first half is that of `peridotClientFsOpen`, up to the check of the
path. -/
def fsOpen (entries : List PathEntry) (params : Option Mem) : FsProg FsResult :=
  match params with
  | none => do
    let _ ← ask .nullProps
    fault
  | some params => do
    match ← Dialog.access (peridotClientFsOpen true 0 entries params) with
    | .error errno => return noResult errno
    | .ok call => openFile call

/-- `peridot_client_fs_close`. -/
def fsClose (params : Option Mem) : FsProg FsResult :=
  withFd params [keyFd] fun _ _ vfd fd => do
    setVfd vfd VFD_ALLOC
    let r ← ask (.osClose fd)
    if r.result < 0 then
      setVfd vfd fd
      return noResult r.errno
    else
      freeVfd vfd
      return noResult 0

/-- The second half of `peridot_client_fs_read`. -/
def readFile (fd len : ℤ) : FsProg FsResult := do
  let dataLen ← Dialog.access (bsonMeasureBinary keyData len)
  let lengthLen ← Dialog.access (bsonMeasureInt32 keyLength)
  match ← malloc .result (5 + dataLen + lengthLen) with
  | none => return noResult ENOMEM
  | some result =>
    let result ← checked (bsonCreateEmptyDocument result)
    let (result, buf) ← setBinary result keyData len
    let r ← ask (.osRead fd (bufferAt result buf) len)
    let result ← fill result buf r.data
    if r.result < 0 then
      free .result
      return noResult r.errno
    else
      let result ← shrink result buf r.result
      let result ← setInt32 result keyLength r.result
      return ⟨some result, none⟩

/-- `peridot_client_fs_read`. -/
def fsRead (params : Option Mem) : FsProg FsResult :=
  withFd params [keyFd, keyLength] fun params keys _ fd => do
    let len ← Dialog.access (bsonGetInt32 (some params) (offAt keys 1) (-1))
    if len < 0 then return noResult invalidParams else readFile fd len

/-- A hash algorithm, with the size of its value. -/
structure HashMethod where
  name : CString
  size : ℕ
  value : List UInt8 → List UInt8
  value_length : ∀ data, (value data).length = size
  size_le : size ≤ 32

/-- `PERIDOT_CLIENT_FS_HASH_MD5`. -/
def hashMd5 : HashMethod where
  name := ⟨ascii ['m', 'd', '5'], by decide⟩
  size := 16
  value data := digestMd5Bytes (digestMd5Calc data data.length)
  value_length _ := rfl
  size_le := by decide

/-- `PERIDOT_CLIENT_FS_HASH_CRC32`. -/
def hashCrc32 (table : Vector (BitVec 32) 256) : HashMethod where
  name := ⟨ascii ['c', 'r', 'c', '3', '2'], by decide⟩
  size := 4
  value data := leBytes 4 (digestCrc32Calc table data).toNat
  value_length _ := leBytes_length _ _
  size_le := by decide

/-- The string `method` of a request, `""` if there is none. -/
def getMethod (params : Mem) (offMethod : ℤ) : Access CString := do
  match ← bsonGetString (some params) offMethod with
  | some p => stringAt params p
  | none => return ⟨[], CString.nil_noNul⟩

/-- The end of `peridot_client_fs_hash`: the value is added to the result. The functions that
compute it store its words through the pointer into the result, which is not at a word (result +
27): it is assumed that they act as stores of bytes. -/
def setHash (digests : List HashMethod) (method : CString) (result buf : Mem) (readLen : ℤ) :
    FsProg FsResult := do
  match digests.find? (·.name = method) with
  | none =>
    free .buf
    free .result
    return noResult invalidParams
  | some digest =>
    let (result, phash) ← setBinary result keyHash digest.size
    let data ← checked (buf.readBytes 0 readLen)
    let result ← fill result phash (digest.value data)
    free .buf
    return ⟨some result, none⟩

/-- The second half of `peridot_client_fs_hash`. -/
def hashFile (digests : List HashMethod) (params : Mem) (offMethod fd len : ℤ) :
    FsProg FsResult := do
  match ← malloc .buf len with
  | none => return noResult ENOMEM
  | some buf =>
    let r ← ask (.osRead fd (.inside buf.length 0) len)
    let buf ← checked (buf.pokes 0 r.data)
    if r.result < 0 then
      free .buf
      return noResult r.errno
    else
      let lengthLen ← Dialog.access (bsonMeasureInt32 keyLength)
      let hashLen ← Dialog.access (bsonMeasureBinary keyHash 32)
      match ← malloc .result (5 + lengthLen + hashLen + len) with
      | none =>
        free .buf
        return noResult ENOMEM
      | some result =>
        let result ← checked (bsonCreateEmptyDocument result)
        let result ← setInt32 result keyLength r.result
        let method ← Dialog.access (getMethod params offMethod)
        setHash digests method result buf r.result

/-- `peridot_client_fs_hash`, with the algorithms of the configuration. -/
def fsHash (digests : List HashMethod) (params : Option Mem) : FsProg FsResult :=
  withFd params [keyFd, keyLength, keyMethod] fun params keys _ fd => do
    let len ← Dialog.access (bsonGetInt32 (some params) (offAt keys 1) (-1))
    if len < 0 then return noResult invalidParams
    else hashFile digests params (offAt keys 2) fd len

/-- The end of `peridot_client_fs_write` and of `peridot_client_fs_lseek`: one call, and a document
with what it returns. -/
def callFile (key : CString) (call : FsSaid) : FsProg FsResult := do
  let len ← Dialog.access (bsonMeasureInt32 key)
  match ← malloc .result (5 + len) with
  | none => return noResult ENOMEM
  | some result =>
    let r ← ask call
    if r.result < 0 then
      free .result
      return noResult r.errno
    else
      let result ← checked (bsonCreateEmptyDocument result)
      let result ← setInt32 result key r.result
      return ⟨some result, none⟩

/-- `peridot_client_fs_write`. -/
def fsWrite (params : Option Mem) : FsProg FsResult :=
  withFd params [keyFd, keyData] fun params keys _ fd => do
    match ← Dialog.access (bsonGetBinary (some params) (offAt keys 1)) with
    | none => return noResult invalidParams
    | some (buf, binlen) => callFile keyLength (.osWrite fd (.inside params.length buf) binlen)

/-- `peridot_client_fs_lseek`. -/
def fsLseek (params : Option Mem) : FsProg FsResult :=
  withFd params [keyFd, keyOffset, keyWhence] fun params keys _ fd => do
    let offset ← Dialog.access (bsonGetInt32 (some params) (offAt keys 1) 0)
    let whence ← Dialog.access (bsonGetInt32 (some params) (offAt keys 2) (-1))
    if whence < 0 ∨ 2 < whence then return noResult invalidParams
    else callFile keyOffset (.osLseek fd offset whence)

/-- The member `response`, with a copy of the argument, and the variable `arg_output`. -/
def setResponse (params result : Mem) : Option (ℤ × ℤ) → FsProg (Mem × Option ℤ)
  | some (argInput, argLen) => do
    let (result, argOutput) ← setBinary result keyResponse argLen
    let bytes ← Dialog.access (params.readBytes argInput argLen)
    let result ← fill result argOutput bytes
    return (result, argOutput)
  | none => do
    let result ← checked (written (bsonSetNull (some result) keyResponse))
    return (result, none)

/-- The second half of `peridot_client_fs_ioctl`. -/
def ioctlFile (params : Mem) (fd req : ℤ) (arg : Option (ℤ × ℤ)) : FsProg FsResult := do
  let resultLen ← Dialog.access (bsonMeasureInt32 keyResult)
  let responseLen ← Dialog.access (match arg with
    | some (_, argLen) => bsonMeasureBinary keyResponse argLen
    | none => bsonMeasureNull keyResponse)
  match ← malloc .result (5 + resultLen + responseLen) with
  | none => return noResult ENOMEM
  | some result =>
    let result ← checked (bsonCreateEmptyDocument result)
    let (result, argOutput) ← setResponse params result arg
    let r ← ask (.osIoctl fd req (bufferAt result argOutput) (arg.elim 0 (·.2)))
    let result ← fill result argOutput r.data
    if r.result < 0 then
      free .result
      return noResult r.errno
    else
      let result ← setInt32 result keyResult r.result
      return ⟨some result, none⟩

/-- `peridot_client_fs_ioctl`. -/
def fsIoctl (params : Option Mem) : FsProg FsResult :=
  withFd params [keyFd, keyReq, keyArg] fun params keys _ fd => do
    let req ← Dialog.access (bsonGetInt32 (some params) (offAt keys 1) (-1))
    let arg ← Dialog.access (bsonGetBinary (some params) (offAt keys 2))
    if req < 0 then return noResult invalidParams else ioctlFile params fd req arg

/-- The section of `peridot_client_fs_cleanup` with the interrupts disabled. -/
def cleanSlot (vfd : ℤ) : FsProg ℤ := do
  let _ ← ask .irqDisable
  let fd ← getVfd vfd
  if fd = VFD_ALLOC then
    setVfd vfd VFD_CANCELED
    let _ ← ask .irqEnable
    return fd
  else
    let _ ← ask .irqEnable
    return fd

/-- The loop of `peridot_client_fs_cleanup`, from `vfd` on. -/
def cleanupLoop (vfd : ℤ) : ℕ → FsProg Unit
  | 0 => return ()
  | n + 1 => do
    let fd ← cleanSlot vfd
    if 0 ≤ fd then
      setVfd vfd VFD_FREE
      let _ ← ask (.osClose fd)
      cleanupLoop (vfd + 1) n
    else cleanupLoop (vfd + 1) n

/-- `peridot_client_fs_cleanup`. -/
def fsCleanup : FsProg FsResult := do
  let _ ← ask .semPend
  cleanupLoop 0 maxFds
  let _ ← ask .semPost
  return noResult 0

/-- The methods that `peridot_client_fs_init` registers. -/
inductive FsMethod
  | fsOpen
  | fsClose
  | fsRead
  | fsHash
  | fsWrite
  | fsLseek
  | fsIoctl
  | fsCleanup
  deriving DecidableEq, Repr

/-- The function of a method, with the entries for the paths and the algorithms of the
configuration. -/
def FsMethod.call (entries : List PathEntry) (digests : List HashMethod) :
    FsMethod → Option Mem → FsProg FsResult
  | fsOpen => ClientFs.fsOpen entries
  | fsClose => ClientFs.fsClose
  | fsRead => ClientFs.fsRead
  | fsHash => ClientFs.fsHash digests
  | fsWrite => ClientFs.fsWrite
  | fsLseek => ClientFs.fsLseek
  | fsIoctl => ClientFs.fsIoctl
  | fsCleanup => fun _ => ClientFs.fsCleanup

/-! ## Without `params` -/

/-- No look into a missing document. -/
abbrev NeverNull {α : Type} (d : FsProg α) : Prop := d.OnlySays (· ≠ .nullProps)

section NeverNull

variable {entries : List PathEntry} {digests : List HashMethod} {params : Mem} {vfd fd len : ℤ}

theorem neverNull_checked {α : Type} (o : Access α) : NeverNull (checked o) := by
  cases o with
  | none => exact .bind (.ask nofun) fun _ => trivial
  | some a => exact .pure a

theorem neverNull_malloc (block : Block) (size : ℤ) : NeverNull (malloc block size) :=
  .bind (.ask nofun) fun _ => .pure _

theorem neverNull_free (block : Block) : NeverNull (free block) :=
  .bind (.ask nofun) fun _ => .pure _

theorem neverNull_getVfd (vfd : ℤ) : NeverNull (getVfd vfd) := .bind (.ask nofun) fun _ => .pure _

theorem neverNull_setVfd (vfd v : ℤ) : NeverNull (setVfd vfd v) :=
  .bind (.ask nofun) fun _ => .pure _

theorem neverNull_setInt32 (doc : Mem) (key : CString) (value : ℤ) :
    NeverNull (setInt32 doc key value) := neverNull_checked _

theorem neverNull_setBinary (doc : Mem) (key : CString) (binlen : ℤ) :
    NeverNull (setBinary doc key binlen) := .bind (neverNull_checked _) fun _ => .pure _

theorem neverNull_fill (m : Mem) (p : Option ℤ) (bytes : List UInt8) :
    NeverNull (fill m p bytes) := by
  cases p with
  | none => exact .pure m
  | some p => exact neverNull_checked _

theorem neverNull_shrink (m : Mem) (buf : Option ℤ) (binlen : ℤ) :
    NeverNull (shrink m buf binlen) :=
  .bind (neverNull_checked _) fun _ => .bind (neverNull_checked _) fun _ => .pure _

theorem neverNull_allocVfdLoop (n : ℕ) : NeverNull (allocVfdLoop vfd n) := by
  induction n generalizing vfd with
  | zero => exact .bind (.ask nofun) fun _ => .pure _
  | succ n ih =>
    refine .bind (neverNull_getVfd _) fun _ => .ite (fun _ => ?_) fun _ => ih
    exact .bind (neverNull_setVfd _ _) fun _ => .bind (.ask nofun) fun _ => .pure _

theorem neverNull_commitVfd : NeverNull (commitVfd vfd fd) := by
  refine .bind (.ask nofun) fun _ => .bind (neverNull_getVfd _) fun _ => ?_
  exact .ite (fun _ => .bind (neverNull_setVfd _ _) fun _ => .bind (.ask nofun) fun _ => .pure _)
    fun _ => .bind (neverNull_setVfd _ _) fun _ => .bind (.ask nofun) fun _ => .pure _

theorem neverNull_getFd (offVfd : ℤ) : NeverNull (getFd params offVfd) := by
  refine .ite (fun _ => .pure _) fun _ => .bind (.access _) fun _ => ?_
  exact .ite (fun _ => .pure _) fun _ => .bind (neverNull_getVfd _) fun _ =>
    .ite (fun _ => .pure _) fun _ => .pure _

/-- With `params`, a method looks into no missing document if its body does not. -/
theorem neverNull_withFd {names : List CString} {body : Mem → Keys → ℤ → ℤ → FsProg FsResult}
    (h : ∀ params keys vfd fd, NeverNull (body params keys vfd fd)) :
    NeverNull (withFd (some params) names body) := by
  refine .bind (.bind (.access _) fun _ => .pure _) fun _ => ?_
  refine .ite (fun _ => .pure _) fun _ => .bind (neverNull_getFd _) fun found => ?_
  cases found with
  | error errno => exact .pure _
  | ok found => exact h _ _ _ _

theorem neverNull_openFile (call : OpenCall) : NeverNull (openFile call) := by
  refine .bind (.access _) fun _ => .bind (neverNull_malloc _ _) fun block => ?_
  cases block with
  | none => exact .pure _
  | some result =>
    refine .bind (.bind (.ask nofun) fun _ => neverNull_allocVfdLoop _) fun vfd => ?_
    refine .ite (fun _ => .bind (neverNull_free _) fun _ => .pure _) fun _ => ?_
    refine .bind (.ask nofun) fun r => .ite (fun _ => ?_) fun _ => ?_
    · exact .bind (neverNull_free _) fun _ => .bind (neverNull_setVfd _ _) fun _ => .pure _
    refine .bind neverNull_commitVfd fun _ => .ite (fun _ => ?_) fun _ => ?_
    · exact .bind (neverNull_free _) fun _ => .bind (.ask nofun) fun _ => .pure _
    · exact .bind (neverNull_checked _) fun _ => .bind (neverNull_setInt32 _ _ _) fun _ => .pure _

theorem neverNull_readFile : NeverNull (readFile fd len) := by
  refine .bind (.access _) fun _ => .bind (.access _) fun _ => .bind (neverNull_malloc _ _)
    fun block => ?_
  cases block with
  | none => exact .pure _
  | some result =>
    refine .bind (neverNull_checked _) fun _ => .bind (neverNull_setBinary _ _ _) fun _ => ?_
    refine .bind (.ask nofun) fun _ => .bind (neverNull_fill _ _ _) fun _ => .ite (fun _ => ?_)
      fun _ => ?_
    · exact .bind (neverNull_free _) fun _ => .pure _
    · exact .bind (neverNull_shrink _ _ _) fun _ => .bind (neverNull_setInt32 _ _ _) fun _ => .pure _

theorem neverNull_setHash (method : CString) (result buf : Mem) :
    NeverNull (setHash digests method result buf len) := by
  unfold setHash
  cases digests.find? (·.name = method) with
  | none => exact .bind (neverNull_free _) fun _ => .bind (neverNull_free _) fun _ => .pure _
  | some digest =>
    refine .bind (neverNull_setBinary _ _ _) fun _ => .bind (neverNull_checked _) fun _ => ?_
    exact .bind (neverNull_fill _ _ _) fun _ => .bind (neverNull_free _) fun _ => .pure _

theorem neverNull_hashFile (offMethod : ℤ) :
    NeverNull (hashFile digests params offMethod fd len) := by
  refine .bind (neverNull_malloc _ _) fun block => ?_
  cases block with
  | none => exact .pure _
  | some buf =>
    refine .bind (.ask nofun) fun _ => .bind (neverNull_checked _) fun _ => .ite (fun _ => ?_)
      fun _ => ?_
    · exact .bind (neverNull_free _) fun _ => .pure _
    refine .bind (.access _) fun _ => .bind (.access _) fun _ => .bind (neverNull_malloc _ _)
      fun block => ?_
    cases block with
    | none => exact .bind (neverNull_free _) fun _ => .pure _
    | some result =>
      refine .bind (neverNull_checked _) fun _ => .bind (neverNull_setInt32 _ _ _) fun _ => ?_
      exact .bind (.access _) fun method => neverNull_setHash method _ _

theorem neverNull_callFile (key : CString) {call : FsSaid} (hcall : call ≠ .nullProps) :
    NeverNull (callFile key call) := by
  refine .bind (.access _) fun _ => .bind (neverNull_malloc _ _) fun block => ?_
  cases block with
  | none => exact .pure _
  | some result =>
    refine .bind (.ask hcall) fun _ => .ite (fun _ => ?_) fun _ => ?_
    · exact .bind (neverNull_free _) fun _ => .pure _
    · exact .bind (neverNull_checked _) fun _ => .bind (neverNull_setInt32 _ _ _) fun _ => .pure _

theorem neverNull_setResponse (result : Mem) (arg : Option (ℤ × ℤ)) :
    NeverNull (setResponse params result arg) := by
  cases arg with
  | none => exact .bind (neverNull_checked _) fun _ => .pure _
  | some arg =>
    exact .bind (neverNull_setBinary _ _ _) fun _ => .bind (.access _) fun _ =>
      .bind (neverNull_fill _ _ _) fun _ => .pure _

theorem neverNull_ioctlFile (req : ℤ) (arg : Option (ℤ × ℤ)) :
    NeverNull (ioctlFile params fd req arg) := by
  refine .bind (.access _) fun _ => .bind (.access _) fun _ => .bind (neverNull_malloc _ _)
    fun block => ?_
  cases block with
  | none => exact .pure _
  | some result =>
    refine .bind (neverNull_checked _) fun _ => .bind (neverNull_setResponse _ _) fun _ => ?_
    refine .bind (.ask nofun) fun _ => .bind (neverNull_fill _ _ _) fun _ => .ite (fun _ => ?_)
      fun _ => ?_
    · exact .bind (neverNull_free _) fun _ => .pure _
    · exact .bind (neverNull_setInt32 _ _ _) fun _ => .pure _

theorem neverNull_cleanupLoop (n : ℕ) : NeverNull (cleanupLoop vfd n) := by
  induction n generalizing vfd with
  | zero => exact .pure _
  | succ n ih =>
    refine .bind (.bind (.ask nofun) fun _ => .bind (neverNull_getVfd _) fun _ => ?_) fun _ => ?_
    · exact .ite (fun _ => .bind (neverNull_setVfd _ _) fun _ => .bind (.ask nofun) fun _ =>
        .pure _) fun _ => .bind (.ask nofun) fun _ => .pure _
    · exact .ite (fun _ => .bind (neverNull_setVfd _ _) fun _ => .bind (.ask nofun) fun _ => ih)
        fun _ => ih

theorem neverNull_fsCleanup : NeverNull fsCleanup :=
  .bind (.ask nofun) fun _ => .bind (neverNull_cleanupLoop _) fun _ =>
    .bind (.ask nofun) fun _ => .pure _

theorem neverNull_fsOpen : NeverNull (fsOpen entries (some params)) := by
  refine .bind (.access _) fun call => ?_
  cases call with
  | error errno => exact .pure _
  | ok call => exact neverNull_openFile call

theorem neverNull_fsClose : NeverNull (fsClose (some params)) := by
  refine neverNull_withFd fun _ _ _ _ => .bind (neverNull_setVfd _ _) fun _ => ?_
  refine .bind (.ask nofun) fun _ => .ite (fun _ => ?_) fun _ => ?_
  · exact .bind (neverNull_setVfd _ _) fun _ => .pure _
  · exact .bind (neverNull_setVfd _ _) fun _ => .pure _

theorem neverNull_fsRead : NeverNull (fsRead (some params)) :=
  neverNull_withFd fun _ _ _ _ => .bind (.access _) fun _ =>
    .ite (fun _ => .pure _) fun _ => neverNull_readFile

theorem neverNull_fsHash : NeverNull (fsHash digests (some params)) :=
  neverNull_withFd fun _ _ _ _ => .bind (.access _) fun _ =>
    .ite (fun _ => .pure _) fun _ => neverNull_hashFile _

theorem neverNull_fsWrite : NeverNull (fsWrite (some params)) := by
  refine neverNull_withFd fun _ _ _ _ => .bind (.access _) fun data => ?_
  cases data with
  | none => exact .pure _
  | some data => exact neverNull_callFile _ nofun

theorem neverNull_fsLseek : NeverNull (fsLseek (some params)) :=
  neverNull_withFd fun _ _ _ _ => .bind (.access _) fun _ => .bind (.access _) fun _ =>
    .ite (fun _ => .pure _) fun _ => neverNull_callFile _ nofun

theorem neverNull_fsIoctl : NeverNull (fsIoctl (some params)) :=
  neverNull_withFd fun _ _ _ _ => .bind (.access _) fun _ => .bind (.access _) fun _ =>
    .ite (fun _ => .pure _) fun _ => neverNull_ioctlFile _ _

/-- All methods but `fs.cleanup` look into `params`, whether there is one or not. -/
theorem fsCall_neverNull_iff (method : FsMethod) (params : Option Mem) :
    NeverNull (method.call entries digests params) ↔
      params.isSome = true ∨ method = .fsCleanup := by
  cases params with
  | none =>
    cases method with
    | fsCleanup => exact iff_of_true neverNull_fsCleanup (.inr rfl)
    | fsOpen | fsClose | fsRead | fsHash | fsWrite | fsLseek | fsIoctl =>
      exact iff_of_false (fun h => h.1 rfl) (by rintro (h | h) <;> cases h)
  | some params =>
    refine iff_of_true ?_ (.inl rfl)
    cases method with
    | fsOpen => exact neverNull_fsOpen
    | fsClose => exact neverNull_fsClose
    | fsRead => exact neverNull_fsRead
    | fsHash => exact neverNull_fsHash
    | fsWrite => exact neverNull_fsWrite
    | fsLseek => exact neverNull_fsLseek
    | fsIoctl => exact neverNull_fsIoctl
    | fsCleanup => exact neverNull_fsCleanup

end NeverNull

end OlivePiccolo.ClientFs
