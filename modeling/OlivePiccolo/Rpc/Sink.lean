import OlivePiccolo.Library.LittleEndian
import OlivePiccolo.Library.Runs
import OlivePiccolo.Hostbridge.Ast

/-!
# The RPC sink

`peridot_rpc_server_sink` collects the packets of the RPC channel into job buffers. One round of
its loop (`sinkByte`) consumes one byte; what it does to the heap and to the workers is logged as
`Action`s. Job buffers are named by the `malloc` calls that returned them, counted from 0.
-/

namespace OlivePiccolo.Rpc

/-- A job buffer. -/
abbrev JobId := ℕ

/-- `sizeof(rpcsrv_job)`: two pointers; the data starts right behind them. -/
def sizeofJob : ℕ := 8

/-- `PERIDOT_RPCSRV_MAX_REQUEST_LENGTH`. -/
def maxRequestLength : ℕ := 65536

/-- The fields of `peridot_rpc_server_state_s` the sink works on. -/
structure SinkState where
  escapePrefix : Bool
  eopPrefix : Bool
  insidePacket : Bool
  offset : ℕ
  /-- `length.bytes`. -/
  length : ℕ → UInt8
  incomingJob : Option JobId
  pendingJob : Option JobId
  /-- The number of `malloc` calls so far. -/
  mallocs : ℕ

/-- What the sink does outside its own state. -/
inductive Action
  /-- `malloc` of so many bytes returned this buffer. -/
  | malloc (job : JobId) (size : ℕ)
  /-- `malloc` of so many bytes failed. -/
  | mallocFailed (size : ℕ)
  /-- `data.words[0] = value`. -/
  | storeLength (job : JobId) (value : ℕ)
  /-- `data.bytes[offset] = byte`. -/
  | storeByte (job : JobId) (offset : ℕ) (byte : UInt8)
  /-- `free`. -/
  | free (job : Option JobId)
  /-- `pending_job = job`. -/
  | setPending (job : Option JobId)
  /-- `sem_post(&state.sem)`. -/
  | semPost
  deriving DecidableEq, Repr

namespace SinkState

/-- The zero-initialised state. -/
def init : SinkState where
  escapePrefix := false
  eopPrefix := false
  insidePacket := false
  offset := 0
  length := fun _ => 0
  incomingJob := none
  pendingJob := none
  mallocs := 0

/-- `length.value` as an unsigned number, the way `size_t` comparisons see it. -/
def lengthValue (s : SinkState) : ℕ := leNat [s.length 0, s.length 1, s.length 2, s.length 3]

/-- The label `next_packet`. -/
def nextPacket (s : SinkState) : SinkState :=
  { s with incomingJob := none, offset := 0, eopPrefix := false, insidePacket := false }

/-- `length.bytes[offset++] = byte`. -/
def putLength (s : SinkState) (byte : UInt8) : SinkState :=
  { s with length := Function.update s.length s.offset byte, offset := s.offset + 1 }

/-- The argument of `malloc`, in 32-bit arithmetic. -/
def jobSize (s : SinkState) : ℕ := (sizeofJob + s.lengthValue) % 2 ^ 32

/-- The length field is complete: allocate the job, unless the length, a signed number, is too
large. Then `incoming_job` stays as it is. -/
def allocate (ok : ℕ → Bool) (s : SinkState) : SinkState × List Action :=
  if toInt32 s.lengthValue ≤ maxRequestLength then
    if ok s.mallocs then
      ({ s with incomingJob := some s.mallocs, mallocs := s.mallocs + 1 },
        [.malloc s.mallocs s.jobSize, .storeLength s.mallocs s.lengthValue])
    else
      ({ s with incomingJob := none, mallocs := s.mallocs + 1 }, [.mallocFailed s.jobSize])
  else (s, [])

/-- The label `drop_packet`. -/
def dropPacket (s : SinkState) : SinkState × List Action := (s.nextPacket, [.free s.incomingJob])

/-- The end of a round: nothing but for the last byte of a packet, whose job is passed on if the
packet has its declared length. -/
def endOfByte (s : SinkState) : SinkState × List Action :=
  if !s.eopPrefix then (s, [])
  else if s.offset ≠ s.lengthValue then s.dropPacket
  else
    ({ s with pendingJob := s.incomingJob }.nextPacket, [.setPending s.incomingJob, .semPost])

/-- Go on with another part of the round. -/
def andThen (r : SinkState × List Action) (f : SinkState → SinkState × List Action) :
    SinkState × List Action :=
  ((f r.1).1, r.2 ++ (f r.1).2)

theorem andThen_fst (r : SinkState × List Action) (f : SinkState → SinkState × List Action) :
    (andThen r f).1 = (f r.1).1 := rfl

/-- A data byte, unescaped, inside a packet. -/
def packetByte (ok : ℕ → Bool) (s : SinkState) (byte : UInt8) : SinkState × List Action :=
  if s.offset < 4 then
    if s.offset + 1 = 4 then andThen ((s.putLength byte).allocate ok) endOfByte
    else (s.putLength byte).endOfByte
  else if s.lengthValue ≤ s.offset then s.dropPacket
  else
    match s.incomingJob with
    | some job =>
      andThen ({ s with offset := s.offset + 1 }, [.storeByte job s.offset byte]) endOfByte
    | none => s.endOfByte

/-- The state in which a data byte is looked at: the escape is used up. -/
def unescaped (s : SinkState) : SinkState := { s with escapePrefix := false }

/-- One round of the loop of `peridot_rpc_server_sink`. -/
def sinkByte (ok : ℕ → Bool) (s : SinkState) (byte : UInt8) : SinkState × List Action :=
  if byte = astSop then ({ s with offset := 0, insidePacket := true, eopPrefix := false }, [])
  else if byte = astEopPrefix then ({ s with eopPrefix := true }, [])
  else if byte = astEscapePrefix then ({ s with escapePrefix := true }, [])
  else if s.insidePacket then s.unescaped.packetByte ok (unescapeIf s.escapePrefix byte)
  else (s.unescaped, [])

/-! ## What a round can do -/

/-- A byte that is none of the special bytes. -/
def IsData (byte : UInt8) : Prop :=
  byte ≠ astSop ∧ byte ≠ astEopPrefix ∧ byte ≠ astEscapePrefix

instance : DecidablePred IsData := fun _ => inferInstanceAs (Decidable (_ ∧ _))

/-- The length field with one more byte. -/
def withLength (s : SinkState) (byte : UInt8) : SinkState :=
  s.unescaped.putLength (unescapeIf s.escapePrefix byte)

theorem sinkByte_elim {P : SinkState × List Action → Prop} (ok : ℕ → Bool) (s : SinkState)
    (byte : UInt8)
    (sop : byte = astSop →
      P ({ s with offset := 0, insidePacket := true, eopPrefix := false }, []))
    (eop : byte = astEopPrefix → P ({ s with eopPrefix := true }, []))
    (esc : byte = astEscapePrefix → P ({ s with escapePrefix := true }, []))
    (outside : IsData byte → s.insidePacket = false → P (s.unescaped, []))
    (short : IsData byte → s.insidePacket = true → s.offset < 3 → P (s.withLength byte).endOfByte)
    (length : IsData byte → s.insidePacket = true → s.offset = 3 →
      P (andThen ((s.withLength byte).allocate ok) endOfByte))
    (large : IsData byte → s.insidePacket = true → 4 ≤ s.offset → s.lengthValue ≤ s.offset →
      P s.unescaped.dropPacket)
    (store : ∀ job, IsData byte → s.insidePacket = true → 4 ≤ s.offset → s.offset < s.lengthValue →
      s.incomingJob = some job →
      P (andThen ({ s.unescaped with offset := s.offset + 1 },
        [.storeByte job s.offset (unescapeIf s.escapePrefix byte)]) endOfByte))
    (skip : IsData byte → s.insidePacket = true → 4 ≤ s.offset → s.offset < s.lengthValue →
      s.incomingJob = none → P s.unescaped.endOfByte) :
    P (s.sinkByte ok byte) := by
  unfold sinkByte
  split_ifs with h1 h2 h3 hin
  · exact sop h1
  · exact eop h2
  · exact esc h3
  · have hd : IsData byte := ⟨h1, h2, h3⟩
    unfold packetByte
    split_ifs with h4 h5 h6
    · exact length hd hin (by have : s.offset + 1 = 4 := h5; omega)
    · have h4' : s.offset < 4 := h4
      have h5' : ¬ s.offset + 1 = 4 := h5
      exact short hd hin (by omega)
    · have h4' : ¬ s.offset < 4 := h4
      exact large hd hin (by omega) h6
    · have h4' : ¬ s.offset < 4 := h4
      have h6' : ¬ s.lengthValue ≤ s.offset := h6
      split
      · next job hjob => exact store job hd hin (by omega) (by omega) hjob
      · next hjob => exact skip hd hin (by omega) (by omega) hjob
  · exact outside ⟨h1, h2, h3⟩ (by simpa using hin)

section Allocate

variable (ok : ℕ → Bool) (s : SinkState)

@[simp] theorem allocate_offset : (s.allocate ok).1.offset = s.offset := by
  unfold allocate; split_ifs <;> rfl

@[simp] theorem allocate_eopPrefix : (s.allocate ok).1.eopPrefix = s.eopPrefix := by
  unfold allocate; split_ifs <;> rfl

@[simp] theorem allocate_escapePrefix : (s.allocate ok).1.escapePrefix = s.escapePrefix := by
  unfold allocate; split_ifs <;> rfl

end Allocate

/-- The end of a round does nothing, drops the packet, or passes its job on. -/
theorem endOfByte_elim {P : SinkState × List Action → Prop} (s : SinkState)
    (stay : s.eopPrefix = false → P (s, []))
    (drop : s.eopPrefix = true → s.offset ≠ s.lengthValue → P s.dropPacket)
    (pass : s.eopPrefix = true → s.offset = s.lengthValue →
      P ({ s with pendingJob := s.incomingJob }.nextPacket,
        [.setPending s.incomingJob, .semPost])) :
    P s.endOfByte := by
  unfold endOfByte
  split_ifs with h1 h2
  · exact stay (by simpa using h1)
  · exact drop (by simpa using h1) h2
  · exact pass (by simpa using h1) (by simpa using h2)

/-- `peridot_rpc_server_sink`: consume bytes until a job is pending; the number of bytes consumed
is returned. -/
def peridotRpcServerSink (ok : ℕ → Bool) (s : SinkState) :
    List UInt8 → SinkState × List Action × ℕ
  | [] => (s, [], 0)
  | byte :: rest =>
    if s.pendingJob.isSome then (s, [], 0)
    else
      let (s', acts) := s.sinkByte ok byte
      let (s'', acts', n) := s'.peridotRpcServerSink ok rest
      (s'', acts ++ acts', n + 1)

end SinkState

/-! ## Runs of the sink -/

/-- What has happened so far, latest first: the bytes received and the actions of the sink. -/
inductive Entry
  | byte (b : UInt8)
  | act (a : Action)
  deriving DecidableEq, Repr

/-- The sink and the log of its run. -/
structure Receiver where
  sink : SinkState
  log : List Entry

/-- The sink consumes a byte, or a worker takes the pending job. -/
inductive Event
  | byte (b : UInt8)
  | take
  deriving DecidableEq, Repr

/-- The actions of one part of a round, on top of a log. -/
def logged (acts : List Action) (log : List Entry) : List Entry :=
  (acts.map Entry.act).reverse ++ log

@[simp] theorem logged_nil (log : List Entry) : logged [] log = log := rfl

@[simp] theorem logged_cons (a : Action) (acts : List Action) (log : List Entry) :
    logged (a :: acts) log = logged acts (.act a :: log) := by
  unfold logged
  rw [List.map_cons, List.reverse_cons, List.append_assoc, List.singleton_append]

theorem mem_logged {e : Entry} {log : List Entry} (acts : List Action) (h : e ∈ log) :
    e ∈ logged acts log := List.mem_append_right _ h

theorem logged_andThen (r : SinkState × List Action) (f : SinkState → SinkState × List Action)
    (log : List Entry) :
    logged (SinkState.andThen r f).2 log = logged (f r.1).2 (logged r.2 log) := by
  unfold logged SinkState.andThen
  rw [List.map_append, List.reverse_append, List.append_assoc]

namespace Receiver

def init : Receiver := ⟨.init, []⟩

/-- One event, for a pattern `ok` of `malloc` outcomes. The sink consumes bytes only while no job
is pending. -/
def step (ok : ℕ → Bool) (r : Receiver) : Event → Option Receiver
  | .byte b =>
    if r.sink.pendingJob = none then
      some ⟨(r.sink.sinkByte ok b).1, logged (r.sink.sinkByte ok b).2 (.byte b :: r.log)⟩
    else none
  | .take =>
    if r.sink.pendingJob = none then none
    else some { r with sink := { r.sink with pendingJob := none } }

open Runs

/-- A call of the sink on a chunk is a run by the bytes it consumed: where the stream is cut into
chunks makes no difference. -/
theorem path_sink (ok : ℕ → Bool) (r : Receiver) (chunk : List UInt8) :
    ∃ log, Path (step ok) anyStep r
      ((chunk.take (r.sink.peridotRpcServerSink ok chunk).2.2).map Event.byte)
      ⟨(r.sink.peridotRpcServerSink ok chunk).1, log⟩ := by
  induction chunk generalizing r with
  | nil => exact ⟨r.log, .nil⟩
  | cons b rest ih =>
    unfold SinkState.peridotRpcServerSink
    by_cases hp : r.sink.pendingJob.isSome
    · rw [if_pos hp]
      exact ⟨r.log, .nil⟩
    · rw [if_neg hp]
      have hnone : r.sink.pendingJob = none := by simpa using hp
      obtain ⟨log, hpath⟩ := ih
        ⟨(r.sink.sinkByte ok b).1, logged (r.sink.sinkByte ok b).2 (.byte b :: r.log)⟩
      refine ⟨log, ?_⟩
      simp only [List.take_succ_cons, List.map_cons]
      exact (Path.single trivial (by rw [step, if_pos hnone])).trans hpath

end Receiver

end OlivePiccolo.Rpc
