import OlivePiccolo.Library.PowTwo
import OlivePiccolo.Library.Ring
import OlivePiccolo.Library.Runs

/-!
# Pipes

A pipe is a ring buffer between `hostbridge_pipe_sink`, called by the service thread, and
`hostbridge_pipe_read`, called by one reader. Each side works on a snapshot of both offsets, copies
byte by byte and commits its own offset. `sem_lock` is held for the two loads of a snapshot only,
so that a snapshot is one step.
-/

namespace OlivePiccolo.Hostbridge

/-! ## The capacity -/

/-- `x |= (x >> n)`. -/
def orShift (x n : UInt32) : UInt32 := x ||| x >>> n

/-- `roundup_pow2`. -/
def roundupPow2 (x : UInt32) : UInt32 :=
  orShift (orShift (orShift (orShift (orShift (x - 1) 1) 2) 4) 8) 16 + 1

theorem orShift_toNat (x : UInt32) {n : UInt32} (h : n.toNat < 32) :
    (orShift x n).toNat = x.toNat ||| x.toNat >>> n.toNat := by
  unfold orShift
  rw [UInt32.toNat_or, UInt32.toNat_shiftRight, Nat.mod_eq_of_lt h]

/-- A capacity is rounded up to the next power of two. -/
theorem roundupPow2_toNat {x : UInt32} (h0 : 0 < x.toNat) (h31 : x.toNat ≤ 2 ^ 31) :
    (roundupPow2 x).toNat = 2 ^ (x.toNat - 1).size := by
  have hpred : (x - 1).toNat = x.toNat - 1 :=
    UInt32.toNat_sub_of_le _ _ (UInt32.le_iff_toNat_le.mpr h0)
  have hsize : (x.toNat - 1).size ≤ 31 := Nat.size_le.mpr (by omega)
  have hsmear : Smeared 32 (x.toNat - 1)
      (orShift (orShift (orShift (orShift (orShift (x - 1) 1) 2) 4) 8) 16).toNat := by
    rw [orShift_toNat _ (by decide), orShift_toNat _ (by decide), orShift_toNat _ (by decide),
      orShift_toNat _ (by decide), orShift_toNat _ (by decide), hpred]
    exact (smeared_one _).double.double.double.double.double
  have hpow : 2 ^ (x.toNat - 1).size ≤ 2 ^ 31 := Nat.pow_le_pow_right Nat.two_pos hsize
  have hpos : 0 < 2 ^ (x.toNat - 1).size := Nat.two_pow_pos _
  unfold roundupPow2
  rw [UInt32.toNat_add, hsmear.eq (by omega)]
  show (2 ^ (x.toNat - 1).size - 1 + 1) % 2 ^ 32 = _
  omega

/-- It is enough, and no smaller power of two is. -/
theorem roundupPow2_least {x : UInt32} (h0 : 0 < x.toNat) (h31 : x.toNat ≤ 2 ^ 31) :
    x.toNat ≤ (roundupPow2 x).toNat ∧ ∀ k, x.toNat ≤ 2 ^ k → (roundupPow2 x).toNat ≤ 2 ^ k := by
  rw [roundupPow2_toNat h0 h31]
  exact two_pow_size_pred h0

/-! ## Two-part copies -/

/-- What one call copies: `first` bytes from `offset` on, and `second` bytes from the start of the
buffer on. -/
structure Span where
  offset : ℕ
  first : ℕ
  second : ℕ
  deriving DecidableEq, Repr

namespace Span

/-- The number of bytes. -/
def length (p : Span) : ℕ := p.first + p.second

/-- The place of a byte in the buffer. -/
def address (p : Span) (i : ℕ) : ℕ := if i < p.first then p.offset + i else i - p.first

/-- The offset behind the bytes. -/
def next (p : Span) (capacity : ℕ) : ℕ :=
  if 0 < p.second then p.second else (p.offset + p.first) &&& (capacity - 1)

/-- No more than `len` bytes. -/
def clamp (p : Span) (len : ℕ) : Span :=
  if len < p.first then { p with first := len, second := 0 }
  else if len - p.first < p.second then { p with second := len - p.first }
  else p

end Span

/-- The free bytes, of which one has to stay free. `free2`, one less than the read offset, is
negative for the read offset 0. -/
def sinkFree (capacity readOffset writeOffset : ℕ) : Span :=
  if readOffset ≤ writeOffset then
    if readOffset = 0 then ⟨writeOffset, capacity - writeOffset - 1, 0⟩
    else ⟨writeOffset, capacity - writeOffset, readOffset - 1⟩
  else ⟨writeOffset, readOffset - writeOffset - 1, 0⟩

/-- The bytes that can be read. -/
def readAvail (capacity readOffset writeOffset : ℕ) : Span :=
  if readOffset ≤ writeOffset then ⟨readOffset, writeOffset - readOffset, 0⟩
  else ⟨readOffset, capacity - readOffset, writeOffset⟩

/-! ## Pipes -/

/-- Where `hostbridge_pipe_sink` is. -/
inductive SinkPc
  /-- No call is in progress. -/
  | idle
  /-- In front of the snapshot. -/
  | start (data : List UInt8)
  /-- The offsets are those of the snapshot, the write offset in `span`. So many bytes have been
  copied; with all of them the commit is next. -/
  | copy (data : List UInt8) (readOffset : ℕ) (span : Span) (copied : ℕ)
  /-- Behind the commit: whether to post is decided by the offsets of the snapshot. -/
  | post (readOffset writeOffset : ℕ) (result : ℕ)
  deriving DecidableEq, Repr

/-- Where `hostbridge_pipe_read` is. -/
inductive ReadPc
  /-- No call is in progress. -/
  | idle
  /-- At the label `retry`. -/
  | start (len : ℕ)
  /-- In `ALT_SEM_PEND(pipe->sem_read, 0)`. -/
  | pend (len : ℕ)
  /-- These bytes have been copied; with all of them the commit is next. -/
  | copy (span : Span) (got : List UInt8)
  deriving DecidableEq, Repr

/-- `hostbridge_pipe`, the calls in progress, and what has gone through the pipe. -/
structure Pipe where
  capacity : ℕ
  readOffset : ℕ
  writeOffset : ℕ
  /-- The count of `sem_read`. -/
  semRead : ℕ
  buffer : ℕ → UInt8
  sink : SinkPc
  read : ReadPc
  /-- The bytes that the calls of the sink have accepted, as many of each call as it returns. -/
  accepted : List UInt8
  /-- The bytes that the calls of the reader have returned. -/
  returned : List UInt8

/-- What happens next. -/
inductive PipeEvent
  /-- A call of `hostbridge_pipe_sink`. -/
  | callSink (data : List UInt8)
  /-- The next step of this call. -/
  | sink
  /-- A call of `hostbridge_pipe_read`. -/
  | callRead (len : ℕ)
  /-- The next step of this call. -/
  | read
  deriving DecidableEq, Repr

namespace Pipe

/-- The pipe that `peridot_sw_hostbridge_gen2_mkpipe` makes, for an input of some capacity. What
`malloc` has left in the buffer is arbitrary. -/
def create (capacity : ℕ) (garbage : ℕ → UInt8) : Pipe where
  capacity := capacity
  readOffset := 0
  writeOffset := 0
  semRead := 0
  buffer := garbage
  sink := .idle
  read := .idle
  accepted := []
  returned := []

/-- `peridot_sw_hostbridge_gen2_mkpipe`, as far as the ring buffer of the input goes. -/
def mkpipe (inputCapacity : UInt32) (garbage : ℕ → UInt8) : Pipe :=
  create (roundupPow2 inputCapacity).toNat garbage

/-- The snapshot of `hostbridge_pipe_sink`. -/
def sinkSnapshot (s : Pipe) (data : List UInt8) : Pipe :=
  if (sinkFree s.capacity s.readOffset s.writeOffset).first = 0 then { s with sink := .idle }
  else
    { s with sink := .copy data s.readOffset
               ((sinkFree s.capacity s.readOffset s.writeOffset).clamp data.length) 0 }

/-- One byte of `hostbridge_pipe_sink`, or its commit. -/
def sinkCopy (s : Pipe) (data : List UInt8) (readOffset : ℕ) (span : Span) (copied : ℕ) : Pipe :=
  if copied < span.length then
    { s with buffer := Function.update s.buffer (span.address copied) (data.getD copied 0),
             sink := .copy data readOffset span (copied + 1) }
  else
    { s with writeOffset := span.next s.capacity,
             accepted := s.accepted ++ data.take span.length,
             sink := .post readOffset span.offset span.length }

/-- The end of `hostbridge_pipe_sink`. -/
def sinkPost (s : Pipe) (readOffset writeOffset : ℕ) : Pipe :=
  if readOffset = writeOffset then { s with semRead := s.semRead + 1, sink := .idle }
  else { s with sink := .idle }

/-- The snapshot of `hostbridge_pipe_read`. -/
def readSnapshot (s : Pipe) (len : ℕ) : Pipe :=
  if s.readOffset = s.writeOffset then { s with read := .pend len }
  else
    { s with read := .copy ((readAvail s.capacity s.readOffset s.writeOffset).clamp len) [] }

/-- One byte of `hostbridge_pipe_read`, or its commit and return. -/
def readCopy (s : Pipe) (span : Span) (got : List UInt8) : Pipe :=
  if got.length < span.length then
    { s with read := .copy span (got ++ [s.buffer (span.address got.length)]) }
  else
    { s with readOffset := span.next s.capacity, returned := s.returned ++ got, read := .idle }

/-- A step of `hostbridge_pipe_sink`. -/
def sinkStep (s : Pipe) : Option Pipe :=
  match s.sink with
  | .idle => none
  | .start data => some (s.sinkSnapshot data)
  | .copy data readOffset span copied => some (s.sinkCopy data readOffset span copied)
  | .post readOffset writeOffset _ => some (s.sinkPost readOffset writeOffset)

/-- A step of `hostbridge_pipe_read`. -/
def readStep (s : Pipe) : Option Pipe :=
  match s.read with
  | .idle => none
  | .start len => some (s.readSnapshot len)
  | .pend len =>
    if 0 < s.semRead then some { s with semRead := s.semRead - 1, read := .start len } else none
  | .copy span got => some (s.readCopy span got)

/-- One step of either side, or a new call. -/
def step (s : Pipe) : PipeEvent → Option Pipe
  | .callSink data =>
    if s.sink = .idle ∧ data ≠ [] then some { s with sink := .start data } else none
  | .sink => s.sinkStep
  | .callRead len =>
    if s.read = .idle ∧ 0 < len then some { s with read := .start len } else none
  | .read => s.readStep

end Pipe

end OlivePiccolo.Hostbridge
