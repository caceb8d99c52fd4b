import Mathlib.Algebra.Group.Nat.Defs
import Mathlib.Data.Int.Notation
import Mathlib.Logic.Function.Basic
import OlivePiccolo.Library.Runs

/-!
# The buffered UART driver

One thread reads, one writes and one closes, and the interrupt handler wakes them. A step of a
thread or of the handler is one access to a register, to the interrupt enable of the CPU or to a
semaphore, with what is computed until the next one. A thread that has disabled the interrupts goes
on alone until it enables them, and the handler runs alone; bytes are received and drained at any
time.
-/

namespace OlivePiccolo.BufferedUart

/-! ## The peripheral -/

abbrev Word := BitVec 16

def statusRxeMsk : Word := 0x8000
def statusRxneMsk : Word := 0x4000
def statusRxfMsk : Word := 0x2000
def statusRxhfMsk : Word := 0x1000
def statusTxfMsk : Word := 0x0800
def statusTxnfMsk : Word := 0x0400
def statusTxeMsk : Word := 0x0200
def statusTxheMsk : Word := 0x0100
def statusRovfMsk : Word := 0x0080
def statusClrMsk : Word := 0x0002
def statusCausesMsk : Word := 0x7780
def intrRxneMsk : Word := 0x4000
def intrIrqeMsk : Word := 0x0001
def dataRxeMsk : Word := 0x8000

/-- The bits of the interrupt mask that are registers; the others are read as 0. -/
def intrMsk : Word := 0x7781

/-- The generics of the peripheral. -/
structure Config where
  dataBits : ℕ
  rxDepthBits : ℕ
  txDepthBits : ℕ

/-- `(1 << DATA_BITS) - 1`. -/
def Config.dataMask (cfg : Config) : Word := BitVec.ofNat 16 (2 ^ cfg.dataBits - 1)

structure Device where
  /-- `u_rxfifo`, the oldest first. -/
  rxFifo : List Word
  /-- `rx_rdata_sig`, what has been read from it last. -/
  rxRdata : Word
  rxOvf : Bool
  /-- `u_txfifo`. -/
  txFifo : List Word
  /-- The interrupt mask bits. -/
  intr : Word
  deriving DecidableEq, Repr

namespace Device

variable (cfg : Config) (d : Device)

def flag (b : Bool) (mask : Word) : Word := if b then mask else 0

/-- `rval_sts_sig`. -/
def readStatus : Word :=
  flag d.rxFifo.isEmpty statusRxeMsk ||| flag (!d.rxFifo.isEmpty) statusRxneMsk |||
    flag (2 ^ cfg.rxDepthBits ≤ d.rxFifo.length) statusRxfMsk |||
    flag (2 ^ (cfg.rxDepthBits - 1) ≤ d.rxFifo.length) statusRxhfMsk |||
    flag (2 ^ cfg.txDepthBits ≤ d.txFifo.length) statusTxfMsk |||
    flag (d.txFifo.length < 2 ^ cfg.txDepthBits) statusTxnfMsk |||
    flag d.txFifo.isEmpty statusTxeMsk |||
    flag (d.txFifo.length < 2 ^ (cfg.txDepthBits - 1)) statusTxheMsk |||
    flag d.rxOvf statusRovfMsk

def writeStatus (v : Word) : Device :=
  { d with
    rxFifo := if v &&& statusClrMsk ≠ 0 then [] else d.rxFifo
    txFifo := if v &&& statusClrMsk ≠ 0 then [] else d.txFifo
    rxOvf := if v &&& statusRovfMsk ≠ 0 then false else d.rxOvf }

def writeIntr (v : Word) : Device := { d with intr := v &&& intrMsk }

/-- `rval_dat_sig`; a read takes the oldest byte from the FIFO. -/
def readData : Word × Device :=
  match d.rxFifo with
  | [] => (dataRxeMsk ||| d.rxRdata, d)
  | data :: fifo => (data, { d with rxFifo := fifo, rxRdata := data })

def writeData (v : Word) : Device :=
  if 2 ^ cfg.txDepthBits ≤ d.txFifo.length then d
  else { d with txFifo := d.txFifo ++ [v &&& cfg.dataMask] }

/-- A byte has been received. -/
def receive (data : Word) : Device :=
  if 2 ^ cfg.rxDepthBits ≤ d.rxFifo.length then { d with rxOvf := true }
  else { d with rxFifo := d.rxFifo ++ [data &&& cfg.dataMask] }

/-- The transmitter takes a byte. -/
def drain : Device := { d with txFifo := d.txFifo.tail }

/-- `ins_irq`. -/
def insIrq : Bool :=
  d.intr &&& intrIrqeMsk ≠ 0 ∧ d.intr &&& d.readStatus cfg &&& statusCausesMsk ≠ 0

end Device

/-! ## The calls -/

/-- `sem_read`, `sem_write` and `sem_close`, each with the thread that waits on it. -/
inductive Sem
  | read
  | write
  | close
  deriving DecidableEq, Repr

/-- What the thread passes to `buffered_uart_wait`, and what the handler tests. -/
def Sem.trigger : Sem → Word
  | .read => intrRxneMsk
  | .write => statusTxnfMsk
  | .close => statusTxeMsk

/-- What a call returns, with the bytes that it has stored. -/
inductive Ret
  | ok (actual : ℤ) (out : List (BitVec 8))
  | ewouldblock
  deriving DecidableEq, Repr

/-- The variables of `buffered_uart_read`. -/
structure ReadCall where
  len : ℤ
  actual : ℤ
  /-- `flags & O_NONBLOCK`. -/
  nonblock : Bool
  out : List (BitVec 8)
  deriving DecidableEq, Repr

/-- The variables of `buffered_uart_write`. -/
structure WriteCall where
  /-- The bytes from `ptr` on. -/
  ptr : List (BitVec 8)
  len : ℤ
  actual : ℤ
  nonblock : Bool
  deriving DecidableEq, Repr

/-- Where `buffered_uart_wait` is, with the context that it restores. -/
inductive WaitPos
  /-- In front of `IORD_BUFFERED_UART_INTR`. -/
  | load (context : Bool)
  | store (context : Bool) (intr : Word)
  | enable (context : Bool)
  | pend
  /-- The thread is in the waiting list of the semaphore. -/
  | blocked
  deriving DecidableEq, Repr

/-- The call that waits. -/
inductive Cont : Sem → Type
  | read (c : ReadCall) : Cont .read
  | write (c : WriteCall) : Cont .write
  | close : Cont .close

/-- Where a thread is: what it does next. -/
inductive Pos : Sem → Type
  | idle {w : Sem} (ret : Option Ret) : Pos w
  | readData (c : ReadCall) : Pos .read
  | readDisable (c : ReadCall) : Pos .read
  | writeDisable (c : WriteCall) : Pos .write
  | writeStatus (c : WriteCall) (context : Bool) : Pos .write
  | writeData (c : WriteCall) (context : Bool) : Pos .write
  /-- Behind the write of `DATA`. -/
  | writeEnable (c : WriteCall) (context : Bool) : Pos .write
  /-- The FIFO is full, and the call does not block. -/
  | writeFull (c : WriteCall) (context : Bool) : Pos .write
  /-- In front of the loop of `buffered_uart_close`. -/
  | closeFirst (nonblock : Bool) : Pos .close
  | closeStatus : Pos .close
  | closeDisable : Pos .close
  | wait {w : Sem} (k : Cont w) (p : WaitPos) : Pos w

namespace Config

variable (cfg : Config)

def paired (cfg : Config) : Bool := 0xff < cfg.dataMask.toNat

/-- `len /= 2`, if the data are paired. -/
def halve (len : ℤ) : ℤ := if cfg.paired then len.tdiv 2 else len

/-- What is returned behind the loop. -/
def count (actual : ℤ) : ℤ := if cfg.paired then actual * 2 else actual

end Config

/-- The loop of `buffered_uart_read`. -/
def ReadCall.loop (cfg : Config) (c : ReadCall) : Pos .read :=
  if 0 < c.len then .readData c else .idle (some (.ok (cfg.count c.actual) c.out))

/-- What is stored of the data. -/
def ReadCall.store (cfg : Config) (c : ReadCall) (data : Word) : ReadCall :=
  { c with
    len := c.len - 1
    actual := c.actual + 1
    out := c.out ++ (data &&& 0xff).setWidth 8 ::
      if cfg.paired then [(data >>> 8).setWidth 8] else [] }

/-- The loop of `buffered_uart_write`. -/
def WriteCall.loop (cfg : Config) (c : WriteCall) : Pos .write :=
  if 0 < c.len then .writeDisable c else .idle (some (.ok (cfg.count c.actual) []))

/-- The data at `ptr`. -/
def WriteCall.value (cfg : Config) (c : WriteCall) : Word :=
  let low := (c.ptr.headD 0).setWidth 16
  if cfg.paired then low ||| (c.ptr.tail.headD 0).setWidth 16 <<< 8 else low

/-- The variables behind the write of `DATA`. -/
def WriteCall.next (cfg : Config) (c : WriteCall) : WriteCall :=
  { c with
    ptr := c.ptr.drop (if cfg.paired then 2 else 1)
    len := c.len - 1
    actual := c.actual + 1 }

def bufferedUartRead (cfg : Config) (len : ℤ) (nonblock : Bool) : Pos .read :=
  ReadCall.loop cfg ⟨cfg.halve len, 0, nonblock, []⟩

def bufferedUartWrite (cfg : Config) (ptr : List (BitVec 8)) (len : ℤ) (nonblock : Bool) :
    Pos .write :=
  WriteCall.loop cfg ⟨ptr, cfg.halve len, 0, nonblock⟩

def bufferedUartClose (nonblock : Bool) : Pos .close := .closeFirst nonblock

/-- Where a call goes on behind `buffered_uart_wait`. -/
def Cont.resume (cfg : Config) : {w : Sem} → Cont w → Pos w
  | _, .read c => c.loop cfg
  | _, .write c => c.loop cfg
  | _, .close => .closeStatus

/-- What a thread sees: the device, its semaphore, `status.PIE` and where it is. -/
structure View (w : Sem) where
  dev : Device
  value : ℕ
  pie : Bool
  pos : Pos w

/-- `buffered_uart_wait`. -/
def bufferedUartWait (cfg : Config) {w : Sem} (v : View w) (k : Cont w) :
    WaitPos → Option (View w)
  | .load context => some { v with pos := .wait k (.store context (v.dev.intr ||| w.trigger)) }
  | .store context intr =>
    some { v with dev := v.dev.writeIntr intr, pos := .wait k (.enable context) }
  | .enable context => some { v with pie := context, pos := .wait k .pend }
  | .pend =>
    if 0 < v.value then some { v with value := v.value - 1, pos := k.resume cfg }
    else some { v with pos := .wait k .blocked }
  | .blocked => none

/-- The loop of `buffered_uart_read`, with the data that has been read. -/
def ReadCall.take (cfg : Config) (c : ReadCall) (data : Word) : Pos .read :=
  if data &&& dataRxeMsk ≠ 0 then
    if 0 < c.actual then .idle (some (.ok (cfg.count c.actual) c.out))
    else if c.nonblock then .idle (some .ewouldblock)
    else .readDisable c
  else (c.store cfg data).loop cfg

/-- The loop of `buffered_uart_write`, with the status that has been read. -/
def WriteCall.test (c : WriteCall) (context : Bool) (status : Word) : Pos .write :=
  if status &&& statusTxfMsk = 0 then .writeData c context
  else if c.nonblock then .writeFull c context
  else .wait (.write c) (.load context)

/-- What `buffered_uart_write` returns when the FIFO is full. -/
def WriteCall.full (cfg : Config) (c : WriteCall) : Ret :=
  if c.actual = 0 then .ewouldblock else .ok (cfg.count c.actual) []

/-- The next access of a thread. -/
def access (cfg : Config) : {w : Sem} → View w → Pos w → Option (View w)
  | _, _, .idle _ => none
  | _, v, .readData c =>
    some { v with dev := v.dev.readData.2, pos := c.take cfg v.dev.readData.1 }
  | _, v, .readDisable c => some { v with pie := false, pos := .wait (.read c) (.load v.pie) }
  | _, v, .writeDisable c => some { v with pie := false, pos := .writeStatus c v.pie }
  | _, v, .writeStatus c context =>
    some { v with pos := c.test context (v.dev.readStatus cfg) }
  | _, v, .writeData c context =>
    some { v with
      dev := v.dev.writeData cfg (c.value cfg)
      pos := .writeEnable (c.next cfg) context }
  | _, v, .writeEnable c context => some { v with pie := context, pos := c.loop cfg }
  | _, v, .writeFull c context => some { v with pie := context, pos := .idle (some (c.full cfg)) }
  | _, v, .closeFirst nonblock =>
    some { v with pos :=
      if v.dev.readStatus cfg &&& statusTxeMsk ≠ 0 then .idle (some (.ok 0 []))
      else if nonblock then .idle (some .ewouldblock)
      else .closeStatus }
  | _, v, .closeStatus =>
    some { v with pos :=
      if v.dev.readStatus cfg &&& statusTxeMsk ≠ 0 then .idle (some (.ok 0 [])) else .closeDisable }
  | _, v, .closeDisable => some { v with pie := false, pos := .wait .close (.load v.pie) }
  | _, v, .wait k p => bufferedUartWait cfg v k p

/-! ## The system -/

/-- Where `buffered_uart_irq` is: what it does next. -/
inductive Handler
  | idle
  /-- In front of `IORD_BUFFERED_UART_INTR`. -/
  | intr
  | status (irq : Word)
  | store (irq causes : Word)
  /-- In front of the test for this semaphore. -/
  | post (causes : Word) (w : Sem)
  | ret
  deriving DecidableEq, Repr

structure State where
  dev : Device
  /-- The counts of the semaphores. -/
  value : Sem → ℕ
  pos : (w : Sem) → Pos w
  /-- `status.PIE`, as it is outside of the handler. -/
  pie : Bool
  /-- The thread that has run last. -/
  running : Sem
  handler : Handler

/-- What can happen next. -/
inductive Event
  | read (len : ℤ) (nonblock : Bool)
  | write (ptr : List (BitVec 8)) (len : ℤ) (nonblock : Bool)
  | close (nonblock : Bool)
  /-- The next access of a thread. -/
  | access (w : Sem)
  | interrupt
  /-- The next access of the handler. -/
  | handler
  | receive (data : Word)
  | drain
  deriving DecidableEq, Repr

/-- `SEM_VALUE_MAX`. -/
def semValueMax : ℕ := 32767

/-- The semaphore that the handler tests behind this one. -/
def Sem.next : Sem → Option Sem
  | .read => some .write
  | .write => some .close
  | .close => none

/-- A thread in the waiting list of its semaphore is woken. -/
def Pos.wake (cfg : Config) : {w : Sem} → Pos w → Option (Pos w)
  | _, .wait k .blocked => some (k.resume cfg)
  | _, _ => none

def Pos.isIdle : {w : Sem} → Pos w → Bool
  | _, .idle _ => true
  | _, _ => false

namespace State

variable (cfg : Config) (s : State)

/-- The thread can have the CPU. -/
def Runs (w : Sem) : Prop := s.handler = .idle ∧ (s.pie = true ∨ s.running = w)

instance (w : Sem) : Decidable (s.Runs w) := inferInstanceAs (Decidable (_ ∧ _))

/-- A thread calls the driver. -/
def call (w : Sem) (pos : Pos w) : Option State :=
  if s.Runs w ∧ (s.pos w).isIdle then
    some { s with pos := Function.update s.pos w pos, running := w }
  else none

def view (w : Sem) : View w := ⟨s.dev, s.value w, s.pie, s.pos w⟩

/-- What a thread has changed. -/
def put (w : Sem) (v : View w) : State :=
  { s with
    dev := v.dev
    value := Function.update s.value w v.value
    pos := Function.update s.pos w v.pos
    pie := v.pie
    running := w }

/-- `sem_post`. -/
def semPost (w : Sem) : State :=
  match (s.pos w).wake cfg with
  | some pos => { s with pos := Function.update s.pos w pos }
  | none =>
    if s.value w = semValueMax then s
    else { s with value := Function.update s.value w (s.value w + 1) }

/-- `buffered_uart_irq`. -/
def bufferedUartIrq : Option State :=
  match s.handler with
  | .idle => none
  | .intr => some { s with handler := .status s.dev.intr }
  | .status irq =>
    some { s with handler := .store irq (s.dev.readStatus cfg &&& statusCausesMsk &&& irq) }
  | .store irq causes =>
    some { s with dev := s.dev.writeIntr (irq &&& ~~~causes), handler := .post causes .read }
  | .post causes w =>
    let s := if causes &&& w.trigger ≠ 0 then s.semPost cfg w else s
    some { s with handler := w.next.elim .ret (.post causes) }
  | .ret => some { s with handler := .idle }

def step : Event → Option State
  | .read len nonblock => s.call .read (bufferedUartRead cfg len nonblock)
  | .write ptr len nonblock => s.call .write (bufferedUartWrite cfg ptr len nonblock)
  | .close nonblock => s.call .close (bufferedUartClose nonblock)
  | .access w =>
    if s.Runs w then (BufferedUart.access cfg (s.view w) (s.pos w)).map (s.put w) else none
  | .interrupt =>
    if s.handler = .idle ∧ s.pie = true ∧ s.dev.insIrq cfg = true then
      some { s with handler := .intr }
    else none
  | .handler => s.bufferedUartIrq cfg
  | .receive data => some { s with dev := s.dev.receive cfg data }
  | .drain => some { s with dev := s.dev.drain }

/-- Behind `buffered_uart_init`, on a device as it was found. -/
def bufferedUartInit (dev : Device) : State where
  dev := (dev.writeStatus statusClrMsk).writeIntr intrIrqeMsk
  value _ := 0
  pos _ := .idle none
  pie := true
  running := .read
  handler := .idle

/-- The thread is in the waiting list of its semaphore. -/
def Blocked (w : Sem) : Prop := ∃ k, s.pos w = .wait k .blocked

/-- The enable bit that the thread waits for. -/
def Enabled (w : Sem) : Prop := s.dev.intr &&& w.trigger ≠ 0

instance (w : Sem) : Decidable (s.Enabled w) := inferInstanceAs (Decidable (_ ≠ _))

end State

end OlivePiccolo.BufferedUart
