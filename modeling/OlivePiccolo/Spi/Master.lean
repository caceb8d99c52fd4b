import Mathlib.Data.Int.Notation
import OlivePiccolo.Library.Dialog
import OlivePiccolo.Library.Errno

/-!
# The SPI master driver

`peridot_spi_master.c`, with threads and with the pin function controller, as `system.h` has them.
The registers and the semaphore are behind `Said`.
-/

namespace OlivePiccolo.Spi

open Dialog

/-! ## Registers -/

/-- The registers of `peridot_csr_spi`. -/
inductive Register
  | access
  | config
  deriving DecidableEq, Repr

def ACCESS_RXDATA_MSK : BitVec 32 := 0xff
def ACCESS_RXDATA_OFST : ℕ := 0
def ACCESS_TXDATA_MSK : BitVec 32 := 0xff
def ACCESS_TXDATA_OFST : ℕ := 0
def ACCESS_SS_MSK : BitVec 32 := 0x100
def ACCESS_RDY_MSK : BitVec 32 := 0x200
def ACCESS_STA_MSK : BitVec 32 := 0x200
def ACCESS_IRQENA_MSK : BitVec 32 := 0x8000
def CONFIG_CLKDIV_MSK : BitVec 32 := 0x3ff
def CONFIG_CLKDIV_OFST : ℕ := 0
def CONFIG_MODE_OFST : ℕ := 11
def CONFIG_RVS_MSK : BitVec 32 := 0x8000

/-! ## Flags -/

def MASTER_FILLER_MSK : BitVec 32 := 0x00ff
def MASTER_FILLER_OFST : ℕ := 0
def MASTER_MODE_MSK : BitVec 32 := 0x0300
def MASTER_MODE_OFST : ℕ := 8
def MASTER_MERGE : BitVec 32 := 0x0400
def MASTER_LSBFIRST : BitVec 32 := 0x0800

def PERIDOT_PFC_OUTPUT_PINX_DOUT : BitVec 32 := 1

/-! ## The driver -/

/-- What the driver says to the outside. `semWait` looks at the semaphore once, and takes one from it
if it is not 0; the answer tells whether it did. -/
inductive Said
  | lock
  | unlock
  | selectOutput (pin func : BitVec 32)
  | directOutput (pin value : BitVec 32)
  | iord (reg : Register)
  | iowr (reg : Register) (data : BitVec 32)
  | irqEnable
  | semWait
  deriving DecidableEq, Repr

/-- The fields of `peridot_spi_master_state` that calls use. -/
structure MasterState where
  slaveLocked : BitVec 8
  /-- `out_funcs` of `ss_n_pfc_map`. -/
  ssNPfcMap : Option (Vector (BitVec 8) 32)
  deriving DecidableEq, Repr

/-- The arguments of a call. -/
structure Call where
  slave : BitVec 8
  clkdiv : BitVec 32
  writeData : List (BitVec 8)
  readSkip : ℕ
  readLength : ℕ
  flags : BitVec 32
  deriving DecidableEq, Repr

/-- What a call leaves: its result, `slave_locked` and what has been stored to `read_data`. -/
structure Outcome where
  result : ℤ
  slaveLocked : BitVec 8
  readData : List (BitVec 8)
  deriving DecidableEq, Repr

/-- `flags` ask for the slave select to stay. -/
def Call.Merges (c : Call) : Prop := c.flags &&& MASTER_MERGE ≠ 0

instance (c : Call) : Decidable c.Merges := inferInstanceAs (Decidable (_ ≠ _))

/-- The word for the access register that shifts a byte. -/
def start (txdata : BitVec 32) : BitVec 32 :=
  ACCESS_IRQENA_MSK ||| ACCESS_STA_MSK ||| ACCESS_SS_MSK |||
    ((txdata <<< ACCESS_TXDATA_OFST) &&& ACCESS_TXDATA_MSK)

/-- `(resp & PERIDOT_SPI_ACCESS_RXDATA_MSK) >> PERIDOT_SPI_ACCESS_RXDATA_OFST`, as a byte. -/
def rxdata (resp : BitVec 32) : BitVec 8 :=
  ((resp &&& ACCESS_RXDATA_MSK) >>> ACCESS_RXDATA_OFST).setWidth 8

/-- The filler of the flags. -/
def Call.filler (c : Call) : BitVec 32 := (c.flags &&& MASTER_FILLER_MSK) >>> MASTER_FILLER_OFST

/-- The word for the config register. -/
def Call.config (c : Call) : BitVec 32 :=
  ((c.clkdiv <<< CONFIG_CLKDIV_OFST) &&& CONFIG_CLKDIV_MSK) |||
    (((c.flags &&& MASTER_MODE_MSK) >>> MASTER_MODE_OFST) <<< CONFIG_MODE_OFST) |||
    (if c.flags &&& MASTER_LSBFIRST ≠ 0 then CONFIG_RVS_MSK else 0)

/-- `sem_wait`. -/
def semWait : ℕ → Dialog Said (BitVec 32) Unit
  | 0 => late
  | fuel + 1 => do
    let taken ← ask .semWait
    if taken = 0 then semWait fuel else return ()

/-- The loop of `wait`, with `fuel` for each `sem_wait`. -/
def waitLoop (fuel : ℕ) : ℕ → Dialog Said (BitVec 32) (BitVec 32)
  | 0 => late
  | rounds + 1 => do
    semWait fuel
    let resp ← ask (.iord .access)
    if resp &&& ACCESS_RDY_MSK = 0 then waitLoop fuel rounds else return resp

/-- `wait`. -/
def wait (fuel : ℕ) : Dialog Said (BitVec 32) (BitVec 32) := do
  let _ ← ask .irqEnable
  waitLoop fuel fuel

/-- A byte is written and the answer awaited. -/
def shift (fuel : ℕ) (txdata : BitVec 32) : Dialog Said (BitVec 32) (BitVec 32) := do
  let _ ← ask (.iowr .access (start txdata))
  wait fuel

/-- The loop that reads: `read_length` is what is left, `filler` is written. -/
def readLoop (fuel : ℕ) (filler : BitVec 32) :
    ℕ → List (BitVec 8) → Dialog Said (BitVec 32) (List (BitVec 8))
  | 0, readData => return readData
  | readLength + 1, readData => do
    let resp ← shift fuel filler
    readLoop fuel filler readLength (readData ++ [rxdata resp])

/-- The loop that skips. -/
def skipLoop (fuel : ℕ) (filler : BitVec 32) : ℕ → Dialog Said (BitVec 32) Unit
  | 0 => return ()
  | readSkip + 1 => do
    let _ ← shift fuel filler
    skipLoop fuel filler readSkip

/-- The loop that writes. What is left of `read_skip` and `read_length` goes on to the others. -/
def writeLoop (fuel : ℕ) : List (BitVec 8) → ℕ → ℕ → List (BitVec 8) →
    Dialog Said (BitVec 32) (ℕ × ℕ × List (BitVec 8))
  | [], readSkip, readLength, readData => return (readSkip, readLength, readData)
  | byte :: writeData, readSkip, readLength, readData => do
    let resp ← shift fuel (byte.setWidth 32)
    if 0 < readSkip then writeLoop fuel writeData (readSkip - 1) readLength readData
    else if 0 < readLength then
      writeLoop fuel writeData readSkip (readLength - 1) (readData ++ [rxdata resp])
    else writeLoop fuel writeData readSkip readLength readData

/-- The loop that waits for the controller to be ready. -/
def readyLoop : ℕ → Dialog Said (BitVec 32) Unit
  | 0 => late
  | fuel + 1 => do
    let resp ← ask (.iord .access)
    if resp &&& ACCESS_RDY_MSK = 0 then readyLoop fuel else return ()

/-- From the wait for ready on: the bytes are shifted, and the slave select stays or not. -/
def Call.shiftAll (c : Call) (fuel : ℕ) : Dialog Said (BitVec 32) Outcome := do
  readyLoop fuel
  let _ ← ask (.iowr .config c.config)
  let _ ← ask (.iowr .access ACCESS_SS_MSK)
  let (readSkip, readLength, readData) ← writeLoop fuel c.writeData c.readSkip c.readLength []
  skipLoop fuel c.filler readSkip
  let readData ← readLoop fuel c.filler readLength readData
  if c.Merges then return ⟨0, c.slave, readData⟩
  else
    let _ ← ask (.iowr .access 0)
    let _ ← ask (.directOutput (c.slave.signExtend 32) 1)
    let _ ← ask (.selectOutput (c.slave.signExtend 32) PERIDOT_PFC_OUTPUT_PINX_DOUT)
    return ⟨0, -1, readData⟩

/-- The transaction of another slave is in progress. -/
def MasterState.Busy (sp : MasterState) (slave : BitVec 8) : Prop :=
  0 ≤ sp.slaveLocked.toInt ∧ sp.slaveLocked ≠ slave

instance (sp : MasterState) (slave : BitVec 8) : Decidable (sp.Busy slave) :=
  inferInstanceAs (Decidable (_ ∧ _))

/-- `transfer`. -/
def transfer (sp : MasterState) (c : Call) (fuel : ℕ) : Dialog Said (BitVec 32) Outcome :=
  if sp.Busy c.slave then return ⟨-EAGAIN, sp.slaveLocked, []⟩
  else
    match sp.ssNPfcMap with
    | some outFuncs =>
      if 0 ≤ c.slave.toInt then do
        let func ← access outFuncs[c.slave.toNat]?
        let _ ← ask (.selectOutput (c.slave.signExtend 32) (func.signExtend 32))
        c.shiftAll fuel
      else c.shiftAll fuel
    | none => c.shiftAll fuel

/-- The slave number has no output for its slave select. `sizeof` is unsigned. -/
def MasterState.Invalid (sp : MasterState) (slave : BitVec 8) : Prop :=
  sp.ssNPfcMap.any fun outFuncs => 32 ≤ (slave.signExtend 32).toNat ∨
    0 ≤ slave.toInt ∧ outFuncs[slave.toNat]?.any (·.toInt < 0)

instance (sp : MasterState) (slave : BitVec 8) : Decidable (sp.Invalid slave) :=
  inferInstanceAs (Decidable (_ = true))

/-- `peridot_spi_master_transfer`. -/
def peridotSpiMasterTransfer (sp : MasterState) (c : Call) (fuel : ℕ) :
    Dialog Said (BitVec 32) Outcome :=
  if sp.Invalid c.slave then return ⟨-EINVAL, sp.slaveLocked, []⟩
  else do
    let _ ← ask .lock
    let outcome ← transfer sp c fuel
    let _ ← ask .unlock
    return outcome

end OlivePiccolo.Spi
