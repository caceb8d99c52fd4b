import OlivePiccolo.Spi.Master

/-!
# The I2C master driver

`peridot_i2c_master.c`, with threads. Its registers are an access and a config register, as those of
the SPI master are, its semaphore is used in the same way, and its `wait` has the same text; what is
said to them is `Spi.Said`, and `wait` is `Spi.wait`.
-/

namespace OlivePiccolo.I2c

open Dialog Spi

/-! ## Registers -/

def RXDATA_MSK : BitVec 32 := 0xff
def RXDATA_OFST : ℕ := 0
def TXDATA_MSK : BitVec 32 := 0xff
def TXDATA_OFST : ℕ := 0
def NACK_MSK : BitVec 32 := 0x100
def RDY_MSK : BitVec 32 := 0x200
def STA_MSK : BitVec 32 := 0x200
def DIR_MSK : BitVec 32 := 0x400
def PC_MSK : BitVec 32 := 0x800
def SC_MSK : BitVec 32 := 0x1000
def IRQENA_MSK : BitVec 32 := 0x8000
def CLKDIV_MSK : BitVec 32 := 0x3ff
def CLKDIV_OFST : ℕ := 0

def MASTER_10BIT_ADDRESS : BitVec 16 := 0x8000

/-! ## The driver -/

/-- The arguments of a call. -/
structure Call where
  slaveAddress : BitVec 16
  clkdiv : BitVec 32
  writeData : List (BitVec 8)
  readLength : ℕ
  deriving DecidableEq, Repr

/-- What a call leaves: its result, and what has been stored to `read_data`. -/
structure Outcome where
  result : ℤ
  readData : List (BitVec 8)
  deriving DecidableEq, Repr

/-- The byte of an answer. -/
def rxdata (resp : BitVec 32) : BitVec 8 := ((resp &&& RXDATA_MSK) >>> RXDATA_OFST).setWidth 8

/-- A byte in the word for the access register. -/
def txdata (byte : BitVec 8) : BitVec 32 := (byte.setWidth 32 <<< TXDATA_OFST) &&& TXDATA_MSK

/-- A word is written to the access register, and the answer awaited. -/
def exchange (fuel : ℕ) (data : BitVec 32) : Dialog Said (BitVec 32) (BitVec 32) := do
  let _ ← ask (.iowr .access data)
  wait fuel

/-- A start condition, and the slave address with the direction in its lowest bit. -/
def addressWord (address : BitVec 8) : BitVec 32 :=
  IRQENA_MSK ||| SC_MSK ||| STA_MSK ||| txdata address

def writeWord (last : Bool) (byte : BitVec 8) : BitVec 32 :=
  IRQENA_MSK ||| (if last then PC_MSK else 0) ||| STA_MSK ||| txdata byte

def readWord (last : Bool) : BitVec 32 :=
  IRQENA_MSK ||| (if last then PC_MSK ||| NACK_MSK else 0) ||| DIR_MSK ||| STA_MSK

/-- A stop condition with a dummy write. -/
def dummyWrite : BitVec 32 := IRQENA_MSK ||| PC_MSK ||| STA_MSK ||| TXDATA_MSK

/-- A stop condition with a dummy read. -/
def dummyRead : BitVec 32 := IRQENA_MSK ||| PC_MSK ||| NACK_MSK ||| DIR_MSK ||| STA_MSK

/-- The loop that writes; `next` is what comes behind it. -/
def writeLoop (fuel readLength : ℕ) (next : Dialog Said (BitVec 32) Outcome) :
    List (BitVec 8) → Dialog Said (BitVec 32) Outcome
  | [] => next
  | byte :: writeData => do
    let resp ← exchange fuel (writeWord (writeData.isEmpty && readLength == 0) byte)
    if resp &&& NACK_MSK ≠ 0 then
      if writeData ≠ [] ∨ 0 < readLength then
        let _ ← exchange fuel dummyWrite
        return ⟨-ECANCELED, []⟩
      else return ⟨-ECANCELED, []⟩
    else writeLoop fuel readLength next writeData

/-- The loop that reads. -/
def readLoop (fuel : ℕ) : ℕ → List (BitVec 8) → Dialog Said (BitVec 32) Outcome
  | 0, readData => return ⟨0, readData⟩
  | readLength + 1, readData => do
    let resp ← exchange fuel (readWord (readLength == 0))
    readLoop fuel readLength (readData ++ [rxdata resp])

/-- `saddr`. -/
def Call.saddr (c : Call) : BitVec 8 := ((c.slaveAddress.setWidth 32 <<< 1) &&& 0xfe).setWidth 8

/-- From `if (read_length > 0)` on. -/
def Call.reading (c : Call) (fuel : ℕ) : Dialog Said (BitVec 32) Outcome :=
  if 0 < c.readLength then do
    let resp ← exchange fuel (addressWord (c.saddr ||| 0x01))
    if resp &&& NACK_MSK ≠ 0 then
      let _ ← exchange fuel dummyRead
      return ⟨-ENOENT, []⟩
    else readLoop fuel c.readLength []
  else return ⟨0, []⟩

/-- From `if (write_length > 0)` on. -/
def Call.writing (c : Call) (fuel : ℕ) : Dialog Said (BitVec 32) Outcome :=
  if c.writeData ≠ [] then do
    let resp ← exchange fuel (addressWord (c.saddr ||| 0x00))
    if resp &&& NACK_MSK ≠ 0 then
      let _ ← exchange fuel dummyWrite
      return ⟨-ENOENT, []⟩
    else writeLoop fuel c.readLength (c.reading fuel) c.writeData
  else c.reading fuel

/-- `transfer`. -/
def transfer (c : Call) (fuel : ℕ) : Dialog Said (BitVec 32) Outcome :=
  if c.slaveAddress &&& MASTER_10BIT_ADDRESS ≠ 0 then return ⟨-ENOTSUP, []⟩
  else do
    readyLoop fuel
    let _ ← ask (.iowr .config ((c.clkdiv <<< CLKDIV_OFST) &&& CLKDIV_MSK))
    c.writing fuel

end OlivePiccolo.I2c
