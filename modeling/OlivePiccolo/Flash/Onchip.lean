import OlivePiccolo.Flash.SpiFlash
import OlivePiccolo.Library.LittleEndian

/-!
# The on-chip flash

`altera_onchip_flash.c`: the flash is read through memory, written word by word, and erased page by
page through its control register. Its sectors follow one another; a region is made of each of them.
-/

namespace OlivePiccolo.Flash

open Dialog

/-! ## The device -/

/-- The first and the last address of a sector. -/
structure Sector where
  startAddr : BitVec 32
  endAddr : BitVec 32
  deriving DecidableEq, Repr

/-- The sector has a number of pages. -/
def Sector.Paged (page : ℕ) (s : Sector) : Prop :=
  s.startAddr.toNat ≤ s.endAddr.toNat ∧ page ∣ s.startAddr.toNat ∧ page ∣ s.endAddr.toNat + 1

/-- `alt_onchip_flash_dev`, with the sectors that are enabled. The field of the control register for
the word address of a page has 20 bits. -/
structure OnchipFlashDev where
  isReadOnly : Bool
  hasCsr : Bool
  length : BitVec 32
  pageSize : BitVec 32
  sector1 : Sector
  sector2 : Sector
  sector3 : Sector
  more : List Sector
  page_pow : ∃ k, 2 ≤ k ∧ k ≤ 22 ∧ pageSize.toNat = 2 ^ k
  paged : ∀ s ∈ sector1 :: sector2 :: sector3 :: more, s.Paged pageSize.toNat
  consecutive : (sector1 :: sector2 :: sector3 :: more).IsChain fun s t =>
    t.startAddr.toNat = s.endAddr.toNat + 1
  length_eq : length.toNat = (more.getLastD sector3).endAddr.toNat + 1
  length_le : length.toNat ≤ 2 ^ 22

def OnchipFlashDev.sectors (flash : OnchipFlashDev) : List Sector :=
  flash.sector1 :: flash.sector2 :: flash.sector3 :: flash.more

/-- `UFM_DATA` of `system.h`. -/
def OnchipFlashDev.ufmData : OnchipFlashDev where
  isReadOnly := false
  hasCsr := true
  length := 176128
  pageSize := 2048
  sector1 := ⟨0, 0x3fff⟩
  sector2 := ⟨0x4000, 0x7fff⟩
  sector3 := ⟨0x8000, 0x1c7ff⟩
  more := [⟨0x1c800, 0x2afff⟩]
  page_pow := ⟨11, by decide, by decide, rfl⟩
  paged := by
    intro s hs
    simp only [List.mem_cons, List.not_mem_nil, or_false] at hs
    rcases hs with rfl | rfl | rfl | rfl <;> exact ⟨by decide, by decide, by decide⟩
  consecutive := by decide
  length_eq := rfl
  length_le := by decide

/-- `flash_region`. -/
structure FlashRegion where
  offset : BitVec 32
  regionSize : BitVec 32
  numberOfBlocks : BitVec 32
  blockSize : BitVec 32
  deriving DecidableEq, Repr

/-- `altera_onchip_flash_init`: the region of a sector that is available. -/
def OnchipFlashDev.region (flash : OnchipFlashDev) (s : Sector) : FlashRegion :=
  let regionSize := s.endAddr - s.startAddr + 1
  ⟨s.startAddr, regionSize, regionSize.sdiv flash.pageSize, flash.pageSize⟩

def OnchipFlashDev.regionInfo (flash : OnchipFlashDev) : List FlashRegion :=
  flash.sectors.map flash.region

/-! ## Registers -/

/-- The accesses to the flash: its two registers, and its memory. -/
inductive Onchip
  | status
  | control
  | setControl (data : BitVec 32)
  | load (offset : BitVec 32) (n : ℕ)
  | store (offset data : BitVec 32)

/-- A register, or bytes of the memory. -/
structure Heard where
  word : BitVec 32
  data : List UInt8

def STATUS_BUSY_MSK : BitVec 32 := 0x00000003
def STATUS_BUSY_IDLE : BitVec 32 := 0x00000000
def STATUS_READ_MSK : BitVec 32 := 0x00000004
def STATUS_READ_PASSED : BitVec 32 := 0x00000004
def STATUS_WRITE_MSK : BitVec 32 := 0x00000008
def STATUS_WRITE_PASSED : BitVec 32 := 0x00000008
def STATUS_ERASE_MSK : BitVec 32 := 0x00000010
def STATUS_ERASE_PASSED : BitVec 32 := 0x00000010

def CONTROL_PAGE_ERASE_MSK : BitVec 32 := 0x000fffff
def CONTROL_PAGE_ERASE_NOT_SET : BitVec 32 := 0x000fffff
def CONTROL_SECTOR_ERASE_MSK : BitVec 32 := 0x00700000
def CONTROL_SECTOR_ERASE_NOT_SET : BitVec 32 := 0x00700000
def CONTROL_ALLSECTOR_WRITE_PROTECT_MSK : BitVec 32 := 0x0f800000
def CONTROL_ALLSECTOR_WRITE_ENABLE : BitVec 32 := 0x00000000
def CONTROL_ALLSECTOR_WRITE_DISABLE : BitVec 32 := 0x0f800000

def DATA_ALIGN_SIZE : BitVec 32 := 4

/-- `ALTERA_ONCHIP_FLASH_STATUS_BIT_POLLING_TIMEOUT_VALUE`. -/
def POLLING_TIMEOUT_VALUE : ℕ := 700000

/-- The loop of the three polls. -/
def pollForStatus (mask value : BitVec 32) : ℕ → Dialog Onchip Heard ℤ
  | 0 => return -ETIMEDOUT
  | countDown + 1 => do
    let status ← ask .status
    if status.word &&& mask = value then return 0 else pollForStatus mask value countDown

def pollToGoIdle : Dialog Onchip Heard ℤ :=
  pollForStatus STATUS_BUSY_MSK STATUS_BUSY_IDLE POLLING_TIMEOUT_VALUE

def pollErasePassed : Dialog Onchip Heard ℤ :=
  pollForStatus STATUS_ERASE_MSK STATUS_ERASE_PASSED POLLING_TIMEOUT_VALUE

def pollWritePassed : Dialog Onchip Heard ℤ :=
  pollForStatus STATUS_WRITE_MSK STATUS_WRITE_PASSED POLLING_TIMEOUT_VALUE

/-- The three macros that change the control register. -/
def changeControl (protect page sector : BitVec 32) : Dialog Onchip Heard Heard := do
  let old ← ask .control
  ask (.setControl ((old.word &&& ~~~(CONTROL_ALLSECTOR_WRITE_PROTECT_MSK |||
    CONTROL_PAGE_ERASE_MSK ||| CONTROL_SECTOR_ERASE_MSK)) ||| (protect ||| page ||| sector)))

def enableWriteAndErase : Dialog Onchip Heard Heard :=
  changeControl CONTROL_ALLSECTOR_WRITE_ENABLE CONTROL_PAGE_ERASE_NOT_SET
    CONTROL_SECTOR_ERASE_NOT_SET

def disableWriteAndErase : Dialog Onchip Heard Heard :=
  changeControl CONTROL_ALLSECTOR_WRITE_DISABLE CONTROL_PAGE_ERASE_NOT_SET
    CONTROL_SECTOR_ERASE_NOT_SET

def pageErase (pageAddress : BitVec 32) : Dialog Onchip Heard Heard :=
  changeControl CONTROL_ALLSECTOR_WRITE_ENABLE pageAddress CONTROL_SECTOR_ERASE_NOT_SET

/-! ## The calls -/

/-- `MIN`, of numbers with a sign. -/
def smin (a b : BitVec 32) : BitVec 32 := if a.toInt < b.toInt then a else b

section Calls

variable (flash : OnchipFlashDev)

/-- `alt_onchip_flash_read`, without the bytes that are read. -/
def altOnchipFlashRead (offset length : BitVec 32) : Dialog Onchip Heard ℤ := do
  if flash.length.toInt ≤ offset.toInt ∨ flash.length.toInt < (offset + length).toInt then
    return -EFAULT
  else
    let _ ← ask (.load offset length.toNat)
    if flash.hasCsr then
      let status ← ask .status
      return if status.word &&& STATUS_READ_MSK = STATUS_READ_PASSED then 0 else - EIO
    else return 0

/-- `alt_onchip_flash_erase_block`. -/
def altOnchipFlashEraseBlock (blockOffset : BitVec 32) : Dialog Onchip Heard ℤ := do
  if flash.length.toInt ≤ blockOffset.toInt then return -EFAULT
  else if flash.hasCsr = false ∨ flash.isReadOnly = true then return -ENODEV
  else if blockOffset &&& (flash.pageSize - 1) ≠ 0 then return -EINVAL
  else
    let retCode ← pollToGoIdle
    if retCode ≠ 0 then return retCode
    else
      let _ ← enableWriteAndErase
      let _ ← pageErase (blockOffset.sdiv 4)
      let _ ← pollToGoIdle
      let retCode ← pollErasePassed
      let _ ← disableWriteAndErase
      return retCode

/-- `chunk_of_data`, with the bytes behind some padding. -/
def chunkOfData (padding : ℕ) (bytes : List UInt8) : BitVec 32 :=
  BitVec.ofNat 32 (leNat ((List.replicate padding 0xff ++ bytes ++ List.replicate 4 0xff).take 4))

/-- The loop of `alt_onchip_flash_write_block`. Without padding, its two branches do the same. -/
def writeWords (data : Mem) : ℕ → BitVec 32 → ℤ → BitVec 32 → Dialog Onchip Heard ℤ
  | 0, _, _, _ => late
  | rounds + 1, currentDataOffset, buffer, length =>
    if length = 0 then return 0
    else
      let padding := currentDataOffset &&& (DATA_ALIGN_SIZE - 1)
      let currentDataOffset := currentDataOffset - padding
      let nextDataOffset := (currentDataOffset + DATA_ALIGN_SIZE) &&& ~~~(DATA_ALIGN_SIZE - 1)
      let lengthOfCurrentWrite := smin (length + padding) (nextDataOffset - currentDataOffset)
      let count := lengthOfCurrentWrite - padding
      access (data.readBytes buffer count.toNat) >>= fun bytes => do
        let _ ← ask (.store currentDataOffset (chunkOfData padding.toNat bytes))
        let retCode ← pollToGoIdle
        if retCode ≠ 0 then return retCode
        else
          let retCode ← pollWritePassed
          if retCode ≠ 0 then return retCode
          else writeWords data rounds nextDataOffset (buffer + count.toNat) (length - count)

/-- `alt_onchip_flash_write_block`. -/
def altOnchipFlashWriteBlock (fuel : ℕ) (blockOffset dataOffset : BitVec 32) (data : Mem)
    (ptr : ℤ) (length : BitVec 32) : Dialog Onchip Heard ℤ := do
  if flash.length.toInt ≤ blockOffset.toInt ∨ flash.length.toInt ≤ dataOffset.toInt ∨
      (flash.length - dataOffset).toInt < length.toInt then return -EFAULT
  else if flash.hasCsr = false ∨ flash.isReadOnly = true then return -ENODEV
  else
    let retCode ← pollToGoIdle
    if retCode ≠ 0 then return retCode
    else
      let _ ← enableWriteAndErase
      let retCode ← writeWords data fuel dataOffset ptr length
      let _ ← disableWriteAndErase
      return retCode

/-- `offset`, `length` and `src_addr` of `alt_onchip_flash_write`. -/
structure Rest where
  offset : BitVec 32
  length : BitVec 32
  src : ℤ

/-- Erase and write the part of a block that is different. -/
def writeIfNew (fuel : ℕ) (data : Mem) (currentOffset : BitVec 32) (s : Rest)
    (dataToWrite : BitVec 32) : Dialog Onchip Heard ℤ := do
  let old ← ask (.load s.offset dataToWrite.toNat)
  let new ← access (data.readBytes s.src dataToWrite.toNat)
  if memcmp new old.data ≠ 0 then
    let retCode ← altOnchipFlashEraseBlock flash currentOffset
    if retCode ≠ 0 then return retCode
    else altOnchipFlashWriteBlock flash fuel currentOffset s.offset data s.src dataToWrite
  else return 0

/-- The loop over the blocks of a region. `goto finished` leaves it with the result. -/
def blockLoop (fuel : ℕ) (data : Mem) (blockSize : BitVec 32) :
    ℕ → BitVec 32 → Rest → Dialog Onchip Heard (Except ℤ Rest)
  | 0, _, s => return .ok s
  | blocks + 1, currentOffset, s =>
    if currentOffset.toInt ≤ s.offset.toInt ∧
        s.offset.toInt < (currentOffset + blockSize).toInt then do
      let dataToWrite := smin (currentOffset + blockSize - s.offset) s.length
      let retCode ← writeIfNew flash fuel data currentOffset s dataToWrite
      if s.length = dataToWrite ∨ retCode ≠ 0 then return .error retCode
      else
        blockLoop fuel data blockSize blocks (currentOffset + blockSize)
          ⟨currentOffset + blockSize, s.length - dataToWrite, s.src + dataToWrite.toNat⟩
    else blockLoop fuel data blockSize blocks (currentOffset + blockSize) s

/-- The loop over the regions. -/
def regionLoop (fuel : ℕ) (data : Mem) : List FlashRegion → Rest → Dialog Onchip Heard ℤ
  | [], _ => return 0
  | region :: regions, s => do
    if region.offset.toInt ≤ s.offset.toInt ∧
        s.offset.toInt < (region.offset + region.regionSize).toInt then
      match ← blockLoop flash fuel data region.blockSize region.numberOfBlocks.toInt.toNat
          region.offset s with
      | .error retCode => return retCode
      | .ok s => regionLoop fuel data regions s
    else regionLoop fuel data regions s

/-- `alt_onchip_flash_write`. -/
def altOnchipFlashWrite (fuel : ℕ) (offset : BitVec 32) (src : Mem) (length : BitVec 32) :
    Dialog Onchip Heard ℤ :=
  if flash.length.toInt ≤ offset.toInt ∨ (flash.length - offset).toInt < length.toInt then
    return -EFAULT
  else regionLoop flash fuel src flash.regionInfo ⟨offset, length, 0⟩

end Calls

end OlivePiccolo.Flash
