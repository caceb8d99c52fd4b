import OlivePiccolo.Library.Dialog
import OlivePiccolo.Library.Memory

/-!
# The FAT disk on the flash

`epcs_fatfs_diskio.c`, as `system.h` configures it: sectors of 4096 bytes that are erased by command
0x20, a disk from 0x80000 to the end of the flash, no verification, and `peridot_spi_flash_command`
behind `EPCS_COMMAND`.
-/

namespace OlivePiccolo.Flash

open Dialog

/-! ## Commands -/

/-- What the code says to the outside: it takes and gives back the lock, or has
`peridot_spi_flash_command` write bytes and then read some. -/
inductive Said
  | lock
  | unlock
  | command (write : List UInt8) (readLength : ℕ) (merge : Bool)
  deriving DecidableEq, Repr

/-- The result of a command and the bytes that were read. -/
structure Reply where
  result : ℤ
  data : List UInt8
  deriving DecidableEq, Repr

def FREAD : UInt8 := 0x0b
def WREN : UInt8 := 0x06
def RDSR : UInt8 := 0x05
def ERASE : UInt8 := 0x20
def PROG : UInt8 := 0x02
/-- The sectors have `1 << SECT_SHIFT` bytes. -/
def SECT_SHIFT : ℕ := 12

/-- The three bytes of an address, the highest first. -/
def addressBytes (addr : BitVec 32) : List UInt8 :=
  [⟨(addr >>> 16).setWidth 8⟩, ⟨(addr >>> 8).setWidth 8⟩, ⟨(addr >>> 0).setWidth 8⟩]

theorem addressBytes_length (addr : BitVec 32) : (addressBytes addr).length = 3 := rfl

section Error

variable {α β : Type}

/-- A command, without bytes if it fails. -/
def tryCommand (write : List UInt8) (readLength : ℕ) (merge : Bool) :
    Dialog Said Reply (Option (List UInt8)) := do
  let reply ← ask (.command write readLength merge)
  return if reply.result < 0 then none else some reply.data

/-- Go on, but for a failed command. -/
def andThen (d : Dialog Said Reply (Option α)) (f : α → Dialog Said Reply (Option β)) :
    Dialog Said Reply (Option β) := do
  match ← d with
  | none => return none
  | some a => f a

end Error

/-! ## Raw access -/

/-- `epcs_fatfs_raw_read`. -/
def epcsFatfsRawRead (offset len : BitVec 32) : Dialog Said Reply Reply := do
  let _ ← ask .lock
  let reply ← ask (.command (FREAD :: addressBytes offset ++ [0xff]) len.toNat false)
  let _ ← ask .unlock
  return reply

/-- `addr` and `buff` of `epcs_fatfs_raw_write`. -/
structure Cursor where
  addr : BitVec 32
  buff : ℤ

/-- Wait until the WIP bit is off. -/
def waitFinish : ℕ → Dialog Said Reply (Option Unit)
  | 0 => late
  | fuel + 1 => andThen (tryCommand [RDSR] 2 false) fun sr =>
    if sr.getD 1 0 &&& 1 = 0 then return some () else waitFinish fuel

/-- Erase the sector, or program a page. The command of the next round is `PROG`. -/
def eraseOrProgram (ptr : Mem) (page : ℤ) (inst : UInt8) (c : Cursor) :
    Dialog Said Reply (Option (UInt8 × Cursor)) :=
  if page < 0 then
    andThen (tryCommand (inst :: addressBytes c.addr) 0 false) fun _ => return some (PROG, c)
  else
    andThen (tryCommand (inst :: addressBytes c.addr) 0 true) fun _ => do
      let data ← access (ptr.readBytes c.buff 256)
      andThen (tryCommand data 0 false) fun _ =>
        return some (inst, ⟨c.addr + 256, c.buff + 256⟩)

/-- A round of the loop over the pages. The lock is given back at its end and at `error_in_lock`. -/
def pageRound (fuel : ℕ) (ptr : Mem) (page : ℤ) (inst : UInt8) (c : Cursor) :
    Dialog Said Reply (Option (UInt8 × Cursor)) := do
  let _ ← ask .lock
  let next ← andThen (tryCommand [WREN] 0 false) fun _ =>
    andThen (eraseOrProgram ptr page inst c) fun next =>
      andThen (waitFinish fuel) fun _ => return some next
  let _ ← ask .unlock
  return next

/-- The loop over the pages of a sector. -/
def pageLoop (fuel : ℕ) (ptr : Mem) : ℕ → ℤ → UInt8 → Cursor → Dialog Said Reply (Option Cursor)
  | 0, _, _, c => return some c
  | n + 1, page, inst, c => andThen (pageRound fuel ptr page inst c) fun next =>
    pageLoop fuel ptr n (page + 1) next.1 next.2

/-- The loop over the sectors. -/
def sectorLoop (fuel : ℕ) (ptr : Mem) : ℕ → Cursor → Dialog Said Reply (Option Cursor)
  | 0, c => return some c
  | count + 1, c => andThen (pageLoop fuel ptr 17 (-1) ERASE c) (sectorLoop fuel ptr count)

/-- The number of sectors of `epcs_fatfs_raw_write`: `len >> SECT_SHIFT`, as an unsigned number. -/
def sectorCount (len : BitVec 32) : ℕ := (len.sshiftRight SECT_SHIFT).toNat

theorem sectorCount_eq {len : BitVec 32} {n : ℕ} (hn : n < 2 ^ 20) (h : len.toNat = n * 4096) :
    sectorCount len = if n < 2 ^ 19 then n else 2 ^ 32 - 2 ^ 20 + n := by
  rw [sectorCount]
  split_ifs with hsmall
  · have hmsb : len.msb = false := BitVec.msb_eq_false_iff_two_mul_lt.mpr (by omega)
    rw [BitVec.sshiftRight_eq_of_msb_false hmsb, BitVec.toNat_ushiftRight, h, SECT_SHIFT,
      Nat.shiftRight_eq_div_pow]
    omega
  · have hmsb : len.msb = true := BitVec.msb_eq_true_iff_two_mul_ge.mpr (by omega)
    rw [BitVec.sshiftRight_eq_of_msb_true hmsb, BitVec.toNat_not, BitVec.toNat_ushiftRight,
      BitVec.toNat_not, h, SECT_SHIFT, Nat.shiftRight_eq_div_pow]
    omega

/-- `epcs_fatfs_raw_write`. -/
def epcsFatfsRawWrite (fuel : ℕ) (offset : BitVec 32) (ptr : Mem) (len : BitVec 32) :
    Dialog Said Reply ℤ := do
  match ← sectorLoop fuel ptr (sectorCount len) ⟨offset, 0⟩ with
  | some _ => return 0
  | none => return -1

/-! ## The disk -/

/-- `epcs_start_sector` and `epcs_end_sector`. -/
structure Disk where
  start : BitVec 32
  stop : BitVec 32
  deriving DecidableEq, Repr

inductive DRESULT
  | RES_OK
  | RES_ERROR
  | RES_PARERR
  deriving DecidableEq, Repr

/-- `offset` and `len` of a raw access. -/
structure RawCall where
  offset : BitVec 32
  len : BitVec 32
  deriving DecidableEq, Repr

/-- The access that `EPCS_disk_read` and `EPCS_disk_write` ask for, if their check lets them. -/
def Disk.rawCall (d : Disk) (sector count : BitVec 32) : Option RawCall :=
  let sector := sector + d.start
  if d.stop < sector + count then none else some ⟨sector <<< SECT_SHIFT, count <<< SECT_SHIFT⟩

/-- `EPCS_disk_read`, with the bytes that were read. -/
def epcsDiskRead (d : Disk) (sector count : BitVec 32) :
    Dialog Said Reply (DRESULT × List UInt8) := do
  match d.rawCall sector count with
  | none => return (.RES_PARERR, [])
  | some call =>
    let reply ← epcsFatfsRawRead call.offset call.len
    return (if reply.result < 0 then .RES_ERROR else .RES_OK, reply.data)

/-- `EPCS_disk_write`. -/
def epcsDiskWrite (fuel : ℕ) (d : Disk) (buff : Mem) (sector count : BitVec 32) :
    Dialog Said Reply DRESULT := do
  match d.rawCall sector count with
  | none => return .RES_PARERR
  | some call =>
    let result ← epcsFatfsRawWrite fuel call.offset buff call.len
    return if result < 0 then .RES_ERROR else .RES_OK

end OlivePiccolo.Flash
