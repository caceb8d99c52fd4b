import OlivePiccolo.Flash.Nor
import OlivePiccolo.Library.PowTwo

/-!
# The flash device

`peridot_spi_flash.c`: to read, to compare, to erase and to write through the device of the HAL. The
sizes are what `peridot_spi_flash_init` finds in the tables of the flash.
-/

namespace OlivePiccolo.Flash

open Dialog

/-- `peridot_spi_flash_dev`. Pages and blocks have powers of two as their sizes, and there is one
region. -/
structure SpiFlashDev where
  eraseInst : UInt8
  fourBytesMode : Bool
  pageSize : BitVec 32
  blockSize : BitVec 32
  regionSize : BitVec 32
  length : BitVec 32
  page_pow : ∃ k ≤ 15, pageSize.toNat = 2 ^ k
  block_pow : ∃ k ≤ 30, blockSize.toNat = 2 ^ k
  region_lt : regionSize.toNat < 2 ^ 31
  length_eq : length = regionSize

/-- A flash of 8 MiB with pages of 256 bytes and blocks of 4096 bytes. -/
def SpiFlashDev.mib8 : SpiFlashDev where
  eraseInst := 0x20
  fourBytesMode := false
  pageSize := 256
  blockSize := 4096
  regionSize := 0x800000
  length := 0x800000
  page_pow := ⟨8, by decide, rfl⟩
  block_pow := ⟨12, by decide, rfl⟩
  region_lt := by decide
  length_eq := rfl

/-- `peridot_spi_flash_set_addr`: the bytes of an address. -/
def SpiFlashDev.setAddr (flash : SpiFlashDev) (offset : BitVec 32) : List UInt8 :=
  if flash.fourBytesMode then ⟨(offset >>> 24).setWidth 8⟩ :: addressBytes offset
  else addressBytes offset

/-! ## Commands -/

/-- The commands of the device, with the address that is given to `peridot_spi_flash_set_addr`. The
bytes to program are a command of their own, behind a merged one. -/
inductive Op
  | readBytes (offset : BitVec 32) (n : ℕ)
  | readStatus
  | writeEnable
  | erase (offset : BitVec 32)
  | pageProgram (offset : BitVec 32)
  | pageData (offset : BitVec 32) (data : List UInt8)

/-- The call of `peridot_spi_flash_command`. -/
def Op.said (flash : SpiFlashDev) : Op → Said
  | readBytes offset n => .command (READ :: flash.setAddr offset) n false
  | readStatus => .command [RDSR] 1 false
  | writeEnable => .command [WREN] 0 false
  | erase offset => .command (flash.eraseInst :: flash.setAddr offset) 0 false
  | pageProgram offset => .command (PROG :: flash.setAddr offset) 0 true
  | pageData _ data => .command data 0 false

/-- A command, with `return result` if it fails. -/
def command (op : Op) (next : List UInt8 → Dialog Op Reply ℤ) : Dialog Op Reply ℤ := do
  let reply ← ask op
  if reply.result < 0 then return reply.result else next reply.data

/-- A call, with `return result` if it fails. -/
def check (call next : Dialog Op Reply ℤ) : Dialog Op Reply ℤ := do
  let result ← call
  if result < 0 then return result else next

/-- `memcmp`, by the sign of its result. -/
def memcmp : List UInt8 → List UInt8 → ℤ
  | a :: l, b :: l' => if a < b then -1 else if b < a then 1 else memcmp l l'
  | _, _ => 0

section Device

variable (flash : SpiFlashDev) (fuel : ℕ)

/-- The range check of the calls. -/
def SpiFlashDev.Rejects (offset length : BitVec 32) : Prop :=
  flash.regionSize.toInt ≤ offset.toInt ∨ flash.regionSize.toInt < (offset + length).toInt

instance (offset length : BitVec 32) : Decidable (flash.Rejects offset length) := by
  unfold SpiFlashDev.Rejects
  infer_instance

/-- The loop of `peridot_spi_flash_compare`. -/
def compareLoop (data : Mem) : ℕ → BitVec 32 → ℤ → BitVec 32 → Dialog Op Reply ℤ
  | 0, _, _, _ => late
  | rounds + 1, dataOffset, ptr, length =>
    if 0 < length.toInt then
      let chunkLen := if 256 < length then 256 else length
      command (.readBytes dataOffset chunkLen.toNat) fun buffer =>
        access (data.readBytes ptr chunkLen.toNat) >>= fun bytes =>
          if memcmp buffer bytes < 0 then return -1
          else if 0 < memcmp buffer bytes then return 1
          else
            compareLoop data rounds (dataOffset + chunkLen) (ptr + chunkLen.toNat)
              (length - chunkLen)
    else return 0

/-- `peridot_spi_flash_compare`. -/
def peridotSpiFlashCompare (dataOffset : BitVec 32) (data : Mem) (ptr : ℤ) (length : BitVec 32) :
    Dialog Op Reply ℤ :=
  if flash.Rejects dataOffset length then return -EFAULT
  else compareLoop data fuel dataOffset ptr length

/-- `peridot_spi_flash_read`, without the bytes that are read. -/
def peridotSpiFlashRead (offset length : BitVec 32) : Dialog Op Reply ℤ := do
  if flash.Rejects offset length then return -EFAULT
  let reply ← ask (.readBytes offset length.toNat)
  return reply.result

/-- `peridot_spi_flash_wait_busy`. -/
def waitBusy : ℕ → Dialog Op Reply ℤ
  | 0 => late
  | fuel + 1 => command .readStatus fun status =>
    if status.getD 0 0 &&& 1 = 0 then return 0 else waitBusy fuel

/-- `peridot_spi_flash_erase_block`. -/
def peridotSpiFlashEraseBlock (blockOffset : BitVec 32) : Dialog Op Reply ℤ :=
  if flash.length.toInt ≤ blockOffset.toInt then return -EFAULT
  else if blockOffset &&& (flash.blockSize - 1) ≠ 0 then return -EINVAL
  else
    command .writeEnable fun _ =>
      command (.erase blockOffset) fun _ =>
        waitBusy fuel

/-- The loop of `peridot_spi_flash_write_block`. -/
def writeBlockLoop (data : Mem) : ℕ → BitVec 32 → ℤ → BitVec 32 → Dialog Op Reply ℤ
  | 0, _, _, _ => late
  | rounds + 1, dataOffset, ptr, length =>
    if 0 < length.toInt then
      let pageOffset := dataOffset &&& (flash.pageSize - 1)
      let pageLength := flash.pageSize - pageOffset
      command .writeEnable fun _ =>
        command (.pageProgram dataOffset) fun _ =>
          access (data.readBytes ptr pageLength.toNat) >>= fun bytes =>
            command (.pageData dataOffset bytes) fun _ =>
              check (waitBusy fuel)
                (writeBlockLoop data rounds (dataOffset + pageLength) (ptr + pageLength.toNat)
                  (length - pageLength))
    else return 0

/-- `peridot_spi_flash_write_block`. It does not use its `block_offset`. -/
def peridotSpiFlashWriteBlock (dataOffset : BitVec 32) (data : Mem) (ptr : ℤ)
    (length : BitVec 32) : Dialog Op Reply ℤ :=
  if flash.length.toInt ≤ dataOffset.toInt ∨ flash.length.toInt < (dataOffset + length).toInt then
    return -EFAULT
  else writeBlockLoop flash fuel data fuel dataOffset ptr length

/-- A block, or what belongs to the range of it. -/
def writeRound (src : Mem) (offset : BitVec 32) (ptr : ℤ) (blockOffset pageLength : BitVec 32)
    (next : Dialog Op Reply ℤ) : Dialog Op Reply ℤ := do
  let result ← peridotSpiFlashCompare flash fuel offset src ptr pageLength
  if result ≠ 0 then
    check (peridotSpiFlashEraseBlock flash fuel blockOffset)
      (check (peridotSpiFlashWriteBlock flash fuel offset src ptr pageLength) next)
  else next

/-- The part of a range that is in one block. -/
def SpiFlashDev.part (offset length : BitVec 32) : BitVec 32 :=
  let pageOffset := offset &&& (flash.blockSize - 1)
  let pageLength := flash.blockSize - pageOffset
  if length.toInt < pageLength.toInt then length else pageLength

/-- The loop of `peridot_spi_flash_write`. -/
def writeLoop (src : Mem) : ℕ → BitVec 32 → ℤ → BitVec 32 → Dialog Op Reply ℤ
  | 0, _, _, _ => late
  | rounds + 1, offset, ptr, length =>
    if 0 < length.toInt then
      let blockOffset := offset &&& ~~~(flash.blockSize - 1)
      let pageLength := flash.part offset length
      writeRound flash fuel src offset ptr blockOffset pageLength
        (writeLoop src rounds (offset + pageLength) (ptr + pageLength.toNat) (length - pageLength))
    else return 0

/-- `peridot_spi_flash_write`. -/
def peridotSpiFlashWrite (offset : BitVec 32) (src : Mem) (length : BitVec 32) :
    Dialog Op Reply ℤ :=
  if flash.Rejects offset length then return -EFAULT
  else writeLoop flash fuel src fuel offset 0 length

end Device

section Rules

variable {P : Op → Prop} {Q : ℤ → Prop} {op : Op}

theorem every_command {A : Reply → Prop} {next : List UInt8 → Dialog Op Reply ℤ} (hop : P op)
    (hfail : ∀ r : Reply, A r → r.result < 0 → Q r.result)
    (hnext : ∀ r : Reply, A r → 0 ≤ r.result → (next r.data).Every A P Q) :
    (command op next).Every A P Q :=
  .ask hop fun r hr => .ite (hfail r hr) fun hneg => hnext r hr (by omega)

theorem every_check {A : Reply → Prop} {call next : Dialog Op Reply ℤ} {R : ℤ → Prop}
    (hcall : call.Every A P R) (hfail : ∀ r, R r → r < 0 → Q r)
    (hnext : ∀ r, R r → 0 ≤ r → next.Every A P Q) : (check call next).Every A P Q :=
  .bind hcall fun r hr => .ite (hfail r hr) fun hneg => hnext r hr (by omega)

end Rules

/-! ## Pages and blocks -/

/-- An `int` that is not negative, and one that is. -/
theorem int_cases (x : BitVec 32) :
    x.toNat < 2 ^ 31 ∧ x.toInt = x.toNat ∨ 2 ^ 31 ≤ x.toNat ∧ x.toInt = x.toNat - 2 ^ 32 := by
  have h := BitVec.toInt_eq_toNat_cond x
  omega

theorem toNat_add_of_lt {x y : BitVec 32} (h : x.toNat + y.toNat < 2 ^ 32) :
    (x + y).toNat = x.toNat + y.toNat := by
  rw [BitVec.toNat_add, Nat.mod_eq_of_lt h]

theorem toNat_sub_of_le {x y : BitVec 32} (h : y.toNat ≤ x.toNat) :
    (x - y).toNat = x.toNat - y.toNat := by
  have hx := x.isLt
  rw [BitVec.toNat_sub]
  omega

namespace SpiFlashDev

variable (flash : SpiFlashDev) (x : BitVec 32)

theorem pageSize_bounds : 0 < flash.pageSize.toNat ∧ flash.pageSize.toNat ≤ 2 ^ 15 := by
  obtain ⟨k, hk, hpow⟩ := flash.page_pow
  rw [hpow]
  exact ⟨Nat.two_pow_pos k, Nat.pow_le_pow_right Nat.two_pos hk⟩

theorem blockSize_bounds : 0 < flash.blockSize.toNat ∧ flash.blockSize.toNat ≤ 2 ^ 30 := by
  obtain ⟨k, hk, hpow⟩ := flash.block_pow
  rw [hpow]
  exact ⟨Nat.two_pow_pos k, Nat.pow_le_pow_right Nat.two_pos hk⟩

theorem page_length : (flash.pageSize - (x &&& (flash.pageSize - 1))).toNat =
    flash.pageSize.toNat - x.toNat % flash.pageSize.toNat := by
  obtain ⟨k, -, hpow⟩ := flash.page_pow
  have hoffset := and_mask_toNat x hpow
  have hlt := Nat.mod_lt x.toNat flash.pageSize_bounds.1
  rw [toNat_sub_of_le (by omega), hoffset]

theorem block_place : (x &&& (flash.blockSize - 1)).toNat = x.toNat % flash.blockSize.toNat := by
  obtain ⟨k, -, hpow⟩ := flash.block_pow
  exact and_mask_toNat x hpow

theorem block_length : (flash.blockSize - (x &&& (flash.blockSize - 1))).toNat =
    flash.blockSize.toNat - x.toNat % flash.blockSize.toNat := by
  have hlt := Nat.mod_lt x.toNat flash.blockSize_bounds.1
  have hplace := flash.block_place x
  rw [toNat_sub_of_le (by omega), hplace]

theorem block_offset : (x &&& ~~~(flash.blockSize - 1)).toNat =
    x.toNat / flash.blockSize.toNat * flash.blockSize.toNat := by
  obtain ⟨k, -, hpow⟩ := flash.block_pow
  exact and_not_mask_toNat x hpow

theorem part_toNat {length : BitVec 32} (hlength : 0 < length.toInt) :
    (flash.part x length).toNat = min length.toNat
      (flash.blockSize.toNat - x.toNat % flash.blockSize.toNat) := by
  have hblock := flash.blockSize_bounds
  have hplace := Nat.mod_lt x.toNat hblock.1
  have hlong := flash.block_length x
  rw [part]
  generalize flash.blockSize - (x &&& (flash.blockSize - 1)) = rest at hlong ⊢
  have hrest := int_cases rest
  have hint := int_cases length
  split_ifs with hlt <;> omega

/-- The bytes of an address say what they can hold of it. -/
theorem addressOf_setAddr : addressOf (flash.setAddr x) =
    if flash.fourBytesMode then x.toNat else x.toNat % 2 ^ 24 := by
  rw [setAddr]
  split_ifs with hmode
  · simp only [addressOf, addressBytes, List.foldl_cons, List.foldl_nil, UInt8.toNat,
      BitVec.toNat_setWidth, BitVec.toNat_ushiftRight, Nat.shiftRight_eq_div_pow]
    have hx := x.isLt
    omega
  · exact addressOf_addressBytes x

end SpiFlashDev

end OlivePiccolo.Flash
