import OlivePiccolo.Flash.SpiFlash
import OlivePiccolo.Library.RoundUp

/-!
# The addresses of the flash device

The calls of the device check a sum of two numbers. With negative numbers, or where the sum
overflows, they go outside of the region; `calls_stay_inside_iff` says for each of the calls exactly
when.
-/

namespace OlivePiccolo.Flash

open Dialog

/-! ## Inside and outside -/

/-- An address of the region, and the bytes from there on. -/
def SpiFlashDev.Contains (flash : SpiFlashDev) (addr : ℤ) (n : ℕ) : Prop :=
  0 ≤ addr ∧ addr < flash.regionSize.toNat ∧ addr + n ≤ flash.regionSize.toNat

/-- The address of a command, and the bytes that it covers, are in the region: those that the code
means, and those that the bytes of the command say. -/
def Op.Inside (flash : SpiFlashDev) : Op → Prop
  | readBytes offset n =>
    flash.Contains offset.toInt n ∧ flash.Contains (addressOf (flash.setAddr offset)) n
  | erase offset =>
    flash.Contains (offset.toInt / flash.blockSize.toNat * flash.blockSize.toNat)
        flash.blockSize.toNat ∧
      flash.Contains ((addressOf (flash.setAddr offset) / flash.blockSize.toNat *
        flash.blockSize.toNat : ℕ)) flash.blockSize.toNat
  | pageProgram offset =>
    flash.Contains offset.toInt 0 ∧ flash.Contains (addressOf (flash.setAddr offset)) 0
  | pageData offset data =>
    flash.Contains offset.toInt data.length ∧
      flash.Contains (addressOf (flash.setAddr offset)) data.length
  | readStatus => True
  | writeEnable => True

/-- The calls of the device. -/
inductive FlashCall
  | read (offset length : BitVec 32)
  | compare (dataOffset length : BitVec 32)
  | write (offset length : BitVec 32)
  | writeBlock (dataOffset length : BitVec 32)
  | eraseBlock (blockOffset : BitVec 32)

def FlashCall.dialog (flash : SpiFlashDev) (fuel : ℕ) (data : Mem) : FlashCall → Dialog Op Reply ℤ
  | read offset length => peridotSpiFlashRead flash offset length
  | compare dataOffset length => peridotSpiFlashCompare flash fuel dataOffset data 0 length
  | write offset length => peridotSpiFlashWrite flash fuel offset data length
  | writeBlock dataOffset length => peridotSpiFlashWriteBlock flash fuel dataOffset data 0 length
  | eraseBlock blockOffset => peridotSpiFlashEraseBlock flash fuel blockOffset

/-- Whatever the flash answers, each command of the call is inside of the region. -/
def FlashCall.Stays (flash : SpiFlashDev) (call : FlashCall) : Prop :=
  ∀ fuel data, (call.dialog flash fuel data).Every (fun _ => True) (Op.Inside flash) fun _ => True

/-- The range is not negative, and its end does not overflow. -/
def InRange (offset length : BitVec 32) : Prop :=
  0 ≤ offset.toInt ∧ 0 ≤ length.toInt ∧ offset.toInt + length.toInt < 2 ^ 31

/-- The call is rejected, or has nothing to do, or keeps to its range. A write ends where the region
ends; its last block and its last page have to be in the region as a whole. -/
def FlashCall.Guarded (flash : SpiFlashDev) : FlashCall → Prop
  | read offset length => flash.Rejects offset length ∨ InRange offset length
  | compare dataOffset length =>
    flash.Rejects dataOffset length ∨ length.toInt ≤ 0 ∨ InRange dataOffset length
  | write offset length =>
    flash.Rejects offset length ∨ length.toInt ≤ 0 ∨
      0 ≤ offset.toInt ∧
        let stop := min (offset.toNat + length.toNat) flash.regionSize.toNat
        roundUp stop flash.blockSize.toNat ≤ flash.regionSize.toNat ∧
          roundUp stop flash.pageSize.toNat ≤ flash.regionSize.toNat
  | writeBlock dataOffset length =>
    flash.Rejects dataOffset length ∨ length.toInt ≤ 0 ∨
      0 ≤ dataOffset.toInt ∧
        roundUp (dataOffset.toNat + length.toNat) flash.pageSize.toNat ≤ flash.regionSize.toNat
  | eraseBlock blockOffset =>
    flash.regionSize.toInt ≤ blockOffset.toInt ∨ blockOffset &&& (flash.blockSize - 1) ≠ 0 ∨
      0 ≤ blockOffset.toInt ∧
        blockOffset.toNat + flash.blockSize.toNat ≤ flash.regionSize.toNat

/-! ## Commands inside -/

section Inside

variable {flash : SpiFlashDev} {offset : BitVec 32} {n : ℕ}

theorem contains_of_lt (hlt : offset.toNat < flash.regionSize.toNat)
    (hroom : offset.toNat + n ≤ flash.regionSize.toNat) :
    flash.Contains offset.toInt n ∧ flash.Contains (addressOf (flash.setAddr offset)) n := by
  have hregion := flash.region_lt
  have hwire : addressOf (flash.setAddr offset) ≤ offset.toNat := by
    rw [flash.addressOf_setAddr]
    split_ifs
    · exact le_rfl
    · exact Nat.mod_le _ _
  have hint := int_cases offset
  exact ⟨⟨by omega, by omega, by omega⟩, ⟨by omega, by omega, by omega⟩⟩

theorem inside_erase
    (h : offset.toNat / flash.blockSize.toNat * flash.blockSize.toNat + flash.blockSize.toNat ≤
      flash.regionSize.toNat) (hoffset : offset.toNat < 2 ^ 31) :
    (Op.erase offset).Inside flash := by
  have hpos := flash.blockSize_bounds.1
  have hwire : addressOf (flash.setAddr offset) / flash.blockSize.toNat * flash.blockSize.toNat ≤
      offset.toNat / flash.blockSize.toNat * flash.blockSize.toNat := by
    refine Nat.mul_le_mul_right _ (Nat.div_le_div_right ?_)
    rw [flash.addressOf_setAddr]
    split_ifs
    · exact le_rfl
    · exact Nat.mod_le _ _
  have hint : offset.toInt = offset.toNat := by
    have := int_cases offset
    omega
  have hdiv : offset.toInt / flash.blockSize.toNat * flash.blockSize.toNat =
      (offset.toNat / flash.blockSize.toNat * flash.blockSize.toNat : ℕ) := by
    rw [hint, Int.natCast_mul, Int.natCast_ediv]
  show flash.Contains _ _ ∧ flash.Contains _ _
  rw [hdiv]
  exact ⟨⟨by omega, by omega, by omega⟩, ⟨by omega, by omega, by omega⟩⟩

/-- What `Op.Inside` says of the address that the code means. -/
theorem Op.Inside.offset_lt (h : flash.Contains offset.toInt n) :
    offset.toNat < 2 ^ 31 ∧ offset.toNat < flash.regionSize.toNat ∧
      offset.toNat + n ≤ flash.regionSize.toNat := by
  obtain ⟨hnonneg, hlt, hroom⟩ := h
  have hint := int_cases offset
  omega

end Inside

/-! ## Guarded calls -/

section Guarded

variable {flash : SpiFlashDev} {fuel rounds : ℕ} {data : Mem} {ptr : ℤ} {offset length : BitVec 32}

/-- All answers. -/
abbrev anyReply : Reply → Prop := fun _ => True

/-- All results. -/
abbrev anyResult : ℤ → Prop := fun _ => True

theorem compareLoop_inside
    (h : length.toInt ≤ 0 ∨ offset.toNat + length.toNat ≤ flash.regionSize.toNat) :
    (compareLoop data rounds offset ptr length).Every anyReply (Op.Inside flash) anyResult := by
  induction rounds generalizing offset ptr length with
  | zero => trivial
  | succ rounds ih =>
    rw [compareLoop]
    refine .ite (fun hpos => ?_) fun _ => trivial
    have hroom := h.resolve_left (by omega)
    have hregion := flash.region_lt
    have hlength := int_cases length
    generalize hchunk : (if 256 < length then (256 : BitVec 32) else length) = chunk
    have hle : 0 < chunk.toNat ∧ chunk.toNat ≤ length.toNat := by
      rw [← hchunk]
      split_ifs with hlong
      · exact ⟨by decide, (BitVec.lt_def.mp hlong).le⟩
      · omega
    have hinside : flash.Contains offset.toInt chunk.toNat ∧
        flash.Contains (addressOf (flash.setAddr offset)) chunk.toNat :=
      contains_of_lt (by omega) (by omega)
    refine every_command hinside (fun _ _ _ => trivial) fun _ _ _ => .access fun bytes _ => ?_
    refine .ite (fun _ => trivial) fun _ => .ite (fun _ => trivial) fun _ => ih (.inr ?_)
    rw [toNat_add_of_lt (by omega), toNat_sub_of_le hle.2]
    omega

theorem waitBusy_inside :
    (waitBusy fuel).Every anyReply (Op.Inside flash) anyResult := by
  induction fuel with
  | zero => trivial
  | succ fuel ih =>
    exact every_command (show Op.readStatus.Inside flash from trivial) (fun _ _ _ => trivial)
      fun _ _ _ => .ite (fun _ => trivial) fun _ => ih

theorem eraseBlock_inside
    (h : flash.regionSize.toInt ≤ offset.toInt ∨ offset &&& (flash.blockSize - 1) ≠ 0 ∨
      offset.toNat / flash.blockSize.toNat * flash.blockSize.toNat + flash.blockSize.toNat ≤
        flash.regionSize.toNat) :
    (peridotSpiFlashEraseBlock flash fuel offset).Every anyReply (Op.Inside flash) anyResult := by
  rw [peridotSpiFlashEraseBlock, flash.length_eq]
  refine .ite (fun _ => trivial) fun hlow => .ite (fun _ => trivial) fun haligned => ?_
  have hroom := (h.resolve_left hlow).resolve_left haligned
  have hregion := flash.region_lt
  have hpos := flash.blockSize_bounds.1
  have hoffset := Nat.div_add_mod offset.toNat flash.blockSize.toNat
  have hmod := Nat.mod_lt offset.toNat hpos
  rw [Nat.mul_comm] at hoffset
  refine every_command trivial (fun _ _ _ => trivial) fun _ _ _ => ?_
  exact every_command (inside_erase hroom (by omega)) (fun _ _ _ => trivial)
    fun _ _ _ => waitBusy_inside

theorem writeBlockLoop_inside
    (h : length.toInt ≤ 0 ∨
      roundUp (offset.toNat + length.toNat) flash.pageSize.toNat ≤ flash.regionSize.toNat) :
    (writeBlockLoop flash fuel data rounds offset ptr length).Every anyReply (Op.Inside flash)
      anyResult := by
  induction rounds generalizing offset ptr length with
  | zero => trivial
  | succ rounds ih =>
    rw [writeBlockLoop]
    refine .ite (fun hpos => ?_) fun _ => trivial
    have hroom := h.resolve_left (by omega)
    have hregion := flash.region_lt
    have hlength := int_cases length
    have hpage := flash.pageSize_bounds
    have hnext := next_le_roundUp (x := offset.toNat) (k := length.toNat) hpage.1 (by omega)
    have hplace := Nat.mod_lt offset.toNat hpage.1
    have hlong := flash.page_length offset
    dsimp only
    generalize flash.pageSize - (offset &&& (flash.pageSize - 1)) = pageLength at hlong ⊢
    refine every_command trivial (fun _ _ _ => trivial) fun _ _ _ => ?_
    refine every_command (contains_of_lt (by omega) (by omega)) (fun _ _ _ => trivial)
      fun _ _ _ => .access fun bytes hbytes => ?_
    have hbytesLen := (Mem.hasAt_of_readBytes hbytes).1
    refine every_command (contains_of_lt (by omega) (by omega)) (fun _ _ _ => trivial)
      fun _ _ _ => ?_
    refine every_check waitBusy_inside (fun _ _ _ => trivial) fun _ _ _ => ih ?_
    by_cases hmore : pageLength.toNat < length.toNat
    · refine .inr ?_
      rwa [toNat_add_of_lt (by omega), toNat_sub_of_le hmore.le, Nat.add_assoc,
        Nat.add_sub_cancel' hmore.le]
    · refine .inl ?_
      have hrest := int_cases (length - pageLength)
      have hsub := BitVec.toNat_sub length pageLength
      omega

theorem writeBlock_inside
    (h : flash.Rejects offset length ∨ length.toInt ≤ 0 ∨
      roundUp (offset.toNat + length.toNat) flash.pageSize.toNat ≤ flash.regionSize.toNat) :
    (peridotSpiFlashWriteBlock flash fuel offset data ptr length).Every anyReply (Op.Inside flash)
      anyResult := by
  rw [peridotSpiFlashWriteBlock, flash.length_eq]
  exact .ite (fun _ => trivial) fun hrange => writeBlockLoop_inside (h.resolve_left hrange)

theorem compare_inside
    (h : flash.Rejects offset length ∨ length.toInt ≤ 0 ∨
      offset.toNat + length.toNat ≤ flash.regionSize.toNat) :
    (peridotSpiFlashCompare flash fuel offset data ptr length).Every anyReply (Op.Inside flash)
      anyResult := by
  rw [peridotSpiFlashCompare]
  exact .ite (fun _ => trivial) fun hrange => compareLoop_inside (h.resolve_left hrange)

/-- What a write covers at most, up to the end of its last block and its last page. -/
def SpiFlashDev.HasRoom (flash : SpiFlashDev) (stop : ℕ) : Prop :=
  roundUp (min stop flash.regionSize.toNat) flash.blockSize.toNat ≤ flash.regionSize.toNat ∧
    roundUp (min stop flash.regionSize.toNat) flash.pageSize.toNat ≤ flash.regionSize.toNat

theorem writeLoop_inside
    (h : length.toInt ≤ 0 ∨ offset.toNat ≤ flash.regionSize.toNat ∧
      flash.HasRoom (offset.toNat + length.toNat)) :
    (writeLoop flash fuel data rounds offset ptr length).Every anyReply (Op.Inside flash)
      anyResult := by
  induction rounds generalizing offset ptr length with
  | zero => trivial
  | succ rounds ih =>
    rw [writeLoop]
    refine .ite (fun hpos => ?_) fun _ => trivial
    obtain ⟨hoffset, hblocks, hpages⟩ := h.resolve_left (by omega)
    have hregion := flash.region_lt
    have hlength := int_cases length
    have hbounds := flash.blockSize_bounds
    have hplace := Nat.mod_lt offset.toNat hbounds.1
    have hdiv := Nat.div_add_mod offset.toNat flash.blockSize.toNat
    rw [Nat.mul_comm] at hdiv
    have hpart := flash.part_toNat offset hpos
    have hstart := flash.block_offset offset
    dsimp only
    generalize flash.part offset length = pageLength at hpart ⊢
    generalize offset &&& ~~~(flash.blockSize - 1) = blockOffset at hstart ⊢
    by_cases hend : offset.toNat = flash.regionSize.toNat
    · -- The region is used up: both checks reject what is left.
      have hmin : min (offset.toNat + length.toNat) flash.regionSize.toNat = offset.toNat := by
        omega
      rw [hmin] at hblocks
      have hdvd : flash.blockSize.toNat ∣ offset.toNat :=
        dvd_of_roundUp_le hbounds.1 (hblocks.trans_eq hend.symm)
      have hwhole := Nat.div_mul_cancel hdvd
      have hint := int_cases flash.regionSize
      have hintOffset := int_cases offset
      have hintBlock := int_cases blockOffset
      have hcompare : peridotSpiFlashCompare flash fuel offset data ptr pageLength =
          ret (-EFAULT) := by
        rw [peridotSpiFlashCompare, if_pos (.inl (by omega))]
        rfl
      have herase : peridotSpiFlashEraseBlock flash fuel blockOffset = ret (-EFAULT) := by
        rw [peridotSpiFlashEraseBlock, flash.length_eq, if_pos (by omega)]
        rfl
      rw [writeRound, hcompare, herase]
      exact trivial
    · have hnext := next_le_roundUp (n := flash.blockSize.toNat) (x := offset.toNat)
        (k := min (offset.toNat + length.toNat) flash.regionSize.toNat - offset.toNat) hbounds.1
        (by omega)
      rw [Nat.add_sub_cancel' (by omega)] at hnext
      have hpartEnd : offset.toNat + pageLength.toNat ≤
          min (offset.toNat + length.toNat) flash.regionSize.toNat := by omega
      refine .bind (compare_inside (.inr (.inr (by omega)))) fun result _ => ?_
      have hrest : (writeLoop flash fuel data rounds (offset + pageLength)
          (ptr + pageLength.toNat) (length - pageLength)).Every anyReply (Op.Inside flash)
            anyResult := by
        by_cases hmore : pageLength.toNat < length.toNat
        · refine ih (.inr ?_)
          rw [toNat_add_of_lt (by omega), toNat_sub_of_le hmore.le, Nat.add_assoc,
            Nat.add_sub_cancel' hmore.le]
          exact ⟨by omega, hblocks, hpages⟩
        · refine ih (.inl ?_)
          have hsame : pageLength = length := BitVec.eq_of_toNat_eq (by omega)
          rw [hsame, BitVec.sub_self]
          decide
      refine .ite (fun _ => ?_) fun _ => hrest
      refine every_check (eraseBlock_inside (.inr (.inr ?_))) (fun _ _ _ => trivial) fun _ _ _ => ?_
      · rw [hstart, Nat.mul_div_cancel _ hbounds.1]
        omega
      · refine every_check (writeBlock_inside (.inr (.inr ?_))) (fun _ _ _ => trivial)
          fun _ _ _ => hrest
        exact (roundUp_mono hpartEnd).trans hpages

end Guarded

/-! ## Calls that stay inside -/

section Stays

variable {flash : SpiFlashDev} {fuel rounds : ℕ} {offset length : BitVec 32} {P : Op → Prop}
  {Q : ℤ → Prop}

/-- More bytes than a call can read. -/
def zeros : Mem := List.replicate (2 ^ 33) 0

theorem readBytes_zeros {p n : ℕ} (h : p + n ≤ 2 ^ 33) :
    zeros.readBytes p n = some (List.replicate n 0) := by
  have hlen : zeros.length = 2 ^ 33 := List.length_replicate
  rw [Mem.readBytes, if_pos ⟨by omega, by omega, by omega⟩, Int.toNat_natCast, Int.toNat_natCast,
    zeros, List.drop_replicate, List.take_replicate, Nat.min_eq_left (by omega)]

theorem access_zeros {β : Type} {p n : ℕ} (h : p + n ≤ 2 ^ 33)
    (f : List UInt8 → Dialog Op Reply β) :
    (access (zeros.readBytes p n) >>= f) = f (List.replicate n 0) := by
  rw [readBytes_zeros h]
  rfl

theorem memcmp_self (l : List UInt8) : memcmp l l = 0 := by
  induction l with
  | nil => rfl
  | cons b l ih => rw [memcmp, if_neg (UInt8.lt_irrefl b), if_neg (UInt8.lt_irrefl b), ih]

/-- A command is said, and it can succeed. -/
theorem command_inv {op : Op} {next : List UInt8 → Dialog Op Reply ℤ}
    (h : (command op next).Every anyReply P Q) : P op ∧ ∀ data, (next data).Every anyReply P Q :=
  ⟨h.1, fun data => h.2 ⟨0, data⟩ trivial⟩

/-- A call that can succeed goes on. -/
theorem check_inv {call next : Dialog Op Reply ℤ} {a : ℤ} (h : (check call next).Every anyReply P Q)
    (ha : call.Can a) (hpos : 0 ≤ a) : next.Every anyReply P Q := by
  have hnext := h.of_bind ha
  rwa [if_neg (by omega)] at hnext

theorem can_command {op : Op} {next : List UInt8 → Dialog Op Reply ℤ} {a : ℤ} (data : List UInt8)
    (h : (next data).Can a) : (command op next).Can a := ⟨⟨0, data⟩, h⟩

theorem can_command_fail {op : Op} {next : List UInt8 → Dialog Op Reply ℤ} {r : Reply}
    (hr : r.result < 0) : (command op next).Can r.result := by
  refine ⟨r, ?_⟩
  show (if r.result < 0 then ret r.result else next r.data).Can r.result
  rw [if_pos hr]
  rfl

theorem waitBusy_can (h : 0 < fuel) : (waitBusy fuel).Can 0 := by
  obtain ⟨fuel, rfl⟩ := Nat.exists_eq_succ_of_ne_zero (Nat.ne_of_gt h)
  exact can_command [0] rfl

/-! ### Compare -/

/-- The number of bytes of a round of the comparison. -/
theorem chunk_bounds (hpos : 0 < length.toInt) :
    0 < (if 256 < length then (256 : BitVec 32) else length).toNat ∧
      (if 256 < length then (256 : BitVec 32) else length).toNat ≤ length.toNat := by
  have hlength := int_cases length
  split_ifs with hlong
  · exact ⟨by decide, (BitVec.lt_def.mp hlong).le⟩
  · omega

theorem compareLoop_can {p : ℕ} (hlength : length.toNat < 2 ^ 31) (hrounds : length.toNat < rounds)
    (hp : p + length.toNat ≤ 2 ^ 33) : (compareLoop zeros rounds offset p length).Can 0 := by
  induction rounds generalizing offset p length with
  | zero => exact absurd hrounds (Nat.not_lt_zero _)
  | succ rounds ih =>
    rw [compareLoop]
    by_cases hpos : 0 < length.toInt
    · rw [if_pos hpos]
      dsimp only
      have hchunk := chunk_bounds hpos
      generalize (if 256 < length then (256 : BitVec 32) else length) = chunk at hchunk ⊢
      refine can_command (List.replicate chunk.toNat 0) ?_
      rw [access_zeros (by omega), memcmp_self, if_neg (lt_irrefl _), if_neg (lt_irrefl _),
        ← Int.natCast_add]
      have hsub := toNat_sub_of_le hchunk.2
      exact ih (by omega) (by omega) (by omega)
    · rw [if_neg hpos]
      rfl

theorem compareLoop_stays {p : ℕ} (hpos : 0 < length.toInt) (hrounds : length.toNat < rounds)
    (hp : p + length.toNat ≤ 2 ^ 33)
    (h : (compareLoop zeros rounds offset p length).Every anyReply (Op.Inside flash) anyResult) :
    offset.toNat < 2 ^ 31 ∧ offset.toNat + length.toNat ≤ flash.regionSize.toNat := by
  induction rounds generalizing offset p length with
  | zero => exact absurd hrounds (Nat.not_lt_zero _)
  | succ rounds ih =>
    have hregion := flash.region_lt
    have hlength := int_cases length
    have hchunk := chunk_bounds hpos
    rw [compareLoop, if_pos hpos] at h
    dsimp only at h
    generalize (if 256 < length then (256 : BitVec 32) else length) = chunk at hchunk h
    obtain ⟨hinside, hnext⟩ := command_inv h
    obtain ⟨hlow, -, hroom⟩ := Op.Inside.offset_lt hinside.1
    by_cases hmore : chunk.toNat = length.toNat
    · omega
    · have hadd : (offset + chunk).toNat = offset.toNat + chunk.toNat := toNat_add_of_lt (by omega)
      have hsub := toNat_sub_of_le hchunk.2
      have hrest := int_cases (length - chunk)
      have hsaid := hnext (List.replicate chunk.toNat 0)
      rw [access_zeros (by omega), memcmp_self, if_neg (lt_irrefl _), if_neg (lt_irrefl _),
        ← Int.natCast_add] at hsaid
      have := ih (by omega) (by omega) (by omega) hsaid
      omega

/-! ### Erase -/

theorem eraseBlock_stays (hlow : ¬ flash.regionSize.toInt ≤ offset.toInt)
    (haligned : offset &&& (flash.blockSize - 1) = 0)
    (h : (peridotSpiFlashEraseBlock flash fuel offset).Every anyReply (Op.Inside flash)
      anyResult) :
    offset.toNat < 2 ^ 31 ∧ offset.toNat + flash.blockSize.toNat ≤ flash.regionSize.toNat := by
  rw [peridotSpiFlashEraseBlock, flash.length_eq, if_neg hlow, if_neg (not_not_intro haligned)] at h
  obtain ⟨-, hnext⟩ := command_inv h
  obtain ⟨⟨hnonneg, -, hroom⟩, -⟩ := (command_inv (hnext [])).1
  have hregion := flash.region_lt
  have hbounds := flash.blockSize_bounds
  have hplace := flash.block_place offset
  have hint := int_cases offset
  rw [haligned] at hplace
  have hdvd : flash.blockSize.toNat ∣ offset.toNat := Nat.dvd_of_mod_eq_zero hplace.symm
  have hlow : 0 ≤ offset.toInt := by
    by_contra hneg
    have hdiv : offset.toInt / flash.blockSize.toNat < 0 :=
      Int.ediv_neg_of_neg_of_pos (by omega) (by omega)
    have hmul : offset.toInt / flash.blockSize.toNat * flash.blockSize.toNat < 0 :=
      Int.mul_neg_of_neg_of_pos hdiv (by omega)
    omega
  have hoffset : offset.toInt = offset.toNat := by omega
  have hwhole :
      (offset.toNat / flash.blockSize.toNat * flash.blockSize.toNat : ℤ) = offset.toNat := by
    exact_mod_cast Nat.div_mul_cancel hdvd
  rw [hoffset, hwhole] at hroom
  omega

theorem eraseBlock_can (hfuel : 0 < fuel) (hlow : ¬ flash.regionSize.toInt ≤ offset.toInt)
    (haligned : offset &&& (flash.blockSize - 1) = 0) :
    (peridotSpiFlashEraseBlock flash fuel offset).Can 0 := by
  rw [peridotSpiFlashEraseBlock, flash.length_eq, if_neg hlow, if_neg (not_not_intro haligned)]
  exact can_command [] (can_command [] (waitBusy_can hfuel))

/-! ### Write a block -/

theorem writeBlockLoop_stays {p : ℕ} (hfuel : 0 < fuel) (hpos : 0 < length.toInt)
    (hrounds : length.toNat < rounds) (hp : p + length.toNat ≤ 2 ^ 32)
    (h : (writeBlockLoop flash fuel zeros rounds offset p length).Every anyReply
      (Op.Inside flash) anyResult) :
    offset.toNat < 2 ^ 31 ∧
      roundUp (offset.toNat + length.toNat) flash.pageSize.toNat ≤ flash.regionSize.toNat := by
  induction rounds generalizing offset p length with
  | zero => exact absurd hrounds (Nat.not_lt_zero _)
  | succ rounds ih =>
    have hregion := flash.region_lt
    have hint := int_cases length
    have hpage := flash.pageSize_bounds
    have hplace := Nat.mod_lt offset.toNat hpage.1
    have hlong := flash.page_length offset
    rw [writeBlockLoop, if_pos hpos] at h
    dsimp only at h
    generalize flash.pageSize - (offset &&& (flash.pageSize - 1)) = pageLength at hlong h
    have hdata := (command_inv ((command_inv h).2 [])).2 []
    rw [access_zeros (by omega)] at hdata
    obtain ⟨hinside, hnext⟩ := command_inv hdata
    obtain ⟨hlow, -, hroom⟩ := Op.Inside.offset_lt hinside.1
    rw [List.length_replicate] at hroom
    by_cases hlast : length.toNat ≤ pageLength.toNat
    · have hend := roundUp_eq (x := offset.toNat) (n := flash.pageSize.toNat) (k := length.toNat)
        (by omega) (by omega)
      omega
    · have hadd : (offset + pageLength).toNat = offset.toNat + pageLength.toNat :=
        toNat_add_of_lt (by omega)
      have hsub := toNat_sub_of_le (show pageLength.toNat ≤ length.toNat by omega)
      have hrest := int_cases (length - pageLength)
      have hloop := check_inv (hnext []) (waitBusy_can hfuel) le_rfl
      rw [← Int.natCast_add] at hloop
      have hend := ih (by omega) (by omega) (by omega) hloop
      rw [hadd, hsub, Nat.add_assoc, Nat.add_sub_cancel' (by omega)] at hend
      exact ⟨hlow, hend.2⟩

/-! ### Write -/

/-- The first command of a comparison can fail. -/
theorem compareLoop_can_fail (hpos : 0 < length.toInt) (hrounds : 0 < rounds) {p : ℤ} {data : Mem} :
    (compareLoop data rounds offset p length).Can (-1) := by
  obtain ⟨rounds, rfl⟩ := Nat.exists_eq_succ_of_ne_zero (Nat.ne_of_gt hrounds)
  rw [compareLoop, if_pos hpos]
  exact can_command_fail (r := ⟨-1, []⟩) (by decide)

/-- The next multiple behind a negative offset is still no address of the region. -/
theorem not_rejects_part (hlow : ¬ flash.regionSize.toInt ≤ offset.toInt)
    (hneg : 2 ^ 31 ≤ offset.toNat) (hpos : 0 < length.toInt) :
    ¬ flash.Rejects offset (flash.part offset length) := by
  obtain ⟨k, hk, hpow⟩ := flash.block_pow
  have hbounds := flash.blockSize_bounds
  have hnext := next_le_roundUp (x := offset.toNat) (n := flash.blockSize.toNat)
    (k := 2 ^ 32 - offset.toNat) hbounds.1 (by have := offset.isLt; omega)
  have hdvd : flash.blockSize.toNat ∣ 2 ^ 32 := hpow ▸ Nat.pow_dvd_pow 2 (by omega)
  rw [Nat.add_sub_cancel' offset.isLt.le, roundUp_of_dvd hbounds.1 hdvd] at hnext
  have hpart := flash.part_toNat offset hpos
  have hregion := flash.region_lt
  have hint := int_cases flash.regionSize
  have hsum := int_cases (offset + flash.part offset length)
  have hadd := BitVec.toNat_add offset (flash.part offset length)
  rintro (hlarge | hend)
  · exact hlow hlarge
  · omega

/-- What a round says of its block, if it stays inside. -/
theorem writeRound_stays {p : ℕ} {next : Dialog Op Reply ℤ} (hfuel : 2 ^ 31 ≤ fuel)
    (hpos : 0 < length.toInt) (hlow : ¬ flash.regionSize.toInt ≤ offset.toInt)
    (hp : p + length.toNat ≤ 2 ^ 32)
    (h : (writeRound flash fuel zeros offset p (offset &&& ~~~(flash.blockSize - 1))
      (flash.part offset length) next).Every anyReply (Op.Inside flash) anyResult) :
    offset.toNat < 2 ^ 31 ∧
      offset.toNat / flash.blockSize.toNat * flash.blockSize.toNat + flash.blockSize.toNat ≤
        flash.regionSize.toNat ∧
      roundUp (offset.toNat + (flash.part offset length).toNat) flash.pageSize.toNat ≤
        flash.regionSize.toNat ∧
      next.Every anyReply (Op.Inside flash) anyResult := by
  have hregion := flash.region_lt
  have hbounds := flash.blockSize_bounds
  have hlength := int_cases length
  have hoffset := int_cases offset
  have hintRegion := int_cases flash.regionSize
  have hpart := flash.part_toNat offset hpos
  have hplace := Nat.mod_lt offset.toNat hbounds.1
  have hdiv := Nat.div_add_mod offset.toNat flash.blockSize.toNat
  rw [Nat.mul_comm] at hdiv
  have hintPart := int_cases (flash.part offset length)
  have hpartPos : 0 < (flash.part offset length).toInt := by omega
  have hstart := flash.block_offset offset
  have hnonneg : offset.toNat < 2 ^ 31 := by
    by_contra hneg
    have hcompare := h.left
    obtain ⟨fuel, rfl⟩ := Nat.exists_eq_succ_of_ne_zero (show fuel ≠ 0 by omega)
    rw [peridotSpiFlashCompare, if_neg (not_rejects_part hlow (by omega) hpos), compareLoop,
      if_pos hpartPos] at hcompare
    exact hneg (Op.Inside.offset_lt (command_inv hcompare).1.1).1
  generalize flash.part offset length = part at *
  generalize offset &&& ~~~(flash.blockSize - 1) = blockOffset at *
  have haligned : blockOffset &&& (flash.blockSize - 1) = 0 := by
    apply BitVec.eq_of_toNat_eq
    rw [flash.block_place, hstart, Nat.mul_mod_left]
    rfl
  have hblockLow : ¬ flash.regionSize.toInt ≤ blockOffset.toInt := by
    have hint := int_cases blockOffset
    omega
  have hcan : ∃ r, r ≠ 0 ∧ (peridotSpiFlashCompare flash fuel offset zeros p part).Can r := by
    rw [peridotSpiFlashCompare]
    split_ifs with hrejects
    · exact ⟨-EFAULT, by decide, rfl⟩
    · exact ⟨-1, by decide, compareLoop_can_fail hpartPos (by omega)⟩
  obtain ⟨r, hr, hcompare⟩ := hcan
  have herase := h.of_bind hcompare
  rw [if_pos hr] at herase
  have hblock := (eraseBlock_stays hblockLow haligned herase.left).2
  have haccepted : ¬ flash.Rejects offset part := by
    have hadd : (offset + part).toNat = offset.toNat + part.toNat := toNat_add_of_lt (by omega)
    have hsum := int_cases (offset + part)
    rintro (hlarge | hend) <;> omega
  have hwrite := (check_inv herase (eraseBlock_can (by omega) hblockLow haligned) le_rfl).left
  rw [peridotSpiFlashWriteBlock, flash.length_eq,
    if_neg (show ¬ (flash.regionSize.toInt ≤ offset.toInt ∨
      flash.regionSize.toInt < (offset + part).toInt) from haccepted)] at hwrite
  have hpages := writeBlockLoop_stays (by omega) hpartPos (by omega) (by omega) hwrite
  have hequal : (peridotSpiFlashCompare flash fuel offset zeros p part).Can 0 := by
    rw [peridotSpiFlashCompare, if_neg haccepted]
    exact compareLoop_can (by omega) (by omega) (by omega)
  exact ⟨hnonneg, by omega, hpages.2, h.of_bind hequal⟩

theorem writeLoop_stays {p : ℕ} (hfuel : 2 ^ 31 ≤ fuel) (hpos : 0 < length.toInt)
    (hrounds : length.toNat < rounds) (hlow : ¬ flash.regionSize.toInt ≤ offset.toInt)
    (hp : p + length.toNat ≤ 2 ^ 32)
    (h : (writeLoop flash fuel zeros rounds offset p length).Every anyReply (Op.Inside flash)
      anyResult) :
    0 ≤ offset.toInt ∧ flash.HasRoom (offset.toNat + length.toNat) := by
  induction rounds generalizing offset p length with
  | zero => exact absurd hrounds (Nat.not_lt_zero _)
  | succ rounds ih =>
    rw [writeLoop, if_pos hpos] at h
    obtain ⟨hnonneg, hblock, hpages, hnext⟩ := writeRound_stays hfuel hpos hlow hp h
    have hregion := flash.region_lt
    have hbounds := flash.blockSize_bounds
    have hlength := int_cases length
    have hoffset := int_cases offset
    have hintRegion := int_cases flash.regionSize
    have hpart := flash.part_toNat offset hpos
    have hplace := Nat.mod_lt offset.toNat hbounds.1
    have hdiv := Nat.div_add_mod offset.toNat flash.blockSize.toNat
    rw [Nat.mul_comm] at hdiv
    generalize flash.part offset length = part at *
    refine ⟨by omega, ?_⟩
    have hadd : (offset + part).toNat = offset.toNat + part.toNat := toNat_add_of_lt (by omega)
    have hsub := toNat_sub_of_le (show part.toNat ≤ length.toNat by omega)
    have hrest := int_cases (length - part)
    have hintNext := int_cases (offset + part)
    by_cases hlast : length.toNat = part.toNat ∨ offset.toNat + part.toNat = flash.regionSize.toNat
    · have hmin : min (offset.toNat + length.toNat) flash.regionSize.toNat =
          offset.toNat + part.toNat := by omega
      have hend := roundUp_eq (x := offset.toNat) (n := flash.blockSize.toNat) (k := part.toNat)
        (by omega) (by omega)
      rw [SpiFlashDev.HasRoom, hmin, hend]
      exact ⟨by omega, hpages⟩
    · rw [← Int.natCast_add] at hnext
      have hroom := (ih (by omega) (by omega) (by omega) (by omega) hnext).2
      rwa [hadd, hsub, Nat.add_assoc, Nat.add_sub_cancel' (by omega)] at hroom

end Stays

/-! ## The calls -/

section Calls

variable {flash : SpiFlashDev} {offset length : BitVec 32}

theorem read_stays_iff :
    (FlashCall.read offset length).Stays flash ↔ (FlashCall.read offset length).Guarded flash := by
  have hregion := flash.region_lt
  have hintRegion := int_cases flash.regionSize
  have hoffset := int_cases offset
  have hlength := int_cases length
  have hsum := int_cases (offset + length)
  have hadd := BitVec.toNat_add offset length
  constructor
  · intro h
    by_cases hrejects : flash.Rejects offset length
    · exact .inl hrejects
    · have hread := h 0 []
      rw [FlashCall.dialog, peridotSpiFlashRead, if_neg hrejects] at hread
      obtain ⟨hlow, hlt, hroom⟩ := Op.Inside.offset_lt hread.1.1
      exact .inr ⟨by omega, by omega, by omega⟩
  · intro h fuel data
    refine .ite (fun _ => trivial) fun hrejects => .ask ?_ fun _ _ => trivial
    obtain ⟨hlow, hnonneg, hend⟩ := h.resolve_left hrejects
    rw [SpiFlashDev.Rejects, not_or] at hrejects
    exact contains_of_lt (by omega) (by omega)

theorem compare_stays_iff :
    (FlashCall.compare offset length).Stays flash ↔
      (FlashCall.compare offset length).Guarded flash := by
  have hregion := flash.region_lt
  have hintRegion := int_cases flash.regionSize
  have hoffset := int_cases offset
  have hlength := int_cases length
  have hsum := int_cases (offset + length)
  have hadd := BitVec.toNat_add offset length
  constructor
  · intro h
    by_cases hrejects : flash.Rejects offset length
    · exact .inl hrejects
    by_cases hpos : 0 < length.toInt
    · have hcompare := h (length.toNat + 1) zeros
      rw [FlashCall.dialog, peridotSpiFlashCompare, if_neg hrejects] at hcompare
      have hend := compareLoop_stays (p := 0) hpos (Nat.lt_succ_self _) (by omega) hcompare
      exact .inr (.inr ⟨by omega, by omega, by omega⟩)
    · exact .inr (.inl (by omega))
  · intro h fuel data
    refine compare_inside (or_iff_not_imp_left.mpr fun hrejects => ?_)
    rcases h.resolve_left hrejects with hnonpos | ⟨hlow, hnonneg, hend⟩
    · exact .inl hnonpos
    · rw [SpiFlashDev.Rejects, not_or] at hrejects
      exact .inr (by omega)

theorem write_stays_iff :
    (FlashCall.write offset length).Stays flash ↔ (FlashCall.write offset length).Guarded flash := by
  have hregion := flash.region_lt
  have hintRegion := int_cases flash.regionSize
  have hoffset := int_cases offset
  have hlength := int_cases length
  constructor
  · intro h
    by_cases hrejects : flash.Rejects offset length
    · exact .inl hrejects
    by_cases hpos : 0 < length.toInt
    · have hwrite := h (2 ^ 31) zeros
      rw [FlashCall.dialog, peridotSpiFlashWrite, if_neg hrejects] at hwrite
      rw [SpiFlashDev.Rejects, not_or] at hrejects
      have hroom := writeLoop_stays (p := 0) le_rfl hpos (by omega) hrejects.1 (by omega) hwrite
      exact .inr (.inr hroom)
    · exact .inr (.inl (by omega))
  · intro h fuel data
    refine .ite (fun _ => trivial) fun hrejects => writeLoop_inside ?_
    rcases h.resolve_left hrejects with hnonpos | ⟨hlow, hroom⟩
    · exact .inl hnonpos
    · rw [SpiFlashDev.Rejects, not_or] at hrejects
      exact .inr ⟨by omega, hroom⟩

theorem writeBlock_stays_iff :
    (FlashCall.writeBlock offset length).Stays flash ↔
      (FlashCall.writeBlock offset length).Guarded flash := by
  have hregion := flash.region_lt
  have hintRegion := int_cases flash.regionSize
  have hoffset := int_cases offset
  have hlength := int_cases length
  constructor
  · intro h
    by_cases hrejects : flash.Rejects offset length
    · exact .inl hrejects
    by_cases hpos : 0 < length.toInt
    · have hwrite := h (length.toNat + 1) zeros
      rw [FlashCall.dialog, peridotSpiFlashWriteBlock, flash.length_eq,
        if_neg (show ¬ (flash.regionSize.toInt ≤ offset.toInt ∨
          flash.regionSize.toInt < (offset + length).toInt) from hrejects)] at hwrite
      have hroom := writeBlockLoop_stays (p := 0) (Nat.succ_pos _) hpos (Nat.lt_succ_self _)
        (by omega) hwrite
      exact .inr (.inr ⟨by omega, hroom.2⟩)
    · exact .inr (.inl (by omega))
  · intro h fuel data
    refine writeBlock_inside (or_iff_not_imp_left.mpr fun hrejects => ?_)
    exact (h.resolve_left hrejects).imp_right And.right

theorem eraseBlock_stays_iff :
    (FlashCall.eraseBlock offset).Stays flash ↔
      (FlashCall.eraseBlock offset).Guarded flash := by
  have hregion := flash.region_lt
  have hintRegion := int_cases flash.regionSize
  have hoffset := int_cases offset
  constructor
  · intro h
    by_cases hlow : flash.regionSize.toInt ≤ offset.toInt
    · exact .inl hlow
    by_cases haligned : offset &&& (flash.blockSize - 1) = 0
    · have herase := eraseBlock_stays hlow haligned (h 0 [])
      exact .inr (.inr ⟨by omega, herase.2⟩)
    · exact .inr (.inl haligned)
  · intro h fuel data
    refine eraseBlock_inside (h.imp_right (.imp_right fun hroom => ?_))
    have hle := Nat.div_mul_le_self offset.toNat flash.blockSize.toNat
    omega

end Calls

/-- **The exact condition** for a call to stay in the region. -/
theorem calls_stay_inside_iff (flash : SpiFlashDev) (call : FlashCall) :
    call.Stays flash ↔ call.Guarded flash := by
  cases call with
  | read offset length => exact read_stays_iff
  | compare offset length => exact compare_stays_iff
  | write offset length => exact write_stays_iff
  | writeBlock offset length => exact writeBlock_stays_iff
  | eraseBlock blockOffset => exact eraseBlock_stays_iff

/-- To read a byte in front of the region is not rejected. -/
theorem read_leaves_region : ¬ ∀ (flash : SpiFlashDev) (call : FlashCall), call.Stays flash := by
  intro h
  have hread := (h .mib8 (.read (-1) 1) 0 []).1.1.1
  revert hread
  decide

end OlivePiccolo.Flash
