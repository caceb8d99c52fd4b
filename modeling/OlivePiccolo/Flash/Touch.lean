import Mathlib.Tactic.IntervalCases
import OlivePiccolo.Flash.Onchip

/-!
# What the on-chip driver touches

A page is erased or written only where the driver is asked to write: with whole pages, every access
of `alt_onchip_flash_write` is in the range of the call (`write_within`). The driver rejects a call
only where it leaves the device as a whole.
-/

namespace OlivePiccolo.Flash

open Dialog

/-! ## Bytes that are touched -/

def Sector.Contains (s : Sector) (a : ℤ) : Prop := s.startAddr.toNat ≤ a ∧ a ≤ s.endAddr.toNat

/-- The byte is in the page or in the sector that the control register erases. -/
def OnchipFlashDev.Erases (flash : OnchipFlashDev) (data : BitVec 32) (a : ℤ) : Prop :=
  if (data >>> 20).setWidth 3 = 7#3 then
    data.setWidth 20 ≠ BitVec.allOnes 20 ∧
      a / flash.pageSize.toNat = (4 * (data.setWidth 20).toNat : ℕ) / flash.pageSize.toNat
  else
    ∃ i s, ((data >>> 20).setWidth 3).toNat = i + 1 ∧ flash.sectors[i]? = some s ∧ s.Contains a

/-- The access reads, writes or erases the byte. -/
def Onchip.Touches (flash : OnchipFlashDev) : Onchip → ℤ → Prop
  | load offset n, a => offset.toInt ≤ a ∧ a < offset.toInt + n
  | store offset _, a => offset.toInt ≤ a ∧ a < offset.toInt + 4
  | setControl data, a => flash.Erases data a
  | status, _ => False
  | control, _ => False

/-- All that the access touches is in the range. -/
def Onchip.Within (flash : OnchipFlashDev) (low high : ℕ) (c : Onchip) : Prop :=
  ∀ a, c.Touches flash a → low ≤ a ∧ a < high

/-- The access touches nothing. -/
def Onchip.Silent (flash : OnchipFlashDev) (c : Onchip) : Prop := ∀ a, ¬ c.Touches flash a

/-- The answers of the flash can be anything. -/
abbrev anyHeard : Heard → Prop := fun _ => True

/-! ## Sectors -/

section Sectors

theorem endAddr_le_last {page : ℕ} (l : List Sector) (t : Sector)
    (hpaged : ∀ s ∈ t :: l, s.Paged page)
    (hchain : (t :: l).IsChain fun s t => t.startAddr.toNat = s.endAddr.toNat + 1) :
    ∀ s ∈ t :: l, s.endAddr.toNat ≤ (l.getLastD t).endAddr.toNat := by
  induction l generalizing t with
  | nil =>
    intro s hs
    rw [List.mem_singleton.mp hs]
    exact Nat.le_refl _
  | cons u l ih =>
    obtain ⟨hnext, hchain⟩ := List.isChain_cons_cons.mp hchain
    have hrest := ih u (fun s hs => hpaged s (List.mem_cons_of_mem t hs)) hchain
    rw [List.getLastD_cons]
    intro s hs
    rcases List.mem_cons.mp hs with rfl | hs
    · have hu := hrest u List.mem_cons_self
      have hstart := (hpaged u (List.mem_cons_of_mem s List.mem_cons_self)).1
      omega
    · exact hrest s hs

/-- The sectors from one on cover the rest of the device. -/
theorem exists_sector (l : List Sector) (t : Sector)
    (hchain : (t :: l).IsChain fun s t => t.startAddr.toNat = s.endAddr.toNat + 1) {a : ℤ}
    (hlow : t.startAddr.toNat ≤ a) (hhigh : a ≤ (l.getLastD t).endAddr.toNat) :
    ∃ s ∈ t :: l, s.Contains a := by
  induction l generalizing t with
  | nil => exact ⟨t, List.mem_cons_self, hlow, hhigh⟩
  | cons u l ih =>
    obtain ⟨hnext, hchain⟩ := List.isChain_cons_cons.mp hchain
    by_cases hin : a ≤ t.endAddr.toNat
    · exact ⟨t, List.mem_cons_self, hlow, hin⟩
    · rw [List.getLastD_cons] at hhigh
      obtain ⟨s, hs, ha⟩ := ih u hchain (by omega) hhigh
      exact ⟨s, List.mem_cons_of_mem t hs, ha⟩

variable (flash : OnchipFlashDev)

theorem OnchipFlashDev.endAddr_lt {s : Sector} (hs : s ∈ flash.sectors) :
    s.endAddr.toNat < flash.length.toNat := by
  have hle := endAddr_le_last _ _ flash.paged flash.consecutive s hs
  rw [List.getLastD_cons, List.getLastD_cons] at hle
  rw [flash.length_eq]
  omega

/-- The pages of a region. -/
theorem OnchipFlashDev.region_blocks {region : FlashRegion} (h : region ∈ flash.regionInfo) :
    region.blockSize = flash.pageSize ∧ flash.pageSize.toNat ∣ region.offset.toNat ∧
      region.offset.toNat + flash.pageSize.toNat * region.numberOfBlocks.toInt.toNat ≤ 2 ^ 22 := by
  obtain ⟨s, hs, rfl⟩ := List.mem_map.mp h
  obtain ⟨hle, hstart, -⟩ := flash.paged s hs
  have hend := flash.endAddr_lt hs
  have hlength := flash.length_le
  obtain ⟨k, hk, hk', hpage⟩ := flash.page_pow
  have hpow : 2 ^ k ≤ 2 ^ 22 := Nat.pow_le_pow_right Nat.two_pos hk'
  refine ⟨rfl, hstart, ?_⟩
  have hsize : (s.endAddr - s.startAddr + 1).toNat = s.endAddr.toNat - s.startAddr.toNat + 1 := by
    rw [toNat_add_of_lt, toNat_sub_of_le hle]
    · rfl
    · rw [toNat_sub_of_le hle]
      change _ + 1 < _
      omega
  have hblocks : ((s.endAddr - s.startAddr + 1).sdiv flash.pageSize).toInt.toNat =
      (s.endAddr.toNat - s.startAddr.toNat + 1) / flash.pageSize.toNat := by
    rw [BitVec.sdiv_eq, BitVec.msb_eq_false_iff_two_mul_lt.mpr (by omega),
      BitVec.msb_eq_false_iff_two_mul_lt.mpr (by omega)]
    show (BitVec.udiv _ _).toInt.toNat = _
    have hdiv : (BitVec.udiv (s.endAddr - s.startAddr + 1) flash.pageSize).toNat =
        (s.endAddr.toNat - s.startAddr.toNat + 1) / flash.pageSize.toNat := by
      rw [BitVec.udiv_eq, BitVec.toNat_udiv, hsize]
    have hsmall := Nat.div_le_self (s.endAddr.toNat - s.startAddr.toNat + 1) flash.pageSize.toNat
    have hint := int_cases (BitVec.udiv (s.endAddr - s.startAddr + 1) flash.pageSize)
    omega
  have hmul := Nat.mul_div_le (s.endAddr.toNat - s.startAddr.toNat + 1) flash.pageSize.toNat
  show s.startAddr.toNat + flash.pageSize.toNat *
    ((s.endAddr - s.startAddr + 1).sdiv flash.pageSize).toInt.toNat ≤ _
  rw [hblocks]
  omega

end Sectors

/-! ## Pages -/

section Pages

variable {flash : OnchipFlashDev}

theorem four_dvd_page : 4 ∣ flash.pageSize.toNat := by
  obtain ⟨k, hk, -, hsize⟩ := flash.page_pow
  rw [hsize, show 4 = 2 ^ 2 from rfl]
  exact Nat.pow_dvd_pow 2 hk

theorem page_pos : 0 < flash.pageSize.toNat := by
  obtain ⟨k, -, -, hsize⟩ := flash.page_pow
  rw [hsize]
  exact Nat.two_pow_pos k

theorem page_le : flash.pageSize.toNat ≤ 2 ^ 22 := by
  obtain ⟨k, -, hk, hsize⟩ := flash.page_pow
  rw [hsize]
  exact Nat.pow_le_pow_right Nat.two_pos hk

end Pages

/-! ## Registers -/

section Registers

variable {flash : OnchipFlashDev} {low high : ℕ} {mask value : BitVec 32}

theorem pollForStatus_every {P : Onchip → Prop} (hstatus : P .status) (n : ℕ) :
    (pollForStatus mask value n).Every anyHeard P fun _ => True := by
  induction n with
  | zero => trivial
  | succ n ih => exact .ask hstatus fun r _ => .ite (fun _ => trivial) fun _ => ih

theorem changeControl_within {protect page sector : BitVec 32}
    (h : ∀ old : BitVec 32, Onchip.Within flash low high
      (.setControl ((old &&& 0xf0000000) ||| (protect ||| page ||| sector)))) :
    (changeControl protect page sector).Every anyHeard (Onchip.Within flash low high)
      fun _ => True :=
  .ask (fun _ ha => ha.elim) fun r _ => ⟨h r.word, fun _ _ => trivial⟩

/-- The fields of the control register behind one of the macros. -/
theorem control_fields (old page : BitVec 32) {protect : BitVec 32}
    (hprotect : protect.setWidth 20 = 0) :
    (((old &&& 0xf0000000) ||| (protect ||| page ||| CONTROL_SECTOR_ERASE_NOT_SET)) >>>
        20).setWidth 3 = 7#3 ∧
      ((old &&& 0xf0000000) ||| (protect ||| page ||| CONTROL_SECTOR_ERASE_NOT_SET)).setWidth 20 =
        page.setWidth 20 := by
  constructor
  · apply BitVec.eq_of_getLsbD_eq
    intro i hi
    have hbit : CONTROL_SECTOR_ERASE_NOT_SET.getLsbD (20 + i) = true := by
      interval_cases i <;> rfl
    rw [BitVec.getLsbD_setWidth, BitVec.getLsbD_ushiftRight, BitVec.getLsbD_or, BitVec.getLsbD_or,
      hbit, Bool.or_true, Bool.or_true, decide_eq_true hi, Bool.true_and]
    interval_cases i <;> rfl
  · have hold : (0xf0000000 : BitVec 32).setWidth 20 = 0#20 := rfl
    have hsector : CONTROL_SECTOR_ERASE_NOT_SET.setWidth 20 = 0#20 := rfl
    rw [BitVec.setWidth_or, BitVec.setWidth_or, BitVec.setWidth_or, BitVec.setWidth_and, hprotect,
      hold, hsector]
    simp

theorem enable_within :
    enableWriteAndErase.Every anyHeard (Onchip.Within flash low high) fun _ => True := by
  refine changeControl_within fun old a ha => ?_
  obtain ⟨hsector, hpage⟩ := control_fields old CONTROL_PAGE_ERASE_NOT_SET
    (show CONTROL_ALLSECTOR_WRITE_ENABLE.setWidth 20 = 0 from rfl)
  change flash.Erases _ a at ha
  rw [OnchipFlashDev.Erases, if_pos hsector, hpage] at ha
  exact absurd rfl ha.1

theorem disable_within :
    disableWriteAndErase.Every anyHeard (Onchip.Within flash low high) fun _ => True := by
  refine changeControl_within fun old a ha => ?_
  obtain ⟨hsector, hpage⟩ := control_fields old CONTROL_PAGE_ERASE_NOT_SET
    (show CONTROL_ALLSECTOR_WRITE_DISABLE.setWidth 20 = 0 from rfl)
  change flash.Erases _ a at ha
  rw [OnchipFlashDev.Erases, if_pos hsector, hpage] at ha
  exact absurd rfl ha.1

/-- The page at the address is erased. -/
theorem pageErase_within {offset : BitVec 32} (hoffset : flash.pageSize.toNat ∣ offset.toNat)
    (hlt : offset.toNat < 2 ^ 22) (hlow : low ≤ offset.toNat)
    (hhigh : offset.toNat + flash.pageSize.toNat ≤ high) :
    (pageErase (offset.sdiv 4)).Every anyHeard (Onchip.Within flash low high) fun _ => True := by
  refine changeControl_within fun old a ha => ?_
  obtain ⟨hsector, hpage⟩ := control_fields old (offset.sdiv 4)
    (show CONTROL_ALLSECTOR_WRITE_ENABLE.setWidth 20 = 0 from rfl)
  change flash.Erases _ a at ha
  rw [OnchipFlashDev.Erases, if_pos hsector, hpage] at ha
  have hfour : 4 ∣ offset.toNat := Nat.dvd_trans four_dvd_page hoffset
  have haddress : 4 * ((offset.sdiv 4).setWidth 20).toNat = offset.toNat := by
    rw [BitVec.sdiv_eq, BitVec.msb_eq_false_iff_two_mul_lt.mpr (by omega)]
    show 4 * ((BitVec.udiv offset 4).setWidth 20).toNat = _
    rw [BitVec.toNat_setWidth, BitVec.udiv_eq, BitVec.toNat_udiv]
    change 4 * (offset.toNat / 4 % 2 ^ 20) = _
    omega
  rw [haddress] at ha
  have hpos : 0 < flash.pageSize.toNat := page_pos
  have hmul : (flash.pageSize.toNat : ℤ) * (a / flash.pageSize.toNat) = offset.toNat := by
    rw [ha.2, Int.mul_ediv_cancel' (Int.natCast_dvd_natCast.mpr hoffset)]
  have hmod := Int.emod_nonneg a (Int.natCast_ne_zero.mpr hpos.ne')
  have hmod' := Int.emod_lt_of_pos a (Int.natCast_pos.mpr hpos)
  have hdiv := Int.mul_ediv_add_emod a flash.pageSize.toNat
  omega

end Registers

/-! ## Blocks -/

section Blocks

variable {flash : OnchipFlashDev} {low high fuel : ℕ} {data : Mem}

/-- To set errors and polls aside: nothing but the rest can touch anything. -/
theorem poll_then {P : Onchip → Prop} (hstatus : P .status) {mask value : BitVec 32} {n : ℕ}
    {f : ℤ → Dialog Onchip Heard ℤ} (hf : ∀ r, (f r).Every anyHeard P fun _ => True) :
    (pollForStatus mask value n >>= f).Every anyHeard P fun _ => True :=
  .bind (pollForStatus_every hstatus n) fun r _ => hf r

theorem within_status : Onchip.Within flash low high .status := fun _ ha => ha.elim

theorem eraseBlock_within {offset : BitVec 32} (hoffset : flash.pageSize.toNat ∣ offset.toNat)
    (hlt : offset.toNat < 2 ^ 22) (hlow : low ≤ offset.toNat)
    (hhigh : offset.toNat + flash.pageSize.toNat ≤ high) :
    (altOnchipFlashEraseBlock flash offset).Every anyHeard (Onchip.Within flash low high)
      fun _ => True := by
  refine .ite (fun _ => trivial) fun _ => .ite (fun _ => trivial) fun _ =>
    .ite (fun _ => trivial) fun _ => ?_
  refine poll_then within_status fun r => .ite (fun _ => trivial) fun _ => ?_
  refine .bind enable_within fun _ _ =>
    .bind (pageErase_within hoffset hlt hlow hhigh) fun _ _ => ?_
  refine poll_then within_status fun _ => poll_then within_status fun r => ?_
  exact .bind disable_within fun _ _ => trivial

theorem smin_toNat {a b : BitVec 32} (ha : a.toNat < 2 ^ 31) (hb : b.toNat < 2 ^ 31) :
    (smin a b).toNat = min a.toNat b.toNat := by
  have ha' := int_cases a
  have hb' := int_cases b
  rw [smin]
  split_ifs <;> omega

/-- Words are written one after the other. -/
theorem writeWords_within (rounds : ℕ) {offset length : BitVec 32} {buffer : ℤ}
    (hoffset : 4 ∣ offset.toNat) (hlength : 4 ∣ length.toNat) (hlow : low ≤ offset.toNat)
    (hhigh : offset.toNat + length.toNat ≤ high) (hhigh' : high ≤ 2 ^ 22) :
    (writeWords data rounds offset buffer length).Every anyHeard (Onchip.Within flash low high)
      fun _ => True := by
  induction rounds generalizing offset length buffer with
  | zero => trivial
  | succ rounds ih =>
    have hpadding : offset &&& (DATA_ALIGN_SIZE - 1) = 0#32 := by
      apply BitVec.eq_of_toNat_eq
      rw [and_mask_toNat (k := 2) offset rfl]
      exact Nat.mod_eq_zero_of_dvd hoffset
    have hfour : (offset + DATA_ALIGN_SIZE).toNat = offset.toNat + 4 :=
      toNat_add_of_lt (show offset.toNat + 4 < 2 ^ 32 by omega)
    have hnext : (offset + DATA_ALIGN_SIZE) &&& ~~~(DATA_ALIGN_SIZE - 1) =
        offset + DATA_ALIGN_SIZE := by
      apply BitVec.eq_of_toNat_eq
      rw [and_not_mask_toNat (k := 2) _ rfl, hfour]
      change (offset.toNat + 4) / 4 * 4 = _
      omega
    have hcount : offset + DATA_ALIGN_SIZE - offset = 4#32 := by
      rw [BitVec.add_comm, BitVec.add_sub_cancel]
      rfl
    rw [writeWords]
    refine .ite (fun _ => trivial) fun hne => ?_
    have hpos : length.toNat ≠ 0 := fun hzero => hne (BitVec.eq_of_toNat_eq hzero)
    have hmin : (smin length 4#32).toNat = 4 := by
      rw [smin_toNat (by omega) (by decide)]
      change min length.toNat 4 = 4
      omega
    have hfull : smin length 4#32 = 4#32 := BitVec.eq_of_toNat_eq hmin
    simp only [hpadding, BitVec.sub_zero, BitVec.add_zero, hnext, hcount, hfull]
    refine .access fun bytes _ => .ask ?_ fun _ _ => ?_
    · intro a ha
      have hint := int_cases offset
      obtain ⟨hle, hlt⟩ : offset.toInt ≤ a ∧ a < offset.toInt + 4 := ha
      omega
    refine poll_then within_status fun _ => .ite (fun _ => trivial) fun _ =>
      poll_then within_status fun _ => .ite (fun _ => trivial) fun _ => ?_
    have hrest : (length - 4#32).toNat = length.toNat - 4 :=
      toNat_sub_of_le (show 4 ≤ length.toNat by omega)
    exact ih (by omega) (by omega) (by omega) (by omega)

theorem writeBlock_within {blockOffset offset length : BitVec 32} {ptr : ℤ}
    (hoffset : 4 ∣ offset.toNat) (hlength : 4 ∣ length.toNat) (hlow : low ≤ offset.toNat)
    (hhigh : offset.toNat + length.toNat ≤ high) (hhigh' : high ≤ 2 ^ 22) :
    (altOnchipFlashWriteBlock flash fuel blockOffset offset data ptr length).Every anyHeard
      (Onchip.Within flash low high) fun _ => True := by
  refine .ite (fun _ => trivial) fun _ => .ite (fun _ => trivial) fun _ =>
    poll_then within_status fun r => .ite (fun _ => trivial) fun _ => ?_
  refine .bind enable_within fun _ _ =>
    .bind (writeWords_within fuel hoffset hlength hlow hhigh hhigh') fun _ _ => ?_
  exact .bind disable_within fun _ _ => trivial

/-- What is left of a write begins with a page, and ends where the write ends. -/
structure Rest.Inside (flash : OnchipFlashDev) (low high : ℕ) (s : Rest) : Prop where
  offset_dvd : flash.pageSize.toNat ∣ s.offset.toNat
  length_dvd : flash.pageSize.toNat ∣ s.length.toNat
  length_pos : 0 < s.length.toNat
  low_le : low ≤ s.offset.toNat
  stop : s.offset.toNat + s.length.toNat = high

theorem Rest.Inside.page_le {s : Rest} (h : s.Inside flash low high) :
    flash.pageSize.toNat ≤ s.length.toNat := Nat.le_of_dvd h.length_pos h.length_dvd

/-- The block that the rest begins with. -/
theorem block_eq {s : Rest} {current : BitVec 32} (h : s.Inside flash low high)
    (hhigh : high ≤ 2 ^ 22) (hdvd : flash.pageSize.toNat ∣ current.toNat)
    (hroom : current.toNat + flash.pageSize.toNat ≤ 2 ^ 22) (hle : current.toInt ≤ s.offset.toInt)
    (hlt : s.offset.toInt < (current + flash.pageSize).toInt) : current = s.offset := by
  have hsum : (current + flash.pageSize).toNat = current.toNat + flash.pageSize.toNat :=
    toNat_add_of_lt (by omega)
  have hstop := h.stop
  have hcurrent := int_cases current
  have hoffset := int_cases s.offset
  have hnext := int_cases (current + flash.pageSize)
  have hzero : s.offset.toNat - current.toNat = 0 :=
    Nat.eq_zero_of_dvd_of_lt (Nat.dvd_sub h.offset_dvd hdvd) (by omega)
  exact BitVec.eq_of_toNat_eq (by omega)

theorem writeIfNew_within {s : Rest} (h : s.Inside flash low high) (hhigh : high ≤ 2 ^ 22) :
    (writeIfNew flash fuel data s.offset s flash.pageSize).Every anyHeard
      (Onchip.Within flash low high) fun _ => True := by
  have hpage := h.page_le
  have hstop := h.stop
  have hlow := h.low_le
  have hpos : 0 < flash.pageSize.toNat := page_pos
  refine .ask ?_ fun old _ => .access fun new _ => .ite (fun _ => ?_) fun _ => trivial
  · intro a ha
    have hint := int_cases s.offset
    obtain ⟨hle, hlt⟩ : s.offset.toInt ≤ a ∧ a < s.offset.toInt + flash.pageSize.toNat := ha
    omega
  · refine .bind (eraseBlock_within h.offset_dvd (by omega) hlow (by omega)) fun r _ =>
      .ite (fun _ => trivial) fun _ => ?_
    exact writeBlock_within (Nat.dvd_trans four_dvd_page h.offset_dvd) four_dvd_page hlow (by omega)
      hhigh

theorem blockLoop_within (hhigh : high ≤ 2 ^ 22) (blocks : ℕ) {current : BitVec 32} {s : Rest}
    (h : s.Inside flash low high) (hdvd : flash.pageSize.toNat ∣ current.toNat)
    (hroom : current.toNat + flash.pageSize.toNat * blocks ≤ 2 ^ 22) :
    (blockLoop flash fuel data flash.pageSize blocks current s).Every anyHeard
      (Onchip.Within flash low high) fun r => ∀ s', r = .ok s' → s'.Inside flash low high := by
  induction blocks generalizing current s with
  | zero =>
    intro s' hs'
    rwa [← Except.ok.inj hs']
  | succ blocks ih =>
    rw [Nat.mul_add, Nat.mul_one] at hroom
    have hsum : (current + flash.pageSize).toNat = current.toNat + flash.pageSize.toNat :=
      toNat_add_of_lt (by omega)
    have hnext : flash.pageSize.toNat ∣ (current + flash.pageSize).toNat := by
      rw [hsum]
      exact Nat.dvd_add hdvd (Nat.dvd_refl _)
    rw [blockLoop]
    refine .ite (fun hblock => ?_) fun _ => ih h hnext (by omega)
    obtain rfl := block_eq h hhigh hdvd (by omega) hblock.1 hblock.2
    have hpage := h.page_le
    have hstop := h.stop
    have hpart : smin (s.offset + flash.pageSize - s.offset) s.length = flash.pageSize := by
      apply BitVec.eq_of_toNat_eq
      rw [BitVec.add_comm, BitVec.add_sub_cancel, smin_toNat (by omega) (by omega)]
      exact Nat.min_eq_left hpage
    simp only [hpart]
    refine .bind (writeIfNew_within h hhigh) fun r _ => .ite (fun _ => ?_) fun hmore => ?_
    · intro s' hs'
      cases hs'
    · have hne : s.length ≠ flash.pageSize := fun heq => hmore (.inl heq)
      have hne' : s.length.toNat ≠ flash.pageSize.toNat :=
        fun heq => hne (BitVec.eq_of_toNat_eq heq)
      have hrest : (s.length - flash.pageSize).toNat = s.length.toNat - flash.pageSize.toNat :=
        toNat_sub_of_le hpage
      have hlow := h.low_le
      refine ih ⟨hnext, ?_, ?_, ?_, ?_⟩ hnext (by omega)
      · show _ ∣ (s.length - flash.pageSize).toNat
        rw [hrest]
        exact Nat.dvd_sub h.length_dvd (Nat.dvd_refl _)
      · show 0 < (s.length - flash.pageSize).toNat
        omega
      · show low ≤ (s.offset + flash.pageSize).toNat
        omega
      · show (s.offset + flash.pageSize).toNat + (s.length - flash.pageSize).toNat = high
        omega

theorem regionLoop_within (hhigh : high ≤ 2 ^ 22) (regions : List FlashRegion)
    (hregions : ∀ region ∈ regions, region ∈ flash.regionInfo) {s : Rest}
    (h : s.Inside flash low high) :
    (regionLoop flash fuel data regions s).Every anyHeard (Onchip.Within flash low high)
      fun _ => True := by
  induction regions generalizing s with
  | nil => trivial
  | cons region regions ih =>
    have hrest : ∀ region ∈ regions, region ∈ flash.regionInfo :=
      fun r hr => hregions r (List.mem_cons_of_mem region hr)
    obtain ⟨hsize, hdvd, hroom⟩ := flash.region_blocks (hregions region List.mem_cons_self)
    rw [regionLoop]
    refine .ite (fun _ => ?_) fun _ => ih hrest h
    rw [hsize]
    refine .bind (blockLoop_within hhigh _ h hdvd hroom) fun r hr => ?_
    cases r with
    | error retCode => trivial
    | ok s' => exact ih hrest (hr s' rfl)

/-- A write of whole pages touches nothing else. -/
theorem write_within {offset length : BitVec 32} (hoffset : flash.pageSize.toNat ∣ offset.toNat)
    (hlength : flash.pageSize.toNat ∣ length.toNat) (hpos : 0 < length.toNat)
    (hhigh : offset.toNat + length.toNat ≤ 2 ^ 22) :
    (altOnchipFlashWrite flash fuel offset data length).Every anyHeard
      (Onchip.Within flash offset.toNat (offset.toNat + length.toNat)) fun _ => True :=
  .ite (fun _ => trivial) fun _ => regionLoop_within hhigh _ (fun _ h => h)
    ⟨hoffset, hlength, hpos, Nat.le_refl _, rfl⟩

theorem read_within {offset length : BitVec 32} (hhigh : offset.toNat + length.toNat ≤ 2 ^ 22) :
    (altOnchipFlashRead flash offset length).Every anyHeard
      (Onchip.Within flash offset.toNat (offset.toNat + length.toNat)) fun _ => True := by
  refine .ite (fun _ => trivial) fun _ => .ask ?_ fun _ _ => .ite (fun _ => ?_) fun _ => trivial
  · intro a ha
    have hint := int_cases offset
    obtain ⟨hle, hlt⟩ : offset.toInt ≤ a ∧ a < offset.toInt + length.toNat := ha
    omega
  · exact .ask within_status fun _ _ => trivial

end Blocks

/-! ## Calls that are rejected -/

section Rejected

variable {flash : OnchipFlashDev} {fuel : ℕ} {data : Mem} {offset length start : BitVec 32}

/-- The call touches nothing, and has a negative result. -/
def RejectsOnchip (flash : OnchipFlashDev) (d : Dialog Onchip Heard ℤ) : Prop :=
  d.Every anyHeard (Onchip.Silent flash) (· < 0)

theorem not_silent_load {n : ℕ} (h : 0 < n) : ¬ (Onchip.load offset n).Silent flash :=
  fun hsilent => hsilent offset.toInt
    ⟨Int.le_refl _, Int.lt_add_of_pos_right _ (Int.natCast_pos.mpr h)⟩

theorem read_rejects_iff (hlength : 0 < length.toNat) :
    RejectsOnchip flash (altOnchipFlashRead flash offset length) ↔
      flash.length.toInt ≤ offset.toInt ∨ flash.length.toInt < (offset + length).toInt := by
  rw [RejectsOnchip, altOnchipFlashRead]
  by_cases hrange : flash.length.toInt ≤ offset.toInt ∨
      flash.length.toInt < (offset + length).toInt
  · rw [if_pos hrange]
    exact ⟨fun _ => hrange, fun _ => show -EFAULT < 0 by decide⟩
  · rw [if_neg hrange]
    exact ⟨fun h => absurd h.1 (not_silent_load hlength), fun h => absurd h hrange⟩

/-- A block without the rest is passed over; the other would be read. -/
theorem blockLoop_silent {Q : ℤ → Prop} {f : Except ℤ Rest → Dialog Onchip Heard ℤ} {s : Rest}
    (hpos : 0 < s.length.toInt) (blocks : ℕ) {current : BitVec 32}
    (hroom : current.toNat + flash.pageSize.toNat * blocks ≤ 2 ^ 22)
    (h : (blockLoop flash fuel data flash.pageSize blocks current s >>= f).Every anyHeard
      (Onchip.Silent flash) Q) : (f (.ok s)).Every anyHeard (Onchip.Silent flash) Q := by
  induction blocks generalizing current with
  | zero => exact h
  | succ blocks ih =>
    rw [Nat.mul_add, Nat.mul_one] at hroom
    have hsum : (current + flash.pageSize).toNat = current.toNat + flash.pageSize.toNat :=
      toNat_add_of_lt (by omega)
    rw [blockLoop] at h
    split_ifs at h with hblock
    · have hcurrent := int_cases current
      have hoffset := int_cases s.offset
      have hnext := int_cases (current + flash.pageSize)
      have hlength := int_cases s.length
      have hroom' : (current + flash.pageSize - s.offset).toNat =
          current.toNat + flash.pageSize.toNat - s.offset.toNat := by
        rw [toNat_sub_of_le (by omega), hsum]
      have hpart : 0 < (smin (current + flash.pageSize - s.offset) s.length).toNat := by
        rw [smin_toNat (by omega) (by omega)]
        omega
      exact absurd h.1 (not_silent_load hpart)
    · exact ih (by omega) h

/-- A write that is not rejected reads a block, or claims success. -/
theorem regionLoop_not_rejects (regions : List FlashRegion)
    (hregions : ∀ region ∈ regions, region ∈ flash.regionInfo) {s : Rest}
    (hpos : 0 < s.length.toInt) : ¬ RejectsOnchip flash (regionLoop flash fuel data regions s) := by
  induction regions with
  | nil => exact fun h => absurd (show (0 : ℤ) < 0 from h) (by decide)
  | cons region regions ih =>
    have hrest := ih fun r hr => hregions r (List.mem_cons_of_mem region hr)
    obtain ⟨hsize, -, hroom⟩ := flash.region_blocks (hregions region List.mem_cons_self)
    intro h
    rw [RejectsOnchip, regionLoop] at h
    split_ifs at h with hregion
    · rw [hsize] at h
      exact hrest (blockLoop_silent hpos _ hroom h)
    · exact hrest h

theorem write_rejects_iff (hlength : 0 < length.toInt) :
    RejectsOnchip flash (altOnchipFlashWrite flash fuel offset data length) ↔
      flash.length.toInt ≤ offset.toInt ∨ (flash.length - offset).toInt < length.toInt := by
  rw [altOnchipFlashWrite]
  split_ifs with hrange
  · exact ⟨fun _ => hrange, fun _ => show -EFAULT < 0 by decide⟩
  · exact ⟨fun h => absurd h (regionLoop_not_rejects _ (fun _ h => h) hlength),
      fun h => absurd h hrange⟩

/-- The check of a read wraps where the address is no `int`. -/
theorem read_range_iff (hoffset : offset.toNat < 2 ^ 31) (hstart : start.toNat ≤ 2 ^ 22)
    (hpos : 0 < length.toNat) (hlength : length.toNat ≤ 2 ^ 22) :
    (flash.length.toInt ≤ (offset + start).toInt ∨
        flash.length.toInt < (offset + start + length).toInt) ↔
      start.toNat + offset.toNat < 2 ^ 31 ∧
        flash.length.toNat < start.toNat + offset.toNat + length.toNat := by
  have hdevice := flash.length_le
  have hsum : (offset + start).toNat = offset.toNat + start.toNat := toNat_add_of_lt (by omega)
  have hsum' : (offset + start + length).toNat = offset.toNat + start.toNat + length.toNat := by
    rw [toNat_add_of_lt (by omega), hsum]
  have hint := int_cases flash.length
  have haddress := int_cases (offset + start)
  have hend := int_cases (offset + start + length)
  omega

/-- That of a write does not. -/
theorem write_range_iff (hoffset : offset.toNat < 2 ^ 31)
    (hstart : start.toNat ≤ flash.length.toNat) (hpos : 0 < length.toNat)
    (hlength : length.toNat < 2 ^ 31) :
    (flash.length.toInt ≤ (offset + start).toInt ∨
        (flash.length - (offset + start)).toInt < length.toInt) ↔
      flash.length.toNat < start.toNat + offset.toNat + length.toNat := by
  have hdevice := flash.length_le
  have hsum : (offset + start).toNat = offset.toNat + start.toNat := toNat_add_of_lt (by omega)
  have hdiff := BitVec.toNat_sub flash.length (offset + start)
  have hint := int_cases flash.length
  have haddress := int_cases (offset + start)
  have hroom := int_cases (flash.length - (offset + start))
  have hlength := int_cases length
  omega

end Rejected

end OlivePiccolo.Flash
