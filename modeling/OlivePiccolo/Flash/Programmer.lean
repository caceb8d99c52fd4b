import OlivePiccolo.ClientFs.Open
import OlivePiccolo.Flash.Onchip
import OlivePiccolo.Library.Tracking

/-!
# The programmer

`programmer.c` divides the two flashes into areas: `spi` is the whole SPI flash, `ufm` begins at
sector 1 of the on-chip flash, and `cfg` at its sector 3. The methods `rubic.prog.hash` and
`rubic.prog.write` of `rubic_agent.c` check what they pass on (`PassedOn.sound`): the offset and the
length have to be multiples of the block size.
-/

namespace OlivePiccolo.Flash

open Dialog Bson Rpc

/-! ## Areas -/

/-- What is said to one of the two flashes. -/
inductive ProgSaid
  | spi (c : Said)
  | onchip (c : Onchip)

/-- The answers of the two flashes; that of the flash which was asked counts. -/
structure ProgHeard where
  spi : Reply
  onchip : Heard

theorem ProgHeard.spi_surjective : Function.Surjective ProgHeard.spi :=
  fun r => ⟨⟨r, ⟨0, []⟩⟩, rfl⟩

theorem ProgHeard.onchip_surjective : Function.Surjective ProgHeard.onchip :=
  fun r => ⟨⟨⟨0, []⟩, r⟩, rfl⟩

def areaSpi : CString := ⟨ascii ['s', 'p', 'i'], by decide⟩
def areaCfg : CString := ⟨ascii ['c', 'f', 'g'], by decide⟩
def areaUfm : CString := ⟨ascii ['u', 'f', 'm'], by decide⟩

section Areas

variable (flash : OnchipFlashDev)

/-- `prog_blocksize`. -/
def progBlocksize (area : CString) : BitVec 32 :=
  if area = areaSpi then 1 <<< SECT_SHIFT
  else if area = areaCfg then flash.pageSize
  else if area = areaUfm then flash.pageSize
  else -1

/-- `prog_reader`. -/
def progReader (area : CString) (offset len : BitVec 32) : Dialog ProgSaid ProgHeard ℤ :=
  if area = areaSpi then
    (do return (← epcsFatfsRawRead offset len).result : Dialog Said Reply ℤ).relabel .spi (·.spi)
  else if area = areaCfg then
    (altOnchipFlashRead flash (offset + flash.sector3.startAddr) len).relabel .onchip (·.onchip)
  else if area = areaUfm then
    (altOnchipFlashRead flash (offset + flash.sector1.startAddr) len).relabel .onchip (·.onchip)
  else return -1

/-- `prog_writer`. -/
def progWriter (fuel : ℕ) (area : CString) (offset : BitVec 32) (ptr : Mem) (len : BitVec 32) :
    Dialog ProgSaid ProgHeard ℤ :=
  if area = areaSpi then
    (epcsFatfsRawWrite fuel offset ptr len).relabel .spi (·.spi)
  else if area = areaCfg then
    (altOnchipFlashWrite flash fuel (offset + flash.sector3.startAddr) ptr len).relabel
      .onchip (·.onchip)
  else if area = areaUfm then
    (altOnchipFlashWrite flash fuel (offset + flash.sector1.startAddr) ptr len).relabel
      .onchip (·.onchip)
  else return -1

end Areas

/-! ## Methods -/

def keyArea : CString := ⟨ascii ['a', 'r', 'e', 'a'], by decide⟩
def keyOffset : CString := ⟨ascii ['o', 'f', 'f', 's', 'e', 't'], by decide⟩
def keyData : CString := ⟨ascii ['d', 'a', 't', 'a'], by decide⟩
def keyHash : CString := ⟨ascii ['h', 'a', 's', 'h'], by decide⟩

/-- A call of the reader or of the writer. -/
inductive ProgCall
  | read (area : CString) (offset len : BitVec 32)
  | write (area : CString) (offset : BitVec 32) (data : Mem)
  deriving DecidableEq

def ProgCall.dialog (flash : OnchipFlashDev) (fuel : ℕ) : ProgCall → Dialog ProgSaid ProgHeard ℤ
  | read area offset len => progReader flash area offset len
  | write area offset data => progWriter flash fuel area offset data (BitVec.ofNat 32 data.length)

section Methods

variable (flash : OnchipFlashDev)

/-- The check of both methods for the offset. -/
def MisplacedOffset (blockSize offset : BitVec 32) : Prop :=
  offset.toInt < 0 ∨ offset &&& (blockSize - 1) ≠ 0

instance (blockSize offset : BitVec 32) : Decidable (MisplacedOffset blockSize offset) := by
  unfold MisplacedOffset
  infer_instance

/-- `rubic_agent_method_prog_hash` up to its call of the reader, or `errno`. It needs memory for the
block. -/
def rubicAgentMethodProgHash (memory : Bool) (params : Mem) : Access (Except ℤ ProgCall) := do
  let (found, keys) ← bsonGetProps params [(keyArea, 0), (keyOffset, 0)]
  let off i := (keys.getD i (keyArea, -1)).2
  if found < 0 then return .error EINVAL
  else
    match ← bsonGetString (some params) (off 0) with
    | none => return .error EINVAL
    | some p =>
      let area ← ClientFs.stringAt params p
      let blockSize := progBlocksize flash area
      if blockSize.toInt ≤ 0 then return .error ENODEV
      else
        let offset := BitVec.ofInt 32 (← bsonGetInt32 (some params) (off 1) (-1))
        if MisplacedOffset blockSize offset then return .error EINVAL
        else if !memory then return .error ENOMEM
        else return .ok (.read area offset blockSize)

/-- `rubic_agent_method_prog_write` from the check of the hash on. -/
def checkHash (md5 : List UInt8 → List UInt8) (params : Mem) (area : CString) (offset : BitVec 32)
    (dataPtr dataLen : ℤ) : Option (ℤ × ℤ) → Access (Except ℤ ProgCall)
  | none => return .error EINVAL
  | some (hashPtr, hashLen) =>
    if hashLen ≠ 16 then return .error EINVAL
    else do
      let data ← params.readBytes dataPtr dataLen
      let hash ← params.readBytes hashPtr 16
      if md5 data ≠ hash then return .error EILSEQ
      else return .ok (.write area offset data)

/-- `rubic_agent_method_prog_write` up to its call of the writer, or `errno`. -/
def rubicAgentMethodProgWrite (md5 : List UInt8 → List UInt8) (params : Mem) :
    Access (Except ℤ ProgCall) := do
  let (found, keys) ←
    bsonGetProps params [(keyArea, 0), (keyOffset, 0), (keyData, 0), (keyHash, 0)]
  let off i := (keys.getD i (keyArea, -1)).2
  if found < 0 then return .error EINVAL
  else
    match ← bsonGetString (some params) (off 0) with
    | none => return .error EINVAL
    | some p =>
      let area ← ClientFs.stringAt params p
      let blockSize := progBlocksize flash area
      if blockSize.toInt ≤ 0 then return .error ENODEV
      else
        let offset := BitVec.ofInt 32 (← bsonGetInt32 (some params) (off 1) (-1))
        if MisplacedOffset blockSize offset then return .error EINVAL
        else
          match ← bsonGetBinary (some params) (off 2) with
          | none => return .error EINVAL
          | some (dataPtr, dataLen) =>
            if BitVec.ofInt 32 dataLen &&& (blockSize - 1) ≠ 0 then return .error EINVAL
            else
              checkHash md5 params area offset dataPtr dataLen
                (← bsonGetBinary (some params) (off 3))

end Methods

/-! ## What is passed on -/

/-- One of the methods makes the call. -/
def PassedOn (flash : OnchipFlashDev) (md5 : List UInt8 → List UInt8) (call : ProgCall) : Prop :=
  (∃ memory params, rubicAgentMethodProgHash flash memory params = some (.ok call)) ∨
    ∃ params, rubicAgentMethodProgWrite flash md5 params = some (.ok call)

/-- The area has blocks, and the offset and the length are multiples of them. -/
structure ProgCall.Checked (flash : OnchipFlashDev) (area : CString) (offset : BitVec 32)
    (length : ℕ) : Prop where
  named : area = areaSpi ∨ area = areaCfg ∨ area = areaUfm
  block_pow : ∃ k, 2 ≤ k ∧ k ≤ 22 ∧ (progBlocksize flash area).toNat = 2 ^ k
  offset_lt : offset.toNat < 2 ^ 31
  offset_dvd : (progBlocksize flash area).toNat ∣ offset.toNat
  length_pos : 0 < length
  length_lt : length < 2 ^ 31
  length_dvd : (progBlocksize flash area).toNat ∣ length

/-- The call has passed the checks. -/
def ProgCall.Sound (flash : OnchipFlashDev) : ProgCall → Prop
  | read area offset len => len = progBlocksize flash area ∧ Checked flash area offset len.toNat
  | write area offset data => Checked flash area offset data.length

section Checks

variable {flash : OnchipFlashDev} {area : CString} {offset : BitVec 32} {call : ProgCall}

/-- A name without an area has no blocks. -/
theorem progBlocksize_cases (h : ¬ (progBlocksize flash area).toInt ≤ 0) :
    (area = areaSpi ∨ area = areaCfg ∨ area = areaUfm) ∧
      ∃ k, 2 ≤ k ∧ k ≤ 22 ∧ (progBlocksize flash area).toNat = 2 ^ k := by
  revert h
  rw [progBlocksize]
  split_ifs with hspi hcfg hufm
  · exact fun _ => ⟨.inl hspi, 12, by decide, by decide, rfl⟩
  · exact fun _ => ⟨.inr (.inl hcfg), flash.page_pow⟩
  · exact fun _ => ⟨.inr (.inr hufm), flash.page_pow⟩
  · exact fun h => absurd (show (-1 : BitVec 32).toInt ≤ 0 by decide) h

theorem dvd_of_and_mask {p x : BitVec 32} {k : ℕ} (hp : p.toNat = 2 ^ k)
    (h : ¬ x &&& (p - 1) ≠ 0) : p.toNat ∣ x.toNat := by
  have hzero := congrArg BitVec.toNat (not_not.mp h)
  rw [and_mask_toNat x hp] at hzero
  exact Nat.dvd_of_mod_eq_zero hzero

theorem checked_of_checks {length : ℕ} (hblock : ¬ (progBlocksize flash area).toInt ≤ 0)
    (hoffset : ¬ MisplacedOffset (progBlocksize flash area) offset) (hpos : 0 < length)
    (hlt : length < 2 ^ 31)
    (hdvd : (progBlocksize flash area).toNat ∣ length) :
    ProgCall.Checked flash area offset length := by
  obtain ⟨hnamed, hpow⟩ := progBlocksize_cases hblock
  obtain ⟨hneg, hmask⟩ := not_or.mp hoffset
  have hint := int_cases offset
  exact ⟨hnamed, hpow, by omega, dvd_of_and_mask hpow.choose_spec.2.2 hmask, hpos, hlt, hdvd⟩

theorem hash_sound {memory : Bool} {params : Mem}
    (h : rubicAgentMethodProgHash flash memory params = some (.ok call)) : call.Sound flash := by
  rw [rubicAgentMethodProgHash] at h
  obtain ⟨⟨found, keys⟩, -, h⟩ := Option.bind_eq_some_iff.mp h
  dsimp only at h
  by_cases hfound : found < 0
  · rw [if_pos hfound] at h
    cases h
  rw [if_neg hfound] at h
  obtain ⟨string, -, h⟩ := Option.bind_eq_some_iff.mp h
  cases string with
  | none => cases h
  | some p =>
    obtain ⟨area, -, h⟩ := Option.bind_eq_some_iff.mp h
    by_cases hblock : (progBlocksize flash area).toInt ≤ 0
    · rw [if_pos hblock] at h
      cases h
    rw [if_neg hblock] at h
    obtain ⟨value, -, h⟩ := Option.bind_eq_some_iff.mp h
    split_ifs at h with hoffset hmemory
    · cases h
    · cases h
    · cases h
      have hint := int_cases (progBlocksize flash area)
      exact ⟨rfl, checked_of_checks hblock hoffset (by omega) (by omega) (Nat.dvd_refl _)⟩

theorem bsonGetBinary_length {m : Mem} {off p len : ℤ}
    (h : bsonGetBinary (some m) off = some (some (p, len))) : 0 < len ∧ len < 2 ^ 31 := by
  obtain ⟨found, -, h⟩ := Option.bind_eq_some_iff.mp h
  cases found with
  | none => cases h
  | some found =>
    obtain ⟨binlen, hread, h⟩ := Option.bind_eq_some_iff.mp h
    split_ifs at h with hshort
    · cases h
    · cases h
      exact ⟨by omega, readUnalignedInt_lt hread⟩

theorem checkHash_ok {md5 : List UInt8 → List UInt8} {params : Mem} {dataPtr dataLen : ℤ}
    {hash : Option (ℤ × ℤ)}
    (h : checkHash md5 params area offset dataPtr dataLen hash = some (.ok call)) :
    ∃ data, params.readBytes dataPtr dataLen = some data ∧ call = .write area offset data := by
  cases hash with
  | none => cases h
  | some hash =>
    rw [checkHash] at h
    split_ifs at h with hlen
    · cases h
    obtain ⟨data, hdata, h⟩ := Option.bind_eq_some_iff.mp h
    obtain ⟨hash, -, h⟩ := Option.bind_eq_some_iff.mp h
    split_ifs at h with hmd5
    · cases h
    · cases h
      exact ⟨data, hdata, rfl⟩

theorem write_sound {md5 : List UInt8 → List UInt8} {params : Mem}
    (h : rubicAgentMethodProgWrite flash md5 params = some (.ok call)) : call.Sound flash := by
  rw [rubicAgentMethodProgWrite] at h
  obtain ⟨⟨found, keys⟩, -, h⟩ := Option.bind_eq_some_iff.mp h
  dsimp only at h
  by_cases hfound : found < 0
  · rw [if_pos hfound] at h
    cases h
  rw [if_neg hfound] at h
  obtain ⟨string, -, h⟩ := Option.bind_eq_some_iff.mp h
  cases string with
  | none => cases h
  | some p =>
    obtain ⟨area, -, h⟩ := Option.bind_eq_some_iff.mp h
    by_cases hblock : (progBlocksize flash area).toInt ≤ 0
    · rw [if_pos hblock] at h
      cases h
    rw [if_neg hblock] at h
    obtain ⟨value, -, h⟩ := Option.bind_eq_some_iff.mp h
    by_cases hoffset : MisplacedOffset (progBlocksize flash area) (BitVec.ofInt 32 value)
    · rw [if_pos hoffset] at h
      cases h
    rw [if_neg hoffset] at h
    obtain ⟨binary, hbinary, h⟩ := Option.bind_eq_some_iff.mp h
    rcases binary with - | ⟨dataPtr, dataLen⟩
    · cases h
    · dsimp only at h
      split_ifs at h with hmask
      · cases h
      obtain ⟨hash, -, h⟩ := Option.bind_eq_some_iff.mp h
      obtain ⟨data, hdata, rfl⟩ := checkHash_ok h
      obtain ⟨hpos, hlt⟩ := bsonGetBinary_length hbinary
      have hlength := (Mem.hasAt_of_readBytes hdata).1
      refine checked_of_checks hblock hoffset (by omega) (by omega) ?_
      obtain ⟨-, k, -, -, hk⟩ := progBlocksize_cases hblock
      have hdvd := dvd_of_and_mask hk hmask
      rwa [hlength, BitVec.ofInt_natCast, BitVec.toNat_ofNat, Nat.mod_eq_of_lt (by omega)] at hdvd

/-- What is passed on has passed the checks. -/
theorem PassedOn.sound {md5 : List UInt8 → List UInt8} (h : PassedOn flash md5 call) :
    call.Sound flash := by
  rcases h with ⟨memory, params, h⟩ | ⟨params, h⟩
  · exact hash_sound h
  · exact write_sound h

end Checks

end OlivePiccolo.Flash
