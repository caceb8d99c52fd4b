import OlivePiccolo.Bson.Fields
import OlivePiccolo.Digest.Md5
import OlivePiccolo.Flash.Programmer
import OlivePiccolo.Library.Trace

/-!
# Writing firmware

`rubic_agent_method_prog_write`, for any programmer that is registered. The writer is called once at
most, for what the request has, and only behind all checks (`prog_write_gate`).
-/

namespace OlivePiccolo.RubicAgent

open Bson Dialog Digest Flash

/-- What is said to the programmer. -/
inductive ProgSays
  | blksize (area : CString)
  | writer (area : CString) (offset : BitVec 32) (data : Mem)
  deriving DecidableEq

/-- `rubic_agent_method_prog_write` from the check of the hash on. -/
def writeData (params : Mem) (area : CString) (offset : BitVec 32) (dataPtr dataLen : ℤ) :
    Option (ℤ × ℤ) → Dialog ProgSays (BitVec 32) ℤ
  | none => return EINVAL
  | some (hashPtr, hashLen) =>
    if hashLen ≠ 16 then return EINVAL
    else do
      let data ← access (params.readBytes dataPtr dataLen)
      let hash ← access (params.readBytes hashPtr 16)
      if digestMd5Bytes (digestMd5Calc data dataLen) ≠ hash then return EILSEQ
      else
        let result ← ask (.writer area offset data)
        if result.toInt < 0 then return EIO
        else return 0

/-- `rubic_agent_method_prog_write`: its result is `NULL`, and this is its `errno`. -/
def rubicAgentMethodProgWrite (params : Mem) : Dialog ProgSays (BitVec 32) ℤ := do
  let (found, keys) ← access
    (bsonGetProps params [(keyArea, 0), (keyOffset, 0), (keyData, 0), (keyHash, 0)])
  let off i := (keys.getD i (keyArea, -1)).2
  if found < 0 then return EINVAL
  else
    match ← access (bsonGetString (some params) (off 0)) with
    | none => return EINVAL
    | some p =>
      let area ← access (ClientFs.stringAt params p)
      let blockSize ← ask (.blksize area)
      if blockSize.toInt ≤ 0 then return ENODEV
      else
        let offset := BitVec.ofInt 32 (← access (bsonGetInt32 (some params) (off 1) (-1)))
        if MisplacedOffset blockSize offset then return EINVAL
        else
          match ← access (bsonGetBinary (some params) (off 2)) with
          | none => return EINVAL
          | some (dataPtr, dataLen) =>
            if BitVec.ofInt 32 dataLen &&& (blockSize - 1) ≠ 0 then return EINVAL
            else
              writeData params area offset dataPtr dataLen
                (← access (bsonGetBinary (some params) (off 3)))

/-! ## The gate -/

/-- A call of the writer is what the request has, and it is placed on blocks. -/
structure Gate (params : Mem) (log : List (ProgSays × BitVec 32)) (area : CString)
    (offset : BitVec 32) (data : Mem) : Prop where
  block : ∃ blockSize : BitVec 32, (.blksize area, blockSize) ∈ log ∧ 0 < blockSize.toInt ∧
    blockSize.toInt ∣ offset.toInt ∧ blockSize.toInt ∣ data.length
  offset_nonneg : 0 ≤ offset.toInt
  data_pos : 0 < data.length
  hasData : HasBinary params keyData data
  hasHash : HasBinary params keyHash (digestMd5Bytes (digestMd5Calc data data.length))

section Gate

variable {params : Mem} {l : List (ProgSays × BitVec 32)} {errno : ℤ}

/-- What the method has checked when it calls the writer. -/
structure Passes (params : Mem) (area : CString) (blockSize offset : BitVec 32) (data : Mem) :
    Prop where
  block : 0 < blockSize.toInt
  placed : ¬ MisplacedOffset blockSize offset
  sized : BitVec.ofInt 32 data.length &&& (blockSize - 1) = 0
  data_pos : 0 < data.length
  data_lt : data.length < 2 ^ 31
  hasData : HasBinary params keyData data
  hasHash : HasBinary params keyHash (digestMd5Bytes (digestMd5Calc data data.length))

/-- Up to here, no more than the block size has been asked for. -/
def NoWrite (l : List (ProgSays × BitVec 32)) : Prop := ∀ x ∈ l, ∃ area, x.1 = .blksize area

theorem noWrite_nil : NoWrite [] := fun _ h => absurd h List.not_mem_nil

theorem NoWrite.cons {area : CString} {r : BitVec 32} (h : NoWrite l) :
    NoWrite ((.blksize area, r) :: l) :=
  List.forall_mem_cons.mpr ⟨⟨area, rfl⟩, h⟩

/-- The offsets that are reported. -/
theorem exists_offsets (hparams : Contained params) {found : ℤ} {keys : Keys}
    (hprops : bsonGetProps params [(keyArea, 0), (keyOffset, 0), (keyData, 0), (keyHash, 0)] =
      some (found, keys)) :
    ∃ o₀ o₁ o₂ o₃ : ℤ,
      keys = [(keyArea, o₀), (keyOffset, o₁), (keyData, o₂), (keyHash, o₃)] ∧
      (0 ≤ found → ∀ k ∈ keys, k.2 = -1 ∨ ∃ fin, FieldAt params fin k.1 k.2) := by
  obtain ⟨r, keys', heq, hnames, hfields⟩ := hparams.bsonGetProps
    [(keyArea, 0), (keyOffset, 0), (keyData, 0), (keyHash, 0)] (by decide)
  cases hprops.symm.trans heq
  match keys, hnames, hfields with
  | [(_, o₀), (_, o₁), (_, o₂), (_, o₃)], hnames, hfields =>
    cases hnames
    exact ⟨o₀, o₁, o₂, o₃, rfl, hfields⟩

/-- A binary at an offset that is reported. -/
theorem hasBinary_of_field {name : CString} {off p len : ℤ} {bytes : Mem}
    (hfield : off = -1 ∨ ∃ fin, FieldAt params fin name off)
    (hget : bsonGetBinary (some params) off = some (some (p, len)))
    (hread : params.readBytes p len = some bytes) : HasBinary params name bytes := by
  rcases hfield with rfl | ⟨fin, hfield⟩
  · cases hget
  · exact hfield.binary hget hread

/-- What is said from the check of the hash on. -/
theorem traces_writeData {area : CString} {offset : BitVec 32} {dataPtr dataLen : ℤ}
    {hash : Option (ℤ × ℤ)}
    (h : (writeData params area offset dataPtr dataLen hash).Traces l errno) :
    (errno ≠ 0 ∧ l = []) ∨
      ∃ data hashPtr result, l = [(.writer area offset data, result)] ∧
        params.readBytes dataPtr dataLen = some data ∧ hash = some (hashPtr, 16) ∧
        params.readBytes hashPtr 16 = some (digestMd5Bytes (digestMd5Calc data dataLen)) ∧
        errno = if result.toInt < 0 then EIO else 0 := by
  rcases hash with - | ⟨hashPtr, hashLen⟩
  · obtain ⟨rfl, rfl⟩ := h
    exact .inl ⟨by decide, rfl⟩
  rw [writeData] at h
  by_cases hlen : hashLen ≠ 16
  · rw [if_pos hlen] at h
    obtain ⟨rfl, rfl⟩ := h
    exact .inl ⟨by decide, rfl⟩
  rw [if_neg hlen] at h
  obtain rfl := not_not.mp hlen
  obtain ⟨data, hdata, h⟩ := traces_access.mp h
  obtain ⟨bytes, hbytes, h⟩ := traces_access.mp h
  by_cases hmd5 : digestMd5Bytes (digestMd5Calc data dataLen) ≠ bytes
  · rw [if_pos hmd5] at h
    obtain ⟨rfl, rfl⟩ := h
    exact .inl ⟨by decide, rfl⟩
  rw [if_neg hmd5] at h
  obtain rfl := not_not.mp hmd5
  obtain ⟨result, l', rfl, hresult⟩ := traces_ask.mp h
  refine .inr ⟨data, hashPtr, result, ?_, hdata, rfl, hbytes, ?_⟩
  · split_ifs at hresult with hneg
    · rw [hresult.1]
    · rw [hresult.1]
  · split_ifs at hresult ⊢ with hneg
    · exact hresult.2.symm
    · exact hresult.2.symm

/-- **What the method says**: an error before it calls the writer, or the call and its result. -/
theorem traces_progWrite (hparams : Contained params)
    (h : (rubicAgentMethodProgWrite params).Traces l errno) :
    (errno ≠ 0 ∧ NoWrite l) ∨
      ∃ area blockSize offset data result,
        l = [(.blksize area, blockSize), (.writer area offset data, result)] ∧
        Passes params area blockSize offset data ∧
        (errno = if result.toInt < 0 then EIO else 0) ∧
        ∀ flash, progBlocksize flash area = blockSize →
          Flash.rubicAgentMethodProgWrite flash
            (fun bytes => digestMd5Bytes (digestMd5Calc bytes bytes.length)) params =
              some (.ok (.write area offset data)) := by
  rw [rubicAgentMethodProgWrite] at h
  obtain ⟨⟨found, keys⟩, hprops, h⟩ := traces_access.mp h
  obtain ⟨o₀, o₁, o₂, o₃, rfl, hfields⟩ := exists_offsets hparams hprops
  dsimp only at h
  by_cases hfound : found < 0
  · rw [if_pos hfound] at h
    obtain ⟨rfl, rfl⟩ := h
    exact .inl ⟨by decide, noWrite_nil⟩
  rw [if_neg hfound] at h
  have hfields := hfields (Int.not_lt.mp hfound)
  obtain ⟨string, hstring, h⟩ := traces_access.mp h
  cases string with
  | none =>
    obtain ⟨rfl, rfl⟩ := h
    exact .inl ⟨by decide, noWrite_nil⟩
  | some p =>
  obtain ⟨area, harea, h⟩ := traces_access.mp h
  obtain ⟨blockSize, l', rfl, hrest⟩ := traces_ask.mp h
  clear h
  by_cases hblock : blockSize.toInt ≤ 0
  · rw [if_pos hblock] at hrest
    obtain ⟨rfl, rfl⟩ := hrest
    exact .inl ⟨by decide, noWrite_nil.cons⟩
  rw [if_neg hblock] at hrest
  obtain ⟨value, hvalue, hrest⟩ := traces_access.mp hrest
  by_cases hoffset : MisplacedOffset blockSize (BitVec.ofInt 32 value)
  · rw [if_pos hoffset] at hrest
    obtain ⟨rfl, rfl⟩ := hrest
    exact .inl ⟨by decide, noWrite_nil.cons⟩
  rw [if_neg hoffset] at hrest
  obtain ⟨binary, hbinary, hrest⟩ := traces_access.mp hrest
  rcases binary with - | ⟨dataPtr, dataLen⟩
  · obtain ⟨rfl, rfl⟩ := hrest
    exact .inl ⟨by decide, noWrite_nil.cons⟩
  dsimp only at hrest
  by_cases hmask : BitVec.ofInt 32 dataLen &&& (blockSize - 1) ≠ 0
  · rw [if_pos hmask] at hrest
    obtain ⟨rfl, rfl⟩ := hrest
    exact .inl ⟨by decide, noWrite_nil.cons⟩
  rw [if_neg hmask] at hrest
  obtain ⟨hash, hhash, hrest⟩ := traces_access.mp hrest
  rcases traces_writeData hrest with ⟨herrno, rfl⟩ |
    ⟨data, hashPtr, result, rfl, hdata, rfl, hbytes, herrno⟩
  · exact .inl ⟨herrno, noWrite_nil.cons⟩
  have hdataLen := (Mem.hasAt_of_readBytes hdata).1
  obtain ⟨hpos, hlt⟩ := bsonGetBinary_length hbinary
  subst hdataLen
  refine .inr ⟨area, blockSize, BitVec.ofInt 32 value, data, result, rfl, ?_, herrno, ?_⟩
  swap
  · rintro flash rfl
    simp only [Flash.rubicAgentMethodProgWrite, checkHash, hprops, hstring, harea, hvalue, hbinary,
      hhash, hdata, hbytes, if_neg hfound, if_neg hblock, if_neg hoffset, if_neg hmask,
      Option.bind_eq_bind, Option.bind_some, Option.pure_def, ne_eq, not_true_eq_false, if_false]
  refine ⟨by omega, hoffset, not_not.mp hmask, by omega, by omega, ?_, ?_⟩
  · exact hasBinary_of_field (hfields (keyData, o₂) (by simp)) hbinary hdata
  · exact hasBinary_of_field (hfields (keyHash, o₃) (by simp)) hhash hbytes

/-- A size of blocks, or no blocks. -/
def IsBlockSize (blockSize : BitVec 32) : Prop :=
  blockSize.toInt ≤ 0 ∨ ∃ k, blockSize.toNat = 2 ^ k

theorem Passes.gate {area : CString} {blockSize offset : BitVec 32} {data : Mem}
    (h : Passes params area blockSize offset data) (hblock : IsBlockSize blockSize)
    (hl : (.blksize area, blockSize) ∈ l) : Gate params l area offset data := by
  have hpos := h.block
  have hlt := h.data_lt
  obtain ⟨k, hk⟩ := hblock.resolve_left (Int.not_le.mpr hpos)
  obtain ⟨hneg, hmask⟩ := not_or.mp h.placed
  have hint := int_cases blockSize
  have hint' := int_cases offset
  have hoffset := dvd_of_and_mask hk hmask
  have hsize := dvd_of_and_mask hk (not_not.mpr h.sized)
  rw [BitVec.ofInt_natCast, BitVec.toNat_ofNat, Nat.mod_eq_of_lt (by omega)] at hsize
  have hblockInt : blockSize.toInt = blockSize.toNat := by omega
  have hoffsetInt : offset.toInt = offset.toNat := by omega
  refine ⟨⟨blockSize, hl, hpos, ?_, ?_⟩, by omega, h.data_pos, h.hasData, h.hasHash⟩
  · rw [hblockInt, hoffsetInt]
    exact Int.natCast_dvd_natCast.mpr hoffset
  · rw [hblockInt]
    exact Int.natCast_dvd_natCast.mpr hsize

end Gate

/-! ## What the gate keeps -/

/-- The call of the writer. -/
def ProgSays.IsWriter (c : ProgSays) : Prop := ∃ area offset data, c = .writer area offset data

instance : DecidablePred ProgSays.IsWriter
  | .blksize _ => isFalse fun ⟨_, _, _, h⟩ => by cases h
  | .writer area offset data => isTrue ⟨area, offset, data, rfl⟩

/-- The writer has been called once at most, through the gate; `errno` is 0 if it has been and was
successful, and only then. -/
structure GateKept (params : Mem) (log : List (ProgSays × BitVec 32)) (errno : ℤ) : Prop where
  once : log.countP (·.1.IsWriter) ≤ 1
  gate : ∀ area offset data result, (.writer area offset data, result) ∈ log →
    Gate params log area offset data
  errno_zero : errno = 0 ↔ ∃ area offset data result,
    (.writer area offset data, result) ∈ log ∧ 0 ≤ result.toInt

section Kept

variable {params : Mem} {log : List (ProgSays × BitVec 32)} {errno : ℤ}

theorem GateKept.of_noWrite (herrno : errno ≠ 0) (h : NoWrite log) :
    GateKept params log errno := by
  have hwriter : ∀ area offset data result, (.writer area offset data, result) ∉ log := by
    intro area offset data result hmem
    obtain ⟨area', h⟩ := h _ hmem
    cases h
  have hcount : log.countP (·.1.IsWriter) = 0 := by
    rw [List.countP_eq_zero]
    rintro ⟨c, result⟩ hx hc
    obtain ⟨area, offset, data, rfl⟩ := of_decide_eq_true hc
    exact hwriter area offset data result hx
  exact ⟨hcount ▸ Nat.zero_le 1, fun _ _ _ _ h => absurd h (hwriter _ _ _ _),
    fun h => absurd h herrno, fun ⟨_, _, _, _, h, _⟩ => absurd h (hwriter _ _ _ _)⟩

theorem GateKept.of_write {area : CString} {blockSize offset result : BitVec 32} {data : Mem}
    (h : Gate params [(.blksize area, blockSize), (.writer area offset data, result)] area offset
      data) :
    GateKept params [(.blksize area, blockSize), (.writer area offset data, result)]
      (if result.toInt < 0 then EIO else 0) := by
  have hmem : ∀ area' offset' data' result', (ProgSays.writer area' offset' data', result') ∈
      [(ProgSays.blksize area, blockSize), (.writer area offset data, result)] →
      area' = area ∧ offset' = offset ∧ data' = data ∧ result' = result := by
    intro area' offset' data' result' hx
    rcases List.mem_cons.mp hx with hx | hx
    · cases hx
    · cases List.mem_singleton.mp hx
      exact ⟨rfl, rfl, rfl, rfl⟩
  refine ⟨Nat.le_refl 1, ?_, ?_, ?_⟩
  · intro area' offset' data' result' hx
    obtain ⟨rfl, rfl, rfl, rfl⟩ := hmem _ _ _ _ hx
    exact h
  · intro hzero
    refine ⟨area, offset, data, result, List.mem_cons_of_mem _ List.mem_cons_self, ?_⟩
    split_ifs at hzero with hneg
    · exact absurd hzero (by decide)
    · exact Int.not_lt.mp hneg
  · rintro ⟨area', offset', data', result', hx, hnonneg⟩
    obtain ⟨-, -, -, rfl⟩ := hmem _ _ _ _ hx
    exact if_neg (Int.not_lt.mpr hnonneg)

end Kept

/-! ## Runs -/

section Run

variable {σ : Type} {params : Mem}

theorem stringAt_of_hasAt {p : ℤ} {s : CString} (h : params.HasAt p s.encode) :
    ∃ area, ClientFs.stringAt params p = some area := by
  obtain ⟨front, back, rfl, rfl⟩ := h
  have hmem : (0 : UInt8) ∈ (front ++ s.encode ++ back).drop front.length := by
    rw [List.append_assoc, List.drop_left]
    exact List.mem_append_left _ (List.mem_append_right _ List.mem_cons_self)
  exact ⟨_, if_pos ⟨Int.natCast_nonneg _, by rwa [Int.toNat_natCast]⟩⟩

/-- The method returns. -/
theorem progWrite_returns (hparams : Contained params) (reply : σ → ProgSays → BitVec 32 × σ)
    (s : σ) : Ensures ((rubicAgentMethodProgWrite params).run reply s) fun _ => True := by
  obtain ⟨found, keys, hprops, hhanded⟩ :=
    hparams.inside [(keyArea, 0), (keyOffset, 0), (keyData, 0), (keyHash, 0)]
  have hoff : ∀ i, Handed params ((keys.getD i (keyArea, -1)).2) := by
    intro i
    by_cases hi : i < keys.length
    · rw [List.getD_eq_getElem _ _ hi]
      exact hhanded _ (List.getElem_mem hi)
    · rw [List.getD_eq_default _ _ (Nat.not_lt.mp hi)]
      exact handed_of_none fun _ _ => rfl
  rw [rubicAgentMethodProgWrite]
  refine .run_access hprops (.run_ite (fun _ => .run_ret trivial) fun _ => ?_)
  obtain ⟨string, hstring, hstringAt⟩ := (hoff 0).string
  refine .run_access hstring ?_
  cases string with
  | none => exact .run_ret trivial
  | some p =>
  obtain ⟨name, hname⟩ := hstringAt p rfl
  obtain ⟨area, harea⟩ := stringAt_of_hasAt hname
  refine .run_access harea (.run_ask (.run_ite (fun _ => .run_ret trivial) fun _ => ?_))
  obtain ⟨value, hvalue⟩ := (hoff 1).int32 (-1)
  refine .run_access hvalue (.run_ite (fun _ => .run_ret trivial) fun _ => ?_)
  obtain ⟨binary, hbinary, hdata⟩ := (hoff 2).binary
  refine .run_access hbinary ?_
  cases binary with
  | none => exact .run_ret trivial
  | some binary =>
  obtain ⟨data, hread⟩ := hdata binary.1 binary.2 rfl
  refine .run_ite (fun _ => .run_ret trivial) fun _ => ?_
  obtain ⟨hash, hhash, hbytes⟩ := (hoff 3).binary
  refine .run_access hhash ?_
  cases hash with
  | none => exact .run_ret trivial
  | some hash =>
  obtain ⟨bytes, hread'⟩ := hbytes hash.1 hash.2 rfl
  rw [writeData]
  refine .run_ite (fun _ => .run_ret trivial) fun hlen => ?_
  rw [not_not.mp hlen] at hread'
  refine .run_access hread (.run_access hread' ?_)
  refine .run_ite (fun _ => .run_ret trivial) fun _ => .run_ask ?_
  exact .run_ite (fun _ => .run_ret trivial) fun _ => .run_ret trivial

/-- **The gate**. The method returns, and the gate is kept. -/
theorem prog_write_gate (hparams : Contained params) (reply : σ → ProgSays → BitVec 32 × σ)
    (hblock : ∀ s area, IsBlockSize (reply s (.blksize area)).1) (s : σ) :
    ∃ errno s' log,
      (rubicAgentMethodProgWrite params).run (recording reply) (s, []) = some (errno, (s', log)) ∧
      GateKept params log errno := by
  obtain ⟨⟨errno, s', log⟩, hrun, -⟩ := progWrite_returns hparams (recording reply) (s, [])
  obtain ⟨log, rfl, htraces⟩ := Traces.of_run hrun
  refine ⟨errno, s', log, hrun, ?_⟩
  rcases traces_progWrite hparams htraces with ⟨herrno, hnone⟩ |
    ⟨area, blockSize, offset, data, result, rfl, hpasses, rfl, -⟩
  · exact .of_noWrite herrno hnone
  · obtain ⟨s, hsize⟩ := recorded_of_run hrun _ List.mem_cons_self
    have hsize : blockSize = (reply s (.blksize area)).1 := hsize
    exact .of_write (hpasses.gate (hsize ▸ hblock s area) List.mem_cons_self)

/-- With the programmer of `programmer.c`, the call is one that the method passes on there. -/
theorem writer_passedOn {flash : OnchipFlashDev} {l : List (ProgSays × BitVec 32)} {errno : ℤ}
    {area : CString} {offset result : BitVec 32} {data : Mem} (hparams : Contained params)
    (htraces : (rubicAgentMethodProgWrite params).Traces l errno)
    (hblock : ∀ area r, (.blksize area, r) ∈ l → r = progBlocksize flash area)
    (h : (.writer area offset data, result) ∈ l) :
    PassedOn flash (fun bytes => digestMd5Bytes (digestMd5Calc bytes bytes.length))
      (.write area offset data) := by
  rcases traces_progWrite hparams htraces with ⟨-, hnone⟩ |
    ⟨area', blockSize, offset', data', result', rfl, -, -, hpassed⟩
  · obtain ⟨_, heq⟩ := hnone _ h
    cases heq
  · rcases List.mem_cons.mp h with heq | heq
    · cases heq
    · cases List.mem_singleton.mp heq
      exact .inr ⟨params, hpassed flash (hblock _ _ List.mem_cons_self).symm⟩

end Run

/-- A request that passes: one byte for the area `ufm`, with its hash. -/
def oneByteRequest : List Element := [
  .mk keyArea (.string areaUfm.bytes),
  .mk keyOffset (.int32 0),
  .mk keyData (.binary 0 [0x61]),
  .mk keyHash (.binary 0 [0x0c, 0xc1, 0x75, 0xb9, 0xc0, 0xf1, 0xb6, 0xa8, 0x31, 0xc3, 0x99, 0xe2,
    0x69, 0x77, 0x26, 0x61])]

/-- A programmer with blocks of one byte. -/
def byteProgrammer : Unit → ProgSays → BitVec 32 × Unit
  | _, .blksize _ => (1, ())
  | _, .writer _ _ _ => (0, ())

theorem prog_write_gate_one_byte : ∃ errno s' log,
    (rubicAgentMethodProgWrite (encodeDocument oneByteRequest)).run (recording byteProgrammer)
      ((), []) = some (errno, (s', log)) ∧
    GateKept (encodeDocument oneByteRequest) log errno :=
  prog_write_gate
    ((isDocument_encodeDocument oneByteRequest (by decide)).contained (by decide)) byteProgrammer
    (fun _ _ => .inr ⟨0, rfl⟩) ()

end OlivePiccolo.RubicAgent
