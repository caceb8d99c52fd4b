import Mathlib.Data.List.GetD
import Mathlib.Tactic.SplitIfs
import OlivePiccolo.Spi.Transfer
import OlivePiccolo.Spi.Words

/-!
# The bytes of a transfer

Which bytes `transfer` shifts, and which it keeps, for any answers of the controller. The loops are
given once more with their two pointers, as the source has them, and with every access through
these pointers (`transferAt`); they do the same as `transfer` (`transferAt_eq`).
-/

namespace OlivePiccolo.Spi

open Dialog

/-! ## Reading a trace -/

/-- The bytes that have been shifted out. -/
def shiftedOut (l : List (Said × BitVec 32)) : List (BitVec 8) :=
  l.filterMap fun x =>
    match x.1 with
    | .iowr .access data => if data.getLsbD 9 then some (data.extractLsb' 0 8) else none
    | _ => none

/-- The bytes that the slave has returned: of each byte that was shifted, what the first read says
that finds the controller ready. `pending` if such a read is still to come. -/
def shiftedIn : Bool → List (Said × BitVec 32) → List (BitVec 8)
  | _, [] => []
  | pending, (.iowr .access data, _) :: l => shiftedIn (pending || data.getLsbD 9) l
  | pending, (.iord .access, resp) :: l =>
    if pending ∧ resp &&& ACCESS_RDY_MSK ≠ 0 then rxdata resp :: shiftedIn false l
    else shiftedIn pending l
  | pending, _ :: l => shiftedIn pending l

/-- A part of a trace shifts these bytes out and in, one after the other. -/
structure Shifts (l : List (Said × BitVec 32)) (out got : List (BitVec 8)) : Prop where
  out : shiftedOut l = out
  got : ∀ rest, shiftedIn false (l ++ rest) = got ++ shiftedIn false rest

namespace Shifts

variable {l l' : List (Said × BitVec 32)} {out got out' got' : List (BitVec 8)}

theorem nil : Shifts [] [] [] := ⟨rfl, fun _ => rfl⟩

theorem append (h : Shifts l out got) (h' : Shifts l' out' got') :
    Shifts (l ++ l') (out ++ out') (got ++ got') := by
  constructor
  · rw [← h.out, ← h'.out]
    exact List.filterMap_append
  · intro rest
    rw [List.append_assoc, h.got, h'.got, List.append_assoc]

theorem shiftedIn_eq (h : Shifts l out got) : shiftedIn false l = got := by
  have := h.got []
  rwa [List.append_nil, shiftedIn, List.append_nil] at this

/-- Words that are neither a start nor a read. -/
theorem word {x : Said} {r : BitVec 32} (hstart : ∀ data, x = .iowr .access data →
    data.getLsbD 9 = false) : Shifts [(x, r)] [] [] := by
  cases x with
  | iowr reg data =>
    cases reg with
    | access =>
      have hclear := hstart data rfl
      constructor
      · show List.filterMap _ [_] = []
        simp only [List.filterMap_cons, hclear, Bool.false_eq_true, if_false, List.filterMap_nil]
      · intro rest
        show shiftedIn (false || data.getLsbD 9) rest = shiftedIn false rest
        rw [hclear]
        rfl
    | config => exact ⟨rfl, fun _ => rfl⟩
  | iord reg =>
    cases reg with
    | access =>
      refine ⟨rfl, fun rest => ?_⟩
      show (if false = true ∧ _ then _ else _) = _
      rw [if_neg fun h => Bool.false_ne_true h.1]
      rfl
    | config => exact ⟨rfl, fun _ => rfl⟩
  | _ => exact ⟨rfl, fun _ => rfl⟩

end Shifts

/-! ## The loops -/

section Loops

variable {fuel : ℕ} {l : List (Said × BitVec 32)} {filler : BitVec 32}

theorem shifts_semWait (ht : (semWait fuel).Traces l ()) :
    shiftedOut l = [] ∧ ∀ pending rest, shiftedIn pending (l ++ rest) = shiftedIn pending rest := by
  induction fuel generalizing l with
  | zero => exact ht.elim
  | succ fuel ih =>
    obtain ⟨r, l', rfl, hnext⟩ := traces_ask.mp ht
    split_ifs at hnext
    · obtain ⟨hout, hin⟩ := ih hnext
      exact ⟨hout, hin⟩
    · obtain ⟨rfl, -⟩ := traces_pure.mp hnext
      exact ⟨rfl, fun _ _ => rfl⟩

theorem shifts_waitLoop {rounds : ℕ} {resp : BitVec 32}
    (ht : (waitLoop fuel rounds).Traces l resp) :
    shiftedOut l = [] ∧
      ∀ rest, shiftedIn true (l ++ rest) = rxdata resp :: shiftedIn false rest := by
  induction rounds generalizing l with
  | zero => exact ht.elim
  | succ rounds ih =>
    obtain ⟨l₁, l₂, _, rfl, hsem, hread⟩ := traces_bind.mp ht
    obtain ⟨r, l₃, rfl, hnext⟩ := traces_ask.mp hread
    obtain ⟨hout, hin⟩ := shifts_semWait hsem
    have houtput : shiftedOut (l₁ ++ (Said.iord .access, r) :: l₃) = shiftedOut l₃ := by
      have happend : shiftedOut (l₁ ++ (Said.iord .access, r) :: l₃) =
          shiftedOut l₁ ++ shiftedOut l₃ := List.filterMap_append
      rw [happend, hout, List.nil_append]
    rw [houtput]
    simp only [List.append_assoc, List.cons_append, hin, shiftedIn, true_and]
    by_cases hready : r &&& ACCESS_RDY_MSK = 0
    · rw [if_pos hready] at hnext
      simp only [hready, ne_eq, not_true_eq_false, if_false]
      exact ih hnext
    · rw [if_neg hready] at hnext
      obtain ⟨rfl, rfl⟩ := traces_pure.mp hnext
      simp only [hready, ne_eq, not_false_eq_true, if_true]
      exact ⟨rfl, fun _ => rfl⟩

/-- A byte goes out, and one comes in. -/
theorem shifts_shift {txdata resp : BitVec 32} (ht : (shift fuel txdata).Traces l resp) :
    Shifts l [txdata.setWidth 8] [rxdata resp] := by
  obtain ⟨_, _, rfl, hwait⟩ := traces_ask.mp ht
  obtain ⟨_, _, rfl, hloop⟩ := traces_ask.mp hwait
  obtain ⟨hout, hin⟩ := shifts_waitLoop hloop
  obtain ⟨hstart, -, -, hbyte⟩ := start_bits txdata
  constructor
  · show List.filterMap _ (_ :: _ :: _) = _
    rw [List.filterMap_cons, List.filterMap_cons]
    simp only [hstart, if_true, hbyte]
    exact congrArg _ hout
  · intro rest
    show shiftedIn (false || (start txdata).getLsbD 9) _ = _
    rw [hstart]
    exact hin rest

theorem shifts_skipLoop {readSkip : ℕ} (ht : (skipLoop fuel filler readSkip).Traces l ()) :
    ∃ got, got.length = readSkip ∧
      Shifts l (List.replicate readSkip (filler.setWidth 8)) got := by
  induction readSkip generalizing l with
  | zero =>
    obtain ⟨rfl, -⟩ := traces_pure.mp ht
    exact ⟨[], rfl, .nil⟩
  | succ readSkip ih =>
    obtain ⟨l₁, l₂, resp, rfl, hshift, hnext⟩ := traces_bind.mp ht
    obtain ⟨got, hlength, hgot⟩ := ih hnext
    refine ⟨rxdata resp :: got, congrArg (· + 1) hlength, ?_⟩
    exact (shifts_shift hshift).append hgot

theorem shifts_readLoop {readLength : ℕ} {readData readData' : List (BitVec 8)}
    (ht : (readLoop fuel filler readLength readData).Traces l readData') :
    ∃ got, got.length = readLength ∧ readData' = readData ++ got ∧
      Shifts l (List.replicate readLength (filler.setWidth 8)) got := by
  induction readLength generalizing l readData with
  | zero =>
    obtain ⟨rfl, rfl⟩ := traces_pure.mp ht
    exact ⟨[], rfl, (List.append_nil _).symm, .nil⟩
  | succ readLength ih =>
    obtain ⟨l₁, l₂, resp, rfl, hshift, hnext⟩ := traces_bind.mp ht
    obtain ⟨got, hlength, hdata, hgot⟩ := ih hnext
    refine ⟨rxdata resp :: got, congrArg (· + 1) hlength, ?_, (shifts_shift hshift).append hgot⟩
    rw [hdata, List.append_assoc]
    rfl

/-- While writing, the bytes that come in are skipped first and then kept. -/
theorem shifts_writeLoop {writeData readData readData' : List (BitVec 8)}
    {readSkip readLength readSkip' readLength' : ℕ}
    (ht : (writeLoop fuel writeData readSkip readLength readData).Traces l
      (readSkip', readLength', readData')) :
    ∃ got, got.length = writeData.length ∧ Shifts l writeData got ∧
      readSkip' = readSkip - writeData.length ∧
      readLength' = readLength - (writeData.length - readSkip) ∧
      readData' = readData ++ (got.drop readSkip).take readLength := by
  induction writeData generalizing l readSkip readLength readData with
  | nil =>
    obtain ⟨rfl, hresult⟩ := traces_pure.mp ht
    cases hresult
    refine ⟨[], rfl, .nil, rfl, ?_, ?_⟩
    · rw [List.length_nil, Nat.zero_sub, Nat.sub_zero]
    · rw [List.drop_nil, List.take_nil, List.append_nil]
  | cons byte writeData ih =>
    obtain ⟨l₁, l₂, resp, rfl, hshift, hnext⟩ := traces_bind.mp ht
    have hfirst := shifts_shift hshift
    have hbyte : (byte.setWidth 32).setWidth 8 = byte := by
      apply BitVec.eq_of_getLsbD_eq
      intro i hi
      simp [hi]
    rw [hbyte] at hfirst
    rw [List.length_cons]
    by_cases hskip : 0 < readSkip
    · rw [if_pos hskip] at hnext
      obtain ⟨got, hlength, hgot, hs, hl, hdata⟩ := ih hnext
      obtain ⟨n, rfl⟩ : ∃ n, readSkip = n + 1 := ⟨readSkip - 1, by omega⟩
      refine ⟨rxdata resp :: got, congrArg (· + 1) hlength, hfirst.append hgot, ?_, ?_, ?_⟩
      · omega
      · omega
      · rw [hdata, Nat.add_sub_cancel, List.drop_succ_cons]
    · obtain rfl : readSkip = 0 := Nat.eq_zero_of_not_pos hskip
      rw [if_neg hskip] at hnext
      by_cases hread : 0 < readLength
      · rw [if_pos hread] at hnext
        obtain ⟨got, hlength, hgot, hs, hl, hdata⟩ := ih hnext
        obtain ⟨n, rfl⟩ : ∃ n, readLength = n + 1 := ⟨readLength - 1, by omega⟩
        refine ⟨rxdata resp :: got, congrArg (· + 1) hlength, hfirst.append hgot, ?_, ?_, ?_⟩
        · omega
        · omega
        · rw [hdata, Nat.add_sub_cancel, List.drop_zero, List.drop_zero, List.take_succ_cons,
            List.append_assoc]
          rfl
      · rw [if_neg hread] at hnext
        obtain ⟨got, hlength, hgot, hs, hl, hdata⟩ := ih hnext
        obtain rfl : readLength = 0 := Nat.eq_zero_of_not_pos hread
        refine ⟨rxdata resp :: got, congrArg (· + 1) hlength, hfirst.append hgot, ?_, ?_, ?_⟩
        · omega
        · omega
        · rw [hdata, List.take_zero, List.take_zero]

theorem shifts_readyLoop (ht : (readyLoop fuel).Traces l ()) : Shifts l [] [] := by
  induction fuel generalizing l with
  | zero => exact ht.elim
  | succ fuel ih =>
    obtain ⟨r, l', rfl, hnext⟩ := traces_ask.mp ht
    have hread : Shifts [(Said.iord .access, r)] [] [] := .word fun _ h => by cases h
    split_ifs at hnext
    · exact hread.append (ih hnext)
    · obtain ⟨rfl, -⟩ := traces_pure.mp hnext
      exact hread

end Loops

/-! ## A call -/

section Call

variable {c : Call} {fuel : ℕ} {l : List (Said × BitVec 32)} {o : Outcome}

/-- What a call has shifted and kept. -/
structure Clocked (c : Call) (l : List (Said × BitVec 32)) (o : Outcome) : Prop where
  out : shiftedOut l = c.bytes
  count : (shiftedIn false l).length = c.count
  read : o.readData = ((shiftedIn false l).drop c.readSkip).take c.readLength

theorem Clocked.of_shifts {out got : List (BitVec 8)} (h : Shifts l out got) (hout : out = c.bytes)
    (hcount : got.length = c.count) (hread : o.readData = (got.drop c.readSkip).take c.readLength) :
    Clocked c l o := by
  have hgot := h.shiftedIn_eq
  exact ⟨h.out.trans hout, by rw [hgot]; exact hcount, by rw [hgot]; exact hread⟩

theorem shifts_shiftAll (ht : (c.shiftAll fuel).Traces l o) :
    ∃ got, Shifts l c.bytes got ∧ got.length = c.count ∧
      o.readData = (got.drop c.readSkip).take c.readLength := by
  obtain ⟨l₁, _, _, rfl, hready, ht₁⟩ := traces_bind.mp ht
  obtain ⟨r₁, _, rfl, ht₂⟩ := traces_ask.mp ht₁
  obtain ⟨r₂, _, rfl, ht₃⟩ := traces_ask.mp ht₂
  obtain ⟨l₂, _, ⟨readSkip, readLength, readData⟩, rfl, hwrite, ht₄⟩ := traces_bind.mp ht₃
  obtain ⟨l₃, _, _, rfl, hskip, ht₅⟩ := traces_bind.mp ht₄
  obtain ⟨l₄, l₅, readData', rfl, hread, ht₆⟩ := traces_bind.mp ht₅
  obtain ⟨got₂, hlen₂, h₂, rfl, rfl, rfl⟩ := shifts_writeLoop hwrite
  obtain ⟨got₃, hlen₃, h₃⟩ := shifts_skipLoop hskip
  obtain ⟨got₄, hlen₄, rfl, h₄⟩ := shifts_readLoop hread
  have hend : Shifts l₅ [] [] ∧
      o.readData = [] ++ (got₂.drop c.readSkip).take c.readLength ++ got₄ := by
    by_cases hmerges : c.Merges
    · rw [if_pos hmerges] at ht₆
      obtain ⟨rfl, rfl⟩ := traces_pure.mp ht₆
      exact ⟨.nil, rfl⟩
    · rw [if_neg hmerges] at ht₆
      obtain ⟨r₃, _, rfl, ht₇⟩ := traces_ask.mp ht₆
      obtain ⟨_, _, rfl, ht₈⟩ := traces_ask.mp ht₇
      obtain ⟨_, _, rfl, ht₉⟩ := traces_ask.mp ht₈
      obtain ⟨rfl, rfl⟩ := traces_pure.mp ht₉
      refine ⟨?_, rfl⟩
      have hrelease : Shifts [(Said.iowr .access 0, r₃)] [] [] := .word fun data h => by
        cases h
        rfl
      exact hrelease.append ((Shifts.word fun _ h => by cases h).append
        (.word fun _ h => by cases h))
  obtain ⟨h₅, hdata⟩ := hend
  have hconfig : Shifts [(Said.iowr .config c.config, r₁)] [] [] := .word fun _ h => by cases h
  have hselect : Shifts [(Said.iowr .access ACCESS_SS_MSK, r₂)] [] [] := .word fun data h => by
    cases h
    decide
  have hall := (shifts_readyLoop hready).append (hconfig.append (hselect.append
    (h₂.append (h₃.append (h₄.append h₅)))))
  rw [List.nil_append, List.nil_append, List.nil_append, List.nil_append, List.nil_append,
    List.nil_append, List.append_nil, List.append_nil] at hall
  refine ⟨got₂ ++ (got₃ ++ got₄), ?_, ?_, ?_⟩
  · have hbytes : c.bytes = c.writeData ++
        (List.replicate (c.readSkip - c.writeData.length) (c.filler.setWidth 8) ++
          List.replicate (c.readLength - (c.writeData.length - c.readSkip))
            (c.filler.setWidth 8)) := by
      rw [Call.bytes, Call.count, List.replicate_append_replicate]
      congr 2
      omega
    rw [hbytes]
    exact hall
  · rw [List.length_append, List.length_append, hlen₂, hlen₃, hlen₄, Call.count]
    omega
  · rw [hdata, List.nil_append]
    by_cases hover : c.writeData.length ≤ c.readSkip
    · -- all bytes that are kept come after the writing
      have hnone : got₂.drop c.readSkip = [] := List.drop_of_length_le (by omega)
      have hskipped : (got₂ ++ (got₃ ++ got₄)).drop c.readSkip = got₄ := by
        rw [← List.append_assoc]
        exact List.drop_left' (by rw [List.length_append]; omega)
      rw [hnone, hskipped, List.take_nil, List.nil_append, List.take_of_length_le (by omega)]
    · have hnothing : got₃ = [] := List.length_eq_zero_iff.mp (by omega)
      rw [hnothing, List.nil_append, List.drop_append_of_le_length (by omega)]
      by_cases hlate : c.readLength ≤ (got₂.drop c.readSkip).length
      · have hnone : got₄ = [] := by
          rw [List.length_drop] at hlate
          exact List.length_eq_zero_iff.mp (by omega)
        rw [hnone, List.append_nil, List.append_nil]
      · rw [List.length_drop] at hlate
        rw [List.take_of_length_le (by rw [List.length_drop]; omega), List.take_of_length_le]
        rw [List.length_append, List.length_drop, hlen₄]
        omega

/-- A call that is not refused shifts what it should, and keeps what it should. -/
theorem clocked_transfer {sp : MasterState} (ht : (peridotSpiMasterTransfer sp c fuel).Traces l o)
    (hresult : o.result = 0) : Clocked c l o := by
  unfold peridotSpiMasterTransfer at ht
  by_cases hvalid : sp.Invalid c.slave
  · rw [if_pos hvalid] at ht
    obtain ⟨-, rfl⟩ := traces_pure.mp ht
    exact absurd hresult (show -EINVAL ≠ 0 by decide)
  rw [if_neg hvalid] at ht
  obtain ⟨r₁, _, rfl, ht₁⟩ := traces_ask.mp ht
  obtain ⟨l₁, _, o', rfl, hbody, ht₂⟩ := traces_bind.mp ht₁
  obtain ⟨r₂, _, rfl, ht₃⟩ := traces_ask.mp ht₂
  obtain ⟨rfl, rfl⟩ := traces_pure.mp ht₃
  have hlock : Shifts [(Said.lock, r₁)] [] [] := .word fun _ h => by cases h
  have hunlock : Shifts [(Said.unlock, r₂)] [] [] := .word fun _ h => by cases h
  have hinside : ∀ {l₂ out got}, Shifts l₂ out got → l₁ = l₂ →
      Shifts ((Said.lock, r₁) :: (l₁ ++ [(Said.unlock, r₂)])) out got := by
    rintro l₂ out got h rfl
    have hall := hlock.append (h.append hunlock)
    rwa [List.append_nil, List.append_nil] at hall
  unfold transfer at hbody
  by_cases hbusy : sp.Busy c.slave
  · rw [if_pos hbusy] at hbody
    obtain ⟨-, rfl⟩ := traces_pure.mp hbody
    exact absurd hresult (show -EAGAIN ≠ 0 by decide)
  rw [if_neg hbusy] at hbody
  split at hbody
  · by_cases hslave : 0 ≤ c.slave.toInt
    · rw [if_pos hslave] at hbody
      obtain ⟨func, -, hselect⟩ := traces_access.mp hbody
      obtain ⟨r₃, _, rfl, hshift⟩ := traces_ask.mp hselect
      obtain ⟨got, h, hcount, hread⟩ := shifts_shiftAll hshift
      have hpin : Shifts [(Said.selectOutput (c.slave.signExtend 32) (func.signExtend 32), r₃)]
        [] [] := .word fun _ h => by cases h
      exact .of_shifts (hinside (hpin.append h) rfl) rfl hcount hread
    · rw [if_neg hslave] at hbody
      obtain ⟨got, h, hcount, hread⟩ := shifts_shiftAll hbody
      exact .of_shifts (hinside h rfl) rfl hcount hread
  · obtain ⟨got, h, hcount, hread⟩ := shifts_shiftAll hbody
    exact .of_shifts (hinside h rfl) rfl hcount hread

end Call

/-! ## With pointers -/

/-- Where `write_data` and `read_data` stand, and the accesses that have been made through them. -/
structure Pointers where
  writeData : ℕ
  readData : ℕ
  loads : List ℕ
  stores : List (ℕ × BitVec 8)
  deriving DecidableEq, Repr

/-- `*write_data++`. -/
def Pointers.load (p : Pointers) : Pointers :=
  { p with writeData := p.writeData + 1, loads := p.loads ++ [p.writeData] }

/-- `*read_data++ = byte`. -/
def Pointers.store (p : Pointers) (byte : BitVec 8) : Pointers :=
  { p with readData := p.readData + 1, stores := p.stores ++ [(p.readData, byte)] }

/-- The arguments of a call, with what is at `write_data`. -/
structure Arguments where
  slave : BitVec 8
  clkdiv : BitVec 32
  writeLength : ℕ
  writeData : ℕ → BitVec 8
  readSkip : ℕ
  readLength : ℕ
  flags : BitVec 32

/-- The call, with the bytes that it writes. -/
def Arguments.call (a : Arguments) : Call where
  slave := a.slave
  clkdiv := a.clkdiv
  writeData := (List.range a.writeLength).map a.writeData
  readSkip := a.readSkip
  readLength := a.readLength
  flags := a.flags

/-- What a call leaves: its result, `slave_locked` and the pointers. -/
structure OutcomeAt where
  result : ℤ
  slaveLocked : BitVec 8
  pointers : Pointers
  deriving DecidableEq, Repr

/-- The loop that writes. -/
def writeLoopAt (fuel : ℕ) (writeData : ℕ → BitVec 8) :
    ℕ → ℕ → ℕ → Pointers → Dialog Said (BitVec 32) (ℕ × ℕ × Pointers)
  | 0, readSkip, readLength, p => return (readSkip, readLength, p)
  | writeLength + 1, readSkip, readLength, p => do
    let resp ← shift fuel ((writeData p.writeData).setWidth 32)
    if 0 < readSkip then
      writeLoopAt fuel writeData writeLength (readSkip - 1) readLength p.load
    else if 0 < readLength then
      writeLoopAt fuel writeData writeLength readSkip (readLength - 1) (p.load.store (rxdata resp))
    else writeLoopAt fuel writeData writeLength readSkip readLength p.load

/-- The loop that reads. -/
def readLoopAt (fuel : ℕ) (filler : BitVec 32) :
    ℕ → Pointers → Dialog Said (BitVec 32) Pointers
  | 0, p => return p
  | readLength + 1, p => do
    let resp ← shift fuel filler
    readLoopAt fuel filler readLength (p.store (rxdata resp))

/-- From the wait for ready on. -/
def Arguments.shiftAllAt (a : Arguments) (fuel : ℕ) : Dialog Said (BitVec 32) OutcomeAt := do
  readyLoop fuel
  let _ ← ask (.iowr .config a.call.config)
  let _ ← ask (.iowr .access ACCESS_SS_MSK)
  let (readSkip, readLength, p) ←
    writeLoopAt fuel a.writeData a.writeLength a.readSkip a.readLength ⟨0, 0, [], []⟩
  skipLoop fuel a.call.filler readSkip
  let p ← readLoopAt fuel a.call.filler readLength p
  if a.call.Merges then return ⟨0, a.slave, p⟩
  else
    let _ ← ask (.iowr .access 0)
    let _ ← ask (.directOutput (a.slave.signExtend 32) 1)
    let _ ← ask (.selectOutput (a.slave.signExtend 32) PERIDOT_PFC_OUTPUT_PINX_DOUT)
    return ⟨0, -1, p⟩

/-- `transfer`. -/
def transferAt (sp : MasterState) (a : Arguments) (fuel : ℕ) :
    Dialog Said (BitVec 32) OutcomeAt :=
  if sp.Busy a.slave then return ⟨-EAGAIN, sp.slaveLocked, ⟨0, 0, [], []⟩⟩
  else
    match sp.ssNPfcMap with
    | some outFuncs =>
      if 0 ≤ a.slave.toInt then do
        let func ← access outFuncs[a.slave.toNat]?
        let _ ← ask (.selectOutput (a.slave.signExtend 32) (func.signExtend 32))
        a.shiftAllAt fuel
      else a.shiftAllAt fuel
    | none => a.shiftAllAt fuel

/-- `peridot_spi_master_transfer`. -/
def peridotSpiMasterTransferAt (sp : MasterState) (a : Arguments) (fuel : ℕ) :
    Dialog Said (BitVec 32) OutcomeAt :=
  if sp.Invalid a.slave then return ⟨-EINVAL, sp.slaveLocked, ⟨0, 0, [], []⟩⟩
  else do
    let _ ← ask .lock
    let outcome ← transferAt sp a fuel
    let _ ← ask .unlock
    return outcome

/-- The pointers after the first `n` bytes have been written and `data` has been stored. -/
def Pointers.after (n : ℕ) (data : List (BitVec 8)) : Pointers where
  writeData := n
  readData := data.length
  loads := List.range n
  stores := (List.range data.length).zip data

theorem Pointers.load_after (n : ℕ) (data : List (BitVec 8)) :
    (Pointers.after n data).load = .after (n + 1) data := by
  unfold Pointers.load Pointers.after
  rw [List.range_succ]

theorem Pointers.store_after (n : ℕ) (data : List (BitVec 8)) (byte : BitVec 8) :
    (Pointers.after n data).store byte = .after n (data ++ [byte]) := by
  unfold Pointers.store Pointers.after
  rw [List.length_append, List.length_singleton, List.range_succ,
    List.zip_append List.length_range]
  rfl

/-- What a call with pointers leaves, for what the call with lists leaves. A call that is refused has
written nothing. -/
def Outcome.at (o : Outcome) (writeLength : ℕ) : OutcomeAt :=
  ⟨o.result, o.slaveLocked, .after (if o.result = 0 then writeLength else 0) o.readData⟩

section Pointers

variable {fuel : ℕ} {a : Arguments}

theorem writeLoopAt_eq (writeData : ℕ → BitVec 8) (writeLength n readSkip readLength : ℕ)
    (data : List (BitVec 8)) :
    writeLoopAt fuel writeData writeLength readSkip readLength (.after n data) =
      (writeLoop fuel ((List.range' n writeLength).map writeData) readSkip readLength data >>=
        fun r => pure (r.1, r.2.1, .after (n + writeLength) r.2.2)) := by
  induction writeLength generalizing n readSkip readLength data with
  | zero => rfl
  | succ writeLength ih =>
    rw [List.range'_succ, List.map_cons, writeLoopAt, writeLoop, LawfulMonad.bind_assoc,
      Pointers.load_after, show n + (writeLength + 1) = n + 1 + writeLength by omega]
    refine bind_congr fun resp => ?_
    rw [Pointers.store_after]
    by_cases hskip : 0 < readSkip
    · rw [if_pos hskip, if_pos hskip]
      exact ih _ _ _ _
    · rw [if_neg hskip, if_neg hskip]
      by_cases hread : 0 < readLength
      · rw [if_pos hread, if_pos hread]
        exact ih _ _ _ _
      · rw [if_neg hread, if_neg hread]
        exact ih _ _ _ _

theorem readLoopAt_eq (filler : BitVec 32) (readLength n : ℕ) (data : List (BitVec 8)) :
    readLoopAt fuel filler readLength (.after n data) =
      (readLoop fuel filler readLength data >>= fun data' => pure (.after n data')) := by
  induction readLength generalizing data with
  | zero => rfl
  | succ readLength ih =>
    rw [readLoopAt, readLoop, LawfulMonad.bind_assoc]
    refine bind_congr fun resp => ?_
    rw [Pointers.store_after]
    exact ih _

theorem shiftAllAt_eq : a.shiftAllAt fuel =
    (a.call.shiftAll fuel >>= fun o => pure (o.at a.writeLength)) := by
  have hstart : (⟨0, 0, [], []⟩ : Pointers) = .after 0 [] := rfl
  have hdata : a.call.writeData = (List.range' 0 a.writeLength).map a.writeData := by
    rw [← List.range_eq_range']
    rfl
  unfold Arguments.shiftAllAt Call.shiftAll
  rw [hstart, writeLoopAt_eq, ← hdata, Nat.zero_add]
  simp only [LawfulMonad.bind_assoc, LawfulMonad.pure_bind, readLoopAt_eq]
  refine bind_congr fun _ => bind_congr fun _ => bind_congr fun _ => bind_congr fun r =>
    bind_congr fun _ => bind_congr fun data => ?_
  by_cases hmerges : a.call.Merges
  · rw [if_pos hmerges, if_pos hmerges]
    rfl
  · rw [if_neg hmerges, if_neg hmerges]
    rfl

theorem transferAt_eq (sp : MasterState) : transferAt sp a fuel =
    (transfer sp a.call fuel >>= fun o => pure (o.at a.writeLength)) := by
  unfold transferAt transfer
  rw [show a.call.slave = a.slave from rfl]
  by_cases hbusy : sp.Busy a.slave
  · rw [if_pos hbusy, if_pos hbusy]
    rfl
  rw [if_neg hbusy, if_neg hbusy]
  cases sp.ssNPfcMap with
  | none => exact shiftAllAt_eq
  | some outFuncs =>
    by_cases hselect : 0 ≤ a.slave.toInt
    · show (if 0 ≤ a.slave.toInt then _ else _) = (if 0 ≤ a.slave.toInt then _ else _) >>= _
      rw [if_pos hselect, if_pos hselect, LawfulMonad.bind_assoc]
      refine bind_congr fun func => ?_
      rw [LawfulMonad.bind_assoc]
      exact bind_congr fun _ => shiftAllAt_eq
    · show (if 0 ≤ a.slave.toInt then _ else _) = (if 0 ≤ a.slave.toInt then _ else _) >>= _
      rw [if_neg hselect, if_neg hselect]
      exact shiftAllAt_eq

/-- The call with pointers is the call with lists. -/
theorem peridotSpiMasterTransferAt_eq (sp : MasterState) : peridotSpiMasterTransferAt sp a fuel =
    (peridotSpiMasterTransfer sp a.call fuel >>= fun o => pure (o.at a.writeLength)) := by
  unfold peridotSpiMasterTransferAt peridotSpiMasterTransfer
  rw [show a.call.slave = a.slave from rfl, transferAt_eq]
  by_cases hvalid : sp.Invalid a.slave
  · rw [if_pos hvalid, if_pos hvalid]
    rfl
  · rw [if_neg hvalid, if_neg hvalid]
    simp only [LawfulMonad.bind_assoc, LawfulMonad.pure_bind]

/-- What a call with pointers shifts, stores and loads. -/
theorem transfer_clocks {sp : MasterState} {l : List (Said × BitVec 32)} {o : OutcomeAt}
    (ht : (peridotSpiMasterTransferAt sp a fuel).Traces l o) (hresult : o.result = 0) :
    let total := max a.writeLength (a.readSkip + a.readLength)
    shiftedOut l = (List.range a.writeLength).map a.writeData ++
      List.replicate (total - a.writeLength) (a.flags.setWidth 8) ∧
    (shiftedIn false l).length = total ∧
    o.pointers.stores = (List.range a.readLength).map
      (fun i => (i, (shiftedIn false l).getD (a.readSkip + i) 0)) ∧
    o.pointers.loads = List.range a.writeLength := by
  rw [peridotSpiMasterTransferAt_eq] at ht
  obtain ⟨l₁, _, o', rfl, htransfer, hend⟩ := traces_bind.mp ht
  obtain ⟨rfl, rfl⟩ := traces_pure.mp hend
  rw [List.append_nil]
  have hresult' : o'.result = 0 := hresult
  obtain ⟨hout, hcount, hread⟩ := clocked_transfer htransfer hresult'
  have hlength : a.call.writeData.length = a.writeLength := by
    rw [Arguments.call, List.length_map, List.length_range]
  have htotal : a.call.count = max a.writeLength (a.readSkip + a.readLength) := by
    rw [Call.count, hlength]
    rfl
  have hfiller : a.call.filler.setWidth 8 = a.flags.setWidth 8 := by
    apply BitVec.eq_of_toNat_eq
    show (a.flags.toNat &&& (2 ^ 8 - 1)) % 2 ^ 8 = a.flags.toNat % 2 ^ 8
    rw [Nat.and_two_pow_sub_one_eq_mod, Nat.mod_mod]
  refine ⟨?_, hcount.trans htotal, ?_, ?_⟩
  · rw [hout, Call.bytes, htotal, hlength, hfiller]
    rfl
  · show (List.range o'.readData.length).zip o'.readData = _
    have hlen : o'.readData.length = a.readLength := by
      have hall : a.readSkip + a.readLength ≤ (shiftedIn false l₁).length := by
        rw [hcount, htotal]
        exact le_max_right _ _
      rw [hread, List.length_take, List.length_drop]
      exact Nat.min_eq_left (Nat.le_sub_of_add_le (Nat.add_comm _ _ ▸ hall))
    rw [hlen]
    refine List.ext_getElem ?_ fun i hi hi' => ?_
    · rw [List.length_zip, List.length_range, List.length_map, List.length_range, hlen]
      exact Nat.min_self _
    · simp only [hread, List.getElem_zip, List.getElem_range, List.getElem_take, List.getElem_drop,
        List.getElem_map]
      rw [List.length_map, List.length_range] at hi'
      have hin : a.readSkip + i < (shiftedIn false l₁).length := by
        rw [hcount, htotal]
        exact Nat.lt_of_lt_of_le (Nat.add_lt_add_left hi' _) (Nat.le_max_right _ _)
      exact Prod.ext rfl (List.getD_eq_getElem _ _ hin).symm
  · show List.range (if o'.result = 0 then _ else _) = _
    rw [if_pos hresult']

end Pointers

/-- One byte is written, two are read, the slave select stays. -/
def Arguments.one : Arguments := ⟨0, 0, 1, fun _ => 0x9f, 0, 2, 0x4ff⟩

def Arguments.oneSaid : List (Said × BitVec 32) :=
  [(.lock, 0), (.iord .access, ACCESS_RDY_MSK), (.iowr .config Arguments.one.call.config, 0),
    (.iowr .access ACCESS_SS_MSK, 0)] ++ (exchangeSaid (start 0x9f) 0x212 ++
      (exchangeSaid (start 0xff) 0x234 ++ [(.unlock, 0)]))

theorem transfer_clocks_one :
    shiftedOut Arguments.oneSaid = [0x9f, 0xff] ∧
    shiftedIn false Arguments.oneSaid = [0x12, 0x34] ∧
    ∃ o : OutcomeAt, o.result = 0 ∧ o.pointers.stores = [(0, 0x12), (1, 0x34)] := by
  have ht : (peridotSpiMasterTransferAt ⟨-1, none⟩ .one 1).Traces Arguments.oneSaid
      ⟨0, 0, ⟨1, 2, [0], [(0, 0x12), (1, 0x34)]⟩⟩ := by
    have hready : (readyLoop 1).Traces [(.iord .access, ACCESS_RDY_MSK)] () :=
      traces_ask.mpr ⟨_, _, rfl, by rw [if_neg (by decide)]; exact ⟨rfl, rfl⟩⟩
    refine traces_ask.mpr ⟨_, _, rfl, traces_bind.mpr ⟨[(.iord .access, ACCESS_RDY_MSK),
      (.iowr .config Arguments.one.call.config, 0), (.iowr .access ACCESS_SS_MSK, 0)] ++
      (exchangeSaid (start 0x9f) 0x212 ++ exchangeSaid (start 0xff) 0x234), [(.unlock, 0)], _, rfl,
      ?_,
      traces_ask.mpr ⟨_, _, rfl, rfl, rfl⟩⟩⟩
    show (Arguments.one.shiftAllAt 1).Traces _ _
    refine traces_bind.mpr ⟨[(.iord .access, ACCESS_RDY_MSK)], _, (), rfl, hready, ?_⟩
    refine traces_ask.mpr ⟨_, _, rfl, traces_ask.mpr ⟨_, _, rfl, ?_⟩⟩
    refine traces_bind.mpr ⟨exchangeSaid (start 0x9f) 0x212, _, (0, 1, ⟨1, 1, [0], [(0, 0x12)]⟩),
      rfl, ?_, ?_⟩
    · exact traces_bind.mpr ⟨_, [], 0x212, (List.append_nil _).symm, traces_exchange (by decide),
        rfl, rfl⟩
    refine traces_bind.mpr ⟨[], exchangeSaid (start 0xff) 0x234, (), rfl, ⟨rfl, rfl⟩, ?_⟩
    refine traces_bind.mpr ⟨exchangeSaid (start 0xff) 0x234, [],
      ⟨1, 2, [0], [(0, 0x12), (1, 0x34)]⟩, (List.append_nil _).symm, ?_, rfl, rfl⟩
    exact traces_bind.mpr ⟨_, [], 0x234, (List.append_nil _).symm, traces_exchange (by decide),
      rfl, rfl⟩
  obtain ⟨hout, -, hstores, -⟩ := transfer_clocks ht rfl
  exact ⟨hout.trans (by decide), rfl, _, rfl, hstores⟩

end OlivePiccolo.Spi
