import OlivePiccolo.Library.Trace
import OlivePiccolo.Spi.Master

/-!
# What a call says

The loops of a call only read and write the access register and wait (`Said.Inner`). Around them a
call writes the config register once, and gives the pin controller at most three words, all for the
slave's own number (`pfcWords_transfer`).
-/

namespace OlivePiccolo.Spi

open Dialog

/-! ## The loops -/

/-- The words that the loops say. -/
def Said.Inner : Said → Prop
  | .iord _ => True
  | .iowr .access _ => True
  | .irqEnable => True
  | .semWait => True
  | _ => False

section Inner

variable {fuel : ℕ} {A : BitVec 32 → Prop}

theorem inner_semWait : (semWait fuel).Every A Said.Inner fun _ => True := by
  induction fuel with
  | zero => trivial
  | succ fuel ih => exact .ask trivial fun _ _ => .ite (fun _ => ih) fun _ => trivial

theorem inner_waitLoop (rounds : ℕ) :
    (waitLoop fuel rounds).Every A Said.Inner fun _ => True := by
  induction rounds with
  | zero => trivial
  | succ rounds ih =>
    refine .bind inner_semWait fun _ _ => .ask trivial fun _ _ => ?_
    exact .ite (fun _ => ih) fun _ => trivial

theorem inner_shift (txdata : BitVec 32) :
    (shift fuel txdata).Every A Said.Inner fun _ => True :=
  .ask trivial fun _ _ => .ask trivial fun _ _ => inner_waitLoop fuel

theorem inner_writeLoop (writeData : List (BitVec 8)) (readSkip readLength : ℕ)
    (readData : List (BitVec 8)) :
    (writeLoop fuel writeData readSkip readLength readData).Every A Said.Inner
      fun _ => True := by
  induction writeData generalizing readSkip readLength readData with
  | nil => trivial
  | cons byte writeData ih =>
    exact .bind (inner_shift _) fun _ _ => .ite (fun _ => ih _ _ _) fun _ =>
      .ite (fun _ => ih _ _ _) fun _ => ih _ _ _

theorem inner_skipLoop (filler : BitVec 32) (readSkip : ℕ) :
    (skipLoop fuel filler readSkip).Every A Said.Inner fun _ => True := by
  induction readSkip with
  | zero => trivial
  | succ readSkip ih => exact .bind (inner_shift _) fun _ _ => ih

theorem inner_readLoop (filler : BitVec 32) (readLength : ℕ) (readData : List (BitVec 8)) :
    (readLoop fuel filler readLength readData).Every A Said.Inner fun _ => True := by
  induction readLength generalizing readData with
  | zero => trivial
  | succ readLength ih => exact .bind (inner_shift _) fun _ _ => ih _

theorem inner_readyLoop : (readyLoop fuel).Every A Said.Inner fun _ => True := by
  induction fuel with
  | zero => trivial
  | succ fuel ih => exact .ask trivial fun _ _ => .ite (fun _ => ih) fun _ => trivial

end Inner

/-! ## The config register -/

/-- Only this word is written to the config register. -/
def Said.Configures (config : BitVec 32) (x : Said) : Prop :=
  ∀ data, x = .iowr .config data → data = config

theorem Said.Inner.configures {x : Said} (h : x.Inner) (config : BitVec 32) :
    x.Configures config := by
  rintro data rfl
  exact h.elim

section Config

variable {c : Call} {fuel : ℕ}

theorem configures_shiftAll :
    (c.shiftAll fuel).Every (fun _ => True) (Said.Configures c.config) fun _ => True := by
  have hinner {α : Type} {d : Dialog Said (BitVec 32) α}
      (h : d.Every (fun _ => True) Said.Inner fun _ => True) :
      d.Every (fun _ => True) (Said.Configures c.config) fun _ => True :=
    h.mono (fun _ hx => hx.configures _) fun _ h => h
  refine .bind (hinner inner_readyLoop) fun _ _ => .ask (fun data h => ?_) fun _ _ => ?_
  · cases h
    rfl
  refine .ask (fun _ h => by cases h) fun _ _ => .bind (hinner (inner_writeLoop _ _ _ _)) ?_
  intro r _
  refine .bind (hinner (inner_skipLoop _ _)) fun _ _ => .bind (hinner (inner_readLoop _ _ _)) ?_
  intro _ _
  refine .ite (fun _ => trivial) fun _ => ?_
  exact .ask (fun _ h => by cases h) fun _ _ => .ask (fun _ h => by cases h) fun _ _ =>
    .ask (fun _ h => by cases h) fun _ _ => trivial

/-- A call writes nothing else to the config register. -/
theorem configures_transfer (sp : MasterState) :
    (peridotSpiMasterTransfer sp c fuel).Every (fun _ => True) (Said.Configures c.config)
      fun _ => True := by
  unfold peridotSpiMasterTransfer
  refine .ite (fun _ => trivial) fun _ => .ask (fun _ h => by cases h) fun _ _ => ?_
  refine .bind (Q := fun _ => True) ?_ fun _ _ => .ask (fun _ h => by cases h) fun _ _ => trivial
  unfold transfer
  refine .ite (fun _ => trivial) fun _ => ?_
  split
  · refine .ite (fun _ => ?_) fun _ => configures_shiftAll
    exact .access fun _ _ => .ask (fun _ h => by cases h) fun _ _ => configures_shiftAll
  · exact configures_shiftAll

end Config

/-! ## The pin controller -/

/-- A word for the pin controller. -/
def Said.isPfc : Said → Bool
  | .selectOutput _ _ => true
  | .directOutput _ _ => true
  | _ => false

theorem Said.Inner.isPfc_eq {x : Said} (h : x.Inner) : x.isPfc = false := by
  cases x with
  | selectOutput pin func => exact h.elim
  | directOutput pin value => exact h.elim
  | _ => rfl

/-- The words of a trace for the pin controller. -/
def pfcWords {ω : Type*} (l : List (Said × ω)) : List Said := (l.map Prod.fst).filter Said.isPfc

section Pfc

variable {ω : Type*} {c : Call} {fuel : ℕ} {l : List (Said × BitVec 32)} {o : Outcome}

@[simp] theorem pfcWords_nil : pfcWords ([] : List (Said × ω)) = [] := rfl

@[simp] theorem pfcWords_cons (x : Said × ω) (l : List (Said × ω)) :
    pfcWords (x :: l) = if x.1.isPfc then x.1 :: pfcWords l else pfcWords l := by
  unfold pfcWords
  rw [List.map_cons, List.filter_cons]

@[simp] theorem pfcWords_append (l l' : List (Said × ω)) :
    pfcWords (l ++ l') = pfcWords l ++ pfcWords l' := by
  unfold pfcWords
  rw [List.map_append, List.filter_append]

/-- The loops leave the pin controller alone. -/
theorem pfcWords_inner {α : Type} {d : Dialog Said (BitVec 32) α} {a : α}
    (h : d.Every (fun _ => True) Said.Inner fun _ => True) (ht : d.Traces l a) :
    pfcWords l = [] := by
  have hinner := (h.of_traces (fun _ _ => trivial) ht).1
  unfold pfcWords
  rw [List.filter_eq_nil_iff]
  intro x hx
  obtain ⟨y, hy, rfl⟩ := List.mem_map.mp hx
  rw [(hinner y hy).isPfc_eq]
  exact Bool.false_ne_true

/-- What a call gives the pin controller at its end. -/
def Call.release (c : Call) : List Said :=
  if c.Merges then []
  else [.directOutput (c.slave.signExtend 32) 1,
    .selectOutput (c.slave.signExtend 32) PERIDOT_PFC_OUTPUT_PINX_DOUT]

theorem pfcWords_shiftAll (ht : (c.shiftAll fuel).Traces l o) :
    pfcWords l = c.release ∧ o.slaveLocked = (if c.Merges then c.slave else -1) ∧ o.result = 0 := by
  obtain ⟨l₁, _, _, rfl, hready, ht₁⟩ := traces_bind.mp ht
  obtain ⟨_, _, rfl, ht₂⟩ := traces_ask.mp ht₁
  obtain ⟨_, _, rfl, ht₃⟩ := traces_ask.mp ht₂
  obtain ⟨l₂, _, r, rfl, hwrite, ht₄⟩ := traces_bind.mp ht₃
  obtain ⟨l₃, _, _, rfl, hskip, ht₅⟩ := traces_bind.mp ht₄
  obtain ⟨l₄, _, readData, rfl, hread, ht₆⟩ := traces_bind.mp ht₅
  have hinner : pfcWords l₁ = [] ∧ pfcWords l₂ = [] ∧ pfcWords l₃ = [] ∧ pfcWords l₄ = [] :=
    ⟨pfcWords_inner inner_readyLoop hready, pfcWords_inner (inner_writeLoop _ _ _ _) hwrite,
      pfcWords_inner (inner_skipLoop _ _) hskip, pfcWords_inner (inner_readLoop _ _ _) hread⟩
  obtain ⟨h₁, h₂, h₃, h₄⟩ := hinner
  unfold Call.release
  by_cases hmerge : c.Merges
  · rw [if_pos hmerge] at ht₆
    obtain ⟨rfl, rfl⟩ := traces_pure.mp ht₆
    rw [if_pos hmerge, if_pos hmerge]
    simp [h₁, h₂, h₃, h₄, Said.isPfc]
  · rw [if_neg hmerge] at ht₆
    obtain ⟨_, _, rfl, ht₇⟩ := traces_ask.mp ht₆
    obtain ⟨_, _, rfl, ht₈⟩ := traces_ask.mp ht₇
    obtain ⟨_, _, rfl, ht₉⟩ := traces_ask.mp ht₈
    obtain ⟨rfl, rfl⟩ := traces_pure.mp ht₉
    rw [if_neg hmerge, if_neg hmerge]
    simp [h₁, h₂, h₃, h₄, Said.isPfc]

/-- What a call gives the pin controller at its beginning. -/
def MasterState.connect (sp : MasterState) (c : Call) : List Said :=
  match sp.ssNPfcMap with
  | some outFuncs =>
    if 0 ≤ c.slave.toInt then
      [.selectOutput (c.slave.signExtend 32) ((outFuncs[c.slave.toNat]?.getD 0).signExtend 32)]
    else []
  | none => []

theorem pfcWords_transfer {sp : MasterState}
    (ht : (peridotSpiMasterTransfer sp c fuel).Traces l o) :
    (sp.Invalid c.slave ∧ pfcWords l = [] ∧ o = ⟨-EINVAL, sp.slaveLocked, []⟩) ∨
    (¬ sp.Invalid c.slave ∧ sp.Busy c.slave ∧ pfcWords l = [] ∧
      o = ⟨-EAGAIN, sp.slaveLocked, []⟩) ∨
    (¬ sp.Invalid c.slave ∧ ¬ sp.Busy c.slave ∧ pfcWords l = sp.connect c ++ c.release ∧
      o.slaveLocked = (if c.Merges then c.slave else -1) ∧ o.result = 0) := by
  unfold peridotSpiMasterTransfer at ht
  by_cases hvalid : sp.Invalid c.slave
  · rw [if_pos hvalid] at ht
    obtain ⟨rfl, rfl⟩ := traces_pure.mp ht
    exact .inl ⟨hvalid, rfl, rfl⟩
  rw [if_neg hvalid] at ht
  obtain ⟨_, _, rfl, ht₁⟩ := traces_ask.mp ht
  obtain ⟨l₁, _, o', rfl, hbody, ht₂⟩ := traces_bind.mp ht₁
  obtain ⟨_, _, rfl, ht₃⟩ := traces_ask.mp ht₂
  obtain ⟨rfl, rfl⟩ := traces_pure.mp ht₃
  have hwords : ∀ x y, pfcWords ((Said.lock, x) :: (l₁ ++ [(Said.unlock, y)])) = pfcWords l₁ := by
    intro x y
    simp [Said.isPfc]
  rw [hwords]
  unfold transfer at hbody
  by_cases hbusy : sp.Busy c.slave
  · rw [if_pos hbusy] at hbody
    obtain ⟨rfl, rfl⟩ := traces_pure.mp hbody
    exact .inr (.inl ⟨hvalid, hbusy, rfl, rfl⟩)
  rw [if_neg hbusy] at hbody
  refine .inr (.inr ⟨hvalid, hbusy, ?_⟩)
  unfold MasterState.connect
  cases hmap : sp.ssNPfcMap with
  | some outFuncs =>
    rw [hmap] at hbody
    dsimp only at hbody
    by_cases hslave : 0 ≤ c.slave.toInt
    · rw [if_pos hslave] at hbody
      obtain ⟨func, hfunc, hselect⟩ := traces_access.mp hbody
      obtain ⟨_, _, rfl, hshift⟩ := traces_ask.mp hselect
      obtain ⟨hpfc, hlocked⟩ := pfcWords_shiftAll hshift
      simp [hslave, hfunc, hpfc, hlocked, Said.isPfc]
    · rw [if_neg hslave] at hbody
      obtain ⟨hpfc, hlocked⟩ := pfcWords_shiftAll hbody
      simp [hslave, hpfc, hlocked]
  | none =>
    rw [hmap] at hbody
    obtain ⟨hpfc, hlocked⟩ := pfcWords_shiftAll hbody
    simp [hpfc, hlocked]

end Pfc

/-! ## A controller that is done at once -/

/-- What is said for a word to the access register, and answered at once. -/
def exchangeSaid (data resp : BitVec 32) : List (Said × BitVec 32) :=
  [(.iowr .access data, 0), (.irqEnable, 0), (.semWait, 1), (.iord .access, resp)]

theorem traces_exchange {data resp : BitVec 32} (hready : resp &&& ACCESS_RDY_MSK ≠ 0) :
    (ask (.iowr .access data) >>= fun _ => wait 1).Traces (exchangeSaid data resp) resp := by
  have hread : (ask (.iord .access) >>= fun resp =>
      if resp &&& ACCESS_RDY_MSK = 0 then waitLoop 1 0 else pure resp).Traces
        [(.iord .access, resp)] resp :=
    traces_ask.mpr ⟨_, _, rfl, by rw [if_neg hready]; exact ⟨rfl, rfl⟩⟩
  refine traces_ask.mpr ⟨_, _, rfl, traces_ask.mpr ⟨_, _, rfl, ?_⟩⟩
  refine traces_bind.mpr ⟨[(.semWait, 1)], _, (), rfl, ?_, hread⟩
  exact traces_ask.mpr ⟨_, _, rfl, by rw [if_neg (by decide)]; exact ⟨rfl, rfl⟩⟩

/-! ## A call that shifts nothing -/

/-- A call without bytes. -/
def Call.empty (slave : BitVec 8) (clkdiv flags : BitVec 32) : Call :=
  ⟨slave, clkdiv, [], 0, 0, flags⟩

/-- What a call says at its end. -/
def Call.endSaid (c : Call) : List (Said × BitVec 32) :=
  if c.Merges then []
  else [(.iowr .access 0, 0), (.directOutput (c.slave.signExtend 32) 1, 0),
    (.selectOutput (c.slave.signExtend 32) PERIDOT_PFC_OUTPUT_PINX_DOUT, 0)]

/-- What a call without bytes says to a controller that is ready at once. -/
def Call.emptySaid (c : Call) : List (Said × BitVec 32) :=
  [(.lock, 0), (.iord .access, ACCESS_RDY_MSK), (.iowr .config c.config, 0),
    (.iowr .access ACCESS_SS_MSK, 0)] ++ c.endSaid ++ [(.unlock, 0)]

theorem traces_empty (slave : BitVec 8) (clkdiv flags : BitVec 32) :
    (peridotSpiMasterTransfer ⟨-1, none⟩ (.empty slave clkdiv flags) 1).Traces
      (Call.empty slave clkdiv flags).emptySaid
      ⟨0, if (Call.empty slave clkdiv flags).Merges then slave else -1, []⟩ := by
  have hvalid : ¬ MasterState.Invalid ⟨-1, none⟩ (Call.empty slave clkdiv flags).slave :=
    Bool.false_ne_true
  have hfree : ¬ MasterState.Busy ⟨-1, none⟩ (Call.empty slave clkdiv flags).slave :=
    fun h => absurd h.1 (by decide)
  have hready : (readyLoop 1).Traces [(.iord .access, ACCESS_RDY_MSK)] () :=
    traces_ask.mpr ⟨_, _, rfl, by rw [if_neg (by decide)]; exact ⟨rfl, rfl⟩⟩
  rw [peridotSpiMasterTransfer, if_neg hvalid, transfer, if_neg hfree, Call.emptySaid]
  refine traces_ask.mpr ⟨_, _, rfl, traces_bind.mpr ⟨_, [(.unlock, 0)], _, rfl, ?_,
    traces_ask.mpr ⟨_, _, rfl, rfl, rfl⟩⟩⟩
  refine traces_bind.mpr ⟨[(.iord .access, ACCESS_RDY_MSK)], _, (), rfl, hready, ?_⟩
  refine traces_ask.mpr ⟨_, _, rfl, traces_ask.mpr ⟨_, _, rfl, ?_⟩⟩
  refine traces_bind.mpr ⟨[], _, (0, 0, []), rfl, ⟨rfl, rfl⟩, ?_⟩
  refine traces_bind.mpr ⟨[], _, (), rfl, ⟨rfl, rfl⟩, ?_⟩
  refine traces_bind.mpr ⟨[], _, [], rfl, ⟨rfl, rfl⟩, ?_⟩
  show Traces _ (Call.empty slave clkdiv flags).endSaid _
  unfold Call.endSaid
  by_cases hmerges : (Call.empty slave clkdiv flags).Merges
  · rw [if_pos hmerges, if_pos hmerges, if_pos hmerges]
    exact ⟨rfl, rfl⟩
  · rw [if_neg hmerges, if_neg hmerges, if_neg hmerges]
    exact ⟨rfl, rfl, rfl, rfl, rfl⟩

end OlivePiccolo.Spi
