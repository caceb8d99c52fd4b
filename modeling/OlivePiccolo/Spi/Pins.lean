import OlivePiccolo.Pfc.PerPin
import OlivePiccolo.Spi.Words

/-!
# The pin controller under the SPI master

What the calls of `peridot_spi_master_transfer` do to the four banks of the pin controller. At the
end of a transaction `transfer` drives the pin with the slave's number, with a map for the slave
selects or without one, and `peridot_pfc_interface_direct_output` writes 0 to all lower pins of the
bank. `undisturbed_iff` says in which runs nothing comes of it.
-/

namespace OlivePiccolo.Spi

open Dialog Pfc

/-! ## The banks -/

/-- The words of the four banks. -/
def PFC_SPAN : ℕ := 64

/-- The address of a register, which the driver counts in words from the base, lies in the banks.
Byte addresses have 32 bits. -/
def InSpan (address : BitVec 32) : Prop := (address <<< 2).toNat < PFC_SPAN

instance (address : BitVec 32) : Decidable (InSpan address) :=
  inferInstanceAs (Decidable (_ < _))

/-- What a word does to the banks. -/
def Said.toBanks (r : Banks) : Said → Banks
  | .selectOutput pin func =>
    if InSpan (OUTPUT (pin >>> 3)) then peridotPfcInterfaceSelectOutput r pin func else r
  | .directOutput pin value =>
    if InSpan (DIROUT (pin >>> 3)) then peridotPfcInterfaceDirectOutput r pin value else r
  | _ => r

/-- The banks after a trace. -/
def afterTrace (r : Banks) (l : List (Said × BitVec 32)) : Banks :=
  l.foldl (fun r x => x.1.toBanks r) r

/-- Only the words for the pin controller count. -/
theorem afterTrace_eq (r : Banks) (l : List (Said × BitVec 32)) :
    afterTrace r l = (pfcWords l).foldl Said.toBanks r := by
  unfold afterTrace
  induction l generalizing r with
  | nil => rfl
  | cons x l ih =>
    rw [List.foldl_cons, ih, pfcWords_cons]
    rcases x with ⟨word, answer⟩
    cases word <;> rfl

/-- The slave number of a pin. -/
theorem slave_pin (slave : BitVec 8) :
    (InSpan (OUTPUT (slave.signExtend 32 >>> 3)) ↔ slave.toNat < 32) ∧
    (InSpan (DIROUT (slave.signExtend 32 >>> 3)) ↔ slave.toNat < 32) ∧
    (slave.toNat < 32 → slave.signExtend 32 = BitVec.ofNat 32 slave.toNat) := by
  revert slave
  decide +kernel

section Words

variable (r : Banks) {slave : BitVec 8}

theorem toBanks_selectOutput (func : BitVec 32) (h : slave.toNat < 32) :
    (Said.selectOutput (slave.signExtend 32) func).toBanks r =
      r.call (.selectOutput ⟨slave.toNat, h⟩ func) := by
  obtain ⟨hspan, -, hpin⟩ := slave_pin slave
  rw [Said.toBanks, if_pos (hspan.mpr h), hpin h]
  rfl

theorem toBanks_directOutput (value : BitVec 32) (h : slave.toNat < 32) :
    (Said.directOutput (slave.signExtend 32) value).toBanks r =
      r.call (.directOutput ⟨slave.toNat, h⟩ value) := by
  obtain ⟨-, hspan, hpin⟩ := slave_pin slave
  rw [Said.toBanks, if_pos (hspan.mpr h), hpin h]
  rfl

/-- There is no pin with the number of the slave. -/
theorem toBanks_elsewhere (h : 32 ≤ slave.toNat) (x : BitVec 32) :
    (Said.selectOutput (slave.signExtend 32) x).toBanks r = r ∧
    (Said.directOutput (slave.signExtend 32) x).toBanks r = r := by
  obtain ⟨hout, hdir, -⟩ := slave_pin slave
  have hnot : ¬ slave.toNat < 32 := Nat.not_lt.mpr h
  constructor
  · rw [Said.toBanks, if_neg fun hspan => hnot (hout.mp hspan)]
  · rw [Said.toBanks, if_neg fun hspan => hnot (hdir.mp hspan)]

end Words

/-- The registers say no more than the pins and functions. -/
theorem view_injective {r r' : Banks} (h : r.view = r'.view) : r = r' := by
  have hword {w w' : BitVec 32} (hfield : ∀ i, field w i = field w' i) : w = w' := by
    apply BitVec.eq_of_getLsbD_eq
    intro i hi
    have hbit := congrArg (·.getLsbD (i % 4)) (hfield ⟨i / 4, by omega⟩)
    simp only [field, BitVec.getLsbD_extractLsb'] at hbit
    rwa [decide_eq_true (Nat.mod_lt i (by decide)), Bool.true_and, Bool.true_and,
      Nat.div_add_mod] at hbit
  have hpin (b : Fin 4) (i : Fin 8) : ∃ pin, bank pin = b ∧ place pin = i := by
    revert b i
    decide
  funext b
  have hvalue : (r b).pinDoutReg = (r' b).pinDoutReg := by
    apply BitVec.eq_of_getLsbD_eq
    intro i hi
    obtain ⟨pin, rfl, hplace⟩ := hpin b ⟨i, hi⟩
    have := congrFun (congrArg Pins.value h) pin
    unfold Banks.view at this
    dsimp only at this
    rwa [hplace] at this
  have hfunc : (r b).pinselReg = (r' b).pinselReg := by
    refine hword fun i => ?_
    obtain ⟨pin, rfl, rfl⟩ := hpin b i
    exact congrFun (congrArg Pins.func h) pin
  have hsource : (r b).funcselReg = (r' b).funcselReg :=
    hword fun i => congrFun (congrFun (congrArg Pins.source h) b) i
  cases hr : r b
  cases hr' : r' b
  rw [hr, hr'] at hvalue hfunc hsource
  dsimp only at hvalue hfunc hsource
  rw [hvalue, hfunc, hsource]

/-! ## What a call should change -/

/-- Only the value and function of one pin differ, if there is a pin with the number. -/
structure SameBut (number : ℕ) (s s' : Pins) : Prop where
  value : ∀ pin : Fin 32, pin.val ≠ number → s'.value pin = s.value pin
  func : ∀ pin : Fin 32, pin.val ≠ number → s'.func pin = s.func pin
  source : s'.source = s.source

theorem SameBut.refl (number : ℕ) (s : Pins) : SameBut number s s :=
  ⟨fun _ _ => rfl, fun _ _ => rfl, rfl⟩

/-- The driver and the pin controller. -/
structure Station where
  master : MasterState
  banks : Banks

/-- A call that has returned. -/
structure Done where
  call : Call
  fuel : ℕ
  log : List (Said × BitVec 32)
  outcome : Outcome

namespace Station

/-- The call has gone as the event has it. -/
def Happens (s : Station) (e : Done) : Prop :=
  (peridotSpiMasterTransfer s.master e.call e.fuel).Traces e.log e.outcome

def after (s : Station) (e : Done) : Station :=
  ⟨{ s.master with slaveLocked := e.outcome.slaveLocked }, afterTrace s.banks e.log⟩

def afterAll (s : Station) (es : List Done) : Station := es.foldl after s

/-- One call after the other. -/
def Runs (s : Station) : List Done → Prop
  | [] => True
  | e :: es => s.Happens e ∧ (s.after e).Runs es

/-- Without a map nothing changes; with one only the pin of the slave. -/
def Frames (s : Station) (e : Done) : Prop :=
  match s.master.ssNPfcMap with
  | none => (s.after e).banks = s.banks
  | some _ => SameBut e.call.slave.toNat s.banks.view (s.after e).banks.view

/-- In every state that is reached: without a map all registers are as at the beginning, with one
each call has changed no more than the value and function of its slave's pin. -/
def Undisturbed (s : Station) (es : List Done) : Prop :=
  (s.master.ssNPfcMap = none → ∀ done, done <+: es → (s.afterAll done).banks = s.banks) ∧
  (s.master.ssNPfcMap ≠ none → ∀ done e, done ++ [e] <+: es →
    SameBut e.call.slave.toNat (s.afterAll done).banks.view
      ((s.afterAll done).after e).banks.view)

/-- The call leaves no trace on other pins: it does not get to its release, or the slave has no pin,
or the lower pins of the bank are 0, and without a map the pin is already an output at 1. -/
def Spares (s : Station) (c : Call) : Prop :=
  s.master.Invalid c.slave ∨ s.master.Busy c.slave ∨ c.Merges ∨ 32 ≤ c.slave.toNat ∨
  ∃ h : c.slave.toNat < 32,
    (∀ pin < ⟨c.slave.toNat, h⟩, bank pin = bank ⟨c.slave.toNat, h⟩ →
      s.banks.view.value pin = false) ∧
    (s.master.ssNPfcMap = none → s.banks.view.value ⟨c.slave.toNat, h⟩ = true ∧
      s.banks.view.func ⟨c.slave.toNat, h⟩ = PERIDOT_PFC_OUTPUT_PINX_DOUT.setWidth 4)

/-- Every call of a run does so. -/
def AllSpare (s : Station) : List Done → Prop
  | [] => True
  | e :: es => s.Spares e.call ∧ (s.after e).AllSpare es

end Station

/-! ## A call -/

section Call

variable {r : Banks} {pin : Fin 32}

/-- What the release of a slave does to its pin and the lower ones. -/
theorem view_release :
    ((r.call (.directOutput pin 1)).call (.selectOutput pin PERIDOT_PFC_OUTPUT_PINX_DOUT)).view =
      { r.view with
        value := fun pin' =>
          if bank pin' = bank pin ∧ pin' < pin then false
          else Function.update r.view.value pin true pin'
        func := Function.update r.view.func pin (PERIDOT_PFC_OUTPUT_PINX_DOUT.setWidth 4) } := by
  rw [view_selectOutput, view_directOutput]
  rfl

/-- The registers stay if the pin is driven already, and the lower ones are 0. -/
theorem release_eq_iff :
    (r.call (.directOutput pin 1)).call (.selectOutput pin PERIDOT_PFC_OUTPUT_PINX_DOUT) = r ↔
      (∀ pin' < pin, bank pin' = bank pin → r.view.value pin' = false) ∧
      r.view.value pin = true ∧
      r.view.func pin = PERIDOT_PFC_OUTPUT_PINX_DOUT.setWidth 4 := by
  constructor
  · intro h
    have hview := congrArg Banks.view h
    rw [view_release] at hview
    have hvalue (pin' : Fin 32) := congrFun (congrArg Pins.value hview) pin'
    have hfunc := congrFun (congrArg Pins.func hview) pin
    dsimp only at hvalue hfunc
    refine ⟨fun pin' hlt hb => ?_, ?_, ?_⟩
    · have := hvalue pin'
      rw [if_pos ⟨hb, hlt⟩] at this
      exact this.symm
    · have := hvalue pin
      rw [if_neg fun hand => lt_irrefl _ hand.2, Function.update_self] at this
      exact this.symm
    · rw [Function.update_self] at hfunc
      exact hfunc.symm
  · rintro ⟨hlower, hvalue, hfunc⟩
    apply view_injective
    rw [view_release]
    apply Pins.ext
    · funext pin'
      dsimp only
      split_ifs with h
      · exact (hlower pin' h.2 h.1).symm
      · rw [← hvalue, Function.update_eq_self]
    · dsimp only
      rw [← hfunc, Function.update_eq_self]
    · rfl

/-- Selecting a function for the pin changes nothing else. -/
theorem sameBut_selectOutput (pin : Fin 32) (s : Pins) (func : BitVec 32) :
    SameBut pin s (s.call (.selectOutput pin func)) := by
  refine ⟨fun _ _ => rfl, fun pin' hne => ?_, rfl⟩
  exact Function.update_of_ne (fun h => hne (congrArg Fin.val h)) _ _

/-- With a map the release changes another pin only if it is a lower one at 1. -/
theorem sameBut_release_iff (s : Pins) (h : SameBut pin s r.view) (hvalue : r.view.value = s.value) :
    SameBut pin s ((r.call (.directOutput pin 1)).call
      (.selectOutput pin PERIDOT_PFC_OUTPUT_PINX_DOUT)).view ↔
    ∀ pin' < pin, bank pin' = bank pin → s.value pin' = false := by
  rw [view_release]
  constructor
  · intro hsame pin' hlt hb
    have := hsame.value pin' (Fin.val_ne_of_ne hlt.ne)
    dsimp only at this
    rw [if_pos ⟨hb, hlt⟩] at this
    exact this.symm
  · intro hlower
    refine ⟨fun pin' hne => ?_, fun pin' hne => ?_, h.source⟩
    · have hne' : pin' ≠ pin := fun heq => hne (congrArg Fin.val heq)
      dsimp only
      split_ifs with hb
      · exact (hlower pin' hb.2 hb.1).symm
      · rw [Function.update_of_ne hne', hvalue]
    · have hne' : pin' ≠ pin := fun heq => hne (congrArg Fin.val heq)
      dsimp only
      rw [Function.update_of_ne hne']
      exact h.func pin' hne

end Call

/-- The map lets in only slaves that have a pin. -/
theorem slave_lt_of_valid {sp : MasterState} {slave : BitVec 8} (hmap : sp.ssNPfcMap ≠ none)
    (hvalid : ¬ sp.Invalid slave) : slave.toNat < 32 := by
  obtain ⟨outFuncs, hfuncs⟩ := Option.ne_none_iff_exists'.mp hmap
  unfold MasterState.Invalid at hvalid
  rw [hfuncs] at hvalid
  by_contra hge
  refine hvalid (decide_eq_true (.inl ?_))
  revert hge
  clear hvalid
  revert slave
  decide +kernel

/-- **A call** leaves the pin controller alone, or changes its own pin only, exactly where it spares
the other pins. -/
theorem frames_iff {s : Station} {e : Done} (h : s.Happens e) : s.Frames e ↔ s.Spares e.call := by
  have hbanks : (s.after e).banks = (pfcWords e.log).foldl Said.toBanks s.banks :=
    afterTrace_eq s.banks e.log
  have hsame (hnone : (s.after e).banks = s.banks) : s.Frames e := by
    unfold Station.Frames
    rw [hnone]
    split
    · rfl
    · exact .refl _ _
  rcases pfcWords_transfer h with ⟨hinvalid, hwords, -⟩ | ⟨-, hbusy, hwords, -⟩ |
    ⟨hvalid, hfree, hwords, -⟩
  · exact iff_of_true (hsame (by rw [hbanks, hwords]; rfl)) (.inl hinvalid)
  · exact iff_of_true (hsame (by rw [hbanks, hwords]; rfl)) (.inr (.inl hbusy))
  rw [hwords] at hbanks
  unfold MasterState.connect Call.release at hbanks
  unfold Station.Frames Station.Spares
  rw [or_iff_right hvalid, or_iff_right hfree]
  cases hmap : s.master.ssNPfcMap with
  | none =>
    rw [hmap, List.nil_append] at hbanks
    dsimp only
    by_cases hmerges : e.call.Merges
    · rw [if_pos hmerges] at hbanks
      exact iff_of_true hbanks (.inl hmerges)
    rw [if_neg hmerges, List.foldl_cons, List.foldl_cons, List.foldl_nil] at hbanks
    rw [or_iff_right hmerges]
    by_cases hpin : e.call.slave.toNat < 32
    · rw [toBanks_directOutput _ _ hpin, toBanks_selectOutput _ _ hpin] at hbanks
      rw [hbanks, release_eq_iff, or_iff_right (Nat.not_le.mpr hpin)]
      constructor
      · exact fun hand => ⟨hpin, hand.1, fun _ => hand.2⟩
      · exact fun ⟨_, hlower, hdriven⟩ => ⟨hlower, hdriven rfl⟩
    · have hout := toBanks_elsewhere s.banks (Nat.not_lt.mp hpin)
      rw [(hout 1).2, (hout _).1] at hbanks
      exact iff_of_true hbanks (.inl (Nat.not_lt.mp hpin))
  | some outFuncs =>
    have hpin : e.call.slave.toNat < 32 := slave_lt_of_valid (by rw [hmap]; simp) hvalid
    rw [hmap] at hbanks
    dsimp only at hbanks ⊢
    have hslave : 0 ≤ e.call.slave.toInt := by
      rw [BitVec.toInt_eq_toNat_cond]
      omega
    rw [if_pos hslave, List.cons_append, List.nil_append, List.foldl_cons,
      toBanks_selectOutput _ _ hpin] at hbanks
    have hconnect := sameBut_selectOutput ⟨e.call.slave.toNat, hpin⟩ s.banks.view
      ((outFuncs[e.call.slave.toNat]?.getD 0).signExtend 32)
    rw [← view_selectOutput] at hconnect
    by_cases hmerges : e.call.Merges
    · rw [if_pos hmerges, List.foldl_nil] at hbanks
      rw [hbanks]
      exact iff_of_true hconnect (.inl hmerges)
    rw [if_neg hmerges, List.foldl_cons, List.foldl_cons, List.foldl_nil,
      toBanks_directOutput _ _ hpin, toBanks_selectOutput _ _ hpin] at hbanks
    have hvalue : (s.banks.call (.selectOutput ⟨e.call.slave.toNat, hpin⟩
        ((outFuncs[e.call.slave.toNat]?.getD 0).signExtend 32))).view.value =
        s.banks.view.value := by
      rw [view_selectOutput]
      rfl
    rw [hbanks, or_iff_right hmerges, or_iff_right (Nat.not_le.mpr hpin)]
    refine (sameBut_release_iff s.banks.view hconnect hvalue).trans ?_
    constructor
    · exact fun hlower => ⟨hpin, hlower, fun hnone => absurd hnone (by simp)⟩
    · exact fun ⟨_, hlower, _⟩ => hlower

/-! ## Runs -/

theorem undisturbed_nil (s : Station) : s.Undisturbed [] := by
  constructor
  · intro _ done hdone
    rw [List.prefix_nil.mp hdone]
    rfl
  · intro _ done e hdone
    exact absurd (List.prefix_nil.mp hdone) (by simp)

theorem undisturbed_cons (s : Station) (e : Done) (es : List Done) :
    s.Undisturbed (e :: es) ↔ s.Frames e ∧ (s.after e).Undisturbed es := by
  have hkeep : (s.after e).master.ssNPfcMap = s.master.ssNPfcMap := rfl
  unfold Station.Undisturbed Station.Frames
  rw [hkeep]
  cases hmap : s.master.ssNPfcMap with
  | none =>
    dsimp only
    constructor
    · rintro ⟨hnone, -⟩
      have hfirst : (s.after e).banks = s.banks := hnone rfl [e] ⟨es, rfl⟩
      refine ⟨hfirst, fun _ done hdone => ?_, fun h => absurd rfl h⟩
      rw [hfirst]
      exact hnone rfl (e :: done) ((List.prefix_cons_inj e).mpr hdone)
    · rintro ⟨hfirst, hrest, -⟩
      refine ⟨fun _ done hdone => ?_, fun h => absurd rfl h⟩
      cases done with
      | nil => rfl
      | cons e' done =>
        obtain ⟨rfl, hprefix⟩ := List.cons_prefix_cons.mp hdone
        exact (hrest rfl done hprefix).trans hfirst
  | some outFuncs =>
    dsimp only
    constructor
    · rintro ⟨-, hsome⟩
      refine ⟨hsome (by simp) [] e ⟨es, rfl⟩, fun h => absurd h (by simp), fun _ done e' hdone => ?_⟩
      exact hsome (by simp) (e :: done) e' ((List.prefix_cons_inj e).mpr hdone)
    · rintro ⟨hfirst, -, hrest⟩
      refine ⟨fun h => absurd h (by simp), fun _ done e' hdone => ?_⟩
      cases done with
      | nil =>
        obtain ⟨rfl, -⟩ := List.cons_prefix_cons.mp hdone
        exact hfirst
      | cons e'' done =>
        obtain ⟨rfl, hprefix⟩ := List.cons_prefix_cons.mp hdone
        exact hrest (by simp) done e' hprefix

/-- **The SPI master and the pins**: a run leaves the pin controller as it should in exactly those
cases where every call spares the other pins. -/
theorem undisturbed_iff {s : Station} {es : List Done} (h : s.Runs es) :
    s.Undisturbed es ↔ s.AllSpare es := by
  induction es generalizing s with
  | nil => exact iff_of_true (undisturbed_nil s) trivial
  | cons e es ih => rw [undisturbed_cons, frames_iff h.1, ih h.2, Station.AllSpare]

/-- A call without bytes for the slave of the flash. -/
def flashCall (flags : BitVec 32) : Done :=
  ⟨.empty 0 1 flags, 1, (Call.empty 0 1 flags).emptySaid,
    ⟨0, if (Call.empty 0 1 flags).Merges then 0 else -1, []⟩⟩

/-- A controller that is always ready, and has received 0x5a. -/
def readyController (_ : Unit) : Said → BitVec 32 × Unit
  | .iord _ => (ACCESS_RDY_MSK ||| 0x5a, ())
  | .semWait => (1, ())
  | _ => (0, ())

/-- A call with this controller. -/
def Station.called (s : Station) (c : Call) : Done :=
  let r := (peridotSpiMasterTransfer s.master c 1).run (recording readyController) ((), [])
  ⟨c, 1, (r.map (·.2.2)).getD [], (r.map (·.1)).getD ⟨0, 0, []⟩⟩

theorem Station.happens_called (s : Station) (c : Call) (h : ((peridotSpiMasterTransfer s.master c
    1).run (recording readyController) ((), [])).isSome) : s.Happens (s.called c) := by
  obtain ⟨⟨o, u, l⟩, hrun⟩ := Option.isSome_iff_exists.mp h
  obtain ⟨l', hl, htraces⟩ := Traces.of_run hrun
  rw [List.nil_append] at hl
  unfold Happens called
  rw [hrun, hl]
  exact htraces

/-- A station with a map for the slave selects, and pins 5 and 7 of each bank at 1. -/
def mapped : Station := ⟨⟨-1, some (Vector.replicate 32 2)⟩, fun _ => ⟨0xa0, 0x22221111, 0⟩⟩

/-- Two bytes for slave 3, of which one is answered. The slave select stays. -/
def writeTwo : Done := mapped.called ⟨3, 4, [0x9f, 0], 1, 1, MASTER_MERGE⟩

/-- A byte is read, and the slave is released. -/
def readRest : Done := (mapped.after writeTwo).called ⟨3, 4, [], 0, 1, 0⟩

/-- `undisturbed_iff` of a transaction in two calls. -/
theorem undisturbed_merged : mapped.Undisturbed [writeTwo, readRest] := by
  have hruns : mapped.Runs [writeTwo, readRest] :=
    ⟨mapped.happens_called _ (by decide), Station.happens_called _ _ (by decide), trivial⟩
  refine (undisturbed_iff hruns).mpr ⟨.inr (.inr (.inl (by decide))),
    .inr (.inr (.inr (.inr ⟨by decide, ?_, fun hnone => ?_⟩))), trivial⟩
  · decide +kernel
  · exact absurd hnone (by decide)

/-- Without a map a transaction with the flash, which has slave number 0, drives pin 0. -/
theorem flash_drives_pin0 : ¬ ∀ (s : Station) (es : List Done), s.Runs es → s.Undisturbed es := by
  intro h
  have hrun : Station.Runs ⟨⟨-1, none⟩, fun _ => ⟨0, 0, 0⟩⟩ [flashCall 0] :=
    ⟨traces_empty 0 1 0, trivial⟩
  have hpin := (h _ _ hrun).1 rfl [flashCall 0] (List.prefix_refl _)
  have hvalue := congrArg (fun r : Banks => (r 0).pinDoutReg) hpin
  revert hvalue
  decide +kernel

end OlivePiccolo.Spi
