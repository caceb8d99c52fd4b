import Mathlib.Algebra.Ring.Parity
import Mathlib.Tactic.SplitIfs
import OlivePiccolo.Spi.Master

/-!
# The SPI controller

`peridot_csr_spi.v`, clock by clock, with an ideal slave at its wires. The slave sees every edge of
the clock and answers at once. A byte is 16 half periods; `Exchanging` says what the registers and
the slave hold in each of them, in every mode.
-/

namespace OlivePiccolo.Spi

/-! ## The controller -/

/-- `state_reg`. -/
inductive State
  | idle
  | entry
  | sdi
  | sdo
  | done
  deriving DecidableEq, Repr

/-- The registers of `peridot_csr_spi`. -/
structure Controller where
  stateReg : State
  divcount : BitVec 8
  bitcount : BitVec 3
  sclkReg : Bool
  txbyteReg : BitVec 8
  rxbyteReg : BitVec 8
  bitrvsReg : Bool
  modeReg : BitVec 2
  divrefReg : BitVec 8
  irqenaReg : Bool
  readyReg : Bool
  ssoReg : Bool

namespace Controller

/-- A byte in the order of the wire. -/
def ordered (bitrvs : Bool) (byte : BitVec 8) : BitVec 8 := if bitrvs then byte.reverse else byte

/-- `ins_irq`. -/
def irq (s : Controller) : Bool := s.irqenaReg && s.readyReg

/-- `avs_readdata`. -/
def readdata (s : Controller) : Register → BitVec 32
  | .access =>
    .cast rfl (0#16 ++ BitVec.ofBool s.irqenaReg ++ 0#5 ++ BitVec.ofBool s.readyReg ++
      BitVec.ofBool s.ssoReg ++ ordered s.bitrvsReg s.rxbyteReg)
  | .config =>
    .cast rfl (0#16 ++ BitVec.ofBool s.bitrvsReg ++ 0#1 ++ s.modeReg ++ 0#4 ++ s.divrefReg)

/-- A write while the controller is idle. -/
def write (s : Controller) (reg : Register) (writedata : BitVec 32) : Controller :=
  match reg with
  | .access =>
    let s := if writedata.getLsbD 9 then
        { s with
          stateReg := if s.modeReg.getLsbD 0 = false then .sdi else .entry
          readyReg := false
          bitcount := 0
          divcount := s.divrefReg }
      else s
    { s with
      irqenaReg := writedata.getLsbD 15
      ssoReg := writedata.getLsbD 8
      sclkReg := s.modeReg.getLsbD 1
      txbyteReg := ordered s.bitrvsReg (writedata.extractLsb' 0 8) }
  | .config =>
    { s with
      bitrvsReg := writedata.getLsbD 15
      modeReg := writedata.extractLsb' 12 2
      divrefReg := writedata.extractLsb' 0 8 }

/-- The end of a half period. -/
def toggle (s : Controller) (sdi : Bool) : Controller :=
  match s.stateReg with
  | .idle => s
  | .entry =>
    { s with
      stateReg := .sdi
      divcount := s.divrefReg
      sclkReg := !s.sclkReg }
  | .sdi =>
    { s with
      stateReg := if s.modeReg.getLsbD 0 ∧ s.bitcount = 7 then .done else .sdo
      bitcount := if s.modeReg.getLsbD 0 then s.bitcount + 1 else s.bitcount
      divcount := s.divrefReg
      sclkReg := !s.sclkReg
      rxbyteReg := s.rxbyteReg.extractLsb' 0 7 ++ BitVec.ofBool sdi }
  | .sdo =>
    { s with
      stateReg := if s.modeReg.getLsbD 0 = false ∧ s.bitcount = 7 then .done else .sdi
      bitcount := if s.modeReg.getLsbD 0 = false then s.bitcount + 1 else s.bitcount
      divcount := s.divrefReg
      sclkReg := !s.sclkReg
      txbyteReg := s.txbyteReg.extractLsb' 0 7 ++ 0#1 }
  | .done =>
    { s with
      stateReg := .idle
      readyReg := true }

/-- A clock, with what the bus writes and `spi_miso`. -/
def clock (s : Controller) (avsWrite : Option (Register × BitVec 32)) (spiMiso : Bool) :
    Controller :=
  if s.stateReg = .idle then
    match avsWrite with
    | some (reg, writedata) => s.write reg writedata
    | none => s
  else if s.divcount = 0 then s.toggle spiMiso
  else { s with divcount := s.divcount - 1 }

end Controller

/-- `spi_ss_n`, `spi_sclk` and `spi_mosi`. -/
structure Wires where
  ssN : Bool
  sclk : Bool
  mosi : Bool

def Controller.wires (s : Controller) : Wires := ⟨!s.ssoReg, s.sclkReg, s.txbyteReg.getLsbD 7⟩

/-! ## An ideal slave -/

/-- How a slave takes and gives bytes. -/
structure Protocol where
  mode : BitVec 2
  lsbfirst : Bool
  deriving DecidableEq

namespace Protocol

/-- The clock is high between the bytes. -/
def cpol (p : Protocol) : Bool := p.mode.getLsbD 1

/-- Bits are taken at the second edge. -/
def cpha (p : Protocol) : Bool := p.mode.getLsbD 0

/-- The bit of a byte that goes over the wire as number `k`. -/
def bit (p : Protocol) (byte : BitVec 8) (k : ℕ) : Bool :=
  if p.lsbfirst then byte.getLsbD k else byte.getMsbD k

/-- A byte as it goes over the wire. -/
def bits (p : Protocol) (byte : BitVec 8) : List Bool := (List.range 8).map (p.bit byte)

end Protocol

/-- What a slave has seen since it was selected: edges away from the idle level of the clock and
back, and the bits it has taken. -/
structure Slave where
  leading : ℕ
  trailing : ℕ
  samples : List Bool

namespace Protocol

/-- The slave at a change of the wires. -/
def see (p : Protocol) (s : Slave) (before after : Wires) : Slave :=
  if after.ssN then s
  else if before.ssN then ⟨0, 0, []⟩
  else if after.sclk = before.sclk then s
  else if after.sclk = p.cpol then
    { s with
      trailing := s.trailing + 1
      samples := if p.cpha then s.samples ++ [before.mosi] else s.samples }
  else
    { s with
      leading := s.leading + 1
      samples := if p.cpha then s.samples else s.samples ++ [before.mosi] }

/-- The bit that the slave gives: one after the other, changed at the edges where none is taken. -/
def miso (p : Protocol) (out : ℕ → BitVec 8) (s : Slave) : Bool :=
  let n := if p.cpha then s.leading - 1 else s.trailing
  p.bit (out (n / 8)) (n % 8)

end Protocol

/-! ## A byte -/

/-- The controller in the half period `k` of a byte; after the last one it is done. -/
def stateAt (cpha : Bool) (k : ℕ) : State :=
  if k = 16 then .done
  else if cpha then (if k = 0 then .entry else if k % 2 = 1 then .sdi else .sdo)
  else if k % 2 = 0 then .sdi else .sdo

/-- The bits that have been taken before the half period `k`. -/
def sampled (cpha : Bool) (k : ℕ) : ℕ := if cpha then k / 2 else (k + 1) / 2

/-- How often `txbyte_reg` has been shifted before the half period `k`. -/
def shifted (cpha : Bool) (k : ℕ) : ℕ := if cpha then (k - 1) / 2 else k / 2

/-- The half period `k` of the exchange of a byte with a slave that has had `m` bytes before. -/
structure Exchanging (p : Protocol) (out : ℕ → BitVec 8) (byte : BitVec 8) (m : ℕ)
    (before : List Bool) (k : ℕ) (hw : Controller) (slave : Slave) : Prop where
  state : hw.stateReg = stateAt p.cpha k
  mode : hw.modeReg = p.mode
  count : hw.bitcount = BitVec.ofNat 3 (k / 2)
  sclk : hw.sclkReg = (p.cpol ^^ decide (k % 2 = 1))
  tx : ∀ i, hw.txbyteReg.getMsbD i = byte.getMsbD (i + shifted p.cpha k)
  rx : ∀ i < sampled p.cpha k,
    hw.rxbyteReg.getLsbD (sampled p.cpha k - 1 - i) = p.bit (out m) i
  selected : hw.ssoReg = true
  busy : hw.readyReg = false
  leading : slave.leading = 8 * m + (k + 1) / 2
  trailing : slave.trailing = 8 * m + k / 2
  samples : slave.samples = before ++ (List.range (sampled p.cpha k)).map byte.getMsbD

section Exchange

variable {p : Protocol} {out : ℕ → BitVec 8} {byte : BitVec 8} {m k : ℕ} {before : List Bool}
  {hw : Controller} {slave : Slave}

theorem Protocol.see_of_eq (s : Slave) {w w' : Wires} (hss : w'.ssN = w.ssN)
    (hsclk : w'.sclk = w.sclk) : p.see s w w' = s := by
  rw [see, hss, if_pos hsclk]
  cases w.ssN <;> rfl

/-- The edge from the idle level of the clock. -/
theorem Protocol.see_leading (s : Slave) {w w' : Wires} (hss : w.ssN = false)
    (hss' : w'.ssN = false) (hsclk : w.sclk = p.cpol) (hsclk' : w'.sclk = !w.sclk) :
    p.see s w w' = ⟨s.leading + 1, s.trailing,
      if p.cpha then s.samples else s.samples ++ [w.mosi]⟩ := by
  rw [see, hss, hss', hsclk', hsclk]
  cases p.cpol <;> rfl

/-- The edge back to it. -/
theorem Protocol.see_trailing (s : Slave) {w w' : Wires} (hss : w.ssN = false)
    (hss' : w'.ssN = false) (hsclk : w.sclk = !p.cpol) (hsclk' : w'.sclk = !w.sclk) :
    p.see s w w' = ⟨s.leading, s.trailing + 1,
      if p.cpha then s.samples ++ [w.mosi] else s.samples⟩ := by
  rw [see, hss, hss', hsclk', hsclk]
  cases p.cpol <;> rfl

theorem stateAt_ne_idle (cpha : Bool) (k : ℕ) : stateAt cpha k ≠ .idle := by
  unfold stateAt
  split_ifs <;> decide

theorem getLsbD_shiftIn (x : BitVec 8) (b : Bool) (i : ℕ) :
    (x.extractLsb' 0 7 ++ BitVec.ofBool b).getLsbD i =
      if i = 0 then b else decide (i < 8) && x.getLsbD (i - 1) := by
  rw [BitVec.getLsbD_append, BitVec.getLsbD_ofBool, BitVec.getLsbD_extractLsb', Nat.zero_add]
  by_cases hi : i = 0
  · simp [hi]
  · have hone : ¬ i < 1 := by omega
    have hseven : i - 1 < 7 ↔ i < 8 := by omega
    simp [hi, hone, hseven]

theorem getMsbD_shiftOut (x : BitVec 8) (i : ℕ) :
    (x.extractLsb' 0 7 ++ 0#1).getMsbD i = x.getMsbD (i + 1) := by
  rw [BitVec.getMsbD_eq_getLsbD, BitVec.getMsbD_eq_getLsbD,
    show (0#1) = BitVec.ofBool false from rfl, getLsbD_shiftIn]
  by_cases hi : i < 7
  · have hne : 8 - 1 - i ≠ 0 := by omega
    have hlt : i < 8 ∧ i + 1 < 8 ∧ 8 - 1 - i < 8 := by omega
    simp [hlt, hne]
    congr 1
    omega
  · have hlast : 8 - 1 - i = 0 := by omega
    have hge : ¬ i + 1 < 8 := by omega
    simp [hlast, hge]

theorem count_eq_seven {j : ℕ} (hj : j < 8) : BitVec.ofNat 3 j = 7 ↔ j = 7 := by
  rw [← BitVec.toNat_inj, BitVec.toNat_ofNat, show (7 : BitVec 3).toNat = 7 from rfl]
  omega

theorem Exchanging.hold (h : Exchanging p out byte m before k hw slave) (hcount : hw.divcount ≠ 0)
    (sdi : Bool) : hw.clock none sdi = { hw with divcount := hw.divcount - 1 } := by
  rw [Controller.clock, if_neg (h.state ▸ stateAt_ne_idle _ _), if_neg hcount]

theorem Exchanging.of_divcount (h : Exchanging p out byte m before k hw slave) (n : BitVec 8) :
    Exchanging p out byte m before k { hw with divcount := n } slave :=
  ⟨h.state, h.mode, h.count, h.sclk, h.tx, h.rx, h.selected, h.busy, h.leading, h.trailing,
    h.samples⟩

/-- The bit on the wires in the half period `k`. -/
theorem Exchanging.mosi (h : Exchanging p out byte m before k hw slave) :
    hw.wires.mosi = byte.getMsbD (shifted p.cpha k) := by
  have htx := h.tx 0
  rwa [Nat.zero_add, BitVec.getMsbD_eq_getLsbD] at htx

/-- The clock of the wires in the half period `k`. -/
theorem Exchanging.sclk_even (h : Exchanging p out byte m before k hw slave) (hk : k % 2 = 0) :
    hw.wires.sclk = p.cpol := by
  have hsclk := h.sclk
  rw [hk] at hsclk
  rw [Controller.wires, hsclk]
  exact Bool.xor_false _

theorem Exchanging.sclk_odd (h : Exchanging p out byte m before k hw slave) (hk : k % 2 = 1) :
    hw.wires.sclk = !p.cpol := by
  have hsclk := h.sclk
  rw [hk] at hsclk
  rw [Controller.wires, hsclk]
  exact Bool.xor_true _

theorem sclk_succ (cpol : Bool) (k : ℕ) :
    (!(cpol ^^ decide (k % 2 = 1))) = (cpol ^^ decide ((k + 1) % 2 = 1)) := by
  rcases Nat.mod_two_eq_zero_or_one k with hk | hk
  · rw [hk, show (k + 1) % 2 = 1 by omega]
    cases cpol <;> rfl
  · rw [hk, show (k + 1) % 2 = 0 by omega]
    cases cpol <;> rfl

/-- The slave at the end of the half period `k`. -/
theorem Exchanging.see_toggle (h : Exchanging p out byte m before k hw slave) {hw' : Controller}
    (hsso : hw'.ssoReg = true) (hsclk : hw'.sclkReg = !hw.sclkReg) :
    p.see slave hw.wires hw'.wires =
      ⟨8 * m + (k + 1 + 1) / 2, 8 * m + (k + 1) / 2,
        if p.cpha = decide (k % 2 = 1) then
          slave.samples ++ [byte.getMsbD (shifted p.cpha k)] else slave.samples⟩ := by
  have hss : hw.wires.ssN = false := by rw [Controller.wires, h.selected]; rfl
  have hss' : hw'.wires.ssN = false := by rw [Controller.wires, hsso]; rfl
  rcases Nat.mod_two_eq_zero_or_one k with hk | hk
  · rw [Protocol.see_leading slave hss hss' (h.sclk_even hk) hsclk, h.leading, h.trailing, h.mosi,
      hk, show 8 * m + (k + 1) / 2 + 1 = 8 * m + (k + 1 + 1) / 2 by omega,
      show 8 * m + k / 2 = 8 * m + (k + 1) / 2 by omega]
    cases p.cpha <;> rfl
  · rw [Protocol.see_trailing slave hss hss' (h.sclk_odd hk) hsclk, h.leading, h.trailing, h.mosi,
      hk, show 8 * m + k / 2 + 1 = 8 * m + (k + 1) / 2 by omega,
      show 8 * m + (k + 1) / 2 = 8 * m + (k + 1 + 1) / 2 by omega]
    cases p.cpha <;> rfl

/-- The end of a half period in which both sides take a bit. -/
theorem Exchanging.take {j : ℕ} (h : Exchanging p out byte m before k hw slave) (hj : j < 8)
    (hk : k = 2 * j + p.cpha.toNat) :
    Exchanging p out byte m before (k + 1) (hw.toggle (p.miso out slave))
      (p.see slave hw.wires (hw.toggle (p.miso out slave)).wires) := by
  have hsampled : sampled p.cpha k = j ∧ sampled p.cpha (k + 1) = j + 1 := by
    subst hk
    unfold sampled
    cases p.cpha <;> simp <;> omega
  have hshifted : shifted p.cpha k = j ∧ shifted p.cpha (k + 1) = j := by
    subst hk
    unfold shifted
    cases p.cpha <;> simp <;> omega
  have hstate : hw.stateReg = .sdi := by
    rw [h.state, stateAt, hk]
    cases p.cpha <;> simp <;> omega
  have hcpha : hw.modeReg.getLsbD 0 = p.cpha := congrArg (·.getLsbD 0) h.mode
  have hcount : hw.bitcount = BitVec.ofNat 3 j := by
    rw [h.count, hk]
    congr 1
    cases p.cpha
    · simp
    · simp
      omega
  have hmiso : p.miso out slave = p.bit (out m) j := by
    rw [Protocol.miso, h.leading, h.trailing, hk]
    cases p.cpha
    · simp
      congr 2 <;> omega
    · simp
      congr 2 <;> omega
  have hsee : p.see slave hw.wires (hw.toggle (p.miso out slave)).wires = _ :=
    h.see_toggle (by rw [Controller.toggle, hstate]; exact h.selected)
      (by rw [Controller.toggle, hstate])
  have htaken : p.cpha = decide (k % 2 = 1) := by
    rw [hk]
    cases p.cpha <;> simp
  rw [hsee, hmiso, if_pos htaken, Controller.toggle, hstate, hshifted.1]
  refine ⟨?_, h.mode, ?_, ?_, ?_, fun i hi => ?_, h.selected, h.busy, rfl, rfl, ?_⟩
  · show (if hw.modeReg.getLsbD 0 ∧ hw.bitcount = 7 then State.done else .sdo) =
      stateAt p.cpha (k + 1)
    simp only [hcpha, hcount, count_eq_seven hj]
    rw [stateAt, hk]
    cases p.cpha
    · simp
      omega
    · simp
      split_ifs <;> first | rfl | omega
  · show (if hw.modeReg.getLsbD 0 then hw.bitcount + 1 else hw.bitcount) = _
    rw [hcpha, hcount, hk]
    cases p.cpha
    · simp
      congr 1
      omega
    · show BitVec.ofNat 3 j + 1 = BitVec.ofNat 3 ((2 * j + 1 + 1) / 2)
      rw [show (2 * j + 1 + 1) / 2 = j + 1 by omega, BitVec.ofNat_add]
      rfl
  · rw [← sclk_succ, ← h.sclk]
  · rw [hshifted.2, ← hshifted.1]
    exact h.tx
  · show (hw.rxbyteReg.extractLsb' 0 7 ++ BitVec.ofBool (p.bit (out m) j)).getLsbD
      (sampled p.cpha (k + 1) - 1 - i) = p.bit (out m) i
    rw [hsampled.2] at hi ⊢
    rw [getLsbD_shiftIn]
    by_cases hlast : i = j
    · rw [if_pos (by omega), hlast]
    · have hrx := h.rx i (by rw [hsampled.1]; omega)
      rw [hsampled.1] at hrx
      rw [if_neg (by omega), decide_eq_true (by omega), Bool.true_and,
        show j + 1 - 1 - i - 1 = j - 1 - i by omega, hrx]
  · rw [h.samples, hsampled.1, hsampled.2, List.range_succ, List.map_append, List.append_assoc]
    rfl

/-- The end of a half period in which the other bits come up. -/
theorem Exchanging.give {j : ℕ} (h : Exchanging p out byte m before k hw slave) (hj : k < 16)
    (hk : k = 2 * j + 1 + p.cpha.toNat) (sdi : Bool) :
    Exchanging p out byte m before (k + 1) (hw.toggle sdi)
      (p.see slave hw.wires (hw.toggle sdi).wires) := by
  have hsampled : sampled p.cpha k = j + 1 ∧ sampled p.cpha (k + 1) = j + 1 := by
    subst hk
    unfold sampled
    cases p.cpha <;> simp <;> omega
  have hshifted : shifted p.cpha k = j ∧ shifted p.cpha (k + 1) = j + 1 := by
    subst hk
    unfold shifted
    cases p.cpha <;> simp <;> omega
  have hstate : hw.stateReg = .sdo := by
    rw [h.state, stateAt, if_neg (by omega), hk]
    cases p.cpha
    · simp
    · simp
      omega
  have hcpha : hw.modeReg.getLsbD 0 = p.cpha := congrArg (·.getLsbD 0) h.mode
  have hsee : p.see slave hw.wires (hw.toggle sdi).wires = _ :=
    h.see_toggle (by rw [Controller.toggle, hstate]; exact h.selected)
      (by rw [Controller.toggle, hstate])
  have htaken : p.cpha ≠ decide (k % 2 = 1) := by
    rw [hk]
    cases p.cpha
    · simp
    · simp
      omega
  rw [hsee, if_neg htaken, Controller.toggle, hstate]
  refine ⟨?_, h.mode, ?_, ?_, fun i => ?_, fun i hi => ?_, h.selected, h.busy, rfl, rfl, ?_⟩
  · show (if hw.modeReg.getLsbD 0 = false ∧ hw.bitcount = 7 then State.done else .sdi) =
      stateAt p.cpha (k + 1)
    simp only [hcpha, h.count, count_eq_seven (show k / 2 < 8 by omega)]
    rw [stateAt, hk]
    cases p.cpha
    · simp
      split_ifs <;> first | rfl | omega
    · simp
      rw [if_neg (by omega), if_pos (by omega)]
  · show (if hw.modeReg.getLsbD 0 = false then hw.bitcount + 1 else hw.bitcount) = _
    rw [hcpha, h.count, hk]
    cases p.cpha
    · show BitVec.ofNat 3 ((2 * j + 1) / 2) + 1 = BitVec.ofNat 3 ((2 * j + 1 + 1) / 2)
      rw [show (2 * j + 1 + 1) / 2 = (2 * j + 1) / 2 + 1 by omega, BitVec.ofNat_add]
      rfl
    · show BitVec.ofNat 3 ((2 * j + 1 + 1) / 2) = BitVec.ofNat 3 ((2 * j + 1 + 1 + 1) / 2)
      rw [show (2 * j + 1 + 1 + 1) / 2 = (2 * j + 1 + 1) / 2 by omega]
  · rw [← sclk_succ, ← h.sclk]
  · rw [getMsbD_shiftOut, h.tx, hshifted.1, hshifted.2, Nat.add_assoc, Nat.add_comm 1]
  · rw [hsampled.2, ← hsampled.1] at hi ⊢
    exact h.rx i hi
  · rw [h.samples, hsampled.1, hsampled.2]

/-- The end of the half period in front of the first edge. -/
theorem Exchanging.enter (h : Exchanging p out byte m before 0 hw slave) (hcpha : p.cpha = true)
    (sdi : Bool) :
    Exchanging p out byte m before 1 (hw.toggle sdi)
      (p.see slave hw.wires (hw.toggle sdi).wires) := by
  have hstate : hw.stateReg = .entry := by rw [h.state, hcpha]; rfl
  have hsee : p.see slave hw.wires (hw.toggle sdi).wires = _ :=
    h.see_toggle (by rw [Controller.toggle, hstate]; exact h.selected)
      (by rw [Controller.toggle, hstate])
  rw [hsee, hcpha, if_neg (by decide), Controller.toggle, hstate]
  refine ⟨by rw [hcpha]; rfl, h.mode, h.count, ?_, ?_, ?_, h.selected, h.busy, rfl, rfl, ?_⟩
  · rw [← sclk_succ, ← h.sclk]
  · have htx := h.tx
    rw [hcpha] at htx ⊢
    exact htx
  · have hrx := h.rx
    rw [hcpha] at hrx ⊢
    exact hrx
  · rw [h.samples, hcpha]
    rfl

theorem Exchanging.toggle (h : Exchanging p out byte m before k hw slave) (hk : k < 16) :
    Exchanging p out byte m before (k + 1) (hw.toggle (p.miso out slave))
      (p.see slave hw.wires (hw.toggle (p.miso out slave)).wires) := by
  cases hcpha : p.cpha with
  | false =>
    rcases Nat.even_or_odd' k with ⟨j, hj | hj⟩
    · exact h.take (show j < 8 by omega) (by rw [hcpha]; exact hj)
    · exact h.give hk (show k = 2 * j + 1 + p.cpha.toNat by rw [hcpha]; exact hj) _
  | true =>
    rcases Nat.even_or_odd' k with ⟨j, hj | hj⟩
    · obtain rfl | ⟨i, rfl⟩ : j = 0 ∨ ∃ i, j = i + 1 := by
        cases j
        exacts [.inl rfl, .inr ⟨_, rfl⟩]
      · subst hj
        exact h.enter hcpha _
      · exact h.give hk (show k = 2 * i + 1 + p.cpha.toNat by rw [hcpha, hj]; rfl) _
    · exact h.take (show j < 8 by omega) (by rw [hcpha]; exact hj)

end Exchange

end OlivePiccolo.Spi
