import OlivePiccolo.Spi.Controller

/-!
# The driver at the controller

The driver's accesses reach the controller after any number of clocks; the interrupt posts the
semaphore as soon as it is there. What the driver shifts is one byte in each direction.
-/

namespace OlivePiccolo.Spi

open Dialog

/-! ## The bench -/

/-- The controller, the slave, and what the interrupt works on. -/
structure Board where
  hw : Controller
  slave : Slave
  irqEnabled : Bool
  done : ℕ
  /-- The accesses so far. -/
  time : ℕ

/-- How the slave works, the bytes that it gives, and how many clocks there are in front of an
access. -/
structure Bench where
  protocol : Protocol
  out : ℕ → BitVec 8
  idle : ℕ → ℕ

namespace Bench

/-- A clock, and `peridot_spi_master_irq` if its interrupt is there. -/
def clock (e : Bench) (w : Board) (avsWrite : Option (Register × BitVec 32)) : Board :=
  let hw := w.hw.clock avsWrite (e.protocol.miso e.out w.slave)
  { hw := hw
    slave := e.protocol.see w.slave w.hw.wires hw.wires
    irqEnabled := w.irqEnabled && !hw.irq
    done := if w.irqEnabled && hw.irq then w.done + 1 else w.done
    time := w.time }

/-- Some clocks. -/
def clocks (e : Bench) : ℕ → Board → Board
  | 0, w => w
  | n + 1, w => e.clocks n (e.clock w none)

/-- The clocks in front of an access. -/
def before (e : Bench) (w : Board) : Board :=
  { e.clocks (e.idle w.time) w with time := w.time + 1 }

/-- What the driver says is done in one clock. -/
def reply (e : Bench) (w : Board) (x : Said) : BitVec 32 × Board :=
  let w := e.before w
  match x with
  | .iord reg => (w.hw.readdata reg, e.clock w none)
  | .iowr reg data => (0, e.clock w (some (reg, data)))
  | .irqEnable => (0, e.clock { w with irqEnabled := true } none)
  | .semWait =>
    if w.done = 0 then (0, e.clock w none)
    else (1, e.clock { w with done := w.done - 1 } none)
  | _ => (0, e.clock w none)

end Bench

/-! ## Words -/

section Words

open Controller

theorem readdata_rdy (s : Controller) : (s.readdata .access).getLsbD 9 = s.readyReg := by
  rw [readdata, BitVec.getLsbD_cast, BitVec.getLsbD_append, BitVec.getLsbD_append,
    BitVec.getLsbD_append]
  cases s.readyReg <;> rfl

theorem rdy_iff (s : Controller) :
    s.readdata .access &&& ACCESS_RDY_MSK = 0 ↔ s.readyReg = false := by
  have hmask : ACCESS_RDY_MSK = BitVec.twoPow 32 9 := rfl
  rw [hmask, BitVec.and_twoPow, readdata_rdy]
  cases s.readyReg <;> decide

theorem rxdata_readdata (s : Controller) :
    rxdata (s.readdata .access) = ordered s.bitrvsReg s.rxbyteReg := by
  apply BitVec.eq_of_getLsbD_eq
  intro i hi
  have hmask : ACCESS_RXDATA_MSK.getLsbD i = true := by
    revert i
    decide
  rw [rxdata, BitVec.getLsbD_setWidth, BitVec.getLsbD_ushiftRight, BitVec.getLsbD_and,
    ACCESS_RXDATA_OFST, Nat.zero_add, hmask, readdata, BitVec.getLsbD_cast, BitVec.getLsbD_append]
  simp [hi]

theorem start_bits (txdata : BitVec 32) :
    (start txdata).getLsbD 9 = true ∧ (start txdata).getLsbD 15 = true ∧
      (start txdata).getLsbD 8 = true ∧ (start txdata).extractLsb' 0 8 = txdata.setWidth 8 := by
  refine ⟨?_, ?_, ?_, ?_⟩
  · simp [start, ACCESS_IRQENA_MSK, ACCESS_STA_MSK, ACCESS_SS_MSK]
  · simp [start, ACCESS_IRQENA_MSK, ACCESS_STA_MSK, ACCESS_SS_MSK]
  · simp [start, ACCESS_IRQENA_MSK, ACCESS_STA_MSK, ACCESS_SS_MSK]
  · apply BitVec.eq_of_getLsbD_eq
    intro i hi
    have hmask : (ACCESS_IRQENA_MSK ||| ACCESS_STA_MSK ||| ACCESS_SS_MSK).getLsbD i = false ∧
        ACCESS_TXDATA_MSK.getLsbD i = true := by
      revert i
      decide
    simp [start, hi, hmask, ACCESS_TXDATA_OFST]

/-- A byte in the order of the wire, the highest bit first. -/
theorem getMsbD_ordered (p : Protocol) (byte : BitVec 8) (i : ℕ) :
    (ordered p.lsbfirst byte).getMsbD i = p.bit byte i := by
  rw [ordered, Protocol.bit]
  split_ifs
  · exact BitVec.getMsbD_reverse
  · rfl

/-- What the controller has shifted in is the byte in its order. -/
theorem ordered_eq (p : Protocol) {rx byte : BitVec 8}
    (h : ∀ i < 8, rx.getLsbD (7 - i) = p.bit byte i) : ordered p.lsbfirst rx = byte := by
  apply BitVec.eq_of_getMsbD_eq
  intro i hi
  have hrx := h i hi
  rw [getMsbD_ordered, Protocol.bit]
  rw [Protocol.bit] at hrx
  split_ifs at hrx ⊢ with hlsb
  · have hrev := h (7 - i) (by omega)
    rw [Protocol.bit, if_pos hlsb, show 7 - (7 - i) = i by omega] at hrev
    rw [hrev, BitVec.getMsbD_eq_getLsbD, decide_eq_true hi]
    rfl
  · rw [← hrx, BitVec.getMsbD_eq_getLsbD, decide_eq_true hi]
    rfl

end Words

/-! ## Between the bytes -/

/-- The controller is idle and configured, and the slave is between two bytes. -/
structure Resting (e : Bench) (divref : BitVec 8) (m : ℕ) (taken : List Bool) (w : Board) :
    Prop where
  state : w.hw.stateReg = .idle
  ready : w.hw.readyReg = true
  mode : w.hw.modeReg = e.protocol.mode
  order : w.hw.bitrvsReg = e.protocol.lsbfirst
  div : w.hw.divrefReg = divref
  selected : w.hw.ssoReg = true
  sclk : w.hw.sclkReg = e.protocol.cpol
  leading : w.slave.leading = 8 * m
  trailing : w.slave.trailing = 8 * m
  samples : w.slave.samples = taken

/-- What no clock changes without a write. -/
def Controller.settings (s : Controller) : BitVec 2 × Bool × BitVec 8 × Bool × Bool :=
  (s.modeReg, s.bitrvsReg, s.divrefReg, s.ssoReg, s.irqenaReg)

theorem settings_toggle (s : Controller) (sdi : Bool) : (s.toggle sdi).settings = s.settings := by
  unfold Controller.toggle
  split <;> rfl

theorem settings_clock (s : Controller) (sdi : Bool) :
    (s.clock none sdi).settings = s.settings := by
  unfold Controller.clock
  split_ifs
  · rfl
  · exact settings_toggle s sdi
  · rfl

section Resting

variable {e : Bench} {divref : BitVec 8} {m : ℕ} {taken : List Bool} {w w' : Board}

theorem Resting.of_eq (h : Resting e divref m taken w) (hhw : w'.hw = w.hw)
    (hslave : w'.slave = w.slave) : Resting e divref m taken w' := by
  obtain ⟨h₁, h₂, h₃, h₄, h₅, h₆, h₇, h₈, h₉, h₁₀⟩ := h
  rw [← hhw] at h₁ h₂ h₃ h₄ h₅ h₆ h₇
  rw [← hslave] at h₈ h₉ h₁₀
  exact ⟨h₁, h₂, h₃, h₄, h₅, h₆, h₇, h₈, h₉, h₁₀⟩

theorem resting_of_settings {irqena : Bool}
    (h : w.hw.settings = (e.protocol.mode, e.protocol.lsbfirst, divref, true, irqena))
    (hstate : w.hw.stateReg = .idle) (hready : w.hw.readyReg = true)
    (hsclk : w.hw.sclkReg = e.protocol.cpol) (hleading : w.slave.leading = 8 * m)
    (htrailing : w.slave.trailing = 8 * m) : Resting e divref m w.slave.samples w :=
  ⟨hstate, hready, congrArg (·.1) h, congrArg (·.2.1) h, congrArg (·.2.2.1) h,
    congrArg (·.2.2.2.1) h, hsclk, hleading, htrailing, rfl⟩

end Resting

section Idle

variable {e : Bench} {w : Board}

theorem clock_idle (h : w.hw.stateReg = .idle) :
    (e.clock w none).hw = w.hw ∧ (e.clock w none).slave = w.slave := by
  have hhw : (e.clock w none).hw = w.hw := by
    show w.hw.clock none _ = _
    rw [Controller.clock, if_pos h]
  refine ⟨hhw, ?_⟩
  show e.protocol.see w.slave w.hw.wires (e.clock w none).hw.wires = _
  rw [hhw]
  exact Protocol.see_of_eq _ rfl rfl

theorem clocks_idle (n : ℕ) (h : w.hw.stateReg = .idle) :
    (e.clocks n w).hw = w.hw ∧ (e.clocks n w).slave = w.slave := by
  induction n generalizing w with
  | zero => exact ⟨rfl, rfl⟩
  | succ n ih =>
    have hclock := clock_idle (e := e) h
    rw [← hclock.1, ← hclock.2]
    exact ih (hclock.1.symm ▸ h)

theorem before_idle (h : w.hw.stateReg = .idle) :
    (e.before w).hw = w.hw ∧ (e.before w).slave = w.slave := clocks_idle (e.idle w.time) h

/-- What is not a write leaves an idle controller and the slave alone. -/
theorem reply_idle {x : Said} (h : w.hw.stateReg = .idle) (hx : ∀ reg data, x ≠ .iowr reg data) :
    (e.reply w x).2.hw = w.hw ∧ (e.reply w x).2.slave = w.slave := by
  have hbefore := before_idle (e := e) h
  have hclock {b : Board} (hhw : b.hw = (e.before w).hw) (hslave : b.slave = (e.before w).slave) :
      (e.clock b none).hw = w.hw ∧ (e.clock b none).slave = w.slave := by
    rw [← hbefore.1, ← hbefore.2, ← hhw, ← hslave]
    exact clock_idle (by rw [hhw, hbefore.1]; exact h)
  cases x with
  | iowr reg data => exact absurd rfl (hx reg data)
  | semWait =>
    rw [Bench.reply]
    split_ifs
    · exact hclock rfl rfl
    · exact hclock rfl rfl
  | _ => exact hclock rfl rfl

end Idle

/-! ## A byte on its way -/

/-- A byte that the driver has started. -/
structure Sending where
  bench : Bench
  divref : BitVec 8
  byte : BitVec 8
  /-- The bytes that the slave has had before, and their bits. -/
  m : ℕ
  taken : List Bool

/-- The byte is on its way for `n` more clocks, or has arrived. -/
def Sending.InFlight (d : Sending) (n : ℕ) (w : Board) : Prop :=
  (∃ k ≤ 16, Exchanging d.bench.protocol d.bench.out
      (Controller.ordered d.bench.protocol.lsbfirst d.byte) d.m d.taken k w.hw w.slave ∧
    n = (16 - k) * (d.divref.toNat + 1) + w.hw.divcount.toNat + 1) ∨
  n = 0 ∧ Resting d.bench d.divref (d.m + 1) (d.taken ++ d.bench.protocol.bits d.byte) w ∧
    ∀ i < 8, w.hw.rxbyteReg.getLsbD (7 - i) = d.bench.protocol.bit (d.bench.out d.m) i

/-- What holds while the driver waits for the byte. -/
structure Sending.Flight (d : Sending) (n : ℕ) (w : Board) : Prop where
  flight : d.InFlight n w
  settings : w.hw.settings =
    (d.bench.protocol.mode, d.bench.protocol.lsbfirst, d.divref, true, true)

section Flight

variable {d : Sending} {n : ℕ} {w : Board}

theorem Sending.Flight.irqena (h : d.Flight n w) : w.hw.irqenaReg = true :=
  congrArg (·.2.2.2.2) h.settings

theorem Sending.Flight.div (h : d.Flight n w) : w.hw.divrefReg = d.divref :=
  congrArg (·.2.2.1) h.settings

/-- The byte is on its way as long as the controller is not ready. -/
theorem Sending.Flight.pos_iff (h : d.Flight n w) : 0 < n ↔ w.hw.readyReg = false := by
  rcases h.flight with ⟨k, -, hexchanging, rfl⟩ | ⟨rfl, hresting, -⟩
  · exact iff_of_true (Nat.succ_pos _) hexchanging.busy
  · refine iff_of_false (lt_irrefl 0) ?_
    rw [hresting.ready]
    decide

theorem toNat_sub_one {x : BitVec 8} (h : x ≠ 0) : (x - 1).toNat = x.toNat - 1 := by
  have hpos : x.toNat ≠ 0 := fun hzero => h (BitVec.eq_of_toNat_eq hzero)
  have hlt := x.isLt
  rw [BitVec.toNat_sub, show (1 : BitVec 8).toNat = 1 from rfl]
  omega

/-- The last half period ends. -/
theorem Exchanging.finish {p : Protocol} {out : ℕ → BitVec 8} {byte : BitVec 8} {m : ℕ}
    {taken : List Bool} {hw : Controller} {slave : Slave}
    (h : Exchanging p out byte m taken 16 hw slave) (sdi : Bool) :
    hw.toggle sdi = { hw with stateReg := .idle, readyReg := true } := by
  rw [Controller.toggle, h.state]
  rfl

theorem toggle_divcount {hw : Controller} (hidle : hw.stateReg ≠ .idle)
    (hdone : hw.stateReg ≠ .done) (sdi : Bool) : (hw.toggle sdi).divcount = hw.divrefReg := by
  unfold Controller.toggle
  split
  · exact absurd ‹_› hidle
  · rfl
  · rfl
  · rfl
  · exact absurd ‹_› hdone

theorem stateAt_ne_done {cpha : Bool} {k : ℕ} (hk : k < 16) : stateAt cpha k ≠ .done := by
  unfold stateAt
  rw [if_neg (Nat.ne_of_lt hk)]
  split_ifs <;> decide

theorem Sending.Flight.clock (h : d.Flight n w) : d.Flight (n - 1) (d.bench.clock w none) := by
  have hsettings : (d.bench.clock w none).hw.settings = _ :=
    (settings_clock _ _).trans h.settings
  refine ⟨?_, hsettings⟩
  rcases h.flight with ⟨k, hk, hexchanging, hn⟩ | ⟨hn, hresting, hrx⟩
  · have hne : w.hw.stateReg ≠ .idle := hexchanging.state ▸ stateAt_ne_idle _ _
    by_cases hcount : w.hw.divcount = 0
    · have htoggle : (d.bench.clock w none).hw =
          w.hw.toggle (d.bench.protocol.miso d.bench.out w.slave) := by
        show w.hw.clock none _ = _
        rw [Controller.clock, if_neg hne, if_pos hcount]
      rw [hcount] at hn
      rcases Nat.lt_or_eq_of_le hk with hlt | rfl
      · -- the next half period begins
        have hnext := hexchanging.toggle hlt
        rw [← htoggle] at hnext
        refine .inl ⟨k + 1, hlt, hnext, ?_⟩
        have hdone : w.hw.stateReg ≠ .done := hexchanging.state ▸ stateAt_ne_done hlt
        obtain ⟨r, hr⟩ : ∃ r, 16 - k = r + 1 := ⟨16 - (k + 1), by omega⟩
        rw [htoggle, toggle_divcount hne hdone, h.div, hn, hr, Nat.succ_mul,
          show 16 - (k + 1) = r by omega]
        rfl
      · -- the byte has arrived
        have hfinish := htoggle.trans (hexchanging.finish _)
        have hslave : (d.bench.clock w none).slave = w.slave := by
          show d.bench.protocol.see w.slave w.hw.wires (d.bench.clock w none).hw.wires = _
          rw [hfinish]
          exact Protocol.see_of_eq _ rfl rfl
        have hsclk : w.hw.sclkReg = d.bench.protocol.cpol := by
          rw [hexchanging.sclk]
          exact Bool.xor_false _
        have hsampled : sampled d.bench.protocol.cpha 16 = 8 := by
          unfold sampled
          split_ifs <;> rfl
        have hbits : w.slave.samples = d.taken ++ d.bench.protocol.bits d.byte := by
          rw [hexchanging.samples, hsampled, Protocol.bits]
          congr 1
          exact List.map_congr_left fun i _ => getMsbD_ordered _ _ i
        refine .inr ⟨by rw [hn, Nat.sub_self, Nat.zero_mul]; rfl, ?_, fun i hi => ?_⟩
        · have hresting := resting_of_settings hsettings (by rw [hfinish]) (by rw [hfinish])
            (by rw [hfinish]; exact hsclk) (m := d.m + 1)
            (by rw [hslave, hexchanging.leading]; omega)
            (by rw [hslave, hexchanging.trailing]; omega)
          rwa [hslave, hbits] at hresting
        · rw [hfinish]
          have hbit := hexchanging.rx i (by omega)
          rwa [hsampled, show 8 - 1 - i = 7 - i by omega] at hbit
    · -- the half period goes on
      have hhold : (d.bench.clock w none).hw = { w.hw with divcount := w.hw.divcount - 1 } :=
        hexchanging.hold hcount _
      have hslave : (d.bench.clock w none).slave = w.slave := by
        show d.bench.protocol.see w.slave w.hw.wires (d.bench.clock w none).hw.wires = _
        rw [hhold]
        exact Protocol.see_of_eq _ rfl rfl
      refine .inl ⟨k, hk, ?_, ?_⟩
      · rw [hhold, hslave]
        exact hexchanging.of_divcount _
      · have hpos : w.hw.divcount.toNat ≠ 0 := fun hzero => hcount (BitVec.eq_of_toNat_eq hzero)
        rw [hhold, hn]
        show _ = (16 - k) * (d.divref.toNat + 1) + (w.hw.divcount - 1).toNat + 1
        rw [toNat_sub_one hcount]
        omega
  · subst hn
    obtain ⟨hhw, hslave⟩ := clock_idle (e := d.bench) hresting.state
    refine .inr ⟨rfl, hresting.of_eq hhw hslave, ?_⟩
    rw [hhw]
    exact hrx

/-- The interrupt is enabled as long as the byte is on its way, and has posted the semaphore or
will do so once it has arrived. -/
structure Armed (w : Board) : Prop where
  enabled : w.hw.readyReg = false → w.irqEnabled = true
  posted : w.hw.readyReg = true → w.irqEnabled = true ∨ 0 < w.done

/-- Ready stays. -/
theorem ready_clock {hw : Controller} (sdi : Bool) (h : hw.readyReg = true) :
    (hw.clock none sdi).readyReg = true := by
  unfold Controller.clock
  split_ifs
  · exact h
  · unfold Controller.toggle
    split
    · exact h
    · exact h
    · exact h
    · exact h
    · rfl
  · exact h

theorem enabled_clock {e : Bench}
    (h : w.hw.readyReg = false → w.irqEnabled = true)
    (hready : (e.clock w none).hw.readyReg = false) : (e.clock w none).irqEnabled = true := by
  have hbefore : w.hw.readyReg = false := by
    rw [← Bool.not_eq_true]
    intro htrue
    rw [show (e.clock w none).hw.readyReg = true from ready_clock _ htrue] at hready
    exact Bool.noConfusion hready
  show (w.irqEnabled && !((e.clock w none).hw.irqenaReg && (e.clock w none).hw.readyReg)) = true
  rw [hready, h hbefore, Bool.and_false]
  rfl

theorem Armed.clock {e : Bench} (hirqena : w.hw.irqenaReg = true) (h : Armed w) :
    Armed (e.clock w none) ∧
      ((e.clock w none).hw.readyReg = true → 0 < (e.clock w none).done) := by
  have hpost : (e.clock w none).hw.readyReg = true → 0 < (e.clock w none).done := by
    intro hready
    have hsettings : (e.clock w none).hw.irqenaReg = w.hw.irqenaReg :=
      congrArg (·.2.2.2.2) (settings_clock w.hw _)
    have hirq : (e.clock w none).hw.irq = true := by
      rw [Controller.irq, hready, hsettings, hirqena]
      rfl
    show 0 < if w.irqEnabled && (e.clock w none).hw.irq then w.done + 1 else w.done
    rw [hirq, Bool.and_true]
    cases hbefore : w.hw.readyReg with
    | false =>
      rw [h.enabled hbefore]
      exact Nat.succ_pos _
    | true =>
      rcases h.posted hbefore with henabled | hdone
      · rw [henabled]
        exact Nat.succ_pos _
      · split_ifs
        · exact Nat.succ_pos _
        · exact hdone
  exact ⟨⟨enabled_clock h.enabled, fun hready => .inr (hpost hready)⟩, hpost⟩

theorem Sending.Flight.clocks {k : ℕ} (h : d.Flight n w) :
    d.Flight (n - k) (d.bench.clocks k w) := by
  induction k generalizing n w with
  | zero => exact h
  | succ k ih =>
    rw [show n - (k + 1) = n - 1 - k by omega]
    exact ih h.clock

theorem Armed.clocks {k : ℕ} (h : d.Flight n w) (harmed : Armed w) :
    Armed (d.bench.clocks k w) := by
  induction k generalizing n w with
  | zero => exact harmed
  | succ k ih => exact ih h.clock (harmed.clock h.irqena).1

theorem enabled_clocks {k : ℕ} (h : d.Flight n w)
    (henabled : w.hw.readyReg = false → w.irqEnabled = true)
    (hready : (d.bench.clocks k w).hw.readyReg = false) :
    (d.bench.clocks k w).irqEnabled = true := by
  induction k generalizing n w with
  | zero => exact henabled hready
  | succ k ih => exact ih h.clock (enabled_clock henabled) hready

theorem Sending.Flight.of_eq {w' : Board} (h : d.Flight n w) (hhw : w'.hw = w.hw)
    (hslave : w'.slave = w.slave) : d.Flight n w' := by
  obtain ⟨hflight, hsettings⟩ := h
  refine ⟨?_, hhw ▸ hsettings⟩
  rcases hflight with ⟨k, hk, hexchanging, hn⟩ | ⟨hn, hresting, hrx⟩
  · exact .inl ⟨k, hk, by rwa [hhw, hslave], by rwa [hhw]⟩
  · exact .inr ⟨hn, hresting.of_eq hhw hslave, by rwa [hhw]⟩

theorem Sending.Flight.before (h : d.Flight n w) : ∃ n' ≤ n, d.Flight n' (d.bench.before w) :=
  have hclocks : d.Flight _ (d.bench.clocks (d.bench.idle w.time) w) := h.clocks
  ⟨_, Nat.sub_le _ _, hclocks.of_eq rfl rfl⟩

theorem Armed.before (h : d.Flight n w) (harmed : Armed w) : Armed (d.bench.before w) :=
  ⟨(harmed.clocks h).enabled, (harmed.clocks h).posted⟩

theorem done_clocks {e : Bench} (k : ℕ) (w : Board) : w.done ≤ (e.clocks k w).done := by
  induction k generalizing w with
  | zero => exact le_rfl
  | succ k ih =>
    refine le_trans ?_ (ih (e.clock w none))
    show w.done ≤ if _ then w.done + 1 else w.done
    split_ifs
    · exact Nat.le_succ _
    · exact le_rfl

/-! ## The driver waits -/

/-- The clocks that `sem_wait` may still take. -/
def patience (n : ℕ) (w : Board) : ℕ := if w.done = 0 then n + 1 else 0

theorem patience_clock {n' : ℕ} (h : d.Flight n' w) (hn : n' ≤ n) (harmed : Armed w) :
    patience (n' - 1) (d.bench.clock w none) ≤ n := by
  rw [patience]
  split_ifs with hdone
  · have hpost := (harmed.clock (e := d.bench) h.irqena).2
    have hpos := h.clock.pos_iff
    cases hready : (d.bench.clock w none).hw.readyReg with
    | false =>
      have hflying := hpos.mpr hready
      omega
    | true => exact absurd hdone (Nat.ne_of_gt (hpost hready))
  · exact Nat.zero_le _

theorem run_semWait {fuel : ℕ} (h : d.Flight n w) (harmed : Armed w)
    (hfuel : patience n w < fuel) :
    Ensures ((semWait fuel).run d.bench.reply w) fun r =>
      (∃ n' ≤ n, d.Flight n' r.2) ∧ (r.2.hw.readyReg = false → r.2.irqEnabled = true) := by
  induction fuel generalizing n w with
  | zero => exact absurd hfuel (Nat.not_lt_zero _)
  | succ fuel ih =>
    obtain ⟨n', hn', hbefore⟩ := h.before
    have hready := harmed.before h
    rw [semWait]
    refine .run_ask ?_
    by_cases hdone : (d.bench.before w).done = 0
    · have hreply : d.bench.reply w .semWait =
          (0, d.bench.clock (d.bench.before w) none) := if_pos hdone
      have hzero : w.done = 0 := Nat.le_zero.mp (hdone ▸ done_clocks _ w)
      rw [patience, if_pos hzero] at hfuel
      rw [hreply, if_pos rfl]
      refine (ih hbefore.clock (hready.clock hbefore.irqena).1 ?_).mono
        fun r ⟨⟨n'', hn'', hr⟩, henabled⟩ => ⟨⟨n'', by omega, hr⟩, henabled⟩
      exact Nat.lt_of_le_of_lt (patience_clock hbefore hn' hready) (by omega)
    · have hreply : d.bench.reply w .semWait = (1, d.bench.clock
          { d.bench.before w with done := (d.bench.before w).done - 1 } none) := if_neg hdone
      rw [hreply, if_neg (show (1 : BitVec 32) ≠ 0 by decide)]
      have htaken : d.Flight n'
          { d.bench.before w with done := (d.bench.before w).done - 1 } := hbefore.of_eq rfl rfl
      exact .run_ret ⟨⟨n' - 1, by omega, htaken.clock⟩, enabled_clock hready.enabled⟩

/-- The byte has arrived, and the driver knows what the slave has given. -/
def Sending.Arrived (d : Sending) (r : BitVec 32 × Board) : Prop :=
  rxdata r.1 = d.bench.out d.m ∧
    Resting d.bench d.divref (d.m + 1) (d.taken ++ d.bench.protocol.bits d.byte) r.2

theorem run_waitLoop {fuel rounds : ℕ} (h : d.Flight n w) (harmed : Armed w)
    (hfuel : n + 1 < fuel) (hrounds : n < rounds) :
    Ensures ((waitLoop fuel rounds).run d.bench.reply w) d.Arrived := by
  induction rounds generalizing n w with
  | zero => exact absurd hrounds (Nat.not_lt_zero _)
  | succ rounds ih =>
    have hpatience : patience n w < fuel := by
      rw [patience]
      split_ifs <;> omega
    rw [waitLoop]
    refine .run_bind (run_semWait h harmed hpatience) fun _ w₁ ⟨⟨n₁, hn₁, hflight⟩, henabled⟩ => ?_
    obtain ⟨n₂, hn₂, hbefore⟩ := hflight.before
    have hreply : d.bench.reply w₁ (.iord .access) =
        ((d.bench.before w₁).hw.readdata .access, d.bench.clock (d.bench.before w₁) none) := rfl
    refine .run_ask ?_
    rw [hreply]
    refine .run_ite (fun hbusy => ?_) fun hready => ?_
    · rw [rdy_iff] at hbusy
      have hpos := hbefore.pos_iff.mpr hbusy
      have harmed' : Armed (d.bench.before w₁) :=
        ⟨enabled_clocks hflight henabled, fun htrue =>
          absurd (hbusy.symm.trans htrue) Bool.noConfusion⟩
      exact ih hbefore.clock (harmed'.clock hbefore.irqena).1 (by omega) (by omega)
    · rw [rdy_iff] at hready
      rcases hbefore.flight with ⟨k, -, hexchanging, -⟩ | ⟨-, hresting, hrx⟩
      · exact absurd hexchanging.busy hready
      · obtain ⟨hhw, hslave⟩ := clock_idle (e := d.bench) hresting.state
        refine .run_ret ⟨?_, hresting.of_eq hhw hslave⟩
        rw [rxdata_readdata, hresting.order]
        exact ordered_eq _ hrx

end Flight

/-! ## A byte -/

/-- The most clocks that a byte takes, with some more. -/
def enough : ℕ := 17 * 256 + 2

/-- The controller after the write that starts a byte. -/
def Controller.started (hw : Controller) (byte : BitVec 8) : Controller :=
  { hw with
    stateReg := stateAt (hw.modeReg.getLsbD 0) 0
    readyReg := false
    bitcount := 0
    divcount := hw.divrefReg
    irqenaReg := true
    ssoReg := true
    sclkReg := hw.modeReg.getLsbD 1
    txbyteReg := ordered hw.bitrvsReg byte }

theorem write_start (hw : Controller) (txdata : BitVec 32) :
    hw.write .access (start txdata) = hw.started (txdata.setWidth 8) := by
  obtain ⟨hsta, hirqena, hss, hbyte⟩ := start_bits txdata
  unfold Controller.write Controller.started
  rw [hirqena, hss, hbyte, if_pos hsta]
  cases hw.modeReg.getLsbD 0 <;> rfl

/-- In front of the first half period. -/
theorem exchanging_started {e : Bench} {divref : BitVec 8} {m : ℕ} {taken : List Bool} {w : Board}
    (h : Resting e divref m taken w) (byte : BitVec 8) :
    Exchanging e.protocol e.out (Controller.ordered e.protocol.lsbfirst byte) m taken 0
      (w.hw.started byte) w.slave := by
  have hcpha : w.hw.modeReg.getLsbD 0 = e.protocol.cpha := congrArg (·.getLsbD 0) h.mode
  have hcpol : w.hw.modeReg.getLsbD 1 = e.protocol.cpol := congrArg (·.getLsbD 1) h.mode
  have hsampled : sampled e.protocol.cpha 0 = 0 := by
    unfold sampled
    split_ifs <;> rfl
  have hshifted : shifted e.protocol.cpha 0 = 0 := by
    unfold shifted
    split_ifs <;> rfl
  refine ⟨congrArg (stateAt · 0) hcpha, h.mode, rfl, ?_, fun i => ?_, fun i hi => ?_, rfl, rfl,
    h.leading, h.trailing, ?_⟩
  · exact hcpol.trans (Bool.xor_false _).symm
  · show (Controller.ordered w.hw.bitrvsReg byte).getMsbD i = _
    rw [h.order, hshifted]
    rfl
  · exact absurd (hsampled ▸ hi) (Nat.not_lt_zero i)
  · rw [h.samples, hsampled]
    exact (List.append_nil _).symm

/-- The start of a byte. -/
theorem flight_start {e : Bench} {divref : BitVec 8} {m : ℕ} {taken : List Bool} {w : Board}
    (h : Resting e divref m taken w) (txdata : BitVec 32) :
    (⟨e, divref, txdata.setWidth 8, m, taken⟩ : Sending).Flight (17 * divref.toNat + 17)
      (e.clock w (some (.access, start txdata))) := by
  have hhw : (e.clock w (some (.access, start txdata))).hw =
      w.hw.started (txdata.setWidth 8) := by
    show w.hw.clock (some (.access, start txdata)) (e.protocol.miso e.out w.slave) = _
    rw [Controller.clock, if_pos h.state]
    exact write_start w.hw txdata
  have hslave : (e.clock w (some (.access, start txdata))).slave = w.slave := by
    show e.protocol.see w.slave w.hw.wires (e.clock w (some (.access, start txdata))).hw.wires = _
    rw [hhw]
    refine Protocol.see_of_eq _ ?_ ?_
    · show (!true) = !w.hw.ssoReg
      rw [h.selected]
    · show w.hw.modeReg.getLsbD 1 = w.hw.sclkReg
      rw [h.sclk, h.mode]
      rfl
  refine ⟨.inl ⟨0, Nat.zero_le _, ?_, ?_⟩, ?_⟩
  · rw [hhw, hslave]
    exact exchanging_started h _
  · rw [hhw]
    show _ = 16 * (divref.toNat + 1) + w.hw.divrefReg.toNat + 1
    rw [h.div]
    omega
  · rw [hhw]
    show (w.hw.modeReg, w.hw.bitrvsReg, w.hw.divrefReg, true, true) = _
    rw [h.mode, h.order, h.div]

theorem run_shift {e : Bench} {divref : BitVec 8} {m : ℕ} {taken : List Bool} {w : Board}
    {fuel : ℕ} (h : Resting e divref m taken w) (txdata : BitVec 32) (hfuel : enough ≤ fuel) :
    Ensures ((shift fuel txdata).run e.reply w) fun r =>
      rxdata r.1 = e.out m ∧
        Resting e divref (m + 1) (taken ++ e.protocol.bits (txdata.setWidth 8)) r.2 := by
  have hdiv := divref.isLt
  obtain ⟨hhw, hslave⟩ := before_idle (e := e) h.state
  have hstart := flight_start (h.of_eq hhw hslave) txdata
  have hwrite : e.reply w (.iowr .access (start txdata)) =
      (0, e.clock (e.before w) (some (.access, start txdata))) := rfl
  generalize e.clock (e.before w) (some (.access, start txdata)) = w₁ at hstart hwrite
  obtain ⟨n, hn, hbefore⟩ := hstart.before
  have henable : e.reply w₁ .irqEnable =
      (0, e.clock { e.before w₁ with irqEnabled := true } none) := rfl
  rw [shift]
  refine .run_ask ?_
  rw [hwrite, wait]
  refine .run_ask ?_
  rw [henable]
  have henabled : (⟨e, divref, txdata.setWidth 8, m, taken⟩ : Sending).Flight n
      { e.before w₁ with irqEnabled := true } := hbefore.of_eq rfl rfl
  have harmed : Armed { e.before w₁ with irqEnabled := true } :=
    ⟨fun _ => rfl, fun _ => .inl rfl⟩
  have hlimit : n + 2 ≤ fuel := by
    refine le_trans ?_ hfuel
    rw [enough]
    omega
  have hfuel' : n - 1 + 1 < fuel := by omega
  have hrounds : n - 1 < fuel := by omega
  have hwait := run_waitLoop henabled.clock (harmed.clock henabled.irqena).1 hfuel' hrounds
  exact hwait

end OlivePiccolo.Spi
