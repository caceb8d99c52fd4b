import Mathlib.Algebra.Order.Field.Rat
import Mathlib.Tactic.Linarith
import Mathlib.Tactic.Ring
import OlivePiccolo.Spi.Transfer
import OlivePiccolo.Spi.Words

/-!
# The clock of the SPI

`peridot_spi_master_get_clkdiv` divides with truncation, the driver masks the divider to 10 bits, and
the controller latches 8 of them. The clock that comes out is not faster than the bitrate that was
asked for in exactly two respects: nothing is lost in the division, and nothing in the register
(`sclk_le_bitrate_iff`).
-/

namespace OlivePiccolo.Spi

open Dialog

/-- `peridot_spi_master_get_clkdiv`: `*clkdiv`, or the error. `value` is an `alt_32`. -/
def peridotSpiMasterGetClkdiv (freq bitrate : BitVec 32) : Except ℤ (BitVec 32) :=
  let value := freq / bitrate / 2 - 1
  if value.toInt < 0 then .error (-EINVAL) else .ok value

/-- The frequency of the clock that a controller makes: half a period for each `divref + 1` clocks
(`clock_half_period`). -/
def Controller.sclkFreq (s : Controller) (freq : BitVec 32) : ℚ :=
  freq.toNat / (2 * (s.divrefReg.toNat + 1))

/-! ## The controller -/

/-- `n` clocks of a busy controller. -/
def Controller.clocks (sdi : Bool) (n : ℕ) (s : Controller) : Controller :=
  (fun s => s.clock none sdi)^[n] s

theorem clocks_succ (s : Controller) (sdi : Bool) (n : ℕ) :
    s.clocks sdi (n + 1) = (s.clocks sdi n).clock none sdi := Function.iterate_succ_apply' _ _ _

/-- A clock inside a half period. -/
theorem clock_inside {s : Controller} (sdi : Bool) (hbusy : s.stateReg ≠ .idle)
    (hcount : s.divcount ≠ 0) : s.clock none sdi = { s with divcount := s.divcount - 1 } := by
  unfold Controller.clock
  rw [if_neg hbusy, if_neg hcount]

theorem clocks_inside {s : Controller} {sdi : Bool} (hbusy : s.stateReg ≠ .idle) {n : ℕ}
    (hn : n ≤ s.divcount.toNat) :
    s.clocks sdi n = { s with divcount := s.divcount - BitVec.ofNat 8 n } := by
  induction n with
  | zero => simp [Controller.clocks]
  | succ n ih =>
    have hlt := s.divcount.isLt
    have hsub : (s.divcount - BitVec.ofNat 8 n).toNat = s.divcount.toNat - n := by
      rw [BitVec.toNat_sub, BitVec.toNat_ofNat]
      omega
    have hcount : s.divcount - BitVec.ofNat 8 n ≠ 0 := by
      intro hzero
      rw [hzero, show (0 : BitVec 8).toNat = 0 by rfl] at hsub
      omega
    have hstep := clock_inside (s := { s with divcount := s.divcount - BitVec.ofNat 8 n })
      sdi hbusy hcount
    have hsucc : s.divcount - BitVec.ofNat 8 n - 1 = s.divcount - BitVec.ofNat 8 (n + 1) := by
      bv_omega
    rw [clocks_succ, ih (by omega), hstep]
    dsimp only
    rw [hsucc]

/-- From one edge of the clock to the next there are `divref + 1` clocks. -/
theorem clock_half_period {s : Controller} {sdi : Bool} (hidle : s.stateReg ≠ .idle)
    (hdone : s.stateReg ≠ .done) (hcount : s.divcount = s.divrefReg) :
    (∀ n ≤ s.divrefReg.toNat, (s.clocks sdi n).sclkReg = s.sclkReg) ∧
    (s.clocks sdi (s.divrefReg.toNat + 1)).sclkReg = !s.sclkReg ∧
    (s.clocks sdi (s.divrefReg.toNat + 1)).divcount = s.divrefReg := by
  refine ⟨fun n hn => ?_, ?_⟩
  · rw [clocks_inside hidle (by rw [hcount]; exact hn)]
  · have hlast : s.clocks sdi s.divrefReg.toNat = { s with divcount := 0 } := by
      rw [clocks_inside hidle (by rw [hcount]), hcount, BitVec.ofNat_toNat, BitVec.setWidth_eq,
        BitVec.sub_self]
      rfl
    have hnext : s.clocks sdi (s.divrefReg.toNat + 1) =
        ({ s with divcount := 0 } : Controller).toggle sdi := by
      rw [clocks_succ, hlast]
      unfold Controller.clock
      rw [if_neg hidle, if_pos rfl]
    rw [hnext]
    constructor
    · unfold Controller.toggle
      split
      · exact absurd ‹_› hidle
      · rfl
      · rfl
      · rfl
      · exact absurd ‹_› hdone
    · exact toggle_divcount (show ({ s with divcount := 0 } : Controller).stateReg ≠ .idle from hidle)
        hdone sdi

/-- What the controller latches of a divider. -/
theorem divref_config (s : Controller) (c : Call) :
    (s.write .config c.config).divrefReg.toNat = c.clkdiv.toNat % 256 := by
  show (c.config.extractLsb' 0 8).toNat = _
  rw [config_clkdiv, BitVec.toNat_setWidth]

/-! ## The bitrate -/

section Bitrate

variable {freq bitrate clkdiv : BitVec 32}

/-- The quotient is rounded down, once for both divisions. -/
theorem getClkdiv_ok (h : peridotSpiMasterGetClkdiv freq bitrate = .ok clkdiv) :
    clkdiv.toNat + 1 = freq.toNat / (2 * bitrate.toNat) := by
  have hquotient : (freq / bitrate / 2).toNat = freq.toNat / (2 * bitrate.toNat) := by
    rw [BitVec.toNat_udiv, BitVec.toNat_udiv, Nat.div_div_eq_div_mul, Nat.mul_comm]
    rfl
  have hlt : (freq / bitrate / 2).toNat < 2 ^ 31 := by
    have := freq.isLt
    rw [BitVec.toNat_udiv, BitVec.toNat_udiv]
    have := Nat.div_le_self freq.toNat bitrate.toNat
    show freq.toNat / bitrate.toNat / 2 < _
    omega
  unfold peridotSpiMasterGetClkdiv at h
  dsimp only at h
  split_ifs at h with hneg
  cases h
  rw [← hquotient]
  have hone : (1 : BitVec 32).toNat = 1 := rfl
  rw [BitVec.toInt_eq_toNat_cond, BitVec.toNat_sub, hone] at hneg
  rw [BitVec.toNat_sub, hone]
  split_ifs at hneg <;> omega

/-- The controller's clock does not exceed the bitrate exactly if the divisions are exact and the
divider fits into the register. -/
theorem sclkFreq_le_iff (hpos : 0 < bitrate.toNat)
    (hok : peridotSpiMasterGetClkdiv freq bitrate = .ok clkdiv) {s : Controller}
    (hs : s.divrefReg.toNat = clkdiv.toNat % 256) :
    s.sclkFreq freq ≤ bitrate.toNat ↔
      2 * bitrate.toNat ∣ freq.toNat ∧ freq.toNat / (2 * bitrate.toNat) ≤ 256 := by
  have hquotient := getClkdiv_ok hok
  have hfloor := Nat.div_mul_le_self freq.toNat (2 * bitrate.toNat)
  have hle : s.sclkFreq freq ≤ bitrate.toNat ↔
      freq.toNat ≤ bitrate.toNat * (2 * (clkdiv.toNat % 256 + 1)) := by
    unfold Controller.sclkFreq
    rw [hs, div_le_iff₀ (by positivity)]
    constructor <;> intro h <;> exact_mod_cast h
  rw [hle, ← hquotient]
  rw [← hquotient] at hfloor
  constructor
  · intro h
    have hmul : 2 * bitrate.toNat * (clkdiv.toNat + 1) ≤
        2 * bitrate.toNat * (clkdiv.toNat % 256 + 1) := by
      calc 2 * bitrate.toNat * (clkdiv.toNat + 1) = (clkdiv.toNat + 1) * (2 * bitrate.toNat) :=
            Nat.mul_comm _ _
        _ ≤ freq.toNat := hfloor
        _ ≤ bitrate.toNat * (2 * (clkdiv.toNat % 256 + 1)) := h
        _ = 2 * bitrate.toNat * (clkdiv.toNat % 256 + 1) := by ring
    have hfits : clkdiv.toNat + 1 ≤ clkdiv.toNat % 256 + 1 :=
      Nat.le_of_mul_le_mul_left hmul (by omega)
    have hmod : clkdiv.toNat % 256 = clkdiv.toNat :=
      Nat.le_antisymm (Nat.mod_le _ _) (Nat.le_of_succ_le_succ hfits)
    refine ⟨⟨clkdiv.toNat + 1, ?_⟩, by omega⟩
    rw [hmod] at h
    apply Nat.le_antisymm
    · calc freq.toNat ≤ bitrate.toNat * (2 * (clkdiv.toNat + 1)) := h
        _ = 2 * bitrate.toNat * (clkdiv.toNat + 1) := by ring
    · rwa [Nat.mul_comm]
  · rintro ⟨hdvd, hfits⟩
    have hmod : clkdiv.toNat % 256 = clkdiv.toNat := Nat.mod_eq_of_lt (by omega)
    have hexact := Nat.div_mul_cancel hdvd
    rw [← hquotient] at hexact
    rw [hmod, ← hexact]
    exact Nat.le_of_eq (by ring)

/-- **The clock and the bitrate.** What a transfer writes to the config register for the divider of
`get_clkdiv` gives a clock that is at most the bitrate if and only if twice the bitrate divides the
frequency and the quotient is at most 256. -/
theorem sclk_le_bitrate_iff (hpos : 0 < bitrate.toNat)
    (hok : peridotSpiMasterGetClkdiv freq bitrate = .ok clkdiv) {sp : MasterState} {c : Call}
    (hclkdiv : c.clkdiv = clkdiv) {fuel : ℕ} {l : List (Said × BitVec 32)} {o : Outcome}
    (ht : (peridotSpiMasterTransfer sp c fuel).Traces l o) {data : BitVec 32}
    (hsaid : Said.iowr .config data ∈ l.map Prod.fst) (s : Controller) :
    (s.write .config data).sclkFreq freq ≤ bitrate.toNat ↔
      2 * bitrate.toNat ∣ freq.toNat ∧ freq.toNat / (2 * bitrate.toNat) ≤ 256 := by
  obtain ⟨x, hx, hword⟩ := List.mem_map.mp hsaid
  have hdata : data = c.config :=
    ((configures_transfer sp).of_traces (fun _ _ => trivial) ht).1 x hx data hword
  subst hdata
  exact sclkFreq_le_iff hpos hok (by rw [divref_config, hclkdiv])

end Bitrate

/-- 40 MHz can be divided to 5 MHz. -/
theorem sclk_le_bitrate_5MHz :
    (Board.reset.hw.write .config (Call.empty 0 3 0).config).sclkFreq 40000000 ≤
        (5000000 : BitVec 32).toNat ↔
      2 * (5000000 : BitVec 32).toNat ∣ (40000000 : BitVec 32).toNat ∧
      (40000000 : BitVec 32).toNat / (2 * (5000000 : BitVec 32).toNat) ≤ 256 :=
  sclk_le_bitrate_iff (by decide) (by rfl) rfl (traces_empty 0 3 0) (by decide) Board.reset.hw

/-- 40 MHz for 15 MHz: the clock is 20 MHz. -/
theorem sclk_exceeds_bitrate : ¬ ∀ (freq bitrate clkdiv : BitVec 32) (sp : MasterState) (c : Call)
    (fuel : ℕ) (l : List (Said × BitVec 32)) (o : Outcome) (data : BitVec 32) (s : Controller),
    0 < bitrate.toNat → bitrate.toNat < 2 ^ 31 →
    peridotSpiMasterGetClkdiv freq bitrate = .ok clkdiv → c.clkdiv = clkdiv →
    (peridotSpiMasterTransfer sp c fuel).Traces l o →
    Said.iowr .config data ∈ l.map Prod.fst →
    (s.write .config data).sclkFreq freq ≤ bitrate.toNat := by
  intro h
  have hok : peridotSpiMasterGetClkdiv 40000000 15000000 = .ok 0 := rfl
  have hle := h 40000000 15000000 0 ⟨-1, none⟩ (.empty 0 0 0) 1 _ _ (Call.empty 0 0 0).config
    Board.reset.hw (by decide) (by decide) hok rfl (traces_empty 0 0 0) (by decide)
  rw [sclkFreq_le_iff (by decide) hok (divref_config _ _)] at hle
  exact absurd hle.1 (by decide)

end OlivePiccolo.Spi
