import OlivePiccolo.Spi.Exchange
import OlivePiccolo.Spi.Words

/-!
# A transfer on the wires

`peridot_spi_master_transfer` against `peridot_csr_spi.v` with an ideal slave of the mode and bit
order that the flags ask for. The driver has the mode in bits 12 and 11 of the config register, the
controller in bits 13 and 12: they agree on mode 0 only.
-/

namespace OlivePiccolo.Spi

open Dialog

/-- The mode and bit order of the flags. -/
def Call.protocol (c : Call) : Protocol where
  mode := ((c.flags &&& MASTER_MODE_MSK) >>> MASTER_MODE_OFST).setWidth 2
  lsbfirst := decide (c.flags &&& MASTER_LSBFIRST ≠ 0)

/-- How many bytes a call shifts. -/
def Call.count (c : Call) : ℕ := max c.writeData.length (c.readSkip + c.readLength)

/-- The bytes that a call writes. -/
def Call.bytes (c : Call) : List (BitVec 8) :=
  c.writeData ++ List.replicate (c.count - c.writeData.length) (c.filler.setWidth 8)

/-- The two sides agree about a call: the controller has latched what was asked for, there are eight
pulses for each byte, the slave has what was written, and the driver what the slave has given. The
slave has had `m` bytes before, `taken` are their bits. -/
structure Agreed (e : Bench) (c : Call) (m : ℕ) (taken : List Bool) (r : Outcome × Board) :
    Prop where
  result : r.1.result = 0
  mode : r.2.hw.modeReg = c.protocol.mode
  order : r.2.hw.bitrvsReg = c.protocol.lsbfirst
  clkdiv : r.2.hw.divrefReg.toNat = c.clkdiv.toNat
  leading : r.2.slave.leading = 8 * (m + c.count)
  trailing : r.2.slave.trailing = 8 * (m + c.count)
  written : r.2.slave.samples = taken ++ c.bytes.flatMap c.protocol.bits
  read : r.1.readData = (List.range c.readLength).map fun i => e.out (m + c.readSkip + i)

/-- The controller is idle. A selected slave is between two bytes, of a merged transaction. -/
structure Quiet (e : Bench) (m : ℕ) (taken : List Bool) (w : Board) : Prop where
  state : w.hw.stateReg = .idle
  ready : w.hw.readyReg = true
  selected : w.hw.ssoReg = true → w.hw.sclkReg = e.protocol.cpol ∧ w.slave = ⟨8 * m, 8 * m, taken⟩
  free : w.hw.ssoReg = false → m = 0 ∧ taken = []

/-! ## The config register -/

section Config

variable (c : Call)

theorem rvs_bit (i : ℕ) :
    (if c.flags &&& MASTER_LSBFIRST ≠ 0 then CONFIG_RVS_MSK else 0).getLsbD i =
      (c.protocol.lsbfirst && CONFIG_RVS_MSK.getLsbD i) := by
  rw [Call.protocol]
  dsimp only
  split_ifs with h
  · rw [decide_eq_true h, Bool.true_and]
  · rw [decide_eq_false h, Bool.false_and]
    exact BitVec.getLsbD_zero

theorem mode_bit (i : ℕ) :
    (((c.flags &&& MASTER_MODE_MSK) >>> MASTER_MODE_OFST) <<< CONFIG_MODE_OFST).getLsbD i =
      (decide (11 ≤ i ∧ i < 13) && c.protocol.mode.getLsbD (i - 11)) := by
  rw [BitVec.getLsbD_shiftLeft, CONFIG_MODE_OFST, Call.protocol, BitVec.getLsbD_setWidth,
    BitVec.getLsbD_ushiftRight, BitVec.getLsbD_and]
  by_cases h : 11 ≤ i ∧ i < 13
  · have hlow : ¬ i < 11 := by omega
    have hhigh : i < 32 ∧ i - 11 < 2 := by omega
    simp [h, hlow, hhigh]
  · by_cases hlow : i < 11
    · simp [hlow]
    · have hmask : MASTER_MODE_MSK.getLsbD (MASTER_MODE_OFST + (i - 11)) = false := by
        by_cases hi : i < 35
        · have hge : 13 ≤ i := by omega
          clear h hlow
          revert i
          decide
        · exact BitVec.getLsbD_of_ge _ _ (by rw [MASTER_MODE_OFST]; omega)
      rw [hmask, decide_eq_false h]
      simp

theorem config_bit (i : ℕ) : c.config.getLsbD i =
    ((c.clkdiv.getLsbD i && CONFIG_CLKDIV_MSK.getLsbD i) ||
      (decide (11 ≤ i ∧ i < 13) && c.protocol.mode.getLsbD (i - 11)) ||
      (c.protocol.lsbfirst && CONFIG_RVS_MSK.getLsbD i)) := by
  rw [Call.config, BitVec.getLsbD_or, BitVec.getLsbD_or, BitVec.getLsbD_and, rvs_bit, mode_bit,
    CONFIG_CLKDIV_OFST, BitVec.shiftLeft_zero]

theorem config_order : c.config.getLsbD 15 = c.protocol.lsbfirst := by
  rw [config_bit, show CONFIG_CLKDIV_MSK.getLsbD 15 = false by decide,
    show CONFIG_RVS_MSK.getLsbD 15 = true by decide, Bool.and_false, Bool.and_true]
  rfl

theorem config_mode : c.config.extractLsb' 12 2 = c.protocol.mode >>> 1 := by
  apply BitVec.eq_of_getLsbD_eq
  intro i hi
  have hmask : CONFIG_CLKDIV_MSK.getLsbD (12 + i) = false ∧
      CONFIG_RVS_MSK.getLsbD (12 + i) = false := by
    revert i
    decide
  rw [BitVec.getLsbD_extractLsb', decide_eq_true hi, config_bit, hmask.1, hmask.2,
    BitVec.getLsbD_ushiftRight, Bool.and_false, Bool.and_false, Bool.false_or, Bool.or_false,
    Bool.true_and, show 12 + i - 11 = 1 + i by omega]
  by_cases hone : 12 + i < 13
  · rw [decide_eq_true (by omega), Bool.true_and]
  · rw [decide_eq_false (by omega), BitVec.getLsbD_of_ge _ _ (by omega)]
    rfl

theorem config_clkdiv : c.config.extractLsb' 0 8 = c.clkdiv.setWidth 8 := by
  apply BitVec.eq_of_getLsbD_eq
  intro i hi
  have hmask : CONFIG_CLKDIV_MSK.getLsbD i = true ∧ CONFIG_RVS_MSK.getLsbD i = false := by
    revert i
    decide
  have hlow : ¬ (11 ≤ i ∧ i < 13) := by omega
  rw [BitVec.getLsbD_extractLsb', BitVec.getLsbD_setWidth, Nat.zero_add, config_bit, hmask.1,
    hmask.2, decide_eq_false hlow]
  simp
end Config

/-! ## The loops -/

section Loops

variable {e : Bench} {divref : BitVec 8} {m fuel : ℕ} {taken : List Bool} {w : Board}
  {filler : BitVec 32}

theorem range_map_succ {α : Type*} (f : ℕ → α) (n : ℕ) :
    f 0 :: (List.range n).map (fun i => f (i + 1)) = (List.range (n + 1)).map f := by
  rw [List.range_succ_eq_map, List.map_cons, List.map_map]
  rfl

theorem run_readLoop {readLength : ℕ} {readData : List (BitVec 8)}
    (h : Resting e divref m taken w) (hfuel : enough ≤ fuel) :
    Ensures ((readLoop fuel filler readLength readData).run e.reply w) fun r =>
      r.1 = readData ++ (List.range readLength).map (fun i => e.out (m + i)) ∧
        Resting e divref (m + readLength) (taken ++
          (List.replicate readLength (filler.setWidth 8)).flatMap e.protocol.bits) r.2 := by
  induction readLength generalizing m taken w readData with
  | zero =>
    refine .run_ret ⟨(List.append_nil _).symm, ?_⟩
    rwa [List.replicate_zero, List.flatMap_nil, List.append_nil]
  | succ readLength ih =>
    rw [readLoop]
    refine .run_bind (run_shift h filler hfuel) fun resp w' ⟨hresp, hresting⟩ => ?_
    refine (ih hresting).mono fun r ⟨hr, hresting'⟩ => ⟨?_, ?_⟩
    · rw [hr, hresp, List.append_assoc, List.singleton_append,
        ← range_map_succ (fun i => e.out (m + i))]
      simp only [Nat.add_assoc, Nat.add_comm 1, Nat.add_zero]
    · rwa [List.append_assoc, ← List.flatMap_cons, ← List.replicate_succ,
        show m + 1 + readLength = m + (readLength + 1) by omega] at hresting'

theorem run_skipLoop {readSkip : ℕ} (h : Resting e divref m taken w) (hfuel : enough ≤ fuel) :
    Ensures ((skipLoop fuel filler readSkip).run e.reply w) fun r =>
      Resting e divref (m + readSkip) (taken ++
        (List.replicate readSkip (filler.setWidth 8)).flatMap e.protocol.bits) r.2 := by
  induction readSkip generalizing m taken w with
  | zero =>
    refine .run_ret ?_
    rwa [List.replicate_zero, List.flatMap_nil, List.append_nil]
  | succ readSkip ih =>
    rw [skipLoop]
    refine .run_bind (run_shift h filler hfuel) fun resp w' ⟨hresp, hresting⟩ => ?_
    refine (ih hresting).mono fun r hresting' => ?_
    rwa [List.append_assoc, ← List.flatMap_cons, ← List.replicate_succ,
      show m + 1 + readSkip = m + (readSkip + 1) by omega] at hresting'

theorem run_writeLoop {writeData : List (BitVec 8)} {readSkip readLength : ℕ}
    {readData : List (BitVec 8)} (h : Resting e divref m taken w) (hfuel : enough ≤ fuel) :
    Ensures ((writeLoop fuel writeData readSkip readLength readData).run e.reply w) fun r =>
      r.1 = (readSkip - writeData.length, readLength - (writeData.length - readSkip),
        readData ++ (List.range (min readLength (writeData.length - readSkip))).map
          fun i => e.out (m + readSkip + i)) ∧
        Resting e divref (m + writeData.length) (taken ++ writeData.flatMap e.protocol.bits)
          r.2 := by
  induction writeData generalizing m taken w readSkip readLength readData with
  | nil =>
    refine .run_ret ⟨?_, ?_⟩
    · simp
    · rwa [List.flatMap_nil, List.append_nil]
  | cons byte writeData ih =>
    rw [writeLoop]
    refine .run_bind (run_shift h (byte.setWidth 32) hfuel) fun resp w' ⟨hresp, hresting⟩ => ?_
    have hbyte : (byte.setWidth 32).setWidth 8 = byte := by
      rw [BitVec.setWidth_setWidth_of_le _ (by decide), BitVec.setWidth_eq]
    rw [hbyte] at hresting
    have hdone {r : Board} (hr : Resting e divref (m + 1 + writeData.length)
        (taken ++ e.protocol.bits byte ++ writeData.flatMap e.protocol.bits) r) :
        Resting e divref (m + (byte :: writeData).length)
          (taken ++ (byte :: writeData).flatMap e.protocol.bits) r := by
      rwa [List.length_cons, List.flatMap_cons, ← List.append_assoc,
        show m + (writeData.length + 1) = m + 1 + writeData.length by omega]
    refine .run_ite (fun hskip => ?_) fun hskip => .run_ite (fun hread => ?_) fun hread => ?_
    · refine (ih hresting).mono fun r ⟨hr, hresting'⟩ => ⟨?_, hdone hresting'⟩
      rw [hr, List.length_cons, show readSkip - 1 - writeData.length =
          readSkip - (writeData.length + 1) by omega,
        show writeData.length - (readSkip - 1) = writeData.length + 1 - readSkip by omega,
        show m + 1 + (readSkip - 1) = m + readSkip by omega]
    · refine (ih hresting).mono fun r ⟨hr, hresting'⟩ => ⟨?_, hdone hresting'⟩
      obtain rfl : readSkip = 0 := by omega
      obtain ⟨n, rfl⟩ : ∃ n, readLength = n + 1 := ⟨readLength - 1, by omega⟩
      rw [hr, hresp, List.append_assoc, List.singleton_append, List.length_cons,
        show min (n + 1) (writeData.length + 1 - 0) = min n (writeData.length - 0) + 1 by omega,
        ← range_map_succ (fun i => e.out (m + 0 + i)), Nat.add_sub_cancel, Nat.zero_sub,
        Nat.zero_sub, show n + 1 - (writeData.length + 1 - 0) = n - (writeData.length - 0) by omega]
      simp only [Nat.add_assoc, Nat.add_comm 1, Nat.add_zero]
    · refine (ih hresting).mono fun r ⟨hr, hresting'⟩ => ⟨?_, hdone hresting'⟩
      obtain rfl : readSkip = 0 := by omega
      obtain rfl : readLength = 0 := by omega
      rw [hr]
      simp

end Loops

/-! ## A call -/

section Call

variable {e : Bench} {m : ℕ} {taken : List Bool} {w : Board} {c : Call} {fuel : ℕ}

theorem Quiet.of_eq {w' : Board} (h : Quiet e m taken w) (hhw : w'.hw = w.hw)
    (hslave : w'.slave = w.slave) : Quiet e m taken w' := by
  obtain ⟨hstate, hready, hselected, hfree⟩ := h
  rw [← hhw] at hstate hready hselected hfree
  rw [← hslave] at hselected
  exact ⟨hstate, hready, hselected, hfree⟩

theorem Quiet.reply {x : Said} (h : Quiet e m taken w) (hx : ∀ reg data, x ≠ .iowr reg data) :
    Quiet e m taken (e.reply w x).2 :=
  have hsame := reply_idle (e := e) h.state hx
  h.of_eq hsame.1 hsame.2

/-- The loop that waits for ready reads once. -/
theorem run_readyLoop (h : Quiet e m taken w) (hfuel : 0 < fuel) :
    Ensures ((readyLoop fuel).run e.reply w) fun r => Quiet e m taken r.2 := by
  obtain ⟨fuel, rfl⟩ : ∃ n, fuel = n + 1 := ⟨fuel - 1, by omega⟩
  rw [readyLoop]
  refine .run_ask (.run_ite (fun hbusy => ?_) fun _ => ?_)
  · have hread : (e.reply w (.iord .access)).1 = (e.before w).hw.readdata .access := rfl
    rw [hread, rdy_iff, (before_idle h.state).1, h.ready] at hbusy
    exact absurd hbusy (by decide)
  · exact .run_ret (h.reply fun _ _ => by simp)

theorem reply_write (h : w.hw.stateReg = .idle) (reg : Register) (data : BitVec 32) :
    (e.reply w (.iowr reg data)).2.hw = w.hw.write reg data ∧
      (e.reply w (.iowr reg data)).2.slave =
        e.protocol.see w.slave w.hw.wires (w.hw.write reg data).wires := by
  obtain ⟨hhw, hslave⟩ := before_idle (e := e) h
  have hwrite : (e.reply w (.iowr reg data)).2.hw = w.hw.write reg data := by
    show (e.before w).hw.clock (some (reg, data))
      (e.protocol.miso e.out (e.before w).slave) = _
    rw [hhw]
    exact if_pos h
  refine ⟨hwrite, ?_⟩
  show e.protocol.see (e.before w).slave (e.before w).hw.wires
    (e.reply w (.iowr reg data)).2.hw.wires = _
  rw [hwrite, hhw, hslave]

/-- The config register is written. -/
theorem Quiet.config (h : Quiet e m taken w) (c : Call) :
    Quiet e m taken (e.reply w (.iowr .config c.config)).2 ∧
      (e.reply w (.iowr .config c.config)).2.hw.modeReg = c.protocol.mode >>> 1 ∧
      (e.reply w (.iowr .config c.config)).2.hw.bitrvsReg = c.protocol.lsbfirst ∧
      (e.reply w (.iowr .config c.config)).2.hw.divrefReg = c.clkdiv.setWidth 8 := by
  obtain ⟨hhw, hslave⟩ := reply_write (e := e) h.state .config c.config
  have hsame : (e.reply w (.iowr .config c.config)).2.slave = w.slave :=
    hslave.trans (Protocol.see_of_eq _ rfl rfl)
  refine ⟨⟨?_, ?_, ?_, ?_⟩, ?_, ?_, ?_⟩
  · rw [hhw]
    exact h.state
  · rw [hhw]
    exact h.ready
  · rw [hhw, hsame]
    exact h.selected
  · rw [hhw]
    exact h.free
  · rw [hhw]
    exact config_mode c
  · rw [hhw]
    exact config_order c
  · rw [hhw]
    exact config_clkdiv c

/-- The slave is selected. -/
theorem Quiet.select {divref : BitVec 8} (h : Quiet e m taken w)
    (hmode : w.hw.modeReg = e.protocol.mode) (horder : w.hw.bitrvsReg = e.protocol.lsbfirst)
    (hdiv : w.hw.divrefReg = divref) :
    Resting e divref m taken (e.reply w (.iowr .access ACCESS_SS_MSK)).2 := by
  obtain ⟨hhw, hslave⟩ := reply_write (e := e) h.state .access ACCESS_SS_MSK
  have hsclk : (w.hw.write .access ACCESS_SS_MSK).sclkReg = e.protocol.cpol := by
    show w.hw.modeReg.getLsbD 1 = _
    rw [hmode]
    rfl
  have hselected : (e.reply w (.iowr .access ACCESS_SS_MSK)).2.slave = ⟨8 * m, 8 * m, taken⟩ := by
    cases hsso : w.hw.ssoReg with
    | true =>
      obtain ⟨hsclk', hsame⟩ := h.selected hsso
      have hss : (w.hw.write .access ACCESS_SS_MSK).wires.ssN = w.hw.wires.ssN := by
        show (!true) = !w.hw.ssoReg
        rw [hsso]
      rw [hslave, Protocol.see_of_eq _ hss (hsclk.trans hsclk'.symm), hsame]
    | false =>
      obtain ⟨rfl, rfl⟩ := h.free hsso
      rw [hslave, Protocol.see, show w.hw.wires.ssN = true by rw [Controller.wires, hsso]; rfl]
      rfl
  refine ⟨?_, ?_, ?_, ?_, ?_, ?_, ?_, ?_, ?_, ?_⟩
  · rw [hhw]
    exact h.state
  · rw [hhw]
    exact h.ready
  · rw [hhw]
    exact hmode
  · rw [hhw]
    exact horder
  · rw [hhw]
    exact hdiv
  · rw [hhw]
    rfl
  · rw [hhw]
    exact hsclk
  · rw [hselected]
  · rw [hselected]
  · rw [hselected]

/-- The slave select is negated. The registers and the slave are as they were. -/
theorem Resting.release {divref : BitVec 8} (h : Resting e divref m taken w) :
    Quiet e 0 [] (e.reply w (.iowr .access 0)).2 ∧
      (e.reply w (.iowr .access 0)).2.slave = w.slave ∧
      (e.reply w (.iowr .access 0)).2.hw.modeReg = w.hw.modeReg ∧
      (e.reply w (.iowr .access 0)).2.hw.bitrvsReg = w.hw.bitrvsReg ∧
      (e.reply w (.iowr .access 0)).2.hw.divrefReg = w.hw.divrefReg := by
  obtain ⟨hhw, hslave⟩ := reply_write (e := e) h.state .access 0
  refine ⟨⟨?_, ?_, fun hsso => ?_, fun _ => ⟨rfl, rfl⟩⟩, hslave.trans (if_pos rfl), ?_, ?_, ?_⟩
  · rw [hhw]
    exact h.state
  · rw [hhw]
    exact h.ready
  · rw [hhw] at hsso
    exact absurd hsso (show (0 : BitVec 32).getLsbD 8 ≠ true by decide)
  · rw [hhw]
    rfl
  · rw [hhw]
    rfl
  · rw [hhw]
    rfl

theorem Resting.quiet {divref : BitVec 8} (h : Resting e divref m taken w) :
    Quiet e m taken w := by
  refine ⟨h.state, h.ready, fun _ => ⟨h.sclk, ?_⟩, fun hsso => ?_⟩
  · calc w.slave = ⟨w.slave.leading, w.slave.trailing, w.slave.samples⟩ := rfl
      _ = ⟨8 * m, 8 * m, taken⟩ := by rw [h.leading, h.trailing, h.samples]
  · exact absurd (hsso.symm.trans h.selected) Bool.noConfusion

/-- How the next transaction begins. -/
def Call.Next (c : Call) (e : Bench) (m : ℕ) (taken : List Bool) (w : Board) : Prop :=
  if c.Merges then Quiet e (m + c.count) (taken ++ c.bytes.flatMap c.protocol.bits) w
  else Quiet e 0 [] w

/-- What has been read while writing, and after it. -/
theorem read_eq (out : ℕ → BitVec 8) (m len readSkip readLength : ℕ) :
    (List.range (min readLength (len - readSkip))).map (fun i => out (m + readSkip + i)) ++
        (List.range (readLength - (len - readSkip))).map
          (fun i => out (m + len + (readSkip - len) + i)) =
      (List.range readLength).map fun i => out (m + readSkip + i) := by
  have hsplit : readLength =
      min readLength (len - readSkip) + (readLength - (len - readSkip)) := by omega
  conv_rhs => rw [hsplit, List.range_add, List.map_append, List.map_map]
  congr 1
  refine List.map_congr_left fun i hi => ?_
  have hi := List.mem_range.mp hi
  show out (m + len + (readSkip - len) + i) =
    out (m + readSkip + (min readLength (len - readSkip) + i))
  congr 1
  omega

theorem bytes_flatMap (c : Call) (f : BitVec 8 → List Bool) :
    c.bytes.flatMap f = c.writeData.flatMap f ++
      (List.replicate (c.readSkip - c.writeData.length) (c.filler.setWidth 8)).flatMap f ++
      (List.replicate (c.readLength - (c.writeData.length - c.readSkip))
        (c.filler.setWidth 8)).flatMap f := by
  have hfillers : c.count - c.writeData.length = c.readSkip - c.writeData.length +
      (c.readLength - (c.writeData.length - c.readSkip)) := by
    rw [Call.count]
    omega
  rw [Call.bytes, hfillers, ← List.replicate_append_replicate, List.flatMap_append,
    List.flatMap_append, List.append_assoc]

theorem agreed_of_resting {r : Outcome × Board} {w' : Board} (hprotocol : e.protocol = c.protocol)
    (hclkdiv : c.clkdiv.toNat < 256)
    (h : Resting e (c.clkdiv.setWidth 8) (m + c.count) (taken ++ c.bytes.flatMap c.protocol.bits)
      w')
    (hresult : r.1.result = 0)
    (hread : r.1.readData = (List.range c.readLength).map fun i => e.out (m + c.readSkip + i))
    (hslave : r.2.slave = w'.slave) (hmode : r.2.hw.modeReg = w'.hw.modeReg)
    (horder : r.2.hw.bitrvsReg = w'.hw.bitrvsReg) (hdiv : r.2.hw.divrefReg = w'.hw.divrefReg) :
    Agreed e c m taken r := by
  refine ⟨hresult, ?_, ?_, ?_, ?_, ?_, ?_, hread⟩
  · rw [hmode, h.mode, hprotocol]
  · rw [horder, h.order, hprotocol]
  · rw [hdiv, h.div, BitVec.toNat_setWidth, Nat.mod_eq_of_lt hclkdiv]
  · rw [hslave, h.leading]
  · rw [hslave, h.trailing]
  · rw [hslave, h.samples]

theorem run_shiftAll (h : Quiet e m taken w) (hprotocol : e.protocol = c.protocol)
    (hmode : c.protocol.mode = 0) (hclkdiv : c.clkdiv.toNat < 256) (hfuel : enough ≤ fuel) :
    Ensures ((c.shiftAll fuel).run e.reply w) fun r =>
      Agreed e c m taken r ∧ c.Next e m taken r.2 := by
  rw [Call.shiftAll]
  refine .run_bind (run_readyLoop h (Nat.lt_of_lt_of_le (by decide) hfuel)) fun _ w₁ hquiet => ?_
  obtain ⟨hconfig, hmode', horder, hdiv⟩ := hquiet.config c
  refine .run_ask (.run_ask ?_)
  have hsame : c.protocol.mode >>> 1 = e.protocol.mode := by
    rw [hprotocol, hmode]
    rfl
  have hresting := hconfig.select (hmode'.trans hsame) (by rw [horder, hprotocol]) hdiv
  refine .run_bind (run_writeLoop hresting hfuel) fun left w₂ ⟨hleft, hwritten⟩ => ?_
  subst hleft
  refine .run_bind (run_skipLoop hwritten hfuel) fun _ w₃ hskipped => ?_
  refine .run_bind (run_readLoop hskipped hfuel) fun readData w₄ ⟨hdata, hread⟩ => ?_
  rw [List.nil_append, read_eq] at hdata
  have hcount : m + c.writeData.length + (c.readSkip - c.writeData.length) +
      (c.readLength - (c.writeData.length - c.readSkip)) = m + c.count := by
    rw [Call.count]
    omega
  rw [hcount, List.append_assoc, List.append_assoc, ← List.append_assoc (List.flatMap _ _),
    ← bytes_flatMap, hprotocol] at hread
  refine .run_ite (fun hmerges => ?_) fun hmerges => ?_
  · refine .run_ret ⟨agreed_of_resting hprotocol hclkdiv hread rfl hdata rfl rfl rfl rfl, ?_⟩
    rw [Call.Next, if_pos hmerges]
    exact hread.quiet
  · obtain ⟨hfree, hslave, hmode₅, horder₅, hdiv₅⟩ := hread.release
    have hpin := reply_idle (e := e) (x := .directOutput (c.slave.signExtend 32) 1) hfree.state
      fun _ _ => by simp
    have hquiet₆ := hfree.of_eq hpin.1 hpin.2
    have hfunc := reply_idle (e := e)
      (x := .selectOutput (c.slave.signExtend 32) PERIDOT_PFC_OUTPUT_PINX_DOUT) hquiet₆.state
      fun _ _ => by simp
    refine .run_ask (.run_ask (.run_ask (.run_ret ⟨?_, ?_⟩)))
    · refine agreed_of_resting hprotocol hclkdiv hread rfl hdata ?_ ?_ ?_ ?_
      · exact hfunc.2.trans (hpin.2.trans hslave)
      · rw [hfunc.1, hpin.1, hmode₅]
      · rw [hfunc.1, hpin.1, horder₅]
      · rw [hfunc.1, hpin.1, hdiv₅]
    · rw [Call.Next, if_neg hmerges]
      exact hquiet₆.of_eq hfunc.1 hfunc.2

theorem Call.Next.state (h : c.Next e m taken w) : w.hw.stateReg = .idle := by
  unfold Call.Next at h
  split_ifs at h
  · exact h.state
  · exact h.state

theorem Call.Next.of_eq {w' : Board} (h : c.Next e m taken w) (hhw : w'.hw = w.hw)
    (hslave : w'.slave = w.slave) : c.Next e m taken w' := by
  unfold Call.Next at h ⊢
  split_ifs at h ⊢
  · exact h.of_eq hhw hslave
  · exact h.of_eq hhw hslave

theorem Agreed.of_eq {o : Outcome} {w' : Board} (h : Agreed e c m taken (o, w))
    (hhw : w'.hw = w.hw) (hslave : w'.slave = w.slave) : Agreed e c m taken (o, w') := by
  obtain ⟨hresult, hmode, horder, hclkdiv, hleading, htrailing, hwritten, hread⟩ := h
  refine ⟨hresult, ?_, ?_, ?_, ?_, ?_, ?_, hread⟩
  · rwa [hhw]
  · rwa [hhw]
  · rwa [hhw]
  · rwa [hslave]
  · rwa [hslave]
  · rwa [hslave]

/-- A valid slave number has an entry in the map. -/
theorem outFuncs_of_valid {sp : MasterState} {outFuncs : Vector (BitVec 8) 32} {slave : BitVec 8}
    (h : ¬ sp.Invalid slave) (hmap : sp.ssNPfcMap = some outFuncs) :
    ∃ func, outFuncs[slave.toNat]? = some func := by
  rw [MasterState.Invalid, hmap, Option.any_some, decide_eq_true_eq, not_or, not_le] at h
  have hsame : (slave.signExtend 32).toNat = slave.toNat := by
    have hint := BitVec.toInt_signExtend_of_le (x := slave) (show 8 ≤ 32 by decide)
    have hlt := slave.isLt
    rw [BitVec.toInt_eq_toNat_cond, BitVec.toInt_eq_toNat_cond] at hint
    have hlt' := (slave.signExtend 32).isLt
    omega
  exact ⟨_, Vector.getElem?_eq_getElem (hsame ▸ h.1)⟩

/-- `peridot_spi_master_transfer`, for a call that is let in. -/
theorem run_transfer {sp : MasterState} (h : Quiet e m taken w) (hvalid : ¬ sp.Invalid c.slave)
    (hfree : ¬ sp.Busy c.slave) (hprotocol : e.protocol = c.protocol)
    (hmode : c.protocol.mode = 0) (hclkdiv : c.clkdiv.toNat < 256) (hfuel : enough ≤ fuel) :
    Ensures ((peridotSpiMasterTransfer sp c fuel).run e.reply w) fun r =>
      Agreed e c m taken r ∧ c.Next e m taken r.2 := by
  rw [peridotSpiMasterTransfer, if_neg hvalid]
  refine .run_ask (.run_bind (P := fun r => Agreed e c m taken r ∧ c.Next e m taken r.2) ?_
    fun o w' hresult => ?_)
  · have hlocked := h.reply (x := .lock) fun _ _ => by simp
    rw [transfer, if_neg hfree]
    split
    · rename_i outFuncs hmap
      refine .run_ite (fun _ => ?_) fun _ =>
        run_shiftAll hlocked hprotocol hmode hclkdiv hfuel
      obtain ⟨func, hfunc⟩ := outFuncs_of_valid hvalid hmap
      refine .run_access hfunc (.run_ask ?_)
      exact run_shiftAll (hlocked.reply fun _ _ => by simp) hprotocol hmode hclkdiv hfuel
    · exact run_shiftAll hlocked hprotocol hmode hclkdiv hfuel
  · have hsame := reply_idle (e := e) (x := .unlock) hresult.2.state fun _ _ => by simp
    exact .run_ask (.run_ret ⟨hresult.1.of_eq hsame.1 hsame.2, hresult.2.of_eq hsame.1 hsame.2⟩)

/-! ## The mode that is latched -/

/-- The config register is not written. -/
def Said.KeepsConfig (x : Said) : Prop := ∀ data, x ≠ .iowr .config data

theorem mode_clock {hw : Controller} (x : Option (Register × BitVec 32)) (sdi : Bool)
    (hx : ∀ data, x ≠ some (.config, data)) : (hw.clock x sdi).modeReg = hw.modeReg := by
  unfold Controller.clock
  split_ifs
  · split
    · rename_i reg data
      cases reg with
      | config => exact absurd rfl (hx data)
      | access =>
        unfold Controller.write
        dsimp only
        split_ifs <;> rfl
    · rfl
  · exact congrArg (·.1) (settings_toggle hw sdi)
  · rfl

theorem mode_clocks (n : ℕ) (w : Board) : (e.clocks n w).hw.modeReg = w.hw.modeReg := by
  induction n generalizing w with
  | zero => rfl
  | succ n ih => exact (ih _).trans (mode_clock none _ fun _ => by simp)

theorem mode_reply (w : Board) (x : Said) (hx : x.KeepsConfig) :
    (e.reply w x).2.hw.modeReg = w.hw.modeReg := by
  have hbefore : (e.before w).hw.modeReg = w.hw.modeReg := mode_clocks (e.idle w.time) w
  have hnone (b : Board) (hb : b.hw = (e.before w).hw) :
      (e.clock b none).hw.modeReg = w.hw.modeReg :=
    (mode_clock none _ fun _ => by simp).trans (hb ▸ hbefore)
  cases x with
  | iowr reg data =>
    refine (mode_clock (some (reg, data)) _ fun data' heq => ?_).trans hbefore
    cases heq
    exact hx data rfl
  | semWait =>
    rw [Bench.reply]
    split_ifs
    · exact hnone _ rfl
    · exact hnone _ rfl
  | _ => exact hnone _ rfl

theorem Said.Inner.keepsConfig {x : Said} (h : x.Inner) : x.KeepsConfig := by
  rintro data rfl
  exact h.elim

/-- What is done from the slave select on keeps the mode that has been written. -/
theorem mode_shiftAll {r : Outcome × Board} (h : Quiet e m taken w) (hfuel : 0 < fuel)
    (hrun : (c.shiftAll fuel).run e.reply w = some r) :
    r.2.hw.modeReg = c.protocol.mode >>> 1 := by
  obtain ⟨s, hready, hquiet⟩ := run_readyLoop h hfuel
  obtain ⟨hconfig, hmode, -, -⟩ := hquiet.config c
  rw [Call.shiftAll, Dialog.run_bind, hready, Option.bind_some, Dialog.run_ask] at hrun
  refine (Every.run_invariant (A := fun _ => True) (P := Said.KeepsConfig) (Q := fun _ => True)
    (I := fun w' => w'.hw.modeReg = c.protocol.mode >>> 1) ?_ (fun _ _ => trivial)
    (fun w' x hw' hx => (mode_reply w' x hx).trans hw') hmode hrun).2
  have hinner {α : Type} {d : Dialog Said (BitVec 32) α}
      (h : d.Every (fun _ => True) Said.Inner fun _ => True) :
      d.Every (fun _ => True) Said.KeepsConfig fun _ => True :=
    h.mono (fun _ hx => hx.keepsConfig) fun _ h => h
  refine .ask (fun _ => by simp) fun _ _ => .bind (hinner (inner_writeLoop _ _ _ _)) fun _ _ => ?_
  refine .bind (hinner (inner_skipLoop _ _)) fun _ _ => ?_
  refine .bind (hinner (inner_readLoop _ _ _)) fun _ _ => ?_
  refine .ite (fun _ => trivial) fun _ => ?_
  exact .ask (fun _ => by simp) fun _ _ => .ask (fun _ => by simp) fun _ _ =>
    .ask (fun _ => by simp) fun _ _ => trivial

theorem mode_transfer {sp : MasterState} {r : Outcome × Board} (h : Quiet e m taken w)
    (hvalid : ¬ sp.Invalid c.slave) (hfree : ¬ sp.Busy c.slave) (hfuel : 0 < fuel)
    (hrun : (peridotSpiMasterTransfer sp c fuel).run e.reply w = some r) :
    r.2.hw.modeReg = c.protocol.mode >>> 1 := by
  rw [peridotSpiMasterTransfer, if_neg hvalid, Dialog.run_ask, Dialog.run_bind,
    Option.bind_eq_some_iff] at hrun
  obtain ⟨s, hshift, hunlock⟩ := hrun
  have hlocked := h.reply (x := .lock) fun _ _ => by simp
  have hmode : s.2.hw.modeReg = c.protocol.mode >>> 1 := by
    rw [transfer, if_neg hfree] at hshift
    split at hshift
    · split_ifs at hshift
      · rename_i outFuncs hmap hslave
        obtain ⟨func, hfunc⟩ := outFuncs_of_valid hvalid hmap
        rw [hfunc] at hshift
        exact mode_shiftAll (hlocked.reply fun _ _ => by simp) hfuel hshift
      · exact mode_shiftAll hlocked hfuel hshift
    · exact mode_shiftAll hlocked hfuel hshift
  cases hunlock
  exact (mode_reply s.2 .unlock fun _ => by simp).trans hmode

end Call

/-- The call returns, with both sides in agreement. -/
def Agrees (sp : MasterState) (e : Bench) (c : Call) (m : ℕ) (taken : List Bool) (w : Board) :
    Prop :=
  ∃ least, ∀ fuel, least ≤ fuel →
    Ensures ((peridotSpiMasterTransfer sp c fuel).run e.reply w) (Agreed e c m taken)

theorem mode_of_agrees {sp : MasterState} {e : Bench} {c : Call} {m : ℕ} {taken : List Bool}
    {w : Board} (hvalid : ¬ sp.Invalid c.slave) (hfree : ¬ sp.Busy c.slave)
    (h : Quiet e m taken w) (hagrees : Agrees sp e c m taken w) : c.protocol.mode = 0 := by
  obtain ⟨least, hall⟩ := hagrees
  obtain ⟨r, hrun, hagreed⟩ := hall (least + 1) (Nat.le_succ _)
  have hlatched := mode_transfer h hvalid hfree (Nat.succ_pos _) hrun
  have hsame := hlatched.symm.trans hagreed.mode
  revert hsame
  generalize c.protocol.mode = mode
  revert mode
  decide

/-- **Driver and controller agree on mode 0**, and on no other mode: for every call that is let in,
every slave of the mode and bit order that the flags ask for, and any clocks in between. -/
theorem agree_iff (sp : MasterState) (c : Call) (hvalid : ¬ sp.Invalid c.slave)
    (hfree : ¬ sp.Busy c.slave) (hclkdiv : c.clkdiv.toNat ≤ 255) (out : ℕ → BitVec 8)
    (idle : ℕ → ℕ) (m : ℕ) (taken : List Bool) (w : Board)
    (h : Quiet ⟨c.protocol, out, idle⟩ m taken w) :
    Agrees sp ⟨c.protocol, out, idle⟩ c m taken w ↔ c.protocol.mode = 0 := by
  refine ⟨mode_of_agrees hvalid hfree h, fun hmode => ⟨enough, fun fuel hfuel => ?_⟩⟩
  exact (run_transfer h hvalid hfree rfl hmode (by omega) hfuel).mono fun r hr => hr.1

/-- After the reset. -/
def Board.reset : Board where
  hw := ⟨.idle, 0, 0, false, 0, 0, false, 0, 255, false, true, false⟩
  slave := ⟨0, 0, []⟩
  irqEnabled := true
  done := 0
  time := 0

theorem quiet_reset (e : Bench) : Quiet e 0 [] .reset :=
  ⟨rfl, rfl, fun h => absurd h (by decide), fun _ => ⟨rfl, rfl⟩⟩

/-- The call that reads the identification of the flash. -/
def readId : Call := ⟨0, 1, [0x9f], 1, 3, 0⟩

theorem agree_read_id :
    Agrees ⟨-1, none⟩ ⟨readId.protocol, fun n => BitVec.ofNat 8 n, fun n => n % 3⟩ readId 0 []
      .reset :=
  (agree_iff ⟨-1, none⟩ readId (by decide) (by decide) (by decide) _ _ 0 [] .reset
    (quiet_reset _)).mpr rfl

/-- Mode 3 is latched as mode 1. -/
theorem mode3_disagrees : ¬ ∀ (sp : MasterState) (c : Call), ¬ sp.Invalid c.slave →
    ¬ sp.Busy c.slave → c.clkdiv.toNat ≤ 255 → ∀ (out : ℕ → BitVec 8) (idle : ℕ → ℕ) (m : ℕ)
      (taken : List Bool) (w : Board), Quiet ⟨c.protocol, out, idle⟩ m taken w →
        Agrees sp ⟨c.protocol, out, idle⟩ c m taken w := by
  intro h
  have hagrees := h ⟨-1, none⟩ ⟨0, 1, [0x9f], 1, 3, 0x300⟩ (by decide) (by decide) (by decide)
    (fun _ => 0) (fun _ => 0) 0 [] .reset (quiet_reset _)
  exact absurd (mode_of_agrees (by decide) (by decide) (quiet_reset _) hagrees) (by decide)

end OlivePiccolo.Spi
