import OlivePiccolo.Flash.Programmer
import OlivePiccolo.Flash.RawTouch
import OlivePiccolo.Flash.Touch

/-!
# The areas of the programmer

A call of the reader or of the writer should stay in its area, and a call that does not fit should
fail without touching anything. The on-chip driver compares with the end of the device only, and the
raw accesses with nothing at all; `isolated_iff` says which calls keep to their areas all the same.
-/

namespace OlivePiccolo.Flash

open Dialog Rpc

/-! ## Isolation -/

/-- A byte of one of the two flashes. -/
inductive Cell
  | spi (a : ℕ)
  | onchip (a : ℤ)

def ProgSaid.nextMerged (merged : Bool) : ProgSaid → Bool
  | spi c => c.nextMerged merged
  | onchip _ => merged

def ProgSaid.Touches (flash : OnchipFlashDev) (merged : Bool) : ProgSaid → Cell → Prop
  | spi c, .spi a => c.Touches merged a
  | onchip c, .onchip a => c.Touches flash a
  | spi _, .onchip _ => False
  | onchip _, .spi _ => False

/-- The bytes of the area; in the SPI flash, only those that are asked for. -/
def AreaContains (flash : OnchipFlashDev) (area : CString) (offset len : ℕ) : Cell → Prop
  | .spi a => area = areaSpi ∧ offset ≤ a ∧ a < offset + len
  | .onchip a =>
    area = areaUfm ∧ flash.sector1.Contains a ∨
      area = areaCfg ∧ ∃ s ∈ flash.sector3 :: flash.more, s.Contains a

/-- The bytes that are asked for are in the area. -/
def AreaFits (flash : OnchipFlashDev) (capacity : ℕ) (area : CString) (offset len : ℕ) : Prop :=
  if area = areaSpi then offset + len ≤ capacity
  else if area = areaCfg then flash.sector3.startAddr.toNat + offset + len ≤ flash.length.toNat
  else if area = areaUfm then
    flash.sector1.startAddr.toNat + offset + len ≤ flash.sector1.endAddr.toNat + 1
  else False

def ProgCall.area : ProgCall → CString
  | read area _ _ => area
  | write area _ _ => area

def ProgCall.offset : ProgCall → ℕ
  | read _ offset _ => offset.toNat
  | write _ offset _ => offset.toNat

def ProgCall.len : ProgCall → ℕ
  | read _ _ len => len.toNat
  | write _ _ data => data.length

/-- Whatever the flashes answer, the call touches only bytes of its area; if it does not fit, it
touches nothing and has a negative result. -/
def ProgCall.Isolated (flash : OnchipFlashDev) (capacity : ℕ) (call : ProgCall) : Prop :=
  (∀ fuel, (call.dialog flash fuel).Along ProgSaid.nextMerged
      (fun merged c => ∀ x, c.Touches flash merged x →
        AreaContains flash call.area call.offset call.len x) (fun _ _ => True) false) ∧
    (¬ AreaFits flash capacity call.area call.offset call.len →
      ∀ fuel, (call.dialog flash fuel).Along ProgSaid.nextMerged
        (fun merged c => ∀ x, ¬ c.Touches flash merged x) (fun result _ => result < 0) false)

/-- In the SPI flash, the call fits, and its addresses have 24 bits. In sector 1, it fits, or leaves
the device as a whole. To read, the address has to be an `int`. -/
def ProgCall.Guarded (flash : OnchipFlashDev) (capacity : ℕ) : ProgCall → Prop
  | read area offset len =>
    if area = areaSpi then offset.toNat + len.toNat ≤ min capacity (2 ^ 24)
    else if area = areaCfg then flash.sector3.startAddr.toNat + offset.toNat < 2 ^ 31
    else if area = areaUfm then
      let stop := flash.sector1.startAddr.toNat + offset.toNat + len.toNat
      flash.sector1.startAddr.toNat + offset.toNat < 2 ^ 31 ∧
        (stop ≤ flash.sector1.endAddr.toNat + 1 ∨ flash.length.toNat < stop)
    else True
  | write area offset data =>
    if area = areaSpi then
      offset.toNat + data.length ≤ capacity ∧
        (offset = 0 ∨ offset.toNat + data.length ≤ 2 ^ 24)
    else if area = areaUfm then
      let stop := flash.sector1.startAddr.toNat + offset.toNat + data.length
      stop ≤ flash.sector1.endAddr.toNat + 1 ∨ flash.length.toNat < stop
    else True

/-! ## One flash -/

section Parts

variable {flash : OnchipFlashDev} {area : CString} {offset len : ℕ} {fits : Prop}

/-- What is observed of a program that talks to the on-chip flash. -/
theorem onchip_along_iff {P : Onchip → Prop} {P' : Bool → ProgSaid → Prop} {Q : ℤ → Prop}
    {d : Dialog Onchip Heard ℤ} {s : Bool} (hP : ∀ s c, P' s (.onchip c) ↔ P c) :
    (d.relabel ProgSaid.onchip ProgHeard.onchip).Along ProgSaid.nextMerged P' (fun r _ => Q r) s ↔
      d.Every anyHeard P Q := by
  rw [Along.relabel_iff ProgHeard.onchip_surjective]
  induction d with
  | ret a => exact Iff.rfl
  | fault => exact Iff.rfl
  | late => exact Iff.rfl
  | say c k ih =>
    exact and_congr (hP s c) (forall_congr' fun r => (ih r).trans (by simp only [true_implies]))

theorem onchip_silent_iff {merged : Bool} {c : Onchip} :
    (∀ x, ¬ (ProgSaid.onchip c).Touches flash merged x) ↔ c.Silent flash := by
  constructor
  · exact fun h a => h (.onchip a)
  · intro h x
    cases x with
    | spi a => exact not_false
    | onchip a => exact h a

theorem onchip_inside_iff {merged : Bool} {c : Onchip} :
    (∀ x, (ProgSaid.onchip c).Touches flash merged x → AreaContains flash area offset len x) ↔
      ∀ a, c.Touches flash a → AreaContains flash area offset len (.onchip a) := by
  constructor
  · exact fun h a => h (.onchip a)
  · intro h x hx
    cases x with
    | spi a => exact hx.elim
    | onchip a => exact h a hx

/-- A call of the on-chip driver is isolated if it fits or is rejected. -/
theorem onchip_isolated_iff {d : ℕ → Dialog Onchip Heard ℤ} {low high : ℕ} {rejected : Prop}
    (hwithin : fits → ∀ fuel, (d fuel).Every anyHeard (Onchip.Within flash low high) fun _ => True)
    (hcells : fits → ∀ a : ℤ, low ≤ a → a < high → AreaContains flash area offset len (.onchip a))
    (hrejects : ∀ fuel, RejectsOnchip flash (d fuel) ↔ rejected) :
    ((∀ fuel, ((d fuel).relabel ProgSaid.onchip ProgHeard.onchip).Along ProgSaid.nextMerged
        (fun merged c => ∀ x, c.Touches flash merged x → AreaContains flash area offset len x)
        (fun _ _ => True) false) ∧
      (¬ fits → ∀ fuel, ((d fuel).relabel ProgSaid.onchip ProgHeard.onchip).Along
        ProgSaid.nextMerged (fun merged c => ∀ x, ¬ c.Touches flash merged x)
        (fun result _ => result < 0) false)) ↔ fits ∨ rejected := by
  have hinside : ∀ fuel, ((d fuel).relabel ProgSaid.onchip ProgHeard.onchip).Along
      ProgSaid.nextMerged
      (fun merged c => ∀ x, c.Touches flash merged x → AreaContains flash area offset len x)
      (fun _ _ => True) false ↔ _ := fun fuel =>
    onchip_along_iff (Q := fun _ => True) fun merged c => onchip_inside_iff
  have hsilent : ∀ fuel, ((d fuel).relabel ProgSaid.onchip ProgHeard.onchip).Along
      ProgSaid.nextMerged (fun merged c => ∀ x, ¬ c.Touches flash merged x)
      (fun result _ => result < 0) false ↔ RejectsOnchip flash (d fuel) := fun fuel =>
    onchip_along_iff fun merged c => onchip_silent_iff
  simp only [hinside, hsilent]
  constructor
  · intro h
    by_cases hfits : fits
    · exact .inl hfits
    · exact .inr ((hrejects 0).mp (h.2 hfits 0))
  · intro h
    by_cases hfits : fits
    · refine ⟨fun fuel => (hwithin hfits fuel).mono (fun c hc a ha => ?_) fun _ _ => trivial,
        fun hno => absurd hfits hno⟩
      exact hcells hfits a (hc a ha).1 (hc a ha).2
    · have hrejected := h.resolve_left hfits
      refine ⟨fun fuel => ((hrejects fuel).mpr hrejected).mono (fun c hc a ha => absurd ha (hc a))
        fun _ _ => trivial, fun _ fuel => (hrejects fuel).mpr hrejected⟩

theorem spi_only_iff {R : ℕ → Prop} {Q : ℤ → Prop} {P : Bool → ProgSaid → Prop}
    {d : Dialog Said Reply ℤ} (hP : ∀ s c, P s (.spi c) ↔ c.Only R s) :
    (d.relabel ProgSaid.spi ProgHeard.spi).Along ProgSaid.nextMerged P (fun r _ => Q r) false ↔
      d.Along Said.nextMerged (fun s c => c.Only R s) (fun r _ => Q r) false := by
  rw [Along.relabel_iff ProgHeard.spi_surjective]
  simp only [hP]
  rfl

theorem spi_silent_iff {merged : Bool} {c : Said} :
    (∀ x, ¬ (ProgSaid.spi c).Touches flash merged x) ↔ c.Only (fun _ => False) merged := by
  constructor
  · exact fun h a => h (.spi a)
  · intro h x
    cases x with
    | spi a => exact h a
    | onchip a => exact not_false

theorem spi_inside_iff {merged : Bool} {c : Said} :
    (∀ x, (ProgSaid.spi c).Touches flash merged x → AreaContains flash areaSpi offset len x) ↔
      c.Only (fun a => offset ≤ a ∧ a < offset + len) merged := by
  constructor
  · exact fun h a ha => (h (.spi a) ha).2
  · intro h x hx
    cases x with
    | spi a => exact ⟨rfl, h a hx⟩
    | onchip a => exact hx.elim

/-- A raw access is isolated if it fits and touches only what it is asked to. -/
theorem spi_isolated_iff (offset len : ℕ) (fits : Prop) (Only : (ℕ → Prop) → Prop)
    {d : ℕ → Dialog Said Reply ℤ}
    (honly : ∀ R, (∀ fuel, (d fuel).Along Said.nextMerged (fun s c => c.Only R s)
      (fun _ _ => True) false) ↔ Only R)
    (htouches : ¬ Only fun _ => False) :
    ((∀ fuel, ((d fuel).relabel ProgSaid.spi ProgHeard.spi).Along ProgSaid.nextMerged
        (fun merged c => ∀ x, c.Touches flash merged x → AreaContains flash areaSpi offset len x)
        (fun _ _ => True) false) ∧
      (¬ fits → ∀ fuel, ((d fuel).relabel ProgSaid.spi ProgHeard.spi).Along
        ProgSaid.nextMerged (fun merged c => ∀ x, ¬ c.Touches flash merged x)
        (fun result _ => result < 0) false)) ↔
      fits ∧ Only fun a => offset ≤ a ∧ a < offset + len := by
  have hinside : ∀ fuel, ((d fuel).relabel ProgSaid.spi ProgHeard.spi).Along
      ProgSaid.nextMerged
      (fun merged c => ∀ x, c.Touches flash merged x → AreaContains flash areaSpi offset len x)
      (fun _ _ => True) false ↔ _ := fun fuel =>
    spi_only_iff (Q := fun _ => True) fun merged c => spi_inside_iff
  have hsilent : ∀ fuel, ((d fuel).relabel ProgSaid.spi ProgHeard.spi).Along
      ProgSaid.nextMerged (fun merged c => ∀ x, ¬ c.Touches flash merged x)
      (fun result _ => result < 0) false ↔ _ := fun fuel =>
    spi_only_iff (Q := (· < 0)) fun merged c => spi_silent_iff
  simp only [hinside, hsilent, honly]
  constructor
  · rintro ⟨hstays, hrejected⟩
    refine ⟨by_contra fun hno => htouches ((honly _).mp fun fuel => ?_), hstays⟩
    exact (hrejected hno fuel).mono (fun _ _ h => h) fun _ _ _ => trivial
  · exact fun ⟨hfits, hstays⟩ => ⟨hstays, fun hno => absurd hfits hno⟩

end Parts

/-! ## Calls -/

section Calls

variable {flash : OnchipFlashDev} {capacity : ℕ} {area : CString} {offset len : BitVec 32}
  {data : Mem} {s : Sector} {stop : ℕ}

theorem ProgCall.Checked.page_dvd {length : ℕ} (h : Checked flash area offset length)
    (harea : area ≠ areaSpi) :
    flash.pageSize.toNat ∣ offset.toNat ∧ flash.pageSize.toNat ∣ length := by
  have hsize : progBlocksize flash area = flash.pageSize := by
    rcases h.named with rfl | rfl | rfl
    · exact absurd rfl harea
    · rfl
    · rfl
  rw [← hsize]
  exact ⟨h.offset_dvd, h.length_dvd⟩

/-- To read from a sector on: the area ends at `stop`. -/
theorem onchip_read_iff (hs : s ∈ flash.sectors) (hstop : stop ≤ flash.length.toNat)
    (hcells : ∀ a : ℤ, s.startAddr.toNat ≤ a → a < stop →
      AreaContains flash area offset.toNat len.toNat (.onchip a))
    (hoffset : offset.toNat < 2 ^ 31) (hpos : 0 < len.toNat) (hlen : len.toNat ≤ 2 ^ 22) :
    ((∀ _ : ℕ, ((altOnchipFlashRead flash (offset + s.startAddr) len).relabel ProgSaid.onchip
        ProgHeard.onchip).Along ProgSaid.nextMerged (fun merged c => ∀ x, c.Touches flash merged x →
          AreaContains flash area offset.toNat len.toNat x) (fun _ _ => True) false) ∧
      (¬ s.startAddr.toNat + offset.toNat + len.toNat ≤ stop →
        ∀ _ : ℕ, ((altOnchipFlashRead flash (offset + s.startAddr) len).relabel ProgSaid.onchip
          ProgHeard.onchip).Along ProgSaid.nextMerged
          (fun merged c => ∀ x, ¬ c.Touches flash merged x) (fun result _ => result < 0) false)) ↔
      s.startAddr.toNat + offset.toNat + len.toNat ≤ stop ∨
        s.startAddr.toNat + offset.toNat < 2 ^ 31 ∧
          flash.length.toNat < s.startAddr.toNat + offset.toNat + len.toNat := by
  have hend := flash.endAddr_lt hs
  have hle := (flash.paged s hs).1
  have hdevice := flash.length_le
  have hsum : (offset + s.startAddr).toNat = offset.toNat + s.startAddr.toNat :=
    toNat_add_of_lt (by omega)
  refine onchip_isolated_iff (d := fun _ => altOnchipFlashRead flash (offset + s.startAddr) len)
    (fun hfits _ => read_within (by omega))
    (fun hfits a hlow hhigh => hcells a (by omega) (by omega)) fun _ => ?_
  rw [read_rejects_iff hpos, read_range_iff hoffset (by omega) hpos hlen]

/-- To write from a sector on. -/
theorem onchip_write_iff (hs : s ∈ flash.sectors) (hstop : stop ≤ flash.length.toNat)
    (hcells : ∀ a : ℤ, s.startAddr.toNat ≤ a → a < stop →
      AreaContains flash area offset.toNat data.length (.onchip a))
    (harea : area ≠ areaSpi) (h : ProgCall.Checked flash area offset data.length) :
    ((∀ fuel, ((altOnchipFlashWrite flash fuel (offset + s.startAddr) data
        (BitVec.ofNat 32 data.length)).relabel ProgSaid.onchip ProgHeard.onchip).Along
          ProgSaid.nextMerged (fun merged c => ∀ x, c.Touches flash merged x →
            AreaContains flash area offset.toNat data.length x) (fun _ _ => True) false) ∧
      (¬ s.startAddr.toNat + offset.toNat + data.length ≤ stop →
        ∀ fuel, ((altOnchipFlashWrite flash fuel (offset + s.startAddr) data
          (BitVec.ofNat 32 data.length)).relabel ProgSaid.onchip ProgHeard.onchip).Along
            ProgSaid.nextMerged (fun merged c => ∀ x, ¬ c.Touches flash merged x)
            (fun result _ => result < 0) false)) ↔
      s.startAddr.toNat + offset.toNat + data.length ≤ stop ∨
        flash.length.toNat < s.startAddr.toNat + offset.toNat + data.length := by
  have hend := flash.endAddr_lt hs
  obtain ⟨hle, hstart, -⟩ := flash.paged s hs
  have hdevice := flash.length_le
  have hoffset := h.offset_lt
  have hpos := h.length_pos
  have hlt := h.length_lt
  obtain ⟨hpage, hpage'⟩ := h.page_dvd harea
  have hsum : (offset + s.startAddr).toNat = offset.toNat + s.startAddr.toNat :=
    toNat_add_of_lt (by omega)
  have hlength : (BitVec.ofNat 32 data.length).toNat = data.length := by
    rw [BitVec.toNat_ofNat, Nat.mod_eq_of_lt (by omega)]
  have hint := int_cases (BitVec.ofNat 32 data.length)
  refine onchip_isolated_iff (fun hfits fuel => write_within ?_ ?_ ?_ ?_)
    (fun hfits a hlow hhigh => hcells a (by omega) (by omega)) fun fuel => ?_
  · rw [hsum]
    exact Nat.dvd_add hpage hstart
  · rwa [hlength]
  · rwa [hlength]
  · omega
  · rw [write_rejects_iff (by omega), write_range_iff hoffset (by omega) (by omega) (by omega),
      hlength]

/-- Sector 1 ends where its area ends. -/
theorem ufm_cells {offset len : ℕ} (a : ℤ) (hlow : flash.sector1.startAddr.toNat ≤ a)
    (hhigh : a < (flash.sector1.endAddr.toNat + 1 : ℕ)) :
    AreaContains flash areaUfm offset len (.onchip a) := .inl ⟨rfl, hlow, by omega⟩

theorem cfg_cells {offset len : ℕ} (a : ℤ) (hlow : flash.sector3.startAddr.toNat ≤ a)
    (hhigh : a < flash.length.toNat) : AreaContains flash areaCfg offset len (.onchip a) := by
  have hchain := (List.isChain_cons_cons.mp (List.isChain_cons_cons.mp flash.consecutive).2).2
  rw [flash.length_eq] at hhigh
  exact .inr ⟨rfl, exists_sector flash.more flash.sector3 hchain hlow (by omega)⟩

theorem spi_read_iff (h : ProgCall.Checked flash areaSpi offset len.toNat)
    (hlen : len.toNat = 4096) :
    (ProgCall.read areaSpi offset len).Isolated flash capacity ↔
      (ProgCall.read areaSpi offset len).Guarded flash capacity := by
  have hdvd : 4096 ∣ offset.toNat := h.offset_dvd
  refine (spi_isolated_iff offset.toNat len.toNat (offset.toNat + len.toNat ≤ capacity) _
    (fun R => (forall_const ℕ).trans raw_read_only_iff) ?_).trans ?_
  · exact fun hnone => hnone _ (Nat.le_refl _) (by omega)
  · show _ ↔ offset.toNat + len.toNat ≤ min capacity (2 ^ 24)
    constructor
    · rintro ⟨hfits, honly⟩
      have hfirst := honly _ (Nat.le_refl _) (by omega)
      omega
    · exact fun hguard => ⟨by omega, fun a hlow hhigh => by omega⟩

theorem spi_write_iff (h : ProgCall.Checked flash areaSpi offset data.length) :
    (ProgCall.write areaSpi offset data).Isolated flash capacity ↔
      (ProgCall.write areaSpi offset data).Guarded flash capacity := by
  have hdvd : 4096 ∣ offset.toNat := h.offset_dvd
  have hdvd' : 4096 ∣ data.length := h.length_dvd
  have hpos := h.length_pos
  have hlt := h.length_lt
  have hoffset := h.offset_lt
  have honly : ∀ R : ℕ → Prop, (∀ fuel, (epcsFatfsRawWrite fuel offset data
      (BitVec.ofNat 32 data.length)).Along Said.nextMerged (fun s c => c.Only R s)
        (fun _ _ => True) false) ↔ ∀ j < data.length / 4096, ∀ a,
          a / 4096 = (offset.toNat + 4096 * j) % 2 ^ 24 / 4096 → R a := by
    intro R
    have hiff := raw_write_only_iff (R := R) hdvd hdvd' (by omega) hlt rfl
    rwa [BitVec.ofNat_toNat, BitVec.setWidth_eq] at hiff
  refine (spi_isolated_iff offset.toNat data.length (offset.toNat + data.length ≤ capacity) _ honly
    ?_).trans ?_
  · exact fun hnone => hnone 0 (by omega) (offset.toNat % 2 ^ 24) rfl
  · show _ ↔ offset.toNat + data.length ≤ capacity ∧
      (offset = 0 ∨ offset.toNat + data.length ≤ 2 ^ 24)
    refine and_congr Iff.rfl (Iff.trans ?_ (or_congr BitVec.toNat_eq.symm Iff.rfl))
    change _ ↔ offset.toNat = 0 ∨ _
    constructor
    · intro h
      by_cases hfar : offset.toNat < 2 ^ 24
      · by_contra hno
        -- The sector behind the last address with 24 bits is the first of the flash.
        have hwrap := h ((2 ^ 24 - offset.toNat) / 4096) (by omega) 0 (by omega)
        omega
      · have hfirst := h 0 (by omega) (offset.toNat % 2 ^ 24) rfl
        omega
    · intro h j hj a ha
      omega

theorem sector1_mem (flash : OnchipFlashDev) : flash.sector1 ∈ flash.sectors := List.mem_cons_self

theorem sector3_mem (flash : OnchipFlashDev) : flash.sector3 ∈ flash.sectors :=
  List.mem_cons_of_mem _ (List.mem_cons_of_mem _ List.mem_cons_self)

theorem read_isolated_iff (hlen : len = progBlocksize flash area)
    (h : ProgCall.Checked flash area offset len.toNat) :
    (ProgCall.read area offset len).Isolated flash capacity ↔
      (ProgCall.read area offset len).Guarded flash capacity := by
  have hoffset := h.offset_lt
  have hpos := h.length_pos
  have hdevice := flash.length_le
  have hend := flash.endAddr_lt (sector1_mem flash)
  have hend' := flash.endAddr_lt (sector3_mem flash)
  have hle := (flash.paged _ (sector3_mem flash)).1
  rcases h.named with rfl | rfl | rfl
  · exact spi_read_iff h (congrArg BitVec.toNat hlen)
  · have hsize : len.toNat ≤ 2 ^ 22 := (congrArg BitVec.toNat hlen).trans_le page_le
    refine (onchip_read_iff (sector3_mem flash) (Nat.le_refl _) cfg_cells hoffset hpos
      hsize).trans ?_
    show _ ↔ flash.sector3.startAddr.toNat + offset.toNat < 2 ^ 31
    omega
  · have hsize : len.toNat ≤ 2 ^ 22 := (congrArg BitVec.toNat hlen).trans_le page_le
    refine (onchip_read_iff (sector1_mem flash) hend ufm_cells hoffset hpos hsize).trans ?_
    show _ ↔ flash.sector1.startAddr.toNat + offset.toNat < 2 ^ 31 ∧ (_ ≤ _ ∨ _ < _)
    omega

theorem write_isolated_iff (h : ProgCall.Checked flash area offset data.length) :
    (ProgCall.write area offset data).Isolated flash capacity ↔
      (ProgCall.write area offset data).Guarded flash capacity := by
  have hend := flash.endAddr_lt (sector1_mem flash)
  rcases h.named with rfl | rfl | rfl
  · exact spi_write_iff h
  · refine (onchip_write_iff (sector3_mem flash) (Nat.le_refl _) cfg_cells (by decide) h).trans ?_
    exact iff_true_intro (Nat.lt_or_ge _ _).symm
  · exact onchip_write_iff (sector1_mem flash) hend ufm_cells (show areaUfm ≠ areaSpi by decide) h

/-- A call that `rubic.prog.hash` or `rubic.prog.write` passes on is isolated if and only if it is
guarded. -/
theorem isolated_iff (flash : OnchipFlashDev) (md5 : List UInt8 → List UInt8) (capacity : ℕ)
    (call : ProgCall) (h : PassedOn flash md5 call) :
    call.Isolated flash capacity ↔ call.Guarded flash capacity := by
  have hsound := h.sound
  cases call with
  | read area offset len => exact read_isolated_iff hsound.1 hsound.2
  | write area offset data => exact write_isolated_iff hsound

end Calls

/-! ## A page behind sector 1 -/

/-- The parameters of `rubic.prog.hash`. -/
def hashParams (area : CString) (offset : BitVec 32) : Mem :=
  [31, 0, 0, 0, 0x02] ++ keyArea.encode ++ leBytes 4 4 ++ area.encode ++
    0x10 :: keyOffset.encode ++ leBytes 4 offset.toNat ++ [0]

theorem hash_passes (md5 : List UInt8 → List UInt8) :
    PassedOn .ufmData md5 (.read areaUfm 0x3800 2048) :=
  .inl ⟨true, hashParams areaUfm 0x3800, by decide +kernel⟩

theorem hash_passes_behind (md5 : List UInt8 → List UInt8) :
    PassedOn .ufmData md5 (.read areaUfm 0x4000 2048) :=
  .inl ⟨true, hashParams areaUfm 0x4000, by decide +kernel⟩

/-- The last page of sector 1. -/
theorem isolated_last_page : PassedOn .ufmData id (.read areaUfm 0x3800 2048) ∧
    (ProgCall.read areaUfm 0x3800 2048).Isolated .ufmData (2 ^ 23) :=
  ⟨hash_passes id, (isolated_iff .ufmData id (2 ^ 23) _ (hash_passes id)).mpr
    ⟨by decide, .inl (by decide)⟩⟩

/-- The page behind it is in sector 2. -/
theorem hash_leaves_area : ¬ ∀ (flash : OnchipFlashDev) (md5 : List UInt8 → List UInt8)
    (capacity : ℕ) (call : ProgCall), PassedOn flash md5 call → call.Isolated flash capacity := by
  intro h
  have hisolated := h .ufmData id (2 ^ 23) _ (hash_passes_behind id)
  have hguarded := (read_isolated_iff (hash_passes_behind id).sound.1
    (hash_passes_behind id).sound.2).mp hisolated
  have hstop : 0 + 0x4000 + 2048 ≤ 0x3fff + 1 ∨ 176128 < 0 + 0x4000 + 2048 := hguarded.2
  omega

end OlivePiccolo.Flash
