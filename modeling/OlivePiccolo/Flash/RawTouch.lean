import OlivePiccolo.Flash.Nor
import OlivePiccolo.Library.Tracking

/-!
# What raw accesses touch

The commands of the SPI flash have addresses of 24 bits: `epcs_fatfs_raw_read` and
`epcs_fatfs_raw_write` touch the bytes at the remainders of their addresses
(`raw_read_only_iff`, `raw_write_only_iff`).
-/

namespace OlivePiccolo.Flash

open Dialog

/-! ## Bytes that are touched -/

/-- Bytes behind a merged command belong to it. -/
def Said.nextMerged (merged : Bool) : Said → Bool
  | .command _ _ merge => merge
  | .lock => merged
  | .unlock => merged

/-- The command reads, erases or programs the byte. -/
def Said.Touches (merged : Bool) : Said → ℕ → Prop
  | .command (inst :: a₂ :: a₁ :: a₀ :: _) n _, a =>
    merged = false ∧
      (inst = FREAD ∧ addressOf [a₂, a₁, a₀] ≤ a ∧ a < addressOf [a₂, a₁, a₀] + n ∨
        inst = ERASE ∧ a / 4096 = addressOf [a₂, a₁, a₀] / 4096 ∨
          inst = PROG ∧ a / 256 = addressOf [a₂, a₁, a₀] / 256)
  | _, _ => False

/-- All bytes that are touched meet `R`. -/
def Said.Only (R : ℕ → Prop) (merged : Bool) (c : Said) : Prop := ∀ a, c.Touches merged a → R a

section Commands

variable {R : ℕ → Prop} {merged : Bool} {addr : BitVec 32}

theorem touches_read {n : ℕ} {a : ℕ} :
    (Said.command (FREAD :: addressBytes addr ++ [0xff]) n false).Touches false a ↔
      addr.toNat % 2 ^ 24 ≤ a ∧ a < addr.toNat % 2 ^ 24 + n := by
  rw [← addressOf_addressBytes addr]
  constructor
  · rintro ⟨-, ⟨-, h⟩ | ⟨h, -⟩ | ⟨h, -⟩⟩
    · exact h
    · exact absurd h (by decide)
    · exact absurd h (by decide)
  · exact fun h => ⟨rfl, .inl ⟨rfl, h⟩⟩

theorem touches_erase {a : ℕ} :
    (Said.command (ERASE :: addressBytes addr) 0 merged).Touches false a ↔
      a / 4096 = addr.toNat % 2 ^ 24 / 4096 := by
  rw [← addressOf_addressBytes addr]
  constructor
  · rintro ⟨-, ⟨h, -⟩ | ⟨-, h⟩ | ⟨h, -⟩⟩
    · exact absurd h (by decide)
    · exact h
    · exact absurd h (by decide)
  · exact fun h => ⟨rfl, .inr (.inl ⟨rfl, h⟩)⟩

theorem touches_program {a : ℕ} :
    (Said.command (PROG :: addressBytes addr) 0 merged).Touches false a ↔
      a / 256 = addr.toNat % 2 ^ 24 / 256 := by
  rw [← addressOf_addressBytes addr]
  constructor
  · rintro ⟨-, ⟨h, -⟩ | ⟨h, -⟩ | ⟨-, h⟩⟩
    · exact absurd h (by decide)
    · exact absurd h (by decide)
    · exact h
  · exact fun h => ⟨rfl, .inr (.inr ⟨rfl, h⟩)⟩

/-- What follows a merged command is data. -/
theorem only_data {data : List UInt8} {n : ℕ} {merge : Bool} :
    (Said.command data n merge).Only R true := by
  intro a ha
  unfold Said.Touches at ha
  split at ha
  · exact absurd ha.1 (by decide)
  · exact ha.elim

end Commands

/-! ## Rules -/

section Rules

variable {α β : Type} {R : ℕ → Prop} {merge s s' : Bool} {write : List UInt8} {n : ℕ}

theorem along_command {f : List UInt8 → Dialog Said Reply (Option α)} {Q : Option α → Bool → Prop}
    (hc : (Said.command write n merge).Only R s) (hfail : Q none merge)
    (hf : ∀ data, (f data).Along Said.nextMerged (fun s c => c.Only R s) Q merge) :
    (andThen (tryCommand write n merge) f).Along Said.nextMerged (fun s c => c.Only R s) Q s := by
  refine ⟨hc, fun r => ?_⟩
  show (andThen (pure (if r.result < 0 then none else some r.data)) f).Along _ _ _ merge
  split_ifs with hr
  · exact hfail
  · exact hf r.data

theorem along_andThen {d : Dialog Said Reply (Option β)}
    {f : β → Dialog Said Reply (Option α)} {P : β → Bool → Prop} {Q : Option α → Bool → Prop}
    (hd : d.Along Said.nextMerged (fun s c => c.Only R s) (fun r s => ∀ b, r = some b → P b s) s)
    (hfail : ∀ s, Q none s)
    (hf : ∀ b s, P b s → (f b).Along Said.nextMerged (fun s c => c.Only R s) Q s) :
    (andThen d f).Along Said.nextMerged (fun s c => c.Only R s) Q s := by
  refine .bind hd fun r s' hr => ?_
  cases r with
  | none => exact hfail s'
  | some b => exact hf b s' (hr b rfl)

theorem reaches_command {f : List UInt8 → Dialog Said Reply (Option α)} {b : Option α}
    (data : List UInt8) (hf : (f data).Reaches Said.nextMerged b s' merge) :
    (andThen (tryCommand write n merge) f).Reaches Said.nextMerged b s' s := ⟨⟨0, data⟩, hf⟩

theorem reaches_andThen {d : Dialog Said Reply (Option β)} {f : β → Dialog Said Reply (Option α)}
    {s'' : Bool} {x : β} {b : Option α} (hd : d.Reaches Said.nextMerged (some x) s' s)
    (hf : (f x).Reaches Said.nextMerged b s'' s') :
    (andThen d f).Reaches Said.nextMerged b s'' s := .bind hd hf

end Rules

/-! ## Sectors -/

section Sectors

variable {R : ℕ → Prop} {fuel base sector : ℕ} {ptr : Mem} {inst : UInt8} {c c' : Cursor} {page : ℤ}

theorem waitFinish_along (fuel : ℕ) :
    (waitFinish fuel).Along Said.nextMerged (fun s c => c.Only R s)
      (fun r s => ∀ u, r = some u → s = false) false := by
  induction fuel with
  | zero => trivial
  | succ fuel ih =>
    exact along_command (fun _ ha => ha.elim) (fun _ hr => nomatch hr) fun sr =>
      .ite (fun _ _ _ => rfl) fun _ => ih

theorem waitFinish_reaches (h : 0 < fuel) :
    (waitFinish fuel).Reaches Said.nextMerged (some ()) false false := by
  obtain ⟨fuel, rfl⟩ := Nat.exists_eq_succ_of_ne_zero h.ne'
  exact reaches_command [0, 0] ⟨rfl, rfl⟩

/-- A round of the loop over the pages, around what it does between the lock and the wait. -/
theorem pageRound_along {Q : UInt8 × Cursor → Prop}
    (h : (eraseOrProgram ptr page inst c).Along Said.nextMerged (fun s c => c.Only R s)
      (fun r s => ∀ x, r = some x → Q x ∧ s = false) false) :
    (pageRound fuel ptr page inst c).Along Said.nextMerged (fun s c => c.Only R s)
      (fun r s => ∀ x, r = some x → Q x ∧ s = false) false := by
  refine .ask (fun _ ha => ha.elim) fun _ =>
    .bind (Q := fun r s => ∀ x, r = some x → Q x ∧ s = false) ?_ fun r s hr =>
      .ask (fun _ ha => ha.elim) fun _ => hr
  refine along_command (fun _ ha => ha.elim) (fun _ hx => nomatch hx) fun _ => ?_
  refine along_andThen h (fun _ _ hx => nomatch hx) fun x s hx => ?_
  rw [hx.2]
  refine along_andThen (P := fun _ s => s = false) (waitFinish_along fuel)
    (fun _ _ hx => nomatch hx) fun _ s hs y hy => ?_
  rw [← Option.some.inj hy]
  exact ⟨hx.1, hs⟩

theorem pageRound_reaches {x : UInt8 × Cursor} (hfuel : 0 < fuel)
    (h : (eraseOrProgram ptr page inst c).Reaches Said.nextMerged (some x) false false) :
    (pageRound fuel ptr page inst c).Reaches Said.nextMerged (some x) false false := by
  have hcommands : (andThen (tryCommand [WREN] 0 false) fun _ =>
      andThen (eraseOrProgram ptr page inst c) fun next =>
        andThen (waitFinish fuel) fun _ => pure (some next)).Reaches Said.nextMerged (some x) false
      (Said.nextMerged false .lock) := by
    refine reaches_command [] (reaches_andThen h ?_)
    exact reaches_andThen (waitFinish_reaches hfuel) ⟨rfl, rfl⟩
  exact .ask ⟨0, []⟩ (hcommands.bind (.ask ⟨0, []⟩ ⟨rfl, rfl⟩))

theorem erase_along (hpage : page < 0) (h : ∀ a, a / 4096 = c.addr.toNat % 2 ^ 24 / 4096 → R a) :
    (eraseOrProgram ptr page ERASE c).Along Said.nextMerged (fun s c => c.Only R s)
      (fun r s => ∀ x, r = some x → x = (PROG, c) ∧ s = false) false := by
  rw [eraseOrProgram, if_pos hpage]
  refine along_command (fun a ha => h a (touches_erase.mp ha)) (fun _ hx => nomatch hx)
    fun _ x hx => ?_
  exact ⟨(Option.some.inj hx).symm, rfl⟩

theorem program_along (hpage : ¬ page < 0)
    (h : ∀ a, a / 256 = c.addr.toNat % 2 ^ 24 / 256 → R a) :
    (eraseOrProgram ptr page PROG c).Along Said.nextMerged (fun s c => c.Only R s)
      (fun r s => ∀ x, r = some x → x = (PROG, ⟨c.addr + 256, c.buff + 256⟩) ∧ s = false)
      false := by
  rw [eraseOrProgram, if_neg hpage]
  refine along_command (fun a ha => h a (touches_program.mp ha)) (fun _ hx => nomatch hx)
    fun _ => .access fun data _ => ?_
  refine along_command only_data (fun _ hx => nomatch hx) fun _ x hx => ?_
  exact ⟨(Option.some.inj hx).symm, rfl⟩

theorem erase_reaches (hpage : page < 0) :
    (eraseOrProgram ptr page ERASE c).Reaches Said.nextMerged (some (PROG, c)) false false := by
  rw [eraseOrProgram, if_pos hpage]
  exact reaches_command [] ⟨rfl, rfl⟩

theorem program_reaches (hpage : ¬ page < 0) {data : List UInt8}
    (hdata : ptr.readBytes c.buff 256 = some data) :
    (eraseOrProgram ptr page PROG c).Reaches Said.nextMerged
      (some (PROG, ⟨c.addr + 256, c.buff + 256⟩)) false false := by
  rw [eraseOrProgram, if_neg hpage]
  refine reaches_command [] ?_
  rw [hdata]
  exact reaches_command [] ⟨rfl, rfl⟩

/-- The cursor is at a page of the sector that begins at `base`. -/
structure Cursor.OnPage (c : Cursor) (base i : ℕ) : Prop where
  addr_eq : c.addr.toNat = base + 256 * i
  aligned : base % 4096 = 0
  room : base + 4096 < 2 ^ 32

theorem Cursor.OnPage.next {i : ℕ} (h : c.OnPage base i) (hi : i < 16) :
    (⟨c.addr + 256, c.buff + 256⟩ : Cursor).OnPage base (i + 1) := by
  have haddr := h.addr_eq
  have hroom := h.room
  refine ⟨?_, h.aligned, hroom⟩
  show (c.addr + 256).toNat = _
  rw [BitVec.toNat_add]
  change (c.addr.toNat + 256) % 2 ^ 32 = _
  omega

theorem Cursor.OnPage.page_mem {i a : ℕ} (h : c.OnPage base i) (hi : i < 16)
    (ha : a / 256 = c.addr.toNat % 2 ^ 24 / 256) : a / 4096 = base % 2 ^ 24 / 4096 := by
  have haddr := h.addr_eq
  have haligned := h.aligned
  omega

theorem pages_along {n i : ℕ} (hpage : 0 ≤ page) (hc : c.OnPage base i) (hn : i + n = 16)
    (hR : ∀ a, a / 4096 = base % 2 ^ 24 / 4096 → R a) :
    (pageLoop fuel ptr n page PROG c).Along Said.nextMerged (fun s c => c.Only R s)
      (fun r s => ∀ c', r = some c' → c'.OnPage base 16 ∧ s = false) false := by
  induction n generalizing page c i with
  | zero =>
    intro c' hc'
    rw [← Option.some.inj hc']
    rw [Nat.add_zero] at hn
    exact ⟨hn ▸ hc, rfl⟩
  | succ n ih =>
    have hi : i < 16 := by omega
    refine along_andThen (pageRound_along (program_along (Int.not_lt.mpr hpage)
      fun a ha => hR a (hc.page_mem hi ha))) (fun _ _ hx => nomatch hx) fun x s hx => ?_
    obtain ⟨rfl, rfl⟩ := hx
    exact ih (by omega) (hc.next hi) (by omega)

theorem pages_reach {n i : ℕ} (hfuel : 0 < fuel) (hpage : 0 ≤ page) (hc : c.OnPage base i)
    (hn : i + n = 16) (hbuff : 0 ≤ c.buff) (hroom : c.buff + 256 * n ≤ ptr.length) :
    ∃ c' : Cursor, c'.OnPage base 16 ∧ c'.buff = c.buff + 256 * n ∧
      (pageLoop fuel ptr n page PROG c).Reaches Said.nextMerged (some c') false false := by
  induction n generalizing page c i with
  | zero =>
    rw [Nat.add_zero] at hn
    exact ⟨c, hn ▸ hc, by omega, rfl, rfl⟩
  | succ n ih =>
    have hi : i < 16 := by omega
    have hdata : ptr.readBytes c.buff 256 = some ((ptr.drop c.buff.toNat).take 256) :=
      if_pos ⟨hbuff, by decide, by omega⟩
    have hround := pageRound_reaches hfuel (program_reaches (Int.not_lt.mpr hpage) hdata)
    obtain ⟨c', hpage', hbuff', hreach⟩ := ih (show 0 ≤ page + 1 by omega) (hc.next hi) (by omega)
      (show 0 ≤ c.buff + 256 by omega) (show c.buff + 256 + 256 * n ≤ ptr.length by omega)
    refine ⟨c', hpage', ?_, reaches_andThen hround hreach⟩
    change c'.buff = c.buff + 256 + 256 * n at hbuff'
    omega

theorem sector_along (hc : c.OnPage base 0) (hR : ∀ a, a / 4096 = base % 2 ^ 24 / 4096 → R a) :
    (pageLoop fuel ptr 17 (-1) ERASE c).Along Said.nextMerged (fun s c => c.Only R s)
      (fun r s => ∀ c', r = some c' → c'.OnPage base 16 ∧ s = false) false := by
  have haddr : c.addr.toNat = base := hc.addr_eq
  refine along_andThen (pageRound_along (erase_along (by decide) fun a ha => hR a (haddr ▸ ha)))
    (fun _ _ hx => nomatch hx) fun x s hx => ?_
  obtain ⟨rfl, rfl⟩ := hx
  exact pages_along (by decide) hc rfl hR

theorem sector_reaches (hfuel : 0 < fuel) (hc : c.OnPage base 0) (hbuff : 0 ≤ c.buff)
    (hroom : c.buff + 4096 ≤ ptr.length) :
    ∃ c' : Cursor, c'.OnPage base 16 ∧ c'.buff = c.buff + 4096 ∧
      (pageLoop fuel ptr 17 (-1) ERASE c).Reaches Said.nextMerged (some c') false false := by
  obtain ⟨c', hpage, hbuff', hreach⟩ := pages_reach (n := 16) hfuel
    (show (0 : ℤ) ≤ -1 + 1 by decide) hc rfl hbuff hroom
  exact ⟨c', hpage, hbuff', reaches_andThen (pageRound_reaches hfuel (erase_reaches (by decide)))
    hreach⟩

/-- The sectors one after the other. -/
theorem Cursor.OnPage.nextSector (h : c.OnPage base 16) (hroom : base + 4096 + 4096 < 2 ^ 32) :
    c.OnPage (base + 4096) 0 := by
  have haligned := h.aligned
  exact ⟨h.addr_eq, by omega, hroom⟩

theorem room_next {count : ℕ} (hpos : 0 < count) (h : base + 4096 * (count + 1) < 2 ^ 32) :
    base + 4096 + 4096 < 2 ^ 32 :=
  calc base + 4096 + 4096 ≤ base + 4096 * (count + 1) := by omega
    _ < 2 ^ 32 := h

theorem sectors_along {count : ℕ} (hc : 0 < count → c.OnPage base 0)
    (hroom : base + 4096 * count < 2 ^ 32)
    (hR : ∀ j < count, ∀ a, a / 4096 = (base + 4096 * j) % 2 ^ 24 / 4096 → R a) :
    (sectorLoop fuel ptr count c).Along Said.nextMerged (fun s c => c.Only R s)
      (fun _ _ => True) false := by
  induction count generalizing base c with
  | zero => trivial
  | succ count ih =>
    have hfirst := hR 0 (Nat.succ_pos count)
    rw [Nat.mul_zero, Nat.add_zero] at hfirst
    refine along_andThen (sector_along (hc (Nat.succ_pos count)) hfirst) (fun _ => trivial)
      fun c' s hc' => ?_
    rw [hc'.2]
    have hmore := fun hpos : 0 < count => room_next hpos hroom
    refine ih (fun hpos => hc'.1.nextSector (hmore hpos)) (by omega)
      fun j hj a ha => hR (j + 1) (by omega) a ?_
    have hsum : base + 4096 * (j + 1) = base + 4096 + 4096 * j := by omega
    rw [hsum]
    exact ha

/-- Each sector is erased. -/
theorem sectors_only {count : ℕ} {β : Type} {f : Option Cursor → Dialog Said Reply β}
    {Q : β → Bool → Prop} (hfuel : 0 < fuel) (hc : 0 < count → c.OnPage base 0)
    (hbase : base + 4096 * count < 2 ^ 32) (hbuff : 0 ≤ c.buff)
    (hroom : c.buff + 4096 * count ≤ ptr.length)
    (h : (sectorLoop fuel ptr count c >>= f).Along Said.nextMerged (fun s c => c.Only R s) Q false)
    {j : ℕ} (hj : j < count) {a : ℕ} (ha : a / 4096 = (base + 4096 * j) % 2 ^ 24 / 4096) : R a := by
  induction count generalizing base c j with
  | zero => omega
  | succ count ih =>
    have hfirst := hc (Nat.succ_pos count)
    cases j with
    | zero =>
      have haddr : c.addr.toNat = base := hfirst.addr_eq
      have herase := ((h.2 ⟨0, []⟩).2 ⟨0, []⟩).1
      rw [Nat.mul_zero, Nat.add_zero, ← haddr] at ha
      exact herase a (touches_erase.mpr ha)
    | succ j =>
      obtain ⟨c', hpage, hbuff', hreach⟩ :=
        sector_reaches hfuel hfirst hbuff (show c.buff + 4096 ≤ ptr.length by omega)
      change (Dialog.bind (Dialog.bind _ _) f).Along _ _ _ _ at h
      rw [bind_assoc] at h
      have hmore := fun hpos : 0 < count => room_next hpos hbase
      refine ih (fun hpos => hpage.nextSector (hmore hpos)) (by omega)
        (by omega) (by omega) (h.of_bind hreach) (j := j) (by omega) ?_
      have hsum : base + 4096 * (j + 1) = base + 4096 + 4096 * j := by omega
      rw [← hsum]
      exact ha

end Sectors

/-! ## Calls -/

section Calls

variable {R : ℕ → Prop} {offset len : BitVec 32} {data : Mem}

theorem raw_read_only_iff :
    (do return (← epcsFatfsRawRead offset len).result : Dialog Said Reply ℤ).Along Said.nextMerged
        (fun s c => c.Only R s) (fun _ _ => True) false ↔
      ∀ a, offset.toNat % 2 ^ 24 ≤ a → a < offset.toNat % 2 ^ 24 + len.toNat → R a := by
  constructor
  · intro h a hlow hhigh
    exact (h.2 ⟨0, []⟩).1 a (touches_read.mpr ⟨hlow, hhigh⟩)
  · intro h
    refine ⟨fun _ ha => ha.elim, fun _ => ⟨fun a ha => ?_, fun _ =>
      ⟨fun _ ha => ha.elim, fun _ => trivial⟩⟩⟩
    obtain ⟨hlow, hhigh⟩ := touches_read.mp ha
    exact h a hlow hhigh

theorem raw_write_only_iff {offset len : ℕ} (hoffset : 4096 ∣ offset) (hlen : 4096 ∣ len)
    (hroom : offset + len < 2 ^ 32) (hlt : len < 2 ^ 31) (hdata : data.length = len) :
    (∀ fuel, (epcsFatfsRawWrite fuel (BitVec.ofNat 32 offset) data (BitVec.ofNat 32 len)).Along
        Said.nextMerged (fun s c => c.Only R s) (fun _ _ => True) false) ↔
      ∀ j < len / 4096, ∀ a, a / 4096 = (offset + 4096 * j) % 2 ^ 24 / 4096 → R a := by
  have hcount : sectorCount (BitVec.ofNat 32 len) = len / 4096 := by
    rw [sectorCount_eq (n := len / 4096) (by omega), if_pos (by omega)]
    rw [BitVec.toNat_ofNat, Nat.mod_eq_of_lt (by omega), Nat.div_mul_cancel hlen]
  have hsize : 4096 * (len / 4096) = len := Nat.mul_div_cancel' hlen
  have haddr : (BitVec.ofNat 32 offset).toNat = offset := by
    rw [BitVec.toNat_ofNat, Nat.mod_eq_of_lt (by omega)]
  have hstart : 0 < len / 4096 → (⟨BitVec.ofNat 32 offset, 0⟩ : Cursor).OnPage offset 0 :=
    fun hpos => ⟨haddr, Nat.mod_eq_zero_of_dvd hoffset, by omega⟩
  constructor
  · intro h j hj a ha
    have h' := h 1
    rw [epcsFatfsRawWrite, hcount] at h'
    exact sectors_only Nat.one_pos hstart (by omega) (Int.le_refl 0)
      (show (0 : ℤ) + 4096 * (len / 4096 : ℕ) ≤ data.length by omega) h' hj ha
  · intro h fuel
    rw [epcsFatfsRawWrite, hcount]
    refine .bind (sectors_along hstart (by omega) h) fun r s _ => ?_
    cases r with
    | none => trivial
    | some c => trivial

end Calls

end OlivePiccolo.Flash
