import Mathlib.Data.Finset.Lattice.Fold
import OlivePiccolo.Flash.SpiFlash
import OlivePiccolo.Library.RoundUp

/-!
# What `peridot_spi_flash_write` programs

With an ideal flash behind the commands, `peridot_spi_flash_write` stores the source and keeps all
other blocks where the range ends at the end of a page. The last page is always programmed as a
whole: where the range ends inside of it, bytes behind the source are read (`write_programs_iff`).
-/

namespace OlivePiccolo.Flash

open Dialog NorFlash

/-! ## The device on an ideal flash -/

def SpiFlashDev.env (flash : SpiFlashDev) (busyFor : ℕ → ℕ) (fails : ℕ → Bool) : Env where
  eraseInst := flash.eraseInst
  blockSize := flash.blockSize.toNat
  pageSize := flash.pageSize.toNat
  addressLength := if flash.fourBytesMode then 4 else 3
  busyFor := busyFor
  fails := fails

def SpiFlashDev.reply (flash : SpiFlashDev) (busyFor : ℕ → ℕ) (fails : ℕ → Bool) (w : Device)
    (op : Op) : Reply × Device := (flash.env busyFor fails).reply w (op.said flash)

/-- A flash at rest, after at most so many erase and program commands. -/
def Chip.RestsBy (s : Chip) (cells : Cells) (limit : ℕ) : Prop :=
  ∃ ops ≤ limit, s.Rests cells ops

/-- A call has failed with a command, or it has done what it is for. -/
def Done (fails : ℕ → Bool) (good : Chip → Prop) (r : ℤ × Device) : Prop :=
  r.1 < 0 ∧ (∃ n, fails n = true) ∨ r.1 = 0 ∧ good r.2.chip

section Rules

variable {flash : SpiFlashDev} {busyFor : ℕ → ℕ} {fails : ℕ → Bool} {w : Device}

/-- A command of which is known what the flash makes of it. -/
theorem run_op {op : Op} {write data : List UInt8} {n : ℕ} {merge : Bool} {chip : Chip}
    {next : List UInt8 → Dialog Op Reply ℤ} {Q : ℤ × Device → Prop}
    (hsaid : op.said flash = .command write n merge)
    (hcommand : w.chip.command (flash.env busyFor fails) write n merge = (data, chip))
    (hfail : ∀ k, fails k = true → Q (-EAGAIN, ⟨w.chip, w.commands + 1⟩))
    (hnext : ∀ k, Ensures ((next data).run (flash.reply busyFor fails) ⟨chip, k⟩) Q) :
    Ensures ((command op next).run (flash.reply busyFor fails) w) Q := by
  refine .run_ask ?_
  cases hfails : fails w.commands with
  | false =>
    have hreply : flash.reply busyFor fails w op = (⟨0, data⟩, ⟨chip, w.commands + 1⟩) := by
      rw [SpiFlashDev.reply, hsaid, Env.reply, hcommand]
      simp only [SpiFlashDev.env, hfails]
      rfl
    rw [hreply, if_neg (lt_irrefl _)]
    exact hnext _
  | true =>
    have hreply : flash.reply busyFor fails w op = (⟨-EAGAIN, []⟩, ⟨w.chip, w.commands + 1⟩) := by
      rw [SpiFlashDev.reply, hsaid, Env.reply]
      simp only [SpiFlashDev.env, hfails]
      rfl
    rw [hreply, if_pos (show -EAGAIN < 0 by decide)]
    exact .run_ret (hfail _ hfails)

theorem run_check {call next : Dialog Op Reply ℤ} {good good' : Chip → Prop}
    (hcall : Ensures (call.run (flash.reply busyFor fails) w) (Done fails good))
    (hnext : ∀ w' : Device, good w'.chip →
      Ensures (next.run (flash.reply busyFor fails) w') (Done fails good')) :
    Ensures ((check call next).run (flash.reply busyFor fails) w) (Done fails good') := by
  refine hcall.run_bind fun r w' h => ?_
  rcases h with ⟨hneg, hfails⟩ | ⟨hzero, hgood⟩
  · dsimp only at hneg
    rw [if_pos hneg]
    exact .run_ret (.inl ⟨hneg, hfails⟩)
  · dsimp only at hzero
    rw [hzero, if_neg (lt_irrefl _)]
    exact hnext w' hgood

end Rules

/-! ## The calls -/

section Calls

variable {flash : SpiFlashDev} {busyFor : ℕ → ℕ} {fails : ℕ → Bool} {k : ℕ} {cells : Cells}
  {enabled : Bool} {busy ops limit fuel rounds : ℕ} {data : Mem} {w : Device} {o p l : ℕ}

/-- A failed command fails the call. -/
theorem Done.failed {good : Chip → Prop} (w : Device) {n : ℕ} (h : fails n = true) :
    Done fails good (-EAGAIN, w) := .inl ⟨show -EAGAIN < 0 by decide, n, h⟩

theorem addressLength_pos : 2 < (flash.env busyFor fails).addressLength := by
  show 2 < if flash.fourBytesMode then 4 else 3
  split_ifs <;> decide

theorem setAddr_length (offset : BitVec 32) :
    (flash.setAddr offset).length = (flash.env busyFor fails).addressLength := by
  show _ = if flash.fourBytesMode then 4 else 3
  rw [SpiFlashDev.setAddr]
  split_ifs <;> rfl

/-- The commands can address the flash up to here. -/
def SpiFlashDev.Reaches (flash : SpiFlashDev) (stop : ℕ) : Prop :=
  flash.fourBytesMode = true ∨ stop ≤ 2 ^ 24

/-- An address that can be said is said. -/
theorem addressOf_ofNat (hreach : flash.Reaches (o + l)) (hl : 0 < l) (ho : o < 2 ^ 31) :
    addressOf (flash.setAddr (BitVec.ofNat 32 o)) = o := by
  rw [flash.addressOf_setAddr, BitVec.toNat_ofNat, Nat.mod_eq_of_lt (by omega)]
  rcases hreach with hmode | hlow
  · rw [if_pos hmode]
  · split_ifs
    · rfl
    · exact Nat.mod_eq_of_lt (by omega)

theorem run_waitBusy (hops : ops ≤ limit) (hfuel : busy < fuel) :
    Ensures ((waitBusy fuel).run (flash.reply busyFor fails)
      ⟨⟨cells, enabled, busy, ops, []⟩, k⟩) (Done fails fun chip => chip.RestsBy cells limit) := by
  induction fuel generalizing busy k with
  | zero => exact absurd hfuel (Nat.not_lt_zero _)
  | succ fuel ih =>
    rw [waitBusy]
    refine run_op rfl (command_status (n := 1) (Nat.lt_of_succ_lt addressLength_pos))
      (fun _ hn => .failed _ hn) fun k' => ?_
    refine .run_ite (fun hready => ?_) fun hbusy => ?_
    · have hoff : busy = 0 := (wip_off _ _).mp hready
      exact .run_ret (.inr ⟨rfl, ops, hops, enabled, by rw [hoff]⟩)
    · have hon : busy ≠ 0 := fun hzero => hbusy ((wip_off _ _).mpr hzero)
      exact ih (by omega)

/-! ### Compare -/

theorem eq_of_memcmp {l l' : List UInt8} (hlen : l.length = l'.length) (h : memcmp l l' = 0) :
    l = l' := by
  induction l generalizing l' with
  | nil => exact (List.length_eq_zero_iff.mp hlen.symm).symm
  | cons a l ih =>
    obtain ⟨b, l', rfl⟩ := List.exists_cons_of_length_eq_add_one hlen.symm
    rw [memcmp] at h
    split_ifs at h with hlt hgt
    · exact absurd h one_ne_zero
    · rw [ih (Nat.succ.inj hlen) h, UInt8.le_antisymm (UInt8.not_lt.mp hgt) (UInt8.not_lt.mp hlt)]

/-- Bytes of the source. -/
theorem readBytes_of_le (h : p + l ≤ data.length) :
    data.readBytes (p : ℤ) (l : ℤ) = some ((data.drop p).take l) := by
  rw [Mem.readBytes, if_pos ⟨by omega, by omega, by omega⟩]
  rfl

theorem run_compareLoop (hrests : w.chip.RestsBy cells limit) (hsum : o + l < 2 ^ 31)
    (hreach : flash.Reaches (o + l)) (hdata : p + l ≤ data.length) (hrounds : l < rounds) :
    Ensures ((compareLoop data rounds (BitVec.ofNat 32 o) p (BitVec.ofNat 32 l)).run
      (flash.reply busyFor fails) w) fun r =>
        r.2.chip.RestsBy cells limit ∧
          (r.1 = 0 → ∀ i < l, data[p + i]? = some (cells (o + i))) := by
  induction rounds generalizing o p l w with
  | zero => exact absurd hrounds (Nat.not_lt_zero _)
  | succ rounds ih =>
    rw [compareLoop]
    have hlength : (BitVec.ofNat 32 l).toNat = l := by
      rw [BitVec.toNat_ofNat, Nat.mod_eq_of_lt (by omega)]
    have hint := int_cases (BitVec.ofNat 32 l)
    refine .run_ite (fun hpos => ?_) fun hzero => ?_
    · dsimp only
      obtain ⟨c, hc, hchunk⟩ : ∃ c, c = min 256 l ∧
          (if 256 < BitVec.ofNat 32 l then (256 : BitVec 32) else BitVec.ofNat 32 l) =
            BitVec.ofNat 32 c := by
        refine ⟨_, rfl, ?_⟩
        split_ifs with hlong
        · have hlt := BitVec.lt_def.mp hlong
          rw [hlength, show (256 : BitVec 32).toNat = 256 from rfl] at hlt
          rw [Nat.min_eq_left hlt.le]
          rfl
        · have hle := BitVec.not_lt.mp hlong
          rw [BitVec.le_def, hlength, show (256 : BitVec 32).toNat = 256 from rfl] at hle
          rw [Nat.min_eq_right hle]
      rw [hchunk]
      have hcLen : (BitVec.ofNat 32 c).toNat = c := by
        rw [BitVec.toNat_ofNat, Nat.mod_eq_of_lt (by omega)]
      obtain ⟨⟨chip, k⟩, rfl⟩ : ∃ w', w = w' := ⟨w, rfl⟩
      obtain ⟨ops, hops, enabled, rfl⟩ := hrests
      have hread := command_read (flash.env busyFor fails) cells enabled ops
        (show 0 < (BitVec.ofNat 32 c).toNat by omega) (setAddr_length (BitVec.ofNat 32 o))
      rw [addressOf_ofNat hreach (by omega) (show o < 2 ^ 31 by omega)] at hread
      refine run_op rfl hread (fun _ _ => ⟨⟨ops, hops, enabled, rfl⟩, fun h =>
        absurd h (show -EAGAIN ≠ 0 by decide)⟩) fun k' => ?_
      rw [hcLen]
      refine .run_access (readBytes_of_le (by omega)) ?_
      have hrests' : (⟨⟨cells, enabled, 0, ops, []⟩, k'⟩ : Device).chip.RestsBy cells limit :=
        ⟨ops, hops, enabled, rfl⟩
      refine .run_ite (fun hlt => .run_ret ⟨hrests', fun h =>
        absurd h (show (-1 : ℤ) ≠ 0 by decide)⟩) fun hge => ?_
      refine .run_ite (fun hgt => .run_ret ⟨hrests', fun h =>
        absurd h (show (1 : ℤ) ≠ 0 by decide)⟩) fun hle => ?_
      have hsame := eq_of_memcmp (by
        rw [List.length_map, List.length_range, List.length_take, List.length_drop]
        omega) (le_antisymm (not_lt.mp hle) (not_lt.mp hge))
      have hfirst : ∀ i < c, data[p + i]? = some (cells (o + i)) := by
        intro i hi
        have hbyte := congrArg (fun bytes => bytes[i]?) hsame
        simp only [List.getElem?_map, List.getElem?_range hi, List.getElem?_take_of_lt hi,
          List.getElem?_drop] at hbyte
        exact hbyte.symm
      rw [← BitVec.ofNat_add, ← Int.natCast_add,
        BitVec.ofNat_sub_ofNat_of_le l c (by omega) (by omega)]
      refine (ih hrests' (o := o + c) (p := p + c) (l := l - c) (by omega) ?_ (by omega)
        (by omega)).mono fun r hr => ⟨hr.1, fun hzero i hi => ?_⟩
      · rwa [Nat.add_assoc, Nat.add_sub_cancel' (by omega)]
      · by_cases hic : i < c
        · exact hfirst i hic
        · have := hr.2 hzero (i - c) (by omega)
          rwa [Nat.add_assoc, Nat.add_assoc, Nat.add_sub_cancel' (by omega)] at this
    · exact .run_ret ⟨hrests, fun _ i hi => absurd hi (by omega)⟩

/-! ### Erase and program -/

theorem ofNat_toNat {n : ℕ} (h : n < 2 ^ 32) : (BitVec.ofNat 32 n).toNat = n := by
  rw [BitVec.toNat_ofNat, Nat.mod_eq_of_lt h]

theorem run_eraseBlock (hrests : w.chip.RestsBy cells limit)
    (hfuel : ∀ i ≤ limit, busyFor i < fuel) (hregion : o < flash.regionSize.toNat)
    (haligned : flash.blockSize.toNat ∣ o) (hreach : flash.Reaches (o + 1)) :
    Ensures ((peridotSpiFlashEraseBlock flash fuel (BitVec.ofNat 32 o)).run
      (flash.reply busyFor fails) w) (Done fails fun chip =>
        chip.RestsBy (erase cells o flash.blockSize.toNat) (limit + 1)) := by
  have hlt := flash.region_lt
  have ho : (BitVec.ofNat 32 o).toNat = o := ofNat_toNat (by omega)
  have hint := int_cases (BitVec.ofNat 32 o)
  have hintRegion := int_cases flash.regionSize
  have hplace : BitVec.ofNat 32 o &&& (flash.blockSize - 1) = 0 := by
    apply BitVec.eq_of_toNat_eq
    rw [flash.block_place, ho, Nat.mod_eq_zero_of_dvd haligned]
    rfl
  obtain ⟨⟨chip, k⟩, rfl⟩ : ∃ w', w = w' := ⟨w, rfl⟩
  obtain ⟨ops, hops, enabled, rfl⟩ := hrests
  rw [peridotSpiFlashEraseBlock, flash.length_eq, if_neg (by omega), if_neg (not_not_intro hplace)]
  refine run_op rfl command_wren (fun _ hn => .failed _ hn) fun k' => ?_
  have herase := command_erase (flash.env busyFor fails) cells ops
    (Nat.lt_of_succ_lt (Nat.lt_of_succ_lt addressLength_pos)) (setAddr_length (BitVec.ofNat 32 o))
  rw [addressOf_ofNat hreach Nat.one_pos (by omega),
    show (flash.env busyFor fails).blockSize = flash.blockSize.toNat from rfl,
    Nat.div_mul_cancel haligned] at herase
  refine run_op rfl herase (fun _ hn => .failed _ hn) fun k'' => ?_
  exact run_waitBusy (Nat.succ_le_succ hops) (hfuel ops hops)

theorem run_writeBlockLoop (hrests : w.chip.RestsBy cells limit)
    (hfuel : ∀ i < limit + l, busyFor i < fuel) (hsum : o + l < 2 ^ 31)
    (hreach : flash.Reaches (o + l)) (hend : flash.pageSize.toNat ∣ o + l)
    (hdata : p + l ≤ data.length) (hrounds : l < rounds)
    (herased : ∀ x, o ≤ x → x < o + l → cells x = 0xff) :
    Ensures ((writeBlockLoop flash fuel data rounds (BitVec.ofNat 32 o) p (BitVec.ofNat 32 l)).run
      (flash.reply busyFor fails) w) (Done fails fun chip =>
        chip.RestsBy (overwrite cells o ((data.drop p).take l)) (limit + l)) := by
  induction rounds generalizing o p l w limit cells with
  | zero => exact absurd hrounds (Nat.not_lt_zero _)
  | succ rounds ih =>
    have hl : (BitVec.ofNat 32 l).toNat = l := ofNat_toNat (by omega)
    have ho : (BitVec.ofNat 32 o).toNat = o := ofNat_toNat (by omega)
    have hint := int_cases (BitVec.ofNat 32 l)
    rw [writeBlockLoop]
    refine .run_ite (fun hpos => ?_) fun hzero => ?_
    · have hpage := flash.pageSize_bounds
      have hplace := Nat.mod_lt o hpage.1
      have hnext := next_le_roundUp (x := o) (n := flash.pageSize.toNat) (k := l) hpage.1 (by omega)
      rw [roundUp_of_dvd hpage.1 hend] at hnext
      obtain ⟨c, hc, hlong⟩ : ∃ c, c = flash.pageSize.toNat - o % flash.pageSize.toNat ∧
          flash.pageSize - (BitVec.ofNat 32 o &&& (flash.pageSize - 1)) = BitVec.ofNat 32 c := by
        refine ⟨_, rfl, BitVec.eq_of_toNat_eq ?_⟩
        rw [flash.page_length, ho, ofNat_toNat (by omega)]
      dsimp only
      rw [hlong, ofNat_toNat (show c < 2 ^ 32 by omega)]
      obtain ⟨⟨chip, k⟩, rfl⟩ : ∃ w', w = w' := ⟨w, rfl⟩
      obtain ⟨ops, hops, enabled, rfl⟩ := hrests
      refine run_op rfl command_wren (fun _ hn => .failed _ hn) fun k₁ => ?_
      refine run_op rfl command_open (fun _ hn => .failed _ hn) fun k₂ => ?_
      refine .run_access (readBytes_of_le (by omega)) ?_
      have hlen : ((data.drop p).take c).length = c := by
        rw [List.length_take, List.length_drop]
        omega
      have hprogram := command_program (flash.env busyFor fails) cells ops
        (setAddr_length (BitVec.ofNat 32 o))
        (show (data.drop p).take c ≠ [] from List.ne_nil_of_length_pos (by omega))
      have hdiv := Nat.div_add_mod o flash.pageSize.toNat
      rw [Nat.mul_comm] at hdiv
      rw [addressOf_ofNat hreach (by omega) (by omega),
        show (flash.env busyFor fails).pageSize = flash.pageSize.toNat from rfl,
        program_erased (by omega) fun x hlow hlt => herased x (by omega) (by omega), hdiv]
        at hprogram
      refine run_op rfl hprogram (fun _ hn => .failed _ hn) fun k₃ => ?_
      refine run_check (run_waitBusy (Nat.succ_le_succ hops) (hfuel ops (by omega)))
        fun w' hrests' => ?_
      have hrest := ih (o := o + c) (p := p + c) (l := l - c) hrests'
        (fun i hi => hfuel i (by omega)) (by omega)
        (by rwa [Nat.add_assoc, Nat.add_sub_cancel' (by omega)])
        (by rwa [Nat.add_assoc, Nat.add_sub_cancel' (by omega)]) (by omega) (by omega)
        fun x hlow hlt => by
          rw [overwrite_of_le (by omega)]
          exact herased x (by omega) (by omega)
      have hsplit : (data.drop p).take l =
          (data.drop p).take c ++ (data.drop (p + c)).take (l - c) := by
        rw [← List.drop_drop, ← List.take_add, Nat.add_sub_cancel' (by omega)]
      rw [← BitVec.ofNat_add, ← Int.natCast_add,
        BitVec.ofNat_sub_ofNat_of_le l c (by omega) (by omega)]
      refine hrest.mono fun r hr => ?_
      refine hr.imp_right fun h => ⟨h.1, ?_⟩
      obtain ⟨ops', hops', hcells⟩ := h.2
      refine ⟨ops', by omega, ?_⟩
      rw [hsplit, ← overwrite_append, hlen]
      exact hcells
    · refine .run_ret (.inr ⟨rfl, ?_⟩)
      rw [show l = 0 by omega, List.take_zero, overwrite_nil]
      exact hrests

end Calls

/-! ## The write -/

/-- The bytes are stored, and the blocks that do not intersect their range are kept. -/
structure Written (flash : SpiFlashDev) (cells cells' : Cells) (o : ℕ) (l : List UInt8) : Prop where
  stored : ∀ i (h : i < l.length), cells' (o + i) = l[i]
  kept : ∀ x, (∀ y, y / flash.blockSize.toNat = x / flash.blockSize.toNat →
    ¬ (o ≤ y ∧ y < o + l.length)) → cells' x = cells x

section Write

variable {flash : SpiFlashDev} {busyFor : ℕ → ℕ} {fails : ℕ → Bool} {cells : Cells}
  {limit fuel rounds : ℕ} {data : Mem} {w : Device} {o p l c : ℕ}

theorem Written.nil (cells : Cells) (o : ℕ) : Written flash cells cells o [] :=
  ⟨fun _ h => absurd h (Nat.not_lt_zero _), fun _ _ => rfl⟩

/-- One block after the other. -/
theorem Written.append {cells₁ cells₂ : Cells} {part rest : List UInt8}
    (h : Written flash cells cells₁ o part)
    (h' : Written flash cells₁ cells₂ (o + part.length) rest)
    (hblock : rest = [] ∨ flash.blockSize.toNat ∣ o + part.length) :
    Written flash cells cells₂ o (part ++ rest) := by
  refine ⟨fun i hi => ?_, fun x hx => ?_⟩
  · by_cases hpart : i < part.length
    · rw [List.getElem_append_left hpart, ← h.stored i hpart]
      refine h'.kept _ fun y hy hin => ?_
      rcases hblock with hnil | ⟨q, hq⟩
      · rw [hnil, List.length_nil] at hin
        omega
      · have hbounds := flash.blockSize_bounds
        have hlow : (o + i) / flash.blockSize.toNat < q :=
          (Nat.div_lt_iff_lt_mul hbounds.1).mpr (by rw [Nat.mul_comm]; omega)
        have hhigh : q ≤ y / flash.blockSize.toNat :=
          (Nat.le_div_iff_mul_le hbounds.1).mpr (by rw [Nat.mul_comm]; omega)
        omega
    · rw [List.getElem_append_right (by omega), ← h'.stored (i - part.length)
        (by rw [List.length_append] at hi; omega)]
      congr 1
      omega
  · rw [List.length_append] at hx
    rw [h'.kept x fun y hy hin => hx y hy (by omega), h.kept x fun y hy hin => hx y hy (by omega)]

/-- A part that is written to its erased block. -/
theorem Written.block {l : List UInt8} (hl : 0 < l.length)
    (hroom : l.length ≤ flash.blockSize.toNat - o % flash.blockSize.toNat) :
    Written flash cells (overwrite
      (erase cells (o / flash.blockSize.toNat * flash.blockSize.toNat) flash.blockSize.toNat) o l)
      o l := by
  have hbounds := flash.blockSize_bounds
  refine ⟨fun i hi => overwrite_add hi, fun x hx => ?_⟩
  have hplace := Nat.mod_lt o hbounds.1
  have hdiv := Nat.div_add_mod o flash.blockSize.toNat
  have hplaceX := Nat.mod_lt x hbounds.1
  have hdivX := Nat.div_add_mod x flash.blockSize.toNat
  rw [Nat.mul_comm] at hdiv hdivX
  have hne : x / flash.blockSize.toNat ≠ o / flash.blockSize.toNat :=
    fun heq => hx o heq.symm (by omega)
  have houtside : x < o / flash.blockSize.toNat * flash.blockSize.toNat ∨
      o / flash.blockSize.toNat * flash.blockSize.toNat + flash.blockSize.toNat ≤ x := by
    rcases Nat.lt_or_gt_of_ne hne with hlt | hgt
    · have := Nat.mul_le_mul_right flash.blockSize.toNat (Nat.succ_le_of_lt hlt)
      rw [Nat.succ_mul] at this
      omega
    · have := Nat.mul_le_mul_right flash.blockSize.toNat (Nat.succ_le_of_lt hgt)
      rw [Nat.succ_mul] at this
      omega
  rcases houtside with hlow | hhigh
  · rw [overwrite_of_lt (by omega), erase_outside (.inl hlow)]
  · rw [overwrite_of_le (by omega), erase_outside (.inr hhigh)]

theorem SpiFlashDev.Reaches.mono {stop stop' : ℕ} (h : flash.Reaches stop) (hle : stop' ≤ stop) :
    flash.Reaches stop' := h.imp_right hle.trans

/-- A range of the region is not rejected. -/
theorem not_rejects (hl : 0 < l) (hregion : o + l ≤ flash.regionSize.toNat) :
    ¬ flash.Rejects (BitVec.ofNat 32 o) (BitVec.ofNat 32 l) := by
  have hlt := flash.region_lt
  have ho : (BitVec.ofNat 32 o).toNat = o := ofNat_toNat (by omega)
  have hlength : (BitVec.ofNat 32 l).toNat = l := ofNat_toNat (by omega)
  have hsum : (BitVec.ofNat 32 o + BitVec.ofNat 32 l).toNat = o + l := by
    rw [toNat_add_of_lt (by omega), ho, hlength]
  have hint := int_cases (BitVec.ofNat 32 o)
  have hintSum := int_cases (BitVec.ofNat 32 o + BitVec.ofNat 32 l)
  have hintRegion := int_cases flash.regionSize
  rintro (hlarge | hlarge) <;> omega

/-- A round of the write: a command has failed, or the part is there already, or its block is erased
and it is to be written. -/
theorem writeRound_cases (busyFor : ℕ → ℕ) (fails : ℕ → Bool) (next : Dialog Op Reply ℤ)
    (hrests : w.chip.RestsBy cells limit) (hfuel : ∀ i ≤ limit, busyFor i < fuel)
    (hrounds : c < fuel) (hc : 0 < c)
    (hregion : o + c ≤ flash.regionSize.toNat) (hreach : flash.Reaches (o + c))
    (hdata : p + c ≤ data.length) {d : Dialog Op Reply ℤ}
    (hd : d = writeRound flash fuel data (BitVec.ofNat 32 o) p
      (BitVec.ofNat 32 o &&& ~~~(flash.blockSize - 1)) (BitVec.ofNat 32 c) next) :
    (∃ r, d.run (flash.reply busyFor fails) w = some r ∧ r.1 < 0 ∧ ∃ n, fails n = true) ∨
      (∃ w', w'.chip.RestsBy cells limit ∧ (∀ i < c, data[p + i]? = some (cells (o + i))) ∧
        d.run (flash.reply busyFor fails) w = next.run (flash.reply busyFor fails) w') ∨
      ∃ w', w'.chip.RestsBy (erase cells (o / flash.blockSize.toNat * flash.blockSize.toNat)
          flash.blockSize.toNat) (limit + 1) ∧
        d.run (flash.reply busyFor fails) w =
          (check (writeBlockLoop flash fuel data fuel (BitVec.ofNat 32 o) p (BitVec.ofNat 32 c))
            next).run (flash.reply busyFor fails) w' := by
  subst hd
  have hlt := flash.region_lt
  have hbounds := flash.blockSize_bounds
  have ho : (BitVec.ofNat 32 o).toNat = o := ofNat_toNat (by omega)
  have haccepted : ¬ (flash.regionSize.toInt ≤ (BitVec.ofNat 32 o).toInt ∨
      flash.regionSize.toInt < (BitVec.ofNat 32 o + BitVec.ofNat 32 c).toInt) :=
    not_rejects hc hregion
  have hdiv := Nat.div_mul_le_self o flash.blockSize.toNat
  have hblock : BitVec.ofNat 32 o &&& ~~~(flash.blockSize - 1) =
      BitVec.ofNat 32 (o / flash.blockSize.toNat * flash.blockSize.toNat) := by
    apply BitVec.eq_of_toNat_eq
    rw [flash.block_offset, ho, ofNat_toNat (by omega)]
  rw [writeRound, peridotSpiFlashCompare, if_neg (show ¬ flash.Rejects _ _ from haccepted), hblock,
    peridotSpiFlashWriteBlock, flash.length_eq, if_neg haccepted]
  have hcompared : Ensures ((compareLoop data fuel (BitVec.ofNat 32 o) p
      (BitVec.ofNat 32 c)).run (flash.reply busyFor fails) w) _ :=
    run_compareLoop hrests (by omega) hreach hdata hrounds
  obtain ⟨⟨r, w'⟩, hcompare, hrests', hsame⟩ := hcompared
  rw [Dialog.run_bind, hcompare, Option.bind_some]
  dsimp only
  by_cases hzero : r = 0
  · rw [if_neg (not_not_intro hzero)]
    exact .inr (.inl ⟨w', hrests', hsame hzero, rfl⟩)
  · rw [if_pos hzero, check, Dialog.run_bind]
    have herased : Ensures ((peridotSpiFlashEraseBlock flash fuel _).run
        (flash.reply busyFor fails) w') _ :=
      run_eraseBlock hrests' hfuel
        (show o / flash.blockSize.toNat * flash.blockSize.toNat < flash.regionSize.toNat by omega)
        (Nat.dvd_mul_left _ _) (hreach.mono (by omega))
    obtain ⟨⟨r', w₁⟩, herase, hdone⟩ := herased
    rw [herase, Option.bind_some]
    dsimp only
    rcases hdone with ⟨hneg, hfails⟩ | ⟨hdone, hrests₁⟩
    · dsimp only at hneg
      rw [if_pos hneg]
      exact .inl ⟨(r', w₁), rfl, hneg, hfails⟩
    · dsimp only at hdone
      rw [hdone, if_neg (lt_irrefl _)]
      exact .inr (.inr ⟨w₁, hrests₁, rfl⟩)

/-- A round of the write whose part ends with a page. -/
theorem run_writeRound {next : Dialog Op Reply ℤ} {good : Chip → Prop}
    (hrests : w.chip.RestsBy cells limit) (hfuel : ∀ i < limit + 2 * c, busyFor i < fuel)
    (hrounds : c < fuel) (hc : 0 < c)
    (hroom : c ≤ flash.blockSize.toNat - o % flash.blockSize.toNat)
    (hregion : o + c ≤ flash.regionSize.toNat) (hreach : flash.Reaches (o + c))
    (hend : flash.pageSize.toNat ∣ o + c) (hdata : p + c ≤ data.length)
    (hnext : ∀ w' cells', w'.chip.RestsBy cells' (limit + 2 * c) →
      Written flash cells cells' o ((data.drop p).take c) →
        Ensures (next.run (flash.reply busyFor fails) w') (Done fails good)) :
    Ensures ((writeRound flash fuel data (BitVec.ofNat 32 o) p
      (BitVec.ofNat 32 o &&& ~~~(flash.blockSize - 1)) (BitVec.ofNat 32 c) next).run
        (flash.reply busyFor fails) w) (Done fails good) := by
  have hlt := flash.region_lt
  have hbounds := flash.blockSize_bounds
  have hplace := Nat.mod_lt o hbounds.1
  have hdiv := Nat.div_add_mod o flash.blockSize.toNat
  rw [Nat.mul_comm] at hdiv
  have hlen : ((data.drop p).take c).length = c := by
    rw [List.length_take, List.length_drop]
    omega
  rcases writeRound_cases busyFor fails next hrests (fun i hi => hfuel i (by omega)) hrounds hc
    hregion hreach hdata rfl with
    ⟨r, hrun, hneg, hfails⟩ | ⟨w', ⟨ops, hops, hchip⟩, hsame, hrun⟩ | ⟨w', hrests', hrun⟩
  · exact ⟨r, hrun, .inl ⟨hneg, hfails⟩⟩
  · rw [hrun]
    refine hnext w' cells ⟨ops, by omega, hchip⟩ ⟨fun i hi => ?_, fun _ _ => rfl⟩
    have hbyte := hsame i (by omega)
    rw [List.getElem_take, List.getElem_drop]
    exact (Option.some.inj ((List.getElem?_eq_getElem (by omega)).symm.trans hbyte)).symm
  · rw [hrun]
    refine run_check (run_writeBlockLoop hrests' (fun i hi => hfuel i (by omega)) (by omega) hreach
      hend hdata hrounds fun x hlow hhigh => erase_inside (by omega) (by omega))
      fun w₂ hrests₂ => ?_
    obtain ⟨ops, hops, hchip⟩ := hrests₂
    exact hnext w₂ _ ⟨ops, by omega, hchip⟩ (.block (by omega) (by omega))

/-- The part of a range of natural numbers. -/
theorem part_ofNat (ho : o < 2 ^ 31) (hl : l < 2 ^ 31) (hpos : 0 < l) :
    flash.part (BitVec.ofNat 32 o) (BitVec.ofNat 32 l) =
      BitVec.ofNat 32 (min l (flash.blockSize.toNat - o % flash.blockSize.toNat)) := by
  have hbounds := flash.blockSize_bounds
  have hlength : (BitVec.ofNat 32 l).toNat = l := ofNat_toNat (by omega)
  have hint := int_cases (BitVec.ofNat 32 l)
  apply BitVec.eq_of_toNat_eq
  rw [flash.part_toNat _ (by omega), hlength, ofNat_toNat (show o < 2 ^ 32 by omega),
    ofNat_toNat (by omega)]

theorem page_dvd_block (hpage : flash.pageSize.toNat ≤ flash.blockSize.toNat) :
    flash.pageSize.toNat ∣ flash.blockSize.toNat := by
  obtain ⟨i, -, hi⟩ := flash.page_pow
  obtain ⟨j, -, hj⟩ := flash.block_pow
  rw [hi, hj] at hpage ⊢
  exact Nat.pow_dvd_pow 2 ((Nat.pow_le_pow_iff_right (by decide)).mp hpage)

/-- A part that is not the last ends with its block. -/
theorem block_dvd_end (o : ℕ) :
    flash.blockSize.toNat ∣ o + (flash.blockSize.toNat - o % flash.blockSize.toNat) := by
  have hbounds := flash.blockSize_bounds
  have hplace := Nat.mod_lt o hbounds.1
  rw [← roundUp_eq (x := o) Nat.one_pos
    (show 1 ≤ flash.blockSize.toNat - o % flash.blockSize.toNat by omega)]
  exact dvd_roundUp _ _

theorem run_writeLoop (hpage : flash.pageSize.toNat ≤ flash.blockSize.toNat)
    (hrests : w.chip.RestsBy cells limit) (hfuel : ∀ i < limit + 2 * l, busyFor i < fuel)
    (hrounds : l < rounds) (hl : l < fuel) (hregion : o + l ≤ flash.regionSize.toNat)
    (hreach : flash.Reaches (o + l)) (hend : flash.pageSize.toNat ∣ o + l)
    (hdata : p + l ≤ data.length) :
    Ensures ((writeLoop flash fuel data rounds (BitVec.ofNat 32 o) p (BitVec.ofNat 32 l)).run
      (flash.reply busyFor fails) w) (Done fails fun chip => ∃ cells',
        chip.RestsBy cells' (limit + 2 * l) ∧
          Written flash cells cells' o ((data.drop p).take l)) := by
  induction rounds generalizing o p l w limit cells with
  | zero => exact absurd hrounds (Nat.not_lt_zero _)
  | succ rounds ih =>
    have hlt := flash.region_lt
    have hbounds := flash.blockSize_bounds
    have hplace := Nat.mod_lt o hbounds.1
    have hlength : (BitVec.ofNat 32 l).toNat = l := ofNat_toNat (by omega)
    have hint := int_cases (BitVec.ofNat 32 l)
    rw [writeLoop]
    refine .run_ite (fun hpos => ?_) fun hzero => ?_
    · dsimp only
      rw [part_ofNat (by omega) (by omega) (by omega)]
      obtain ⟨c, hc⟩ : ∃ c, c = min l (flash.blockSize.toNat - o % flash.blockSize.toNat) :=
        ⟨_, rfl⟩
      rw [← hc, ofNat_toNat (show c < 2 ^ 32 by omega)]
      have hpart : l = c ∨ flash.blockSize.toNat ∣ o + c := by
        by_cases hlast : l ≤ flash.blockSize.toNat - o % flash.blockSize.toNat
        · exact .inl (by omega)
        · refine .inr ?_
          rw [show c = flash.blockSize.toNat - o % flash.blockSize.toNat by omega]
          exact block_dvd_end o
      have hpartEnd : flash.pageSize.toNat ∣ o + c := by
        rcases hpart with heq | hblock
        · rwa [← heq]
        · exact (page_dvd_block hpage).trans hblock
      have hlen : ((data.drop p).take c).length = c := by
        rw [List.length_take, List.length_drop]
        omega
      refine run_writeRound hrests (fun i hi => hfuel i (by omega)) (by omega) (by omega) (by omega)
        (by omega) (hreach.mono (by omega)) hpartEnd (by omega) fun w' cells' hrests' hwritten => ?_
      have hrest := ih (o := o + c) (p := p + c) (l := l - c) hrests'
        (fun i hi => hfuel i (by omega)) (by omega) (by omega) (by omega)
        (hreach.mono (by omega)) (by rwa [Nat.add_assoc, Nat.add_sub_cancel' (by omega)])
        (by omega)
      have hsplit : (data.drop p).take l =
          (data.drop p).take c ++ (data.drop (p + c)).take (l - c) := by
        rw [← List.drop_drop, ← List.take_add, Nat.add_sub_cancel' (by omega)]
      rw [← BitVec.ofNat_add, ← Int.natCast_add,
        BitVec.ofNat_sub_ofNat_of_le l c (by omega) (by omega)]
      refine hrest.mono fun r hr => hr.imp_right fun h => ⟨h.1, ?_⟩
      obtain ⟨cells₂, ⟨ops, hops, hchip⟩, hwritten₂⟩ := h.2
      refine ⟨cells₂, ⟨ops, by omega, hchip⟩, ?_⟩
      rw [hsplit]
      refine hwritten.append (by rwa [hlen]) ?_
      rw [hlen]
      rcases hpart with heq | hblock
      · refine .inl ?_
        rw [heq, Nat.sub_self, List.take_zero]
      · exact .inr hblock
    · refine .run_ret (.inr ⟨rfl, cells, ?_, ?_⟩)
      · obtain ⟨ops, hops, hchip⟩ := hrests
        exact ⟨ops, by omega, hchip⟩
      · rw [show l = 0 by omega, List.take_zero]
        exact .nil cells o

end Write

/-- **What `peridot_spi_flash_write` is for.** For every source, every flash, all times and every
pattern of failing commands it ends without an access outside of the source; and if it succeeds, the
source is written. -/
def SpiFlashDev.Programs (flash : SpiFlashDev) (offset length : ℕ) : Prop :=
  ∀ (src : List UInt8) (cells : Cells) (enabled : Bool) (busyFor : ℕ → ℕ) (fails : ℕ → Bool),
    src.length = length → ∃ enough, ∀ fuel, enough ≤ fuel →
      Ensures ((peridotSpiFlashWrite flash fuel (BitVec.ofNat 32 offset) src
        (BitVec.ofNat 32 length)).run (flash.reply busyFor fails)
          ⟨⟨cells, enabled, 0, 0, []⟩, 0⟩) fun r =>
        0 ≤ r.1 → Written flash cells r.2.chip.cells offset src

section Programs

variable {flash : SpiFlashDev} {busyFor : ℕ → ℕ} {fails : ℕ → Bool} {cells : Cells}
  {limit fuel rounds : ℕ} {data : Mem} {w : Device} {o p l c : ℕ}

/-- Where the range ends at the end of a page. -/
theorem programs_of_dvd (hpage : flash.pageSize.toNat ≤ flash.blockSize.toNat)
    (hregion : o + l ≤ flash.regionSize.toNat)
    (h : l = 0 ∨ flash.pageSize.toNat ∣ o + l ∧ flash.Reaches (o + l)) : flash.Programs o l := by
  intro src cells enabled busyFor fails hsrc
  refine ⟨(Finset.range (2 * l)).sup busyFor + l + 1, fun fuel hfuel => ?_⟩
  have hbusy : ∀ i < 0 + 2 * l, busyFor i < fuel := by
    intro i hi
    have := Finset.le_sup (f := busyFor) (Finset.mem_range.mpr (show i < 2 * l by omega))
    omega
  have hrests : (⟨⟨cells, enabled, 0, 0, []⟩, 0⟩ : Device).chip.RestsBy cells 0 :=
    ⟨0, le_rfl, enabled, rfl⟩
  rw [peridotSpiFlashWrite]
  refine .run_ite (fun _ => .run_ret fun h =>
    absurd h (show ¬ 0 ≤ -EFAULT by decide)) fun _ => ?_
  rcases h with rfl | ⟨hend, hreach⟩
  · obtain ⟨fuel, rfl⟩ := Nat.exists_eq_succ_of_ne_zero (show fuel ≠ 0 by omega)
    rw [writeLoop, if_neg (by decide), List.length_eq_zero_iff.mp hsrc]
    exact .run_ret fun _ => .nil cells o
  · refine (run_writeLoop (p := 0) hpage hrests hbusy (by omega) (by omega) hregion hreach hend
      (by omega)).mono fun r hr hsuccess => ?_
    rcases hr with ⟨hneg, -⟩ | ⟨-, cells', ⟨ops, -, enabled', hchip⟩, hwritten⟩
    · omega
    · rw [List.drop_zero, ← hsrc, List.take_length] at hwritten
      rw [hchip]
      exact hwritten

/-! ## A range that ends inside of a page -/

/-- The answers of commands that do not fail. -/
def Succeeds (r : Reply) : Prop := 0 ≤ r.result

theorem reply_succeeds (w : Device) (op : Op) :
    Succeeds (flash.reply busyFor (fun _ => false) w op).1 := by
  show 0 ≤ (flash.reply busyFor (fun _ => false) w op).1.result
  cases op <;> exact le_rfl

theorem waitBusy_result : (waitBusy fuel).Every Succeeds (fun _ => True) (0 ≤ ·) := by
  induction fuel with
  | zero => trivial
  | succ fuel ih =>
    exact every_command trivial (fun r hr hneg => absurd hr (by rw [Succeeds]; omega))
      fun _ _ _ => .ite (fun _ => le_rfl) fun _ => ih

/-- The last page is read as a whole, though the source ends before. -/
theorem writeBlockLoop_never (hl : 0 < l) (hsum : o + l < 2 ^ 31)
    (hend : ¬ flash.pageSize.toNat ∣ o + l) (hdata : data.length = p + l) :
    (writeBlockLoop flash fuel data rounds (BitVec.ofNat 32 o) p (BitVec.ofNat 32 l)).Every Succeeds
      (fun _ => True) fun _ => False := by
  induction rounds generalizing o p l with
  | zero => trivial
  | succ rounds ih =>
    have hlength : (BitVec.ofNat 32 l).toNat = l := ofNat_toNat (by omega)
    have ho : (BitVec.ofNat 32 o).toNat = o := ofNat_toNat (by omega)
    have hint := int_cases (BitVec.ofNat 32 l)
    have hpage := flash.pageSize_bounds
    have hplace := Nat.mod_lt o hpage.1
    have hnone : ∀ r, Succeeds r → ¬ r.result < 0 := fun r hr => by
      rw [Succeeds] at hr
      omega
    obtain ⟨c, hc, hlong⟩ : ∃ c, c = flash.pageSize.toNat - o % flash.pageSize.toNat ∧
        flash.pageSize - (BitVec.ofNat 32 o &&& (flash.pageSize - 1)) = BitVec.ofNat 32 c := by
      refine ⟨_, rfl, BitVec.eq_of_toNat_eq ?_⟩
      rw [flash.page_length, ho, ofNat_toNat (by omega)]
    rw [writeBlockLoop, if_pos (by omega)]
    dsimp only
    rw [hlong, ofNat_toNat (show c < 2 ^ 32 by omega)]
    refine every_command trivial (fun r hr hneg => hnone r hr hneg) fun _ _ _ => ?_
    refine every_command trivial (fun r hr hneg => hnone r hr hneg) fun _ _ _ => ?_
    refine .access fun bytes hbytes => ?_
    obtain ⟨hlen, front, back, hmem, hfront⟩ := Mem.hasAt_of_readBytes hbytes
    have hroom : p + c ≤ data.length := by
      rw [hmem, List.length_append, List.length_append]
      omega
    have hboundary : flash.pageSize.toNat ∣ o + c := by
      rw [hc, ← roundUp_eq (x := o) Nat.one_pos (show 1 ≤ flash.pageSize.toNat -
        o % flash.pageSize.toNat by omega)]
      exact dvd_roundUp _ _
    have hlast : c ≠ l := fun heq => hend (heq ▸ hboundary)
    refine every_command trivial (fun r hr hneg => hnone r hr hneg) fun _ _ _ => ?_
    refine every_check waitBusy_result (fun r hr hneg => absurd hr (by omega)) fun _ _ _ => ?_
    rw [← BitVec.ofNat_add, ← Int.natCast_add,
      BitVec.ofNat_sub_ofNat_of_le l c (by omega) (by omega)]
    exact ih (by omega) (by omega) (by rwa [Nat.add_assoc, Nat.add_sub_cancel' (by omega)])
      (by omega)

/-- Nothing of the flash is the source yet; the write does not end. -/
theorem writeLoop_never (hpage : flash.pageSize.toNat ≤ flash.blockSize.toNat)
    (hrests : w.chip.RestsBy cells limit) (hl : 0 < l) (hregion : o + l ≤ flash.regionSize.toNat)
    (hreach : flash.Reaches (o + l)) (hend : ¬ flash.pageSize.toNat ∣ o + l)
    (hdata : data.length = p + l) (hfuel : l < fuel) (hzero : ∀ i < l, data[p + i]? = some 0)
    (hcells : ∀ x, o ≤ x → cells x ≠ 0) :
    (writeLoop flash fuel data rounds (BitVec.ofNat 32 o) p (BitVec.ofNat 32 l)).run
      (flash.reply (fun _ => 0) fun _ => false) w = none := by
  induction rounds generalizing o p l w limit cells with
  | zero => rfl
  | succ rounds ih =>
    have hlt := flash.region_lt
    have hbounds := flash.blockSize_bounds
    have hplace := Nat.mod_lt o hbounds.1
    have hdiv := Nat.div_add_mod o flash.blockSize.toNat
    rw [Nat.mul_comm] at hdiv
    have hlength : (BitVec.ofNat 32 l).toNat = l := ofNat_toNat (by omega)
    have hint := int_cases (BitVec.ofNat 32 l)
    have hnofail : ¬ ∃ n : ℕ, (fun _ : ℕ => false) n = true := fun ⟨_, h⟩ => Bool.noConfusion h
    rw [writeLoop, if_pos (by omega)]
    dsimp only
    rw [part_ofNat (by omega) (by omega) (by omega)]
    obtain ⟨c, hc⟩ : ∃ c, c = min l (flash.blockSize.toNat - o % flash.blockSize.toNat) := ⟨_, rfl⟩
    rw [← hc, ofNat_toNat (show c < 2 ^ 32 by omega)]
    rcases writeRound_cases (fun _ => 0) (fun _ => false) _ hrests
      (fun i hi => by omega) (show c < fuel by omega) (by omega) (by omega)
      (hreach.mono (show o + c ≤ o + l by omega)) (show p + c ≤ data.length by omega) rfl with
      ⟨r, -, -, hfails⟩ | ⟨w', -, hsame, -⟩ | ⟨w', hrests', hrun⟩
    · exact absurd hfails hnofail
    · have hbyte := (hzero 0 hl).symm.trans (hsame 0 (by omega))
      exact absurd (Option.some.inj hbyte).symm (hcells o le_rfl)
    · rw [hrun]
      by_cases hlast : c = l
      · rw [hlast, check, Dialog.run_bind]
        cases hwrite : (writeBlockLoop flash fuel data fuel (BitVec.ofNat 32 o) p
          (BitVec.ofNat 32 l)).run (flash.reply (fun _ => 0) fun _ => false) w' with
        | none => rfl
        | some r =>
          exact ((writeBlockLoop_never hl (by omega) hend hdata).of_run reply_succeeds hwrite).elim
      · have hblock : flash.blockSize.toNat ∣ o + c := by
          rw [show c = flash.blockSize.toNat - o % flash.blockSize.toNat by omega]
          exact block_dvd_end o
        have hwritten : Ensures ((writeBlockLoop flash fuel data fuel (BitVec.ofNat 32 o) p
            (BitVec.ofNat 32 c)).run (flash.reply (fun _ => 0) fun _ => false) w') _ :=
          run_writeBlockLoop hrests' (fun i hi => by omega) (by omega) (hreach.mono (by omega))
            ((page_dvd_block hpage).trans hblock) (by omega) (show c < fuel by omega)
            fun x hlow hhigh => erase_inside (by omega) (by omega)
        obtain ⟨⟨r, w₂⟩, hwrite, hdone⟩ := hwritten
        rw [check, Dialog.run_bind, hwrite, Option.bind_some]
        rcases hdone with ⟨-, hfails⟩ | ⟨hr, hrests₂⟩
        · exact absurd hfails hnofail
        · dsimp only at hr hrests₂ ⊢
          rw [hr, if_neg (lt_irrefl _), ← BitVec.ofNat_add, ← Int.natCast_add,
            BitVec.ofNat_sub_ofNat_of_le l c (by omega) (by omega)]
          refine ih hrests₂ (by omega) (by omega) (hreach.mono (by omega))
            (by rwa [Nat.add_assoc, Nat.add_sub_cancel' (by omega)]) (by omega) (by omega)
            (fun i hi => ?_) fun x hx => ?_
          · rw [Nat.add_assoc]
            exact hzero (c + i) (by omega)
          · have hlen : ((data.drop p).take c).length = c := by
              rw [List.length_take, List.length_drop]
              omega
            rw [overwrite_of_le (by omega), erase_outside (.inr (by omega))]
            exact hcells x (by omega)

/-- A write that ends does not end inside of a page. -/
theorem dvd_of_programs (hpage : flash.pageSize.toNat ≤ flash.blockSize.toNat)
    (hregion : o + l ≤ flash.regionSize.toNat) (hl : 0 < l) (hreach : flash.Reaches (o + l))
    (h : flash.Programs o l) : flash.pageSize.toNat ∣ o + l := by
  have hlt := flash.region_lt
  by_contra hend
  obtain ⟨enough, hruns⟩ := h (List.replicate l 0) (fun _ => 0x55) false (fun _ => 0)
    (fun _ => false) List.length_replicate
  obtain ⟨r, hrun, -⟩ := hruns (enough + l + 1) (by omega)
  rw [peridotSpiFlashWrite, if_neg (not_rejects hl hregion)] at hrun
  have hnever : (writeLoop flash (enough + l + 1) (List.replicate l 0) (enough + l + 1)
      (BitVec.ofNat 32 o) (0 : ℕ) (BitVec.ofNat 32 l)).run
        (flash.reply (fun _ => 0) fun _ => false) ⟨⟨fun _ => 0x55, false, 0, 0, []⟩, 0⟩ = none :=
    writeLoop_never hpage ⟨0, le_rfl, false, rfl⟩ hl hregion hreach hend
      (by rw [List.length_replicate, Nat.zero_add]) (by omega)
      (fun i hi => by rw [List.getElem?_replicate, if_pos (by omega)]) fun _ _ => by decide
  exact absurd (hnever.symm.trans hrun) (Option.some_ne_none r).symm

/-! ## A range that cannot be addressed -/

theorem addressOf_lt (bytes : List UInt8) : addressOf bytes < 256 ^ bytes.length := by
  have hfold : ∀ addr, bytes.foldl (fun addr b => 256 * addr + b.toNat) addr <
      (addr + 1) * 256 ^ bytes.length := by
    induction bytes with
    | nil =>
      intro addr
      rw [List.foldl_nil, List.length_nil, Nat.pow_zero, Nat.mul_one]
      exact Nat.lt_succ_self addr
    | cons b bytes ih =>
      intro addr
      have hb := b.toNat_lt
      rw [List.foldl_cons, List.length_cons, Nat.pow_succ']
      refine (ih _).trans_le ?_
      rw [← Nat.mul_assoc]
      exact Nat.mul_le_mul_right _ (by omega)
  have h := hfold 0
  rwa [Nat.zero_add, Nat.one_mul] at h

/-- A cell that was 0x55 and has not been programmed. -/
def Unprogrammed (x : ℕ) (s : Chip) : Prop := s.cells x = 0x55 ∨ s.cells x = 0xff

theorem Unprogrammed.execute {x : ℕ} {s : Chip} (hmode : flash.fourBytesMode = false)
    (hx : 2 ^ 24 ≤ x) (h : Unprogrammed x s) (bytes : List UInt8) :
    Unprogrammed x (s.execute (flash.env busyFor fails) bytes) := by
  cases bytes with
  | nil => exact h
  | cons inst rest =>
    rw [Chip.execute]
    split_ifs
    · exact h
    · exact h
    · exact h
    · rw [Unprogrammed, Chip.begin]
      dsimp only
      rw [erase]
      split_ifs
      · exact .inr rfl
      · exact h
    · obtain ⟨k, hk, hpow⟩ := flash.page_pow
      have hpage := flash.pageSize_bounds
      have hlen : (flash.env busyFor fails).addressLength = 3 := by
        show (if flash.fourBytesMode then 4 else 3) = 3
        rw [hmode, if_neg Bool.false_ne_true]
      have haddr := addressOf_lt (rest.take (flash.env busyFor fails).addressLength)
      have hshort := List.length_take_le (flash.env busyFor fails).addressLength rest
      rw [hlen] at haddr hshort ⊢
      have hlt : addressOf (rest.take 3) < 2 ^ 24 :=
        haddr.trans_le (Nat.pow_le_pow_right (by decide) hshort)
      have hnext := next_le_roundUp (x := addressOf (rest.take 3)) (n := flash.pageSize.toNat)
        (k := 2 ^ 24 - addressOf (rest.take 3)) hpage.1 (by omega)
      have hdvd : flash.pageSize.toNat ∣ 2 ^ 24 := hpow ▸ Nat.pow_dvd_pow 2 (by omega)
      rw [Nat.add_sub_cancel' hlt.le, roundUp_of_dvd hpage.1 hdvd] at hnext
      have hplace := Nat.mod_lt (addressOf (rest.take 3)) hpage.1
      have hdiv := Nat.div_add_mod (addressOf (rest.take 3)) flash.pageSize.toNat
      rw [Nat.mul_comm] at hdiv
      rw [Unprogrammed, Chip.begin]
      dsimp only
      rw [show (flash.env busyFor fails).pageSize = flash.pageSize.toNat from rfl,
        program_outside hpage.1 (.inr (by omega))]
      exact h
    · exact h

theorem Unprogrammed.reply {x : ℕ} (hmode : flash.fourBytesMode = false) (hx : 2 ^ 24 ≤ x)
    (h : Unprogrammed x w.chip) (op : Op) :
    Unprogrammed x (flash.reply busyFor fails w op).2.chip := by
  have hcommand : ∀ write n merge,
      Unprogrammed x (w.chip.command (flash.env busyFor fails) write n merge).2 := by
    intro write n merge
    have hwait : Unprogrammed x (w.chip.wait (w.chip.received ++ write) n) := by
      rw [Chip.wait]
      split_ifs <;> exact h
    rw [Chip.command]
    cases merge with
    | false => exact hwait.execute hmode hx _
    | true => exact hwait
  have hsaid : ∀ write n merge, Unprogrammed x
      ((flash.env busyFor fails).reply w (.command write n merge)).2.chip := by
    intro write n merge
    rw [Env.reply]
    split_ifs
    · exact h
    · exact hcommand write n merge
  cases op <;> exact hsaid _ _ _

theorem Unprogrammed.run {x : ℕ} {d : Dialog Op Reply ℤ} {r : ℤ × Device}
    (hmode : flash.fourBytesMode = false) (hx : 2 ^ 24 ≤ x) (h : Unprogrammed x w.chip)
    (hrun : d.run (flash.reply busyFor fails) w = some r) : Unprogrammed x r.2.chip := by
  induction d generalizing w with
  | ret a =>
    cases hrun
    exact h
  | fault => cases hrun
  | late => cases hrun
  | say op k ih => exact ih _ (h.reply hmode hx op) hrun

theorem not_neg_of_succeeds {Q : ℤ → Prop} (r : Reply) (hr : Succeeds r) (hneg : r.result < 0) :
    Q r.result := absurd hr (by rw [Succeeds]; omega)

theorem writeBlockLoop_result {offset length : BitVec 32} {ptr : ℤ} :
    (writeBlockLoop flash fuel data rounds offset ptr length).Every Succeeds (fun _ => True)
      (0 ≤ ·) := by
  induction rounds generalizing offset ptr length with
  | zero => trivial
  | succ rounds ih =>
    rw [writeBlockLoop]
    refine .ite (fun _ => ?_) fun _ => le_rfl
    refine every_command trivial not_neg_of_succeeds fun _ _ _ => ?_
    refine every_command trivial not_neg_of_succeeds fun _ _ _ => ?_
    refine .access fun _ _ => every_command trivial not_neg_of_succeeds fun _ _ _ => ?_
    exact every_check waitBusy_result (fun r hr hneg => absurd hr (by omega)) fun _ _ _ => ih

/-- A write inside of the region fails with a command only. -/
theorem writeLoop_result {ptr : ℤ} (hregion : o + l ≤ flash.regionSize.toNat) :
    (writeLoop flash fuel data rounds (BitVec.ofNat 32 o) ptr (BitVec.ofNat 32 l)).Every Succeeds
      (fun _ => True) (0 ≤ ·) := by
  induction rounds generalizing o l ptr with
  | zero => trivial
  | succ rounds ih =>
    have hlt := flash.region_lt
    have hbounds := flash.blockSize_bounds
    have hplace := Nat.mod_lt o hbounds.1
    have hdiv := Nat.div_mul_le_self o flash.blockSize.toNat
    have hlength : (BitVec.ofNat 32 l).toNat = l := ofNat_toNat (by omega)
    have hint := int_cases (BitVec.ofNat 32 l)
    rw [writeLoop]
    refine .ite (fun hpos => ?_) fun _ => le_rfl
    dsimp only
    rw [part_ofNat (by omega) (by omega) (by omega)]
    obtain ⟨c, hc⟩ : ∃ c, c = min l (flash.blockSize.toNat - o % flash.blockSize.toNat) := ⟨_, rfl⟩
    have ho : (BitVec.ofNat 32 o).toNat = o := ofNat_toNat (by omega)
    have haccepted : ¬ (flash.regionSize.toInt ≤ (BitVec.ofNat 32 o).toInt ∨
        flash.regionSize.toInt < (BitVec.ofNat 32 o + BitVec.ofNat 32 c).toInt) :=
      not_rejects (by omega) (by omega)
    have hintRegion := int_cases flash.regionSize
    have hblock := flash.block_offset (BitVec.ofNat 32 o)
    have haligned :
        (BitVec.ofNat 32 o &&& ~~~(flash.blockSize - 1)) &&& (flash.blockSize - 1) = 0 := by
      apply BitVec.eq_of_toNat_eq
      rw [flash.block_place, hblock, Nat.mul_mod_left]
      rfl
    have hintBlock := int_cases (BitVec.ofNat 32 o &&& ~~~(flash.blockSize - 1))
    rw [ho] at hblock
    have hnext : (writeLoop flash fuel data rounds (BitVec.ofNat 32 o + BitVec.ofNat 32 c)
        (ptr + (BitVec.ofNat 32 c).toNat) (BitVec.ofNat 32 l - BitVec.ofNat 32 c)).Every Succeeds
          (fun _ => True) (0 ≤ ·) := by
      rw [← BitVec.ofNat_add, BitVec.ofNat_sub_ofNat_of_le l c (by omega) (by omega)]
      exact ih (by omega)
    rw [← hc, writeRound]
    refine .bind (.of_forall _ (fun _ => trivial) fun _ => trivial) fun r _ =>
      .ite (fun _ => ?_) fun _ => hnext
    · rw [peridotSpiFlashEraseBlock, flash.length_eq, if_neg (by omega),
        if_neg (not_not_intro haligned), peridotSpiFlashWriteBlock, flash.length_eq,
        if_neg haccepted]
      refine every_check (every_command trivial not_neg_of_succeeds fun _ _ _ =>
        every_command trivial not_neg_of_succeeds fun _ _ _ => waitBusy_result)
        (fun r hr hneg => absurd hr (by omega)) fun _ _ _ => ?_
      exact every_check writeBlockLoop_result (fun r hr hneg => absurd hr (by omega))
        fun _ _ _ => hnext

/-- A write that stores its last byte can address it. -/
theorem reaches_of_programs (hregion : o + l ≤ flash.regionSize.toNat) (hl : 0 < l)
    (h : flash.Programs o l) : flash.Reaches (o + l) := by
  have hlt := flash.region_lt
  by_contra hreach
  rw [SpiFlashDev.Reaches, not_or, Bool.not_eq_true] at hreach
  obtain ⟨hmode, hhigh⟩ := hreach
  obtain ⟨enough, hruns⟩ := h (List.replicate l 0) (fun _ => 0x55) false (fun _ => 0)
    (fun _ => false) List.length_replicate
  obtain ⟨r, hrun, hwritten⟩ := hruns enough le_rfl
  have hunprogrammed := Unprogrammed.run (x := o + (l - 1)) hmode (by omega) (.inl rfl) hrun
  rw [peridotSpiFlashWrite, if_neg (not_rejects hl hregion)] at hrun
  have hresult : 0 ≤ r.1 := (writeLoop_result hregion).of_run reply_succeeds hrun
  have hstored := (hwritten hresult).stored (l - 1) (by rw [List.length_replicate]; omega)
  rw [List.getElem_replicate] at hstored
  rcases hunprogrammed with heq | heq
  · exact absurd (hstored.symm.trans heq) (by decide)
  · exact absurd (hstored.symm.trans heq) (by decide)

end Programs

/-- **The exact condition** for a write to program the range it is asked for. -/
theorem write_programs_iff (flash : SpiFlashDev)
    (hpage : flash.pageSize.toNat ≤ flash.blockSize.toNat) (offset length : ℕ)
    (hregion : offset + length ≤ flash.regionSize.toNat) :
    flash.Programs offset length ↔
      length = 0 ∨ flash.pageSize.toNat ∣ offset + length ∧
        (flash.fourBytesMode = true ∨ offset + length ≤ 2 ^ 24) := by
  constructor
  · intro h
    refine or_iff_not_imp_left.mpr fun hlength => ?_
    have hreach := reaches_of_programs hregion (Nat.pos_of_ne_zero hlength) h
    exact ⟨dvd_of_programs hpage hregion (Nat.pos_of_ne_zero hlength) hreach h, hreach⟩
  · exact programs_of_dvd hpage hregion

theorem write_programs_page : SpiFlashDev.mib8.Programs 0x180 0x80 :=
  (write_programs_iff .mib8 (by decide) 0x180 0x80 (by decide)).mpr (.inr (by decide))

/-- To write one byte reads 256 bytes of the source. -/
theorem write_reads_behind_source :
    ¬ ∀ (flash : SpiFlashDev) (offset length : ℕ),
      flash.pageSize.toNat ≤ flash.blockSize.toNat → offset + length ≤ flash.regionSize.toNat →
        flash.Programs offset length := by
  intro h
  have hdvd : SpiFlashDev.mib8.pageSize.toNat ∣ 0 + 1 :=
    dvd_of_programs (by decide) (by decide) Nat.one_pos (.inr (by decide))
      (h .mib8 0 1 (by decide) (by decide))
  revert hdvd
  decide

end OlivePiccolo.Flash
