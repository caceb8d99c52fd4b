import Mathlib.Data.Nat.Notation
import Mathlib.Logic.Function.Basic
import Mathlib.Tactic.SplitIfs

/-!
# The window of FatFs

`sync_window` and `move_window` of `ff.c`: FatFs looks at the tables of a volume through one sector,
and writes it back before it goes on to another one, to all copies of the FAT if it is of the first
one. What FatFs sees of a volume is the window, and the disk everywhere else. A device may fail at
any call, and then leaves anything behind; moving the window never changes what is seen, and what is
written gets to a device that does not fail, and to all copies of the FAT (`accesses_written`).
FatFs never goes to the further copies of the FAT itself, and neither do the accesses here
(`Geometry.Plain`).

Numbers of sectors and clusters are below 2^32.
-/

namespace OlivePiccolo.FatFs

/-- `FRESULT`, of the functions that are modelled. -/
inductive FResult
  | ok
  | diskErr
  | intErr
  | denied
  | invalidObject
  | mkfsAborted
  | noFilesystem
  | notReady
  | writeProtected
  deriving DecidableEq, Repr

/-- The bytes of a sector. -/
abbrev Sector := ℕ → UInt8

/-- What the device makes of a call. With an error, anything may be in the buffer or on the disk. -/
inductive Answer
  | ok
  | error (left : ℕ → Sector)

/-- A disk, with what it makes of the calls to come. -/
structure Disk where
  sectors : ℕ → Sector
  answers : ℕ → Answer

namespace Disk

/-- The disk behind a call. -/
def next (d : Disk) : Disk := { d with answers := fun n => d.answers (n + 1) }

/-- Sectors in a row are put on the disk. -/
def put (d : Disk) (buff : ℕ → Sector) (sector count : ℕ) : Disk :=
  { d with sectors := fun s =>
      if sector ≤ s ∧ s < sector + count then buff (s - sector) else d.sectors s }

/-- `disk_read`: whether the result is `RES_OK`, and the buffer. -/
def read (d : Disk) (sector : ℕ) : Bool × (ℕ → Sector) × Disk :=
  match d.answers 0 with
  | .ok => (true, fun k => d.sectors (sector + k), d.next)
  | .error left => (false, left, d.next)

/-- `disk_write`. -/
def write (d : Disk) (buff : ℕ → Sector) (sector count : ℕ) : Bool × Disk :=
  match d.answers 0 with
  | .ok => (true, d.next.put buff sector count)
  | .error left => (false, d.next.put left sector count)

/-- The device does not fail. -/
def Sound (d : Disk) : Prop := ∀ n, d.answers n = .ok

section Sound

variable {d : Disk} {buff : ℕ → Sector} {sector count s : ℕ}

theorem Sound.next (h : d.Sound) : d.next.Sound := fun n => h (n + 1)

theorem Sound.read (h : d.Sound) :
    d.read sector = (true, fun k => d.sectors (sector + k), d.next) := by
  rw [Disk.read, h 0]

theorem Sound.write (h : d.Sound) :
    d.write buff sector count = (true, d.next.put buff sector count) := by
  rw [Disk.write, h 0]

theorem put_of_not (hs : ¬ (sector ≤ s ∧ s < sector + count)) :
    (d.put buff sector count).sectors s = d.sectors s := if_neg hs

theorem put_of_mem (hs : sector ≤ s ∧ s < sector + count) :
    (d.put buff sector count).sectors s = buff (s - sector) := if_pos hs

theorem put_one (d : Disk) (w : Sector) (s : ℕ) : (d.put (fun _ => w) s 1).sectors s = w :=
  if_pos ⟨Nat.le_refl s, Nat.lt_succ_self s⟩

theorem put_one_of_ne (d : Disk) (w : Sector) (hs : s ≠ sector) :
    (d.put (fun _ => w) sector 1).sectors s = d.sectors s := put_of_not (by omega)

/-- A read leaves the sectors as they are. -/
theorem read_sectors : (d.read sector).2.2.sectors = d.sectors := by
  unfold Disk.read
  cases d.answers 0 <;> rfl

theorem read_of_ok (h : (d.read sector).1 = true) : (d.read sector).2.1 0 = d.sectors sector := by
  unfold Disk.read at *
  cases hanswer : d.answers 0 with
  | ok => rfl
  | error =>
    rw [hanswer] at h
    cases h

theorem write_of_not (hs : ¬ (sector ≤ s ∧ s < sector + count)) :
    (d.write buff sector count).2.sectors s = d.sectors s := by
  unfold Disk.write
  cases d.answers 0 with
  | ok => exact put_of_not hs
  | error => exact put_of_not hs

theorem write_of_mem (h : (d.write buff sector count).1 = true)
    (hs : sector ≤ s ∧ s < sector + count) :
    (d.write buff sector count).2.sectors s = buff (s - sector) := by
  unfold Disk.write at *
  cases hanswer : d.answers 0 with
  | ok => exact put_of_mem hs
  | error =>
    rw [hanswer] at h
    cases h

end Sound

end Disk

/-- `fs_type`. -/
inductive FsType
  | none
  | fat12
  | fat16
  | fat32
  deriving DecidableEq, Repr

/-- The members of `FATFS` that mounting sets. -/
structure Geometry where
  fsType : FsType
  csize : ℕ
  nFats : ℕ
  nRootdir : ℕ
  /-- `SS(fs)` -/
  ssize : ℕ
  nFatent : ℕ
  fsize : ℕ
  volbase : ℕ
  fatbase : ℕ
  dirbase : ℕ
  database : ℕ

/-- The other members of `FATFS`, and the disk. -/
structure FATFS extends Geometry where
  wflag : Bool
  /-- Bit 7 of `fsi_flag`: there is no FSINFO. -/
  fsiDisabled : Bool
  /-- Bit 0 of `fsi_flag`. -/
  fsiDirty : Bool
  lastClust : ℕ
  freeClust : ℕ
  winsect : ℕ
  win : Sector
  disk : Disk

/-- No sector: the window is not valid. -/
def noSector : ℕ := 0xFFFFFFFF

/-- The sector is in the first FAT. -/
def Geometry.InFat (g : Geometry) (s : ℕ) : Prop := g.fatbase ≤ s ∧ s < g.fatbase + g.fsize

instance (g : Geometry) (s : ℕ) : Decidable (g.InFat s) := inferInstanceAs (Decidable (_ ∧ _))

/-- Reflect the change to all FAT copies. -/
def copyFats (win : Sector) (fsize : ℕ) : ℕ → ℕ → Disk → Disk
  | nf + 2, wsect, disk =>
    let wsect := wsect + fsize
    copyFats win fsize (nf + 1) wsect (disk.write (fun _ => win) wsect 1).2
  | _, _, disk => disk

/-- `sync_window`. -/
def syncWindow (fs : FATFS) : FResult × FATFS :=
  if fs.wflag then
    let wsect := fs.winsect
    let (done, disk) := fs.disk.write (fun _ => fs.win) wsect 1
    if ¬ done then (.diskErr, { fs with disk := disk })
    else if fs.InFat wsect then
      (.ok, { fs with
        wflag := false
        disk := copyFats fs.win fs.fsize fs.nFats wsect disk })
    else (.ok, { fs with wflag := false, disk := disk })
  else (.ok, fs)

/-- `move_window`. -/
def moveWindow (fs : FATFS) (sector : ℕ) : FResult × FATFS :=
  if sector ≠ fs.winsect then
    let (res, fs) := syncWindow fs
    if res = .ok then
      let (done, buff, disk) := fs.disk.read sector
      if done then (.ok, { fs with win := buff 0, winsect := sector, disk := disk })
      else (.diskErr, { fs with win := buff 0, winsect := noSector, disk := disk })
    else (res, fs)
  else (.ok, fs)

/-- A byte of the window is written. -/
def FATFS.poke (fs : FATFS) (i : ℕ) (b : UInt8) : FATFS :=
  { fs with win := Function.update fs.win i b, wflag := true }

/-! ## What is seen -/

/-- The parts of a volume are apart from each other, the FAT is large enough, and its values for the
end of a chain are no clusters. -/
structure Geometry.WellFormed (g : Geometry) : Prop where
  ssize_pos : 0 < g.ssize
  ssize_dvd : 4 ∣ g.ssize
  csize_pos : 0 < g.csize
  nFats : g.nFats = 1 ∨ g.nFats = 2
  nFatent : 3 ≤ g.nFatent
  /-- The entries are in the FAT. -/
  fat12 : g.fsType = .fat12 → g.nFatent ≤ 0xff7 ∧ g.nFatent * 3 ≤ g.fsize * g.ssize * 2
  fat16 : g.fsType = .fat16 → g.nFatent ≤ 0xfff7 ∧ g.nFatent * 2 ≤ g.fsize * g.ssize
  fat32 : g.fsType = .fat32 → g.nFatent ≤ 0xffffff7 ∧ g.nFatent * 4 ≤ g.fsize * g.ssize
  mounted : g.fsType ≠ .none
  fat_le : g.fatbase + g.nFats * g.fsize ≤ g.database
  data_le : g.database + (g.nFatent - 2) * g.csize ≤ noSector

/-- The sector is one of the copies of the FAT. -/
def Geometry.InCopies (g : Geometry) (s : ℕ) : Prop :=
  g.fatbase + g.fsize ≤ s ∧ s < g.fatbase + g.nFats * g.fsize

/-- A sector that FatFs works with: none of a further copy of the FAT. -/
def Geometry.Plain (g : Geometry) (s : ℕ) : Prop := s ≠ noSector ∧ ¬ g.InCopies s

theorem Geometry.WellFormed.nFats_pos {g : Geometry} (h : g.WellFormed) : 0 < g.nFats := by
  rcases h.nFats with h | h <;> omega

/-- What FatFs sees of a sector. -/
def FATFS.view (fs : FATFS) (s : ℕ) : Sector := if s = fs.winsect then fs.win else fs.disk.sectors s

/-- The window is a sector of the disk, or is to be written there. -/
structure FATFS.Coherent (fs : FATFS) : Prop where
  clean : fs.wflag = false → fs.winsect ≠ noSector → fs.win = fs.disk.sectors fs.winsect
  dirty : fs.wflag = true → fs.winsect ≠ noSector
  winsect : ¬ fs.InCopies fs.winsect

/-- Nothing is seen of what has happened. -/
structure FATFS.Kept (fs fs' : FATFS) : Prop where
  geometry : fs'.toGeometry = fs.toGeometry
  view : ∀ s, fs.Plain s → fs'.view s = fs.view s
  fsiDisabled : fs'.fsiDisabled = fs.fsiDisabled
  fsiDirty : fs'.fsiDirty = fs.fsiDirty
  lastClust : fs'.lastClust = fs.lastClust
  freeClust : fs'.freeClust = fs.freeClust

section View

variable {fs fs' fs'' : FATFS} {s sector : ℕ}

theorem FATFS.Kept.rfl : fs.Kept fs := ⟨Eq.refl _, fun _ _ => Eq.refl _, Eq.refl _, Eq.refl _,
  Eq.refl _, Eq.refl _⟩

theorem FATFS.Kept.trans (h : fs.Kept fs') (h' : fs'.Kept fs'') : fs.Kept fs'' := by
  refine ⟨h'.geometry.trans h.geometry, fun s hs => ?_, h'.fsiDisabled.trans h.fsiDisabled,
    h'.fsiDirty.trans h.fsiDirty, h'.lastClust.trans h.lastClust, h'.freeClust.trans h.freeClust⟩
  rw [h'.view s (by rwa [h.geometry]), h.view s hs]

/-- Sectors that are not in the row of the copies. -/
theorem copyFats_of_ne {win : Sector} {fsize nf wsect : ℕ} {disk : Disk}
    (hs : ∀ k, k + 1 < nf → s ≠ wsect + (k + 1) * fsize) :
    (copyFats win fsize nf wsect disk).sectors s = disk.sectors s := by
  induction nf generalizing wsect disk with
  | zero => rfl
  | succ nf ih =>
    cases nf with
    | zero => rfl
    | succ nf =>
      have hfirst := hs 0 (by omega)
      rw [copyFats, ih fun k hk => ?_]
      · exact Disk.write_of_not (by omega)
      · have hnext := hs (k + 1) (by omega)
        rw [Nat.succ_mul] at hnext
        omega

theorem not_inCopies_of_inFat {g : Geometry} (h : g.InFat s) : ¬ g.InCopies s := by
  rintro ⟨hle, -⟩
  exact absurd h.2 (Nat.not_lt.mpr hle)

/-- The copies of a sector of the FAT. -/
theorem inCopies_of_copy {g : Geometry} (h : g.InFat sector) {k : ℕ} (hk : k + 1 < g.nFats) :
    g.InCopies (sector + (k + 1) * g.fsize) := by
  have hle := Nat.mul_le_mul_right g.fsize (show k + 2 ≤ g.nFats by omega)
  rw [Nat.succ_mul] at hle
  have h₁ := h.1
  have h₂ := h.2
  rw [Nat.succ_mul] at hle ⊢
  constructor <;> omega

/-- But for the sector in the window and the copies, the disk is as before. -/
def FATFS.Same (fs : FATFS) (disk : Disk) : Prop :=
  ∀ s, s ≠ fs.winsect → ¬ fs.InCopies s → disk.sectors s = fs.disk.sectors s

/-- What `sync_window` can do. -/
inductive FATFS.Synced (fs : FATFS) : FResult × FATFS → Prop
  | clean : fs.wflag = false → Synced fs (.ok, fs)
  | failed (disk : Disk) : fs.wflag = true → fs.Same disk →
      Synced fs (.diskErr, { fs with disk := disk })
  | written (disk : Disk) : fs.wflag = true → fs.Same disk →
      disk.sectors fs.winsect = fs.win → Synced fs (.ok, { fs with wflag := false, disk := disk })

theorem syncWindow_synced (fs : FATFS) : fs.Synced (syncWindow fs) := by
  have hone : fs.Same (fs.disk.write (fun _ => fs.win) fs.winsect 1).2 :=
    fun s hs _ => Disk.write_of_not (by omega)
  simp only [syncWindow]
  split_ifs with hdirty hdone hfat
  · refine .written _ hdirty (fun s hs hcopies => ?_) ?_
    · refine (copyFats_of_ne fun k hk heq => hcopies ?_).trans (hone s hs hcopies)
      rw [heq]
      exact inCopies_of_copy hfat hk
    · rw [copyFats_of_ne fun k hk heq => ?_]
      · exact (Disk.write_of_mem hdone (by omega)).trans rfl
      · apply not_inCopies_of_inFat hfat
        rw [heq]
        exact inCopies_of_copy hfat hk
  · exact .written _ hdirty hone ((Disk.write_of_mem hdone (by omega)).trans rfl)
  · exact .failed _ hdirty hone
  · exact .clean (Bool.eq_false_iff.mpr hdirty)

namespace FATFS.Synced

variable {r : FResult × FATFS}

theorem kept (h : fs.Synced r) : fs.Kept r.2 := by
  have hview {disk : Disk} (hsame : fs.Same disk) (s : ℕ) (hs : fs.Plain s) :
      (if s = fs.winsect then fs.win else disk.sectors s) = fs.view s := by
    unfold view
    split_ifs with hwin
    · rfl
    · exact hsame s hwin hs.2
  cases h with
  | clean => exact .rfl
  | failed disk _ hsame => exact ⟨rfl, hview hsame, rfl, rfl, rfl, rfl⟩
  | written disk _ hsame => exact ⟨rfl, hview hsame, rfl, rfl, rfl, rfl⟩

theorem coherent (h : fs.Synced r) (hfs : fs.Coherent) : r.2.Coherent := by
  cases h with
  | clean => exact hfs
  | failed disk hdirty _ =>
    refine ⟨fun hclean => ?_, hfs.dirty, hfs.winsect⟩
    rw [hdirty] at hclean
    cases hclean
  | written disk _ _ hwritten =>
    refine ⟨fun _ _ => hwritten.symm, ?_, hfs.winsect⟩
    intro hdirty
    cases hdirty

/-- The other sectors of the disk are as before. -/
theorem sectors_eq (h : fs.Synced r) (hs : fs.Plain s) (hne : s ≠ fs.winsect) :
    r.2.disk.sectors s = fs.disk.sectors s := by
  cases h with
  | clean => rfl
  | failed disk _ hsame => exact hsame s hne hs.2
  | written disk _ hsame => exact hsame s hne hs.2

theorem winsect_eq (h : fs.Synced r) : r.2.winsect = fs.winsect := by
  cases h <;> rfl

theorem wflag_eq (h : fs.Synced r) (hok : r.1 = .ok) : r.2.wflag = false := by
  cases h with
  | clean hclean => exact hclean
  | failed => cases hok
  | written => rfl

theorem res (h : fs.Synced r) : r.1 = .ok ∨ r.1 = .diskErr := by
  cases h with
  | clean => exact .inl rfl
  | failed => exact .inr rfl
  | written => exact .inl rfl

end FATFS.Synced

theorem FATFS.Coherent.view_eq (h : fs.Coherent) (hclean : fs.wflag = false) (hs : fs.Plain s) :
    fs.view s = fs.disk.sectors s := by
  unfold FATFS.view
  split_ifs with hwin
  · subst hwin
    exact h.clean hclean hs.1
  · rfl

theorem poke_view (h : fs.Coherent) (hs : fs.winsect ≠ noSector) (i : ℕ) (b : UInt8) :
    (fs.poke i b).Coherent ∧
      (fs.poke i b).view = Function.update fs.view fs.winsect
        (Function.update (fs.view fs.winsect) i b) := by
  refine ⟨⟨fun hclean => ?_, fun _ => hs, h.winsect⟩, ?_⟩
  · cases hclean
  · have hwin : fs.view fs.winsect = fs.win := if_pos rfl
    funext s
    rw [hwin]
    by_cases heq : s = fs.winsect
    · subst heq
      rw [Function.update_self]
      exact if_pos rfl
    · rw [Function.update_of_ne heq]
      exact (if_neg heq).trans (if_neg heq).symm

/-! ## A device that does not fail -/

/-- The copies of the FAT, but for a sector that is still to be written. -/
def FATFS.Mirrored (fs : FATFS) : Prop :=
  ∀ s, fs.InFat s → (fs.wflag = true → s ≠ fs.winsect) → ∀ k, k + 1 < fs.nFats →
    fs.disk.sectors (s + (k + 1) * fs.fsize) = fs.disk.sectors s

theorem copyFats_sound {win : Sector} {fsize nf wsect : ℕ} {disk : Disk} (hsound : disk.Sound)
    (hfsize : 0 < fsize) : (copyFats win fsize nf wsect disk).Sound ∧ ∀ k, k + 1 < nf →
      (copyFats win fsize nf wsect disk).sectors (wsect + (k + 1) * fsize) = win := by
  induction nf generalizing wsect disk with
  | zero => exact ⟨hsound, fun k hk => absurd hk (by omega)⟩
  | succ nf ih =>
    cases nf with
    | zero => exact ⟨hsound, fun k hk => absurd hk (by omega)⟩
    | succ nf =>
      rw [copyFats, hsound.write]
      obtain ⟨hnext, hcopies⟩ := @ih (wsect + fsize)
        (disk.next.put (fun _ => win) (wsect + fsize) 1) hsound.next
      refine ⟨hnext, fun k hk => ?_⟩
      cases k with
      | zero =>
        have hothers (k : ℕ) (_ : k + 1 < nf + 1) :
            wsect + fsize ≠ wsect + fsize + (k + 1) * fsize := by
          have hpos := Nat.mul_pos (Nat.succ_pos k) hfsize
          rw [Nat.succ_eq_add_one] at hpos
          omega
        rw [Nat.zero_add, Nat.one_mul, copyFats_of_ne hothers]
        exact Disk.put_one _ _ _
      | succ k =>
        rw [show wsect + (k + 1 + 1) * fsize = wsect + fsize + (k + 1) * fsize by
          rw [Nat.succ_mul (k + 1)]; omega]
        exact hcopies k (by omega)

/-- Copies of different sectors are different. -/
theorem copy_ne {g : Geometry} {t k j : ℕ} (hs : g.InFat s) (ht : g.InFat t) (hne : s ≠ t) :
    s + (k + 1) * g.fsize ≠ t + (j + 1) * g.fsize := by
  have h₁ := hs.1
  have h₂ := hs.2
  have h₃ := ht.1
  have h₄ := ht.2
  intro heq
  rcases Nat.lt_trichotomy k j with hlt | rfl | hlt
  · have hle := Nat.mul_le_mul_right g.fsize (show k + 2 ≤ j + 1 by omega)
    rw [Nat.succ_mul (k + 1)] at hle
    omega
  · omega
  · have hle := Nat.mul_le_mul_right g.fsize (show j + 2 ≤ k + 1 by omega)
    rw [Nat.succ_mul (j + 1)] at hle
    omega

theorem syncWindow_sound (h : fs.Coherent) (hsound : fs.disk.Sound) (hmirrored : fs.Mirrored) :
    (syncWindow fs).1 = .ok ∧ (syncWindow fs).2.disk.Sound ∧ (syncWindow fs).2.Mirrored := by
  by_cases hdirty : fs.wflag = true
  · simp only [syncWindow, hsound.write, hdirty, if_true, not_true_eq_false, if_false]
    have hput (s : ℕ) (hs : s ≠ fs.winsect) :
        (fs.disk.next.put (fun _ => fs.win) fs.winsect 1).sectors s = fs.disk.sectors s :=
      Disk.put_one_of_ne _ _ hs
    split_ifs with hfat
    · have hfsize : 0 < fs.fsize := by
        have h₁ := hfat.1
        have h₂ := hfat.2
        omega
      have hsound' : (fs.disk.next.put (fun _ => fs.win) fs.winsect 1).Sound := hsound.next
      obtain ⟨hsound'', hcopies⟩ := @copyFats_sound fs.win fs.fsize fs.nFats
        fs.winsect _ hsound' hfsize
      refine ⟨rfl, hsound'', fun s hs _ k hk => ?_⟩
      have hsame : (copyFats fs.win fs.fsize fs.nFats fs.winsect
          (fs.disk.next.put (fun _ => fs.win) fs.winsect 1)).sectors s =
            (fs.disk.next.put (fun _ => fs.win) fs.winsect 1).sectors s :=
        copyFats_of_ne fun j hj heq =>
          not_inCopies_of_inFat hs (heq ▸ inCopies_of_copy hfat hj)
      refine Eq.trans ?_ hsame.symm
      by_cases hne : s = fs.winsect
      · subst hne
        rw [Disk.put_one]
        exact hcopies k hk
      · rw [hput s hne, ← hmirrored s hs (fun _ => hne) k hk]
        refine (copyFats_of_ne fun j _ => copy_ne hs hfat hne).trans (hput _ fun heq => ?_)
        exact h.winsect (heq ▸ inCopies_of_copy hs hk)
    · refine ⟨rfl, hsound.next, fun s hs _ k hk => ?_⟩
      have hne : s ≠ fs.winsect := fun heq => hfat (heq ▸ hs)
      have hcopy : s + (k + 1) * fs.fsize ≠ fs.winsect := fun heq =>
        h.winsect (heq ▸ inCopies_of_copy hs hk)
      exact (hput _ hcopy).trans ((hmirrored s hs (fun _ => hne) k hk).trans (hput s hne).symm)
  · rw [syncWindow, if_neg hdirty]
    exact ⟨rfl, hsound, hmirrored⟩

theorem moveWindow_sound (h : fs.Coherent) (hsound : fs.disk.Sound) (hmirrored : fs.Mirrored) :
    (moveWindow fs sector).1 = .ok ∧ (moveWindow fs sector).2.disk.Sound ∧
      (moveWindow fs sector).2.Mirrored := by
  unfold moveWindow
  split_ifs with hwin
  · have hsync := syncWindow_synced fs
    obtain ⟨hok, hsound', hmirrored'⟩ := syncWindow_sound h hsound hmirrored
    rcases hr : syncWindow fs with ⟨res, fs'⟩
    rw [hr] at hsync hok hsound' hmirrored'
    have hres : res = .ok := hok
    have hclean : fs'.wflag = false := hsync.wflag_eq hok
    have hread : fs'.disk.read sector = _ := hsound'.read
    simp only [hres, if_true, hread]
    refine ⟨trivial, hsound'.next, fun s hs _ k hk => ?_⟩
    exact hmirrored' s hs (fun hdirty => absurd (hdirty.symm.trans hclean) (by decide)) k hk
  · exact ⟨rfl, hsound, hmirrored⟩

/-- The device does not fail, and the copies are up to date. -/
def FATFS.Fine (fs : FATFS) : Prop := fs.disk.Sound ∧ fs.Mirrored

/-- What `move_window` can do. -/
structure FATFS.Moved (fs : FATFS) (sector : ℕ) (r : FResult × FATFS) : Prop where
  kept : fs.Kept r.2
  coherent : r.2.Coherent
  res : r.1 = .ok ∧ r.2.winsect = sector ∨ r.1 = .diskErr
  fine : fs.Fine → r.1 = .ok ∧ r.2.Fine
  /-- The sectors that do not come into the window. -/
  aside : ∀ s, fs.Plain s → s ≠ fs.winsect → s ≠ sector →
    r.2.disk.sectors s = fs.disk.sectors s ∧ s ≠ r.2.winsect

theorem moveWindow_aside (hs : fs.Plain s) (hne : s ≠ fs.winsect) (hsector : s ≠ sector) :
    (moveWindow fs sector).2.disk.sectors s = fs.disk.sectors s ∧
      s ≠ (moveWindow fs sector).2.winsect := by
  unfold moveWindow
  split_ifs with hwin
  · have hsync := syncWindow_synced fs
    rcases hr : syncWindow fs with ⟨res, fs'⟩
    rw [hr] at hsync
    have hsectors : fs'.disk.sectors s = fs.disk.sectors s := hsync.sectors_eq hs hne
    simp only
    split_ifs with hres hdone
    · exact ⟨(congrFun Disk.read_sectors s).trans hsectors, hsector⟩
    · exact ⟨(congrFun Disk.read_sectors s).trans hsectors, hs.1⟩
    · exact ⟨hsectors, fun heq => hne (heq.trans hsync.winsect_eq)⟩
  · exact ⟨rfl, hne⟩

theorem moveWindow_moved (h : fs.Coherent) (hs : fs.Plain sector) (hg : fs.WellFormed) :
    fs.Moved sector (moveWindow fs sector) := by
  have hfine : fs.Fine → (moveWindow fs sector).1 = .ok ∧ (moveWindow fs sector).2.Fine :=
    fun hfine => moveWindow_sound h hfine.1 hfine.2
  suffices hmoved : fs.Kept (moveWindow fs sector).2 ∧ (moveWindow fs sector).2.Coherent ∧
      ((moveWindow fs sector).1 = .ok ∧ (moveWindow fs sector).2.winsect = sector ∨
        (moveWindow fs sector).1 = .diskErr) from
    ⟨hmoved.1, hmoved.2.1, hmoved.2.2, hfine, fun s => moveWindow_aside⟩
  clear hfine
  unfold moveWindow
  split_ifs with hwin
  · have hsync := syncWindow_synced fs
    rcases hr : syncWindow fs with ⟨res, fs'⟩
    rw [hr] at hsync
    have hkept : fs.Kept fs' := hsync.kept
    have hcoherent : fs'.Coherent := hsync.coherent h
    have hplain (s : ℕ) : fs'.Plain s ↔ fs.Plain s := by rw [hkept.geometry]
    simp only
    split_ifs with hres hdone
    · have hclean : fs'.wflag = false := hsync.wflag_eq hres
      have hsectors : (fs'.disk.read sector).2.2.sectors = fs'.disk.sectors := Disk.read_sectors
      have hbuff : (fs'.disk.read sector).2.1 0 = fs'.disk.sectors sector := Disk.read_of_ok hdone
      refine ⟨hkept.trans ⟨rfl, fun s hs' => ?_, rfl, rfl, rfl, rfl⟩, ⟨fun _ _ => ?_, ?_, ?_⟩,
        .inl ⟨rfl, rfl⟩⟩
      · rw [hcoherent.view_eq hclean hs']
        show (if s = sector then _ else _) = _
        rw [hsectors, hbuff]
        split_ifs with hsector
        · rw [hsector]
        · rfl
      · show (fs'.disk.read sector).2.1 0 = (fs'.disk.read sector).2.2.sectors sector
        rw [hsectors, hbuff]
      · exact fun hdirty => absurd (hdirty.symm.trans hclean) (by decide)
      · exact ((hplain sector).mpr hs).2
    · have hclean : fs'.wflag = false := hsync.wflag_eq hres
      have hsectors : (fs'.disk.read sector).2.2.sectors = fs'.disk.sectors := Disk.read_sectors
      refine ⟨hkept.trans ⟨rfl, fun s hs' => ?_, rfl, rfl, rfl, rfl⟩, ⟨?_, ?_, ?_⟩, .inr rfl⟩
      · rw [hcoherent.view_eq hclean hs']
        show (if s = noSector then _ else _) = _
        rw [if_neg hs'.1, hsectors]
      · exact fun _ hnot => absurd rfl hnot
      · exact fun hdirty => absurd (hdirty.symm.trans hclean) (by decide)
      · rintro ⟨-, hlt⟩
        have hgeometry := hkept.geometry
        change noSector < fs'.fatbase + fs'.nFats * fs'.fsize at hlt
        rw [hgeometry] at hlt
        have hfat := hg.fat_le
        have hdata := hg.data_le
        omega
    · exact ⟨hkept, hcoherent, .inr (hsync.res.resolve_left hres)⟩
  · exact ⟨.rfl, h, .inl ⟨rfl, (not_not.mp hwin).symm⟩⟩

theorem FATFS.Fine.poke (h : fs.Fine) (i : ℕ) (b : UInt8) : (fs.poke i b).Fine :=
  ⟨h.1, fun s hs hne k hk => h.2 s hs (fun _ => hne rfl) k hk⟩

end View

/-! ## A volume with nothing on it -/

/-- A volume of 4086 clusters. -/
def blankGeometry : Geometry where
  fsType := .fat16
  csize := 1
  nFats := 2
  nRootdir := 512
  ssize := 512
  nFatent := 4088
  fsize := 16
  volbase := 0
  fatbase := 1
  dirbase := 33
  database := 65

/-- All of them are free. -/
def blank (answers : ℕ → Answer) : FATFS where
  toGeometry := blankGeometry
  wflag := false
  fsiDisabled := true
  fsiDirty := false
  lastClust := 0xFFFFFFFF
  freeClust := 0xFFFFFFFF
  winsect := noSector
  win := fun _ => 0
  disk := ⟨fun _ _ => 0, answers⟩

section Blank

variable {answers : ℕ → Answer}

theorem blank_wellFormed : blankGeometry.WellFormed where
  ssize_pos := by decide
  ssize_dvd := ⟨128, rfl⟩
  csize_pos := by decide
  nFats := .inr rfl
  nFatent := by decide
  fat12 := fun h => by cases h
  fat16 := fun _ => by decide
  fat32 := fun h => by cases h
  mounted := by decide
  fat_le := by decide
  data_le := by decide

theorem blank_coherent : (blank answers).Coherent := by
  refine ⟨fun _ hne => absurd rfl hne, fun h => ?_, ?_⟩
  · cases h
  · show ¬ (17 ≤ noSector ∧ noSector < 33)
    decide

theorem blank_fine (h : ∀ n, answers n = .ok) : (blank answers).Fine := ⟨h, fun _ _ _ _ _ => rfl⟩

end Blank

/-! ## Accesses in any order -/

/-- What FatFs does with a sector: it is moved into the window, and a byte is read or written. -/
inductive Access
  | read (sector i : ℕ)
  | write (sector i : ℕ) (b : UInt8)

namespace Access

def sector : Access → ℕ
  | read sector _ => sector
  | write sector _ _ => sector

/-- Through the window: the byte, unless `move_window` has failed. -/
def exec (fs : FATFS) (a : Access) : Option UInt8 × FATFS :=
  let (res, fs) := moveWindow fs a.sector
  if res = .ok then
    match a with
    | read _ i => (some (fs.win i), fs)
    | write _ i b => (some b, fs.poke i b)
  else (none, fs)

/-- On an array of sectors. -/
def ideal (sectors : ℕ → Sector) : Access → UInt8 × (ℕ → Sector)
  | read s i => (sectors s i, sectors)
  | write s i b => (b, Function.update sectors s (Function.update (sectors s) i b))

end Access

/-- Accesses one after the other, and what they return. -/
def accesses (fs : FATFS) : List Access → List (Option UInt8) × FATFS
  | [] => ([], fs)
  | a :: l =>
    let (b, fs) := a.exec fs
    let (bs, fs) := accesses fs l
    (b :: bs, fs)

/-- The accesses on an array of sectors, without those that have failed. -/
inductive Replays : (ℕ → Sector) → List Access → List (Option UInt8) → (ℕ → Sector) → Prop
  | nil {f : ℕ → Sector} : Replays f [] [] f
  | failed {f f' : ℕ → Sector} {a : Access} {l : List Access} {bs : List (Option UInt8)} :
      Replays f l bs f' → Replays f (a :: l) (none :: bs) f'
  | done {f f' : ℕ → Sector} {a : Access} {l : List Access} {bs : List (Option UInt8)} :
      Replays (a.ideal f).2 l bs f' → Replays f (a :: l) (some (a.ideal f).1 :: bs) f'

section Accesses

variable {fs : FATFS} {f : ℕ → Sector}

theorem access_spec (h : fs.Coherent) (hg : fs.WellFormed) (a : Access) (ha : fs.Plain a.sector)
    (hf : ∀ s, fs.Plain s → f s = fs.view s) :
    (a.exec fs).2.Coherent ∧ (a.exec fs).2.toGeometry = fs.toGeometry ∧
      ((a.exec fs).1 = none ∧ (∀ s, fs.Plain s → f s = (a.exec fs).2.view s) ∨
        (a.exec fs).1 = some (a.ideal f).1 ∧
          ∀ s, fs.Plain s → (a.ideal f).2 s = (a.exec fs).2.view s) := by
  obtain ⟨hkept, hcoherent, hres, -, -⟩ := moveWindow_moved h ha hg
  unfold Access.exec
  rcases hr : moveWindow fs a.sector with ⟨res, fs'⟩
  rw [hr] at hkept hcoherent hres
  have hview (s : ℕ) (hs : fs.Plain s) : f s = fs'.view s := (hf s hs).trans (hkept.view s hs).symm
  rcases hres with ⟨hok, hwin⟩ | herr
  · have hok' : res = .ok := hok
    have hwin' : fs'.winsect = a.sector := hwin
    have hbyte (i : ℕ) : fs'.win i = f a.sector i := by
      rw [hview _ ha, ← hwin']
      exact (congrFun (if_pos rfl) i).symm
    simp only [hok', if_true]
    cases a with
    | read t i =>
      exact ⟨hcoherent, hkept.geometry, .inr ⟨congrArg some (hbyte i), hview⟩⟩
    | write t i b =>
      obtain ⟨hpoke, hpoked⟩ := poke_view hcoherent (hwin' ▸ ha.1) i b
      refine ⟨hpoke, hkept.geometry, .inr ⟨rfl, fun s hs => ?_⟩⟩
      have ht : fs'.winsect = t := hwin'
      rw [hpoked, ht, ← hview t ha]
      show Function.update f t _ s = _
      by_cases heq : s = t
      · rw [heq, Function.update_self, Function.update_self]
      · rw [Function.update_of_ne heq, Function.update_of_ne heq, hview s hs]
  · have herr' : res = .diskErr := herr
    simp only [herr', reduceCtorEq, if_false]
    exact ⟨hcoherent, hkept.geometry, .inl ⟨trivial, hview⟩⟩

/-- Accesses that have returned an error have done nothing. -/
theorem accesses_replay (h : fs.Coherent) (hg : fs.WellFormed) (l : List Access)
    (hl : ∀ a ∈ l, fs.Plain a.sector) (hf : ∀ s, fs.Plain s → f s = fs.view s) :
    (accesses fs l).2.Coherent ∧ ∃ f', Replays f l (accesses fs l).1 f' ∧
      ∀ s, fs.Plain s → f' s = (accesses fs l).2.view s := by
  induction l generalizing fs f with
  | nil => exact ⟨h, f, .nil, hf⟩
  | cons a l ih =>
    obtain ⟨hcoherent, hgeometry, hcases⟩ := access_spec h hg a (hl a List.mem_cons_self) hf
    rw [accesses]
    rcases hr : a.exec fs with ⟨b, fs'⟩
    rw [hr] at hcoherent hgeometry hcases
    have hplain (s : ℕ) : fs'.Plain s ↔ fs.Plain s := by rw [hgeometry]
    have hg' : fs'.WellFormed := by rwa [hgeometry]
    have hl' (a : Access) (ha : a ∈ l) : fs'.Plain a.sector :=
      (hplain _).mpr (hl a (List.mem_cons_of_mem _ ha))
    rcases hcases with ⟨hb, hview⟩ | ⟨hb, hview⟩
    · obtain ⟨hc, f', hreplays, hf'⟩ := ih hcoherent hg' hl' fun s hs => hview s ((hplain s).mp hs)
      have hb' : b = none := hb
      rw [hb']
      exact ⟨hc, f', .failed hreplays, fun s hs => hf' s ((hplain s).mpr hs)⟩
    · obtain ⟨hc, f', hreplays, hf'⟩ := ih hcoherent hg' hl' fun s hs => hview s ((hplain s).mp hs)
      have hb' : b = some (a.ideal f).1 := hb
      rw [hb']
      exact ⟨hc, f', .done hreplays, fun s hs => hf' s ((hplain s).mpr hs)⟩

theorem access_fine (h : fs.Coherent) (hg : fs.WellFormed) (hfine : fs.Fine) (a : Access)
    (ha : fs.Plain a.sector) : (a.exec fs).1 ≠ none ∧ (a.exec fs).2.Fine := by
  obtain ⟨hok, hfine'⟩ := (moveWindow_moved h ha hg).fine hfine
  unfold Access.exec
  rcases hr : moveWindow fs a.sector with ⟨res, fs'⟩
  rw [hr] at hok hfine'
  have hok' : res = .ok := hok
  simp only [hok', if_true]
  cases a with
  | read t i => exact ⟨Option.some_ne_none _, hfine'⟩
  | write t i b => exact ⟨Option.some_ne_none _, hfine'.poke i b⟩

theorem accesses_fine (h : fs.Coherent) (hg : fs.WellFormed) (hfine : fs.Fine) (l : List Access)
    (hl : ∀ a ∈ l, fs.Plain a.sector) : none ∉ (accesses fs l).1 ∧ (accesses fs l).2.Fine ∧
      (accesses fs l).2.toGeometry = fs.toGeometry := by
  induction l generalizing fs with
  | nil => exact ⟨List.not_mem_nil, hfine, rfl⟩
  | cons a l ih =>
    have ha := hl a List.mem_cons_self
    obtain ⟨hcoherent, hgeometry, -⟩ := access_spec h hg a ha fun s _ => rfl
    obtain ⟨hdone, hfine'⟩ := access_fine h hg hfine a ha
    rw [accesses]
    rcases hr : a.exec fs with ⟨b, fs'⟩
    rw [hr] at hcoherent hgeometry hdone hfine'
    obtain ⟨hall, hfine'', hgeometry'⟩ := ih hcoherent (by rwa [hgeometry]) hfine' fun a ha => by
      rw [hgeometry]
      exact hl a (List.mem_cons_of_mem _ ha)
    refine ⟨fun hmem => ?_, hfine'', hgeometry'.trans hgeometry⟩
    rcases List.mem_cons.mp hmem with hb | hmem
    · exact hdone hb.symm
    · exact hall hmem

/-- **The window is not seen, and nothing is lost.** On any device, accesses in any order to sectors
that are not of a further copy of the FAT are those on an array, but for the ones that have returned
an error. When the device does not fail and the copies of the FAT are the same, none has, and behind
`sync_window` the disk is that array, in all copies of the FAT too. -/
theorem accesses_written (h : fs.Coherent) (hg : fs.WellFormed) (l : List Access)
    (hl : ∀ a ∈ l, fs.Plain a.sector) : ∃ f, Replays fs.view l (accesses fs l).1 f ∧
      (∀ s, fs.Plain s → f s = (accesses fs l).2.view s) ∧ (fs.Fine →
        none ∉ (accesses fs l).1 ∧
        (∀ s, fs.Plain s → (syncWindow (accesses fs l).2).2.disk.sectors s = f s) ∧
        ∀ s, fs.InFat s → ∀ k, k + 1 < fs.nFats →
          (syncWindow (accesses fs l).2).2.disk.sectors (s + (k + 1) * fs.fsize) = f s) := by
  obtain ⟨hcoherent, f, hreplays, hf⟩ := accesses_replay h hg l hl fun s _ => rfl
  refine ⟨f, hreplays, hf, fun hfine => ?_⟩
  obtain ⟨hdone, hfine', hgeometry⟩ := accesses_fine h hg hfine l hl
  obtain ⟨hok, -, hmirrored⟩ := syncWindow_sound hcoherent hfine'.1 hfine'.2
  have hsync := syncWindow_synced (accesses fs l).2
  have hclean := hsync.wflag_eq hok
  have hgeometry' : (syncWindow (accesses fs l).2).2.toGeometry = fs.toGeometry :=
    hsync.kept.geometry.trans hgeometry
  have hdisk (s : ℕ) (hs : fs.Plain s) :
      (syncWindow (accesses fs l).2).2.disk.sectors s = f s := by
    have hs' : (accesses fs l).2.Plain s := by rwa [hgeometry]
    have hs'' : (syncWindow (accesses fs l).2).2.Plain s := by rwa [hgeometry']
    rw [hf s hs, ← hsync.kept.view s hs', (hsync.coherent hcoherent).view_eq hclean hs'']
  refine ⟨hdone, hdisk, fun s hs k hk => ?_⟩
  have hcopy := hmirrored s (by rwa [hgeometry']) (fun hdirty =>
    absurd (hdirty.symm.trans hclean) (by decide)) k (by rwa [hgeometry'])
  rw [hgeometry'] at hcopy
  refine hcopy.trans (hdisk s ⟨?_, not_inCopies_of_inFat hs⟩)
  have hlt := hs.2
  have hfat := hg.fat_le
  have hdata := hg.data_le
  have hone := Nat.le_mul_of_pos_left fs.fsize hg.nFats_pos
  omega

/-- A byte of the FAT and one of the root directory. -/
theorem accesses_written_blank : ∃ f,
    Replays (blank fun _ => .ok).view [.write 1 4 7, .read 33 0, .read 1 4]
      (accesses (blank fun _ => .ok) [.write 1 4 7, .read 33 0, .read 1 4]).1 f ∧
      (∀ s, blankGeometry.Plain s →
        f s = (accesses (blank fun _ => .ok) [.write 1 4 7, .read 33 0, .read 1 4]).2.view s) ∧
      ((blank fun _ => .ok).Fine →
        none ∉ (accesses (blank fun _ => .ok) [.write 1 4 7, .read 33 0, .read 1 4]).1 ∧
        (∀ s, blankGeometry.Plain s → (syncWindow (accesses (blank fun _ => .ok)
          [.write 1 4 7, .read 33 0, .read 1 4]).2).2.disk.sectors s = f s) ∧
        ∀ s, blankGeometry.InFat s → ∀ k, k + 1 < blankGeometry.nFats →
          (syncWindow (accesses (blank fun _ => .ok)
            [.write 1 4 7, .read 33 0, .read 1 4]).2).2.disk.sectors
              (s + (k + 1) * blankGeometry.fsize) = f s) :=
  accesses_written blank_coherent blank_wellFormed _ (by
    have hplain (s : ℕ) (hs : s = 1 ∨ s = 33) : (blank fun _ => .ok).Plain s := by
      refine ⟨?_, ?_⟩
      · unfold noSector
        omega
      · show ¬ (17 ≤ s ∧ s < 33)
        omega
    simp [Access.sector, hplain])

end Accesses

end OlivePiccolo.FatFs
