import OlivePiccolo.FatFs.Truncate

/-!
# Synchronizing a file

Behind `f_sync` the disk alone has the file (`fSync_durable`): its size and first cluster are in the
directory entry, its chain is in all copies of the FAT, and its bytes are in the sectors of its
clusters. The device does not fail here: `sync_fs` ignores an error of the FSINFO sector.
-/

namespace OlivePiccolo.FatFs

open ChainTable

/-- A sector of a directory. -/
structure Geometry.Placed (g : Geometry) (pool : ℕ → Prop) (s : ℕ) : Prop where
  low : g.fatbase + g.nFats * g.fsize ≤ s
  high : s < noSector
  apart : ∀ c, g.InRange c → pool c → ¬ g.InClust c s

/-- `ld_clust` -/
def ldClust (fsType : FsType) (win : Sector) (dir : ℕ) : ℕ :=
  let cl := ldWord win (dir + 26)
  if fsType = .fat32 then cl ||| ldWord win (dir + 20) <<< 16 else cl

/-- What the disk alone says about a file with these clusters. -/
structure Durable (g : Geometry) (sectors : ℕ → Sector) (l : List ℕ) (f : Content) : Prop where
  size : ldDword (sectors f.entry.1) (f.entry.2 + 28) = f.size
  size_le : f.size ≤ l.length * g.bcs
  first : ldClust g.fsType (sectors f.entry.1) f.entry.2 = (l.head?).getD 0
  linked : Linked g.nFatent (g.fsType.entry (g.fatByte sectors)) l
  copies : ∀ s, g.InFat s → ∀ k, k + 1 < g.nFats → sectors (s + (k + 1) * g.fsize) = sectors s
  bytes : ∀ p b, p < f.size → f.data p = some b →
    sectors (g.place l (p / g.ssize)) (p % g.ssize) = b

section Placed

variable {g : Geometry} {pool : ℕ → Prop} {s : ℕ}

theorem Geometry.Placed.plain (hg : g.WellFormed) (h : g.Placed pool s) :
    g.Plain s ∧ ¬ g.InFat s := by
  have hlow := h.low
  have hone := Nat.le_mul_of_pos_left g.fsize hg.nFats_pos
  refine ⟨⟨Nat.ne_of_lt h.high, fun hcopies => ?_⟩, fun hin => ?_⟩
  · have hlt := hcopies.2
    omega
  · have hlt := hin.2
    omega

end Placed

namespace Good

variable {ι : Type*} {ok : Prop} {pool : ℕ → Prop} {fs fs' : FATFS} {q : ι → List ℕ} {s : ℕ}

/-- A sector of a directory comes into the window. -/
theorem moveWindow (h : Good ok pool fs q) (hok : ok) (hs : fs.Placed pool s) :
    (moveWindow fs s).1 = .ok ∧ (FatFs.moveWindow fs s).2.winsect = s ∧
      Good ok pool (FatFs.moveWindow fs s).2 q ∧ Quiet pool fs (FatFs.moveWindow fs s).2 ∧
        (FatFs.moveWindow fs s).2.nfree = fs.nfree := by
  have hmoved := moveWindow_moved h.coherent (hs.plain h.wellFormed).1 h.wellFormed
  obtain ⟨hres, hfine⟩ := hmoved.fine (h.fine hok)
  have hwin : (FatFs.moveWindow fs s).2.winsect = s := by
    rcases hmoved.res with ⟨-, hwin⟩ | herr
    · exact hwin
    · rw [hres] at herr
      cases herr
  refine ⟨hres, hwin, h.keep hmoved.kept.geometry hmoved.coherent (fun _ => hfine)
    (fun c hc => ?_) (fun c t hc hp ht => ?_) hmoved.kept.freeClust⟩
  · rw [FATFS.entry, hmoved.kept.geometry]
    exact FsType.entry_congr h.wellFormed hc fun k hk => hmoved.kept.fatByte h.wellFormed hk
  · refine hmoved.aside t (h.plain hc ht).1 (h.apart c t hc hp ht) fun heq => ?_
    exact hs.apart c hc hp (heq ▸ ht)

/-- A sector of a directory is written in the window. -/
theorem written (h : Good ok pool fs q) (hs : fs.Placed pool fs.winsect) (win : Sector) :
    Good ok pool { fs with win := win, wflag := true } q ∧
      Quiet pool fs { fs with win := win, wflag := true } ∧
        FATFS.nfree { fs with win := win, wflag := true } = fs.nfree := by
  have hplain := hs.plain h.wellFormed
  refine h.keep rfl ⟨fun hclean => ?_, fun _ => hplain.1.1, h.coherent.winsect⟩ (fun hok => ?_)
    (fun c hc => ?_) (fun c t hc hp ht => ⟨rfl, h.apart c t hc hp ht⟩) rfl
  · cases hclean
  · refine ⟨(h.fine hok).1, fun t ht _ k hk => (h.fine hok).2 t ht (fun _ => ?_) k hk⟩
    rintro rfl
    exact hplain.2 ht
  · refine FsType.entry_congr h.wellFormed hc fun k hk => ?_
    have hin := inFat_of_inTable h.wellFormed hk
    have hne : fs.fatbase + k / fs.ssize ≠ fs.winsect := fun heq => hplain.2 (heq ▸ hin)
    rw [Geometry.fatByte, Geometry.fatByte]
    exact congrFun ((if_neg hne).trans (if_neg hne).symm) _

/-- The window is written back. -/
theorem syncWindow (h : Good ok pool fs q) (hok : ok) :
    (syncWindow fs).1 = .ok ∧ (FatFs.syncWindow fs).2.wflag = false ∧
      Good ok pool (FatFs.syncWindow fs).2 q ∧ Quiet pool fs (FatFs.syncWindow fs).2 ∧
        (FatFs.syncWindow fs).2.nfree = fs.nfree := by
  have hsync := syncWindow_synced fs
  obtain ⟨hres, hsound, hmirrored⟩ :=
    syncWindow_sound h.coherent (h.fine hok).1 (h.fine hok).2
  refine ⟨hres, hsync.wflag_eq hres, h.keep hsync.kept.geometry (hsync.coherent h.coherent)
    (fun _ => ⟨hsound, hmirrored⟩) (fun c hc => ?_) (fun c t hc hp ht => ?_) hsync.kept.freeClust⟩
  · rw [FATFS.entry, hsync.kept.geometry]
    exact FsType.entry_congr h.wellFormed hc fun k hk => hsync.kept.fatByte h.wellFormed hk
  · rw [hsync.winsect_eq]
    have hne := h.apart c t hc hp ht
    exact ⟨hsync.sectors_eq (h.plain hc ht).1 hne, hne⟩

/-- The FSINFO sector is written. -/
theorem info (h : Good ok pool fs q) (hok : ok) (hclean : fs.wflag = false)
    (hinfo : fs.volbase + 1 < fs.fatbase) {win : Sector} (hfs' : fs' = { fs with
      win := win
      winsect := fs.volbase + 1
      disk := (fs.disk.write (fun _ => win) (fs.volbase + 1) 1).2
      fsiDirty := false }) :
    Good ok pool fs' q ∧ Quiet pool fs fs' ∧ fs'.nfree = fs.nfree ∧
      ∀ s, fs.fatbase ≤ s → fs'.disk.sectors s = fs.disk.sectors s := by
  have hg := h.wellFormed
  have hsound := (h.fine hok).1
  have hsectors (s : ℕ) (hs : fs.fatbase ≤ s) :
      (fs.disk.write (fun _ => win) (fs.volbase + 1) 1).2.sectors s = fs.disk.sectors s :=
    Disk.write_of_not (by omega)
  have hdata := hg.data_le
  have hfat := hg.fat_le
  suffices hkeep : Good ok pool fs' q ∧ Quiet pool fs fs' ∧ fs'.nfree = fs.nfree by
    refine ⟨hkeep.1, hkeep.2.1, hkeep.2.2, ?_⟩
    rw [hfs']
    exact hsectors
  subst hfs'
  refine h.keep rfl ⟨fun _ _ => ?_, fun hdirty => ?_, fun hcopies => ?_⟩ (fun _ => ?_)
    (fun c hc => ?_) (fun c t hc hp ht => ?_) rfl
  · show win = (fs.disk.write (fun _ => win) (fs.volbase + 1) 1).2.sectors (fs.volbase + 1)
    rw [hsound.write]
    exact (Disk.put_one fs.disk.next win (fs.volbase + 1)).symm
  · exact absurd (hdirty.symm.trans hclean) (by simp)
  · have hle : fs.fatbase + fs.fsize ≤ fs.volbase + 1 := hcopies.1
    omega
  · refine ⟨?_, fun s hs _ k hk => ?_⟩
    · show (fs.disk.write _ _ _).2.Sound
      rw [hsound.write]
      exact hsound.next
    · have hlow : fs.fatbase ≤ s := hs.1
      have hcopy := (h.fine hok).2 s hs (fun hdirty =>
        absurd (hdirty.symm.trans hclean) (by simp)) k hk
      show (fs.disk.write _ _ _).2.sectors (s + (k + 1) * fs.fsize) =
        (fs.disk.write _ _ _).2.sectors s
      rw [hsectors _ (by omega), hsectors s hlow]
      exact hcopy
  · refine FsType.entry_congr hg hc fun k hk => ?_
    have hin := inFat_of_inTable hg hk
    have hlow : fs.fatbase ≤ fs.fatbase + k / fs.ssize := hin.1
    rw [Geometry.fatByte, Geometry.fatByte,
      h.coherent.view_eq hclean (plain_of_inFat hg hin), ← hsectors _ hlow]
    exact congrFun (if_neg (show ¬ fs.fatbase + k / fs.ssize = fs.volbase + 1 by omega)) _
  · have hlow := (inClust_bounds hc ht).1
    have hone := Nat.le_mul_of_pos_left fs.fsize hg.nFats_pos
    refine ⟨hsectors t (by omega), ?_⟩
    show t ≠ fs.volbase + 1
    omega

/-- `disk_ioctl` does nothing else. -/
theorem ioctl (h : Good ok pool fs q) :
    Good ok pool { fs with disk := fs.disk.sync.2 } q ∧
      FATFS.nfree { fs with disk := fs.disk.sync.2 } = fs.nfree ∧
        fs.disk.sync.2.sectors = fs.disk.sectors ∧ (ok → fs.disk.sync.1 = true) := by
  have hsync : fs.disk.sync.2 = fs.disk.next := by
    unfold Disk.sync
    cases fs.disk.answers 0 <;> rfl
  have hsectors : fs.disk.sync.2.sectors = fs.disk.sectors := by rw [hsync]; rfl
  have hsound (hok : ok) : fs.disk.sync.2.Sound := by
    rw [hsync]
    exact (h.fine hok).1.next
  obtain ⟨hgood, hnfree⟩ := h.disk hsound fun s _ => congrFun hsectors s
  refine ⟨hgood, hnfree, hsectors, fun hok => ?_⟩
  unfold Disk.sync
  rw [(h.fine hok).1 0]

/-- **The volume is written back.** -/
theorem syncFs (h : Good ok pool fs q) (hok : ok)
    (hinfo : fs.fsType = .fat32 → fs.volbase + 1 < fs.fatbase) :
    (syncFs fs).1 = .ok ∧ (FatFs.syncFs fs).2.wflag = false ∧
      Good ok pool (FatFs.syncFs fs).2 q ∧ Quiet pool fs (FatFs.syncFs fs).2 ∧
        (FatFs.syncFs fs).2.nfree = fs.nfree ∧
          ∀ s, fs.fatbase ≤ s → fs.Plain s → (FatFs.syncFs fs).2.disk.sectors s = fs.view s := by
  have hsync := syncWindow_synced fs
  obtain ⟨hres, hclean, hgood, hquiet, hnfree⟩ := h.syncWindow hok
  have hsectors (s : ℕ) (hs : fs.Plain s) :
      (FatFs.syncWindow fs).2.disk.sectors s = fs.view s := by
    have hs' : (FatFs.syncWindow fs).2.Plain s := by rwa [hsync.kept.geometry]
    rw [← hsync.kept.view s hs, (hsync.coherent h.coherent).view_eq hclean hs']
  unfold FatFs.syncFs
  rcases hr : FatFs.syncWindow fs with ⟨res, fs₁⟩
  rw [hr] at hres hclean hgood hquiet hnfree hsectors
  have hres' : res = .ok := hres
  have hgeometry : fs₁.toGeometry = fs.toGeometry := hquiet.geometry
  subst hres'
  -- with FSINFO or without
  have hinfo' (fs₂ : FATFS) (hgood₂ : Good ok pool fs₂ q) (hclean₂ : fs₂.wflag = false)
      (hquiet₂ : Quiet pool fs₁ fs₂) (hnfree₂ : fs₂.nfree = fs₁.nfree)
      (hsectors₂ : ∀ s, fs₁.fatbase ≤ s → fs₂.disk.sectors s = fs₁.disk.sectors s) :
      (if fs₂.disk.sync.1 = true then FResult.ok else .diskErr) = .ok ∧
        fs₂.wflag = false ∧ Good ok pool { fs₂ with disk := fs₂.disk.sync.2 } q ∧
          Quiet pool fs { fs₂ with disk := fs₂.disk.sync.2 } ∧
            FATFS.nfree { fs₂ with disk := fs₂.disk.sync.2 } = fs.nfree ∧
              ∀ s, fs.fatbase ≤ s → fs.Plain s → fs₂.disk.sync.2.sectors s = fs.view s := by
    obtain ⟨hgood₃, hnfree₃, hsync₃, hdone₃⟩ := hgood₂.ioctl
    refine ⟨if_pos (hdone₃ hok), hclean₂, hgood₃, hquiet.trans (hquiet₂.trans ⟨rfl, fun c s _ _ _ =>
      congrFun hsync₃ s⟩), hnfree₃.trans (hnfree₂.trans hnfree), fun s hs hplain => ?_⟩
    rw [hsync₃, hsectors₂ s (by rwa [hgeometry])]
    exact hsectors s hplain
  by_cases hfsi : fs₁.fsType = .fat32 ∧ fs₁.fsiDirty = true ∧ ¬ fs₁.fsiDisabled = true
  · simp only [if_true, if_pos hfsi]
    have hlow : fs₁.volbase + 1 < fs₁.fatbase := by
      rw [hgeometry]
      exact hinfo (hgeometry ▸ hfsi.1)
    obtain ⟨hgood₂, hquiet₂, hnfree₂, hsectors₂⟩ := hgood.info hok hclean hlow rfl
    exact hinfo' _ hgood₂ hclean hquiet₂ hnfree₂ hsectors₂
  · simp only [if_true, if_neg hfsi]
    exact hinfo' fs₁ hgood hclean .rfl rfl fun _ _ => rfl

end Good

/-! ## The directory entry -/

section Entry

variable {win : Sector} {fp : FIL} {fs fs' fs'' : FATFS} {i j o tm v : ℕ}

/-- Something is written in the window. -/
def FATFS.Pokes (fs fs' : FATFS) : Prop := ∃ win, fs' = { fs with win := win, wflag := true }

theorem FATFS.Pokes.trans (h : fs.Pokes fs') (h' : fs'.Pokes fs'') : fs.Pokes fs'' := by
  obtain ⟨win, rfl⟩ := h
  obtain ⟨win', rfl⟩ := h'
  exact ⟨win', rfl⟩

theorem pokes_stWord (fs : FATFS) (i v : ℕ) : fs.Pokes (fs.stWord i v) := ⟨_, rfl⟩

theorem pokes_stDword (fs : FATFS) (i v : ℕ) : fs.Pokes (fs.stDword i v) := ⟨_, rfl⟩

theorem pokes_stEntry (fs : FATFS) (fp : FIL) (tm : ℕ) : fs.Pokes (fs.stEntry fp tm) := by
  unfold FATFS.stEntry
  have hattr : fs.Pokes (fs.poke (fp.dirPtr + 11) (fs.win (fp.dirPtr + 11) ||| (0x20 : UInt8))) :=
    ⟨_, rfl⟩
  exact (((((hattr.trans (pokes_stDword _ _ _)).trans (pokes_stWord _ _ _)).trans
    (pokes_stWord _ _ _)).trans (pokes_stDword _ _ _)).trans (pokes_stWord _ _ _))

theorem stWord_win (ho : o < i ∨ i + 2 ≤ o) : (fs.stWord i v).win o = fs.win o := by
  show Function.update (Function.update fs.win i _) (i + 1) _ o = _
  rw [Function.update_of_ne (by omega), Function.update_of_ne (by omega)]

theorem stDword_win (ho : o < i ∨ i + 4 ≤ o) : (fs.stDword i v).win o = fs.win o := by
  rw [FATFS.stDword, stWord_win (by omega), stWord_win (by omega)]

theorem ldWord_congr {win' : Sector} (h : ∀ o, i ≤ o → o < i + 2 → win o = win' o) :
    ldWord win i = ldWord win' i := by
  rw [ldWord, ldWord, h i (by omega) (by omega), h (i + 1) (by omega) (by omega)]

theorem ldWord_stWord (fs : FATFS) (i v : ℕ) : ldWord (fs.stWord i v).win i = v % 2 ^ 16 := by
  have h₀ : (fs.stWord i v).win i = UInt8.ofNat v := by
    show Function.update (Function.update fs.win i _) (i + 1) _ i = _
    rw [Function.update_of_ne (by omega), Function.update_self]
  have h₁ : (fs.stWord i v).win (i + 1) = UInt8.ofNat (v / 2 ^ 8) := Function.update_self _ _ _
  simp only [ldWord, h₀, h₁, leNat, toNat_ofNat]
  omega

theorem ldDword_eq (win : Sector) (i : ℕ) :
    ldDword win i = ldWord win i + ldWord win (i + 2) * 2 ^ 16 := by
  simp only [ldDword, ldWord, leNat, Nat.add_assoc, Nat.reduceAdd]
  omega

theorem ldWord_stDword (fs : FATFS) (i v : ℕ) : ldWord (fs.stDword i v).win i = v % 2 ^ 16 := by
  rw [FATFS.stDword, ldWord_congr fun o _ ho => stWord_win (.inl ho)]
  exact ldWord_stWord fs i v

theorem ldDword_stDword (fs : FATFS) (i v : ℕ) : ldDword (fs.stDword i v).win i = v % 2 ^ 32 := by
  rw [ldDword_eq, ldWord_stDword, FATFS.stDword, ldWord_stWord]
  omega

/-- The size. -/
theorem stEntry_size (fs : FATFS) (fp : FIL) (tm : ℕ) (hsize : fp.fsize < 2 ^ 32) :
    ldDword (fs.stEntry fp tm).win (fp.dirPtr + 28) = fp.fsize := by
  have hword (n : ℕ) (hn : n = 28 ∨ n = 30) (fs : FATFS) (x y z w : ℕ) :
      ldWord (((((fs.stWord (fp.dirPtr + 26) x).stWord (fp.dirPtr + 20) y).stDword
        (fp.dirPtr + 22) z).stWord (fp.dirPtr + 18) w).win) (fp.dirPtr + n) =
          ldWord fs.win (fp.dirPtr + n) :=
    ldWord_congr fun o h₁ h₂ => by
      rw [stWord_win (by omega), stDword_win (by omega), stWord_win (by omega),
        stWord_win (by omega)]
  unfold FATFS.stEntry
  rw [ldDword_eq, hword 28 (.inl rfl), hword 30 (.inr rfl), ← ldDword_eq, ldDword_stDword,
    Nat.mod_eq_of_lt hsize]

/-- The first cluster. -/
theorem stEntry_clust (fs : FATFS) (fp : FIL) (tm : ℕ) (hclust : fp.sclust < 2 ^ 32)
    (hlow : fs.fsType ≠ .fat32 → fp.sclust < 2 ^ 16) :
    ldClust fs.fsType (fs.stEntry fp tm).win fp.dirPtr = fp.sclust := by
  have hlow' : ldWord (fs.stEntry fp tm).win (fp.dirPtr + 26) = fp.sclust % 2 ^ 16 := by
    have hword (fs : FATFS) (x y z w : ℕ) :
        ldWord ((((fs.stWord (fp.dirPtr + 26) x).stWord (fp.dirPtr + 20) y).stDword
          (fp.dirPtr + 22) z).stWord (fp.dirPtr + 18) w).win (fp.dirPtr + 26) = x % 2 ^ 16 := by
      rw [← ldWord_stWord fs (fp.dirPtr + 26) x]
      refine ldWord_congr fun o h₁ h₂ => ?_
      rw [stWord_win (by omega), stDword_win (by omega), stWord_win (by omega)]
    exact hword _ _ _ _ _
  have hhigh : ldWord (fs.stEntry fp tm).win (fp.dirPtr + 20) = fp.sclust / 2 ^ 16 := by
    have hword (fs : FATFS) (y z w : ℕ) (hy : y < 2 ^ 16) :
        ldWord (((fs.stWord (fp.dirPtr + 20) y).stDword (fp.dirPtr + 22) z).stWord
          (fp.dirPtr + 18) w).win (fp.dirPtr + 20) = y := by
      refine (ldWord_congr fun o h₁ h₂ => ?_).trans
        ((ldWord_stWord fs (fp.dirPtr + 20) y).trans (Nat.mod_eq_of_lt hy))
      rw [stWord_win (by omega), stDword_win (by omega)]
    exact hword _ _ _ _ (by omega)
  unfold ldClust
  rw [hlow', hhigh]
  split_ifs with htype
  · rw [Nat.or_comm, Nat.shiftLeft_eq, Nat.mul_comm,
      ← Nat.two_pow_add_eq_or_of_lt (Nat.mod_lt _ (by norm_num)), Nat.div_add_mod]
  · exact Nat.mod_eq_of_lt (hlow htype)

end Entry

/-! ## The file -/

section File

variable {ι : Type*} [DecidableEq ι] {ok : Prop} {pool : ℕ → Prop} {q : ι → List ℕ} {i : ι}
  {fs fs' : FATFS} {fp : FIL} {f : Content} {l : List ℕ}

omit [DecidableEq ι] in
/-- What the disk says when all has been written back. -/
theorem durable (h : Good ok pool fs q) (hok : ok) (hfp : fp.Is ok pool fs (q i) f)
    (hclean : fs.wflag = false) (hdirty : fp.faDirty = false)
    (hsize : ldDword (fs.disk.sectors f.entry.1) (f.entry.2 + 28) = f.size)
    (hfirst : ldClust fs.fsType (fs.disk.sectors f.entry.1) f.entry.2 = ((q i).head?).getD 0) :
    Durable fs.toGeometry fs.disk.sectors (q i) f := by
  have hg := h.wellFormed
  have hheld := hfp.held hok
  have hfsize := (hfp.bounded hheld.err).1.fsize_le
  refine ⟨hsize, by rwa [hheld.fsize] at hfsize, hfirst, ?_, fun s hs k hk => ?_,
    fun p b hp hdata => ?_⟩
  · refine (h.chains.linked i).congr fun c hc => ?_
    refine FsType.entry_congr hg (h.inRange hc) fun k hk => ?_
    have hplain := plain_of_inFat hg (inFat_of_inTable hg hk)
    rw [Geometry.fatByte, Geometry.fatByte, h.coherent.view_eq hclean hplain]
  · exact (h.fine hok).2 s hs (fun hdirty => absurd (hdirty.symm.trans hclean) (by simp)) k hk
  · have hk : p / fs.ssize < (q i).length * fs.csize := by
      rw [Nat.div_lt_iff_lt_mul hg.ssize_pos, Nat.mul_assoc]
      exact Nat.lt_of_lt_of_le (by rwa [hheld.fsize]) hfsize
    rw [← Nat.div_add_mod' p fs.ssize] at hdata
    refine (hheld.holds.stored _ _ b hk (Nat.mod_lt p hg.ssize_pos) hdata).2 fun hnot => ?_
    exact absurd (hnot.2.symm.trans hdirty) (by simp)

omit [DecidableEq ι] in
/-- The first cluster fits into the entry. -/
theorem sclust_lt (h : Good ok pool fs q) (hrooted : fp.Rooted fs.toGeometry pool (q i)) :
    fp.sclust < 2 ^ 32 ∧ (fs.fsType ≠ .fat32 → fp.sclust < 2 ^ 16) := by
  have hg := h.wellFormed
  have hsclust := hrooted.sclust
  cases hq : q i with
  | nil =>
    rw [hq] at hsclust
    change fp.sclust = 0 at hsclust
    rw [hsclust]
    exact ⟨by norm_num, fun _ => by norm_num⟩
  | cons c l =>
    rw [hq] at hsclust
    change fp.sclust = c at hsclust
    have hlt := (h.inRange (i := i) (c := c) (by simp [hq])).2
    have hdword := nFatent_lt hg
    unfold diskError at hdword
    refine ⟨by omega, fun htype => ?_⟩
    have hmounted := hg.mounted
    cases hfat : fs.fsType with
    | none => exact absurd hfat hmounted
    | fat12 =>
      have hle := (hg.fat12 hfat).1
      omega
    | fat16 =>
      have hle := (hg.fat16 hfat).1
      omega
    | fat32 => exact absurd hfat htype

/-- **Synchronizing a file.** -/
theorem fSync_durable (h : Good ok pool fs q) (hok : ok) (hfp : fp.Is ok pool fs (q i) f)
    (hplaced : fs.Placed pool f.entry.1)
    (hinfo : fs.fsType = .fat32 → fs.volbase + 1 < fs.fatbase) (tm : ℕ) :
    (fSync fs fp tm).1 = .ok ∧ Carried ok pool fs q i (fSync fs fp tm).2.1 (q i) ∧
      (fSync fs fp tm).2.2.Is ok pool (fSync fs fp tm).2.1 (q i) f ∧
        (fp.faWritten = true →
          Durable fs.toGeometry (fSync fs fp tm).2.1.disk.sectors (q i) f) := by
  have hmounted := h.wellFormed.mounted
  have hvalid : validate fs = .ok := if_neg hmounted
  have hheld := hfp.held hok
  obtain ⟨hbounded, hpointed, haligned, hle⟩ := hfp.bounded hheld.err
  have hentry := hfp.entry
  by_cases hwritten : fp.faWritten = true
  · obtain ⟨hcarried, hres, hgeometry, hheld'⟩ :=
      writeBack_spec (Carried.start h) hfp.rooted fun hok => (hfp.held hok).holds
    rcases hr : writeBack fs fp with ⟨done, fs₁, fp₁⟩
    rw [hr] at hcarried hres hgeometry hheld'
    obtain ⟨hdone, hfp₁⟩ := hres.resolve_right fun hnot => hnot.2.2 hok
    have hdone' : done = true := hdone
    have hfp₁' : fp₁ = { fp with faDirty := false } := hfp₁
    subst hdone' hfp₁'
    have hgeometry₁ : fs₁.toGeometry = fs.toGeometry := hgeometry
    have hsect : fp.dirSect = f.entry.1 := congrArg Prod.fst hentry
    have hptr : fp.dirPtr = f.entry.2 := congrArg Prod.snd hentry
    have hplaced₁ : fs₁.Placed pool fp.dirSect := by rwa [hgeometry₁, hsect]
    -- the entry comes into the window
    obtain ⟨hres₂, hwin₂, hgood₂, hquiet₂, hnfree₂⟩ := hcarried.good.moveWindow hok hplaced₁
    rcases hr₂ : moveWindow fs₁ fp.dirSect with ⟨res, fs₂⟩
    rw [hr₂] at hres₂ hwin₂ hgood₂ hquiet₂ hnfree₂
    have hres₂' : res = .ok := hres₂
    have hwin₂' : fs₂.winsect = fp.dirSect := hwin₂
    subst hres₂'
    have hgeometry₂ : fs₂.toGeometry = fs₁.toGeometry := hquiet₂.geometry
    have hplaced₂ : fs₂.Placed pool fs₂.winsect := by rwa [hwin₂', hgeometry₂]
    -- it is written
    obtain ⟨win, hst⟩ := pokes_stEntry fs₂ { fp with faDirty := false } tm
    obtain ⟨hgood₃, hquiet₃, hnfree₃⟩ := hgood₂.written hplaced₂ win
    rw [← hst] at hgood₃ hquiet₃ hnfree₃
    have hwin₃ : (fs₂.stEntry { fp with faDirty := false } tm).winsect = fp.dirSect := by
      rw [hst]
      exact hwin₂'
    have hsize := stEntry_size fs₂ { fp with faDirty := false } tm hbounded.fsize_lt
    have hclust := stEntry_clust fs₂ { fp with faDirty := false } tm (sclust_lt h hfp.rooted).1
      (by
        rw [hgeometry₂, hgeometry₁]
        exact (sclust_lt h hfp.rooted).2)
    generalize hst₃ : fs₂.stEntry { fp with faDirty := false } tm = fs₃ at *
    have hgeometry₃ : fs₃.toGeometry = fs₂.toGeometry := hquiet₃.geometry
    -- and all is written back
    obtain ⟨hres₄, hclean₄, hgood₄, hquiet₄, hnfree₄, hsectors₄⟩ := hgood₃.syncFs hok (by
      rw [hgeometry₃, hgeometry₂, hgeometry₁]
      exact hinfo)
    have hcarried₄ := ((hcarried.quiet hgood₂ hquiet₂ hnfree₂).quiet hgood₃ hquiet₃ hnfree₃).quiet
      hgood₄ hquiet₄ hnfree₄
    have hheld₄ := (((hheld' hok).quiet hcarried hquiet₂).quiet
      (hcarried.quiet hgood₂ hquiet₂ hnfree₂) hquiet₃).quiet
        ((hcarried.quiet hgood₂ hquiet₂ hnfree₂).quiet hgood₃ hquiet₃ hnfree₃) hquiet₄
    have hview : fs₃.view fp.dirSect = fs₃.win := if_pos hwin₃.symm
    have hlow : fs₃.fatbase ≤ fp.dirSect := by
      rw [hgeometry₃, hgeometry₂]
      exact Nat.le_trans (Nat.le_add_right _ _) hplaced₁.low
    have hplain : fs₃.Plain fp.dirSect := by
      rw [hgeometry₃, hgeometry₂]
      exact (hplaced₁.plain hcarried.good.wellFormed).1
    have hsector := (hsectors₄ _ hlow hplain).trans hview
    rcases hr₄ : syncFs fs₃ with ⟨res, fs₄⟩
    rw [hr₄] at hres₄ hclean₄ hgood₄ hquiet₄ hnfree₄ hcarried₄ hheld₄ hsector
    have hres₄' : res = .ok := hres₄
    subst hres₄'
    have hgeometry₄ : fs₄.toGeometry = fs.toGeometry := by
      rw [← hgeometry₁, ← hgeometry₂, ← hgeometry₃]
      exact hquiet₄.geometry
    have hfp₄ : FIL.Is ok pool fs₄ (q i) { fp with faDirty := false, faWritten := false } f := by
      refine ⟨⟨hfp.rooted.sclust, fun hdirty => ?_⟩, fun _ => ?_, hfp.readable, hfp.writable,
        hentry, fun hok => ⟨hheld.err, hheld.fptr, hheld.fsize, hheld.clusters, hheld₄.own,
          hheld₄.beyond, hheld₄.stored⟩⟩
      · cases hdirty
      · rw [hgeometry₄]
        exact ⟨⟨hbounded.fptr_le, hbounded.fsize_le, hbounded.fptr_lt, hbounded.fsize_lt⟩, hpointed,
          haligned, hle⟩
    have heq : fSync fs fp tm = (.ok, fs₄, { fp with faDirty := false, faWritten := false }) := by
      rw [fSync, hvalid, if_neg (by simp), if_pos hwritten, hr]
      simp only [not_true_eq_false, if_false, hr₂, if_true, hst₃, hr₄]
    rw [heq]
    refine ⟨rfl, hcarried₄, hfp₄, fun _ => ?_⟩
    have hgood : Good ok pool fs₄ q := by
      have hgood := hcarried₄.good
      rwa [Function.update_eq_self] at hgood
    have hdurable := durable hgood hok hfp₄ hclean₄ rfl ?_ ?_
    · rw [hgeometry₄] at hdurable
      exact hdurable
    · rw [← hsect, hsector, ← hptr]
      exact hsize.trans hheld.fsize
    · have htype : fs₄.fsType = fs₂.fsType := by
        rw [hgeometry₄, hgeometry₂, hgeometry₁]
      rw [← hsect, hsector, ← hptr, htype]
      exact hclust.trans hfp.rooted.sclust
  · have heq : fSync fs fp tm = (.ok, fs, fp) := by
      rw [fSync, hvalid, if_neg (by simp), if_neg hwritten]
    rw [heq]
    exact ⟨rfl, .start h, hfp, fun h => absurd h hwritten⟩

end File

end OlivePiccolo.FatFs
