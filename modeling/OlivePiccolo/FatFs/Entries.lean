import Mathlib.Tactic.IntervalCases
import Mathlib.Tactic.NormNum
import OlivePiccolo.FatFs.Window
import OlivePiccolo.Library.LittleEndian

/-!
# Entries of the FAT

`get_fat` and `put_fat` of `ff.c`. An entry has 12, 16 or 32 bits, of which 28 are used; one with 12
bits shares a byte with its neighbour, and may lie in two sectors. `entry` is what the table says
about a cluster. `get_fat` reads it (`getFat_got`), and `put_fat` changes it and no other one
(`putFat_put`); when the device fails, a 12-bit entry may be left half written.
-/

namespace OlivePiccolo.FatFs

/-- `LD_WORD` -/
def ldWord (win : Sector) (i : ℕ) : ℕ := leNat [win i, win (i + 1)]

/-- `LD_DWORD` -/
def ldDword (win : Sector) (i : ℕ) : ℕ := leNat [win i, win (i + 1), win (i + 2), win (i + 3)]

/-- `ST_WORD` -/
def FATFS.stWord (fs : FATFS) (i val : ℕ) : FATFS :=
  (fs.poke i (UInt8.ofNat val)).poke (i + 1) (UInt8.ofNat (val / 2 ^ 8))

/-- `ST_DWORD` -/
def FATFS.stDword (fs : FATFS) (i val : ℕ) : FATFS :=
  (fs.stWord i val).stWord (i + 2) (val / 2 ^ 16)

/-- The result of `get_fat` on an error of the disk. -/
def diskError : ℕ := 0xFFFFFFFF

/-- `get_fat` -/
def getFat (fs : FATFS) (clst : ℕ) : ℕ × FATFS :=
  if clst < 2 ∨ fs.nFatent ≤ clst then (1, fs)
  else
    match fs.fsType with
    | .fat12 =>
      let bc := clst + clst / 2
      let (res, fs) := moveWindow fs (fs.fatbase + bc / fs.ssize)
      if res ≠ .ok then (diskError, fs)
      else
        let wc := (fs.win (bc % fs.ssize)).toNat
        let bc := bc + 1
        let (res, fs) := moveWindow fs (fs.fatbase + bc / fs.ssize)
        if res ≠ .ok then (diskError, fs)
        else
          let wc := wc ||| (fs.win (bc % fs.ssize)).toNat <<< 8
          (if clst % 2 = 1 then wc >>> 4 else wc &&& 0xFFF, fs)
    | .fat16 =>
      let (res, fs) := moveWindow fs (fs.fatbase + clst / (fs.ssize / 2))
      if res ≠ .ok then (diskError, fs) else (ldWord fs.win (clst * 2 % fs.ssize), fs)
    | .fat32 =>
      let (res, fs) := moveWindow fs (fs.fatbase + clst / (fs.ssize / 4))
      if res ≠ .ok then (diskError, fs)
      else (ldDword fs.win (clst * 4 % fs.ssize) &&& 0x0FFFFFFF, fs)
    | .none => (1, fs)

/-- `put_fat` -/
def putFat (fs : FATFS) (clst val : ℕ) : FResult × FATFS :=
  if clst < 2 ∨ fs.nFatent ≤ clst then (.intErr, fs)
  else
    match fs.fsType with
    | .fat12 =>
      let bc := clst + clst / 2
      let (res, fs) := moveWindow fs (fs.fatbase + bc / fs.ssize)
      if res ≠ .ok then (res, fs)
      else
        let p := fs.win (bc % fs.ssize)
        let fs := fs.poke (bc % fs.ssize)
          (if clst % 2 = 1 then (p &&& (0x0F : UInt8)) ||| (UInt8.ofNat val <<< (4 : UInt8))
            else UInt8.ofNat val)
        let bc := bc + 1
        let (res, fs) := moveWindow fs (fs.fatbase + bc / fs.ssize)
        if res ≠ .ok then (res, fs)
        else
          let p := fs.win (bc % fs.ssize)
          (.ok, fs.poke (bc % fs.ssize) (if clst % 2 = 1 then UInt8.ofNat (val >>> 4)
            else (p &&& (0xF0 : UInt8)) ||| (UInt8.ofNat (val >>> 8) &&& (0x0F : UInt8))))
    | .fat16 =>
      let (res, fs) := moveWindow fs (fs.fatbase + clst / (fs.ssize / 2))
      if res ≠ .ok then (res, fs) else (.ok, fs.stWord (clst * 2 % fs.ssize) val)
    | .fat32 =>
      let (res, fs) := moveWindow fs (fs.fatbase + clst / (fs.ssize / 4))
      if res ≠ .ok then (res, fs)
      else
        let p := clst * 4 % fs.ssize
        let val := val ||| ldDword fs.win p &&& 0xF0000000
        (.ok, fs.stDword p val)
    | .none => (.intErr, fs)

/-! ## The table -/

/-- A byte of the FAT. -/
def Geometry.fatByte (g : Geometry) (sectors : ℕ → Sector) (k : ℕ) : UInt8 :=
  sectors (g.fatbase + k / g.ssize) (k % g.ssize)

/-- What the bytes of a table say about a cluster. -/
def FsType.entry (t : FsType) (bytes : ℕ → UInt8) (c : ℕ) : ℕ :=
  match t with
  | .fat12 =>
    let wc := leNat [bytes (c + c / 2), bytes (c + c / 2 + 1)]
    if c % 2 = 1 then wc / 2 ^ 4 else wc % 2 ^ 12
  | .fat16 => leNat [bytes (2 * c), bytes (2 * c + 1)]
  | .fat32 =>
    leNat [bytes (4 * c), bytes (4 * c + 1), bytes (4 * c + 2), bytes (4 * c + 3)] % 2 ^ 28
  | .none => 1

/-- The largest number of an entry, and one more. -/
def FsType.range : FsType → ℕ
  | .fat12 => 2 ^ 12
  | .fat16 => 2 ^ 16
  | .fat32 => 2 ^ 28
  | .none => 2

/-- A cluster. -/
def Geometry.InRange (g : Geometry) (c : ℕ) : Prop := 2 ≤ c ∧ c < g.nFatent

/-- What FatFs sees of the table. -/
def FATFS.entry (fs : FATFS) (c : ℕ) : ℕ := fs.fsType.entry (fs.fatByte fs.view) c

/-- The sectors that are not of the FAT and not in the window are as before. -/
def FATFS.Aside (fs fs' : FATFS) : Prop :=
  ∀ s, fs.Plain s → ¬ fs.InFat s → s ≠ fs.winsect →
    fs'.disk.sectors s = fs.disk.sectors s ∧ s ≠ fs'.winsect

section Bytes

variable {fs fs' : FATFS} {k : ℕ}

theorem FATFS.Aside.rfl : fs.Aside fs := fun _ _ _ hne => ⟨Eq.refl _, hne⟩

theorem FATFS.Aside.trans {fs'' : FATFS} (hgeometry : fs'.toGeometry = fs.toGeometry)
    (h : fs.Aside fs') (h' : fs'.Aside fs'') : fs.Aside fs'' := by
  intro s hs hfat hne
  obtain ⟨hsectors, hne'⟩ := h s hs hfat hne
  obtain ⟨hsectors', hne''⟩ := h' s (by rwa [hgeometry]) (by rwa [hgeometry]) hne'
  exact ⟨hsectors'.trans hsectors, hne''⟩

/-- The byte is in the first FAT. -/
def Geometry.InTable (g : Geometry) (k : ℕ) : Prop := k < g.fsize * g.ssize

theorem inFat_of_inTable {g : Geometry} (hg : g.WellFormed) (h : g.InTable k) :
    g.InFat (g.fatbase + k / g.ssize) := by
  have hlt : k / g.ssize < g.fsize := (Nat.div_lt_iff_lt_mul hg.ssize_pos).mpr h
  exact ⟨Nat.le_add_right _ _, Nat.add_lt_add_left hlt _⟩

theorem plain_of_inFat {g : Geometry} (hg : g.WellFormed) {s : ℕ} (h : g.InFat s) : g.Plain s := by
  refine ⟨?_, not_inCopies_of_inFat h⟩
  have hlt := h.2
  have hfat := hg.fat_le
  have hdata := hg.data_le
  have hone := Nat.le_mul_of_pos_left g.fsize hg.nFats_pos
  omega

theorem FATFS.Kept.inTable (h : fs.Kept fs') : fs'.InTable k ↔ fs.InTable k := by
  rw [h.geometry]

theorem FATFS.Kept.fatByte (h : fs.Kept fs') (hg : fs.WellFormed) (hk : fs.InTable k) :
    fs.fatByte fs'.view k = fs.fatByte fs.view k := by
  rw [Geometry.fatByte, Geometry.fatByte, h.view _ (plain_of_inFat hg (inFat_of_inTable hg hk))]

end Bytes

/-! ## Reading -/

section Read

variable {fs : FATFS} {c k : ℕ}

/-- What `get_fat` does with a cluster. -/
structure FATFS.Got (fs : FATFS) (c : ℕ) (r : ℕ × FATFS) : Prop where
  kept : fs.Kept r.2
  coherent : r.2.Coherent
  res : r.1 = fs.entry c ∨ r.1 = diskError
  fine : fs.Fine → r.1 = fs.entry c ∧ r.2.Fine
  aside : fs.Aside r.2

/-- A byte of the FAT in the window. -/
theorem win_eq_fatByte {fs' : FATFS} (hkept : fs.Kept fs') (hg : fs.WellFormed)
    (hwin : fs'.winsect = fs.fatbase + k / fs.ssize) (hk : fs.InTable k) :
    fs'.win (k % fs.ssize) = fs.fatByte fs.view k := by
  rw [← hkept.fatByte hg hk, Geometry.fatByte, ← hwin]
  exact (congrFun (if_pos rfl) _).symm

/-- The entries are in the FAT. -/
theorem inTable_fat12 {g : Geometry} (hg : g.WellFormed) (htype : g.fsType = .fat12)
    (hc : g.InRange c) : g.InTable (c + c / 2) ∧ g.InTable (c + c / 2 + 1) := by
  have hsize := (hg.fat12 htype).2
  have hlt := hc.2
  constructor <;> unfold Geometry.InTable <;> omega

theorem inTable_fat16 {g : Geometry} (hg : g.WellFormed) (htype : g.fsType = .fat16)
    (hc : g.InRange c) (hk : k < 2) : g.InTable (2 * c + k) := by
  have hsize := (hg.fat16 htype).2
  have hlt := hc.2
  unfold Geometry.InTable
  omega

theorem inTable_fat32 {g : Geometry} (hg : g.WellFormed) (htype : g.fsType = .fat32)
    (hc : g.InRange c) (hk : k < 4) : g.InTable (4 * c + k) := by
  have hsize := (hg.fat32 htype).2
  have hlt := hc.2
  unfold Geometry.InTable
  omega

/-- A number that is aligned lies in one sector. -/
theorem aligned {ssize m : ℕ} (hpos : 0 < ssize) (hm : m ∣ ssize) (hk : k < m) :
    (m * c + k) / ssize = c / (ssize / m) ∧ (m * c + k) % ssize = c * m % ssize + k := by
  obtain ⟨q, rfl⟩ := hm
  have hmpos : 0 < m := Nat.pos_of_mul_pos_right hpos
  have hdiv : m * q / m = q := Nat.mul_div_cancel_left q hmpos
  have hsplit : (m * c + k) / (m * q) = c / q := by
    rw [← Nat.div_div_eq_div_mul, Nat.mul_add_div hmpos, Nat.div_eq_of_lt hk, Nat.add_zero]
  refine ⟨by rw [hdiv, hsplit], ?_⟩
  rw [Nat.mul_comm c m, Nat.mul_mod_mul_left, Nat.mod_mul, Nat.mul_add_mod, Nat.mod_eq_of_lt hk,
    Nat.mul_add_div hmpos, Nat.div_eq_of_lt hk, Nat.add_zero, Nat.add_comm]

theorem or_shiftLeft (a b : UInt8) : a.toNat ||| b.toNat <<< 8 = leNat [a, b] := by
  have ha := a.toNat_lt
  simp only [leNat, Nat.shiftLeft_eq]
  rw [Nat.or_comm, Nat.mul_comm, ← Nat.two_pow_add_eq_or_of_lt ha]
  omega

theorem FATFS.Moved.not_fine {sector : ℕ} {r : FResult × FATFS} (h : fs.Moved sector r)
    (herr : r.1 = .diskErr) : ¬ fs.Fine := fun hfine => by
  have hok := (h.fine hfine).1
  rw [herr] at hok
  cases hok

theorem moveWindow_fat (h : fs.Coherent) (hg : fs.WellFormed) (hk : fs.InTable k) :
    fs.Moved (fs.fatbase + k / fs.ssize) (moveWindow fs (fs.fatbase + k / fs.ssize)) :=
  moveWindow_moved h (plain_of_inFat hg (inFat_of_inTable hg hk)) hg

theorem FATFS.Moved.outside {r : FResult × FATFS} {sector : ℕ} (h : fs.Moved sector r)
    (hsector : fs.InFat sector) : fs.Aside r.2 := fun s hs hfat hne =>
  h.aside s hs hne fun heq => hfat (heq ▸ hsector)

/-- An entry of two or four bytes is read. -/
theorem getAligned (h : fs.Coherent) (hg : fs.WellFormed) {m : ℕ} (hm : m ∣ fs.ssize)
    (hpos : 0 < m) (htable : ∀ k < m, fs.InTable (m * c + k)) (load : Sector → ℕ → ℕ)
    (hload : ∀ (w w' : Sector) (i i' : ℕ),
      (∀ k < m, w (i + k) = w' (i' + k)) → load w i = load w' i')
    (hentry : load (fs.fatByte fs.view) (m * c) = fs.entry c) :
    fs.Got c (match moveWindow fs (fs.fatbase + c / (fs.ssize / m)) with
      | (res, fs') =>
        if res ≠ .ok then (diskError, fs') else (load fs'.win (c * m % fs'.ssize), fs')) := by
  have haligned (k : ℕ) (hk : k < m) := aligned (c := c) hg.ssize_pos hm hk
  have hmoved := moveWindow_fat h hg (htable 0 hpos)
  have haside := hmoved.outside (inFat_of_inTable hg (htable 0 hpos))
  rw [(haligned 0 hpos).1] at hmoved haside
  rcases hr : moveWindow fs (fs.fatbase + c / (fs.ssize / m)) with ⟨res, fs'⟩
  rw [hr] at hmoved haside
  have hkept : fs.Kept fs' := hmoved.kept
  have hssize : fs'.ssize = fs.ssize := congrArg Geometry.ssize hkept.geometry
  rcases hmoved.res with ⟨hok, hwin⟩ | herr
  · have hok' : res = .ok := hok
    have hvalue : load fs'.win (c * m % fs'.ssize) = fs.entry c := by
      rw [hssize, ← hentry]
      refine hload _ _ _ _ fun k hk => ?_
      rw [← (haligned k hk).2]
      refine win_eq_fatByte hkept hg ?_ (htable k hk)
      rw [(haligned k hk).1]
      exact hwin
    simp only [hok', ne_eq, not_true_eq_false, if_false]
    exact ⟨hkept, hmoved.coherent, .inl hvalue, fun h => ⟨hvalue, (hmoved.fine h).2⟩, haside⟩
  · have herr' : res = .diskErr := herr
    simp only [herr', ne_eq, reduceCtorEq, not_false_eq_true, if_true]
    exact ⟨hkept, hmoved.coherent, .inr rfl, fun h => absurd h (hmoved.not_fine herr), haside⟩

/-- An entry of 12 bits is read from its two bytes. -/
theorem getFat12 (h : fs.Coherent) (hg : fs.WellFormed) (htype : fs.fsType = .fat12)
    (hc : fs.InRange c) :
    fs.Got c (match moveWindow fs (fs.fatbase + (c + c / 2) / fs.ssize) with
      | (res, fs) =>
        if res ≠ .ok then (diskError, fs)
        else
          match moveWindow fs (fs.fatbase + (c + c / 2 + 1) / fs.ssize) with
          | (res, fs') =>
            if res ≠ .ok then (diskError, fs')
            else
              (if c % 2 = 1 then ((fs.win ((c + c / 2) % fs.ssize)).toNat |||
                  (fs'.win ((c + c / 2 + 1) % fs'.ssize)).toNat <<< 8) >>> 4
                else ((fs.win ((c + c / 2) % fs.ssize)).toNat |||
                  (fs'.win ((c + c / 2 + 1) % fs'.ssize)).toNat <<< 8) &&& 0xFFF, fs')) := by
  obtain ⟨hlow, hhigh⟩ := inTable_fat12 hg htype hc
  have hmoved := moveWindow_fat h hg hlow
  have haside := hmoved.outside (inFat_of_inTable hg hlow)
  rcases hr : moveWindow fs (fs.fatbase + (c + c / 2) / fs.ssize) with ⟨res, fs₁⟩
  rw [hr] at hmoved haside
  have hkept : fs.Kept fs₁ := hmoved.kept
  have hssize : fs₁.ssize = fs.ssize := congrArg Geometry.ssize hkept.geometry
  have hfatbase : fs₁.fatbase = fs.fatbase := congrArg Geometry.fatbase hkept.geometry
  rcases hmoved.res with ⟨hok, hwin⟩ | herr
  · have hok' : res = .ok := hok
    have hg₁ : fs₁.WellFormed := by rwa [hkept.geometry]
    have hmoved₁ := moveWindow_fat hmoved.coherent hg₁ (hkept.inTable.mpr hhigh)
    have haside₁ := haside.trans hkept.geometry
      (hmoved₁.outside (inFat_of_inTable hg₁ (hkept.inTable.mpr hhigh)))
    simp only [hok', ne_eq, not_true_eq_false, if_false]
    change fs₁.Moved _ (moveWindow fs₁ _) at hmoved₁
    rcases hr₁ : moveWindow fs₁ (fs₁.fatbase + (c + c / 2 + 1) / fs₁.ssize) with ⟨res₁, fs₂⟩
    rw [hr₁] at hmoved₁ haside₁
    have hkept₂ : fs.Kept fs₂ := hkept.trans hmoved₁.kept
    have hssize₂ : fs₂.ssize = fs.ssize := congrArg Geometry.ssize hkept₂.geometry
    rcases hmoved₁.res with ⟨hok₁, hwin₁⟩ | herr₁
    · have hok₁' : res₁ = .ok := hok₁
      have hfirst : fs₁.win ((c + c / 2) % fs₁.ssize) = fs.fatByte fs.view (c + c / 2) := by
        rw [hssize]
        exact win_eq_fatByte hkept hg hwin hlow
      have hsecond :
          fs₂.win ((c + c / 2 + 1) % fs₂.ssize) = fs.fatByte fs.view (c + c / 2 + 1) := by
        rw [hssize₂]
        refine win_eq_fatByte hkept₂ hg ?_ hhigh
        rw [← hfatbase, ← hssize]
        exact hwin₁
      simp only [hok₁', not_true_eq_false, if_false, hfirst, hsecond, or_shiftLeft]
      have hvalue : (if c % 2 = 1 then leNat [fs.fatByte fs.view (c + c / 2),
          fs.fatByte fs.view (c + c / 2 + 1)] >>> 4 else leNat [fs.fatByte fs.view (c + c / 2),
          fs.fatByte fs.view (c + c / 2 + 1)] &&& 0xFFF) = fs.entry c := by
        rw [FATFS.entry, htype, FsType.entry, Nat.shiftRight_eq_div_pow]
        split_ifs with hodd
        · rfl
        · exact Nat.and_two_pow_sub_one_eq_mod _ 12
      exact ⟨hkept₂, hmoved₁.coherent, .inl hvalue,
        fun h => ⟨hvalue, (hmoved₁.fine (hmoved.fine h).2).2⟩, haside₁⟩
    · have herr₁' : res₁ = .diskErr := herr₁
      simp only [herr₁', reduceCtorEq, not_false_eq_true, if_true]
      exact ⟨hkept₂, hmoved₁.coherent, .inr rfl,
        fun h => absurd (hmoved.fine h).2 (hmoved₁.not_fine herr₁), haside₁⟩
  · have herr' : res = .diskErr := herr
    simp only [herr', ne_eq, reduceCtorEq, not_false_eq_true, if_true]
    exact ⟨hkept, hmoved.coherent, .inr rfl, fun h => absurd h (hmoved.not_fine herr), haside⟩

theorem getFat_got (h : fs.Coherent) (hg : fs.WellFormed) (hc : fs.InRange c) :
    fs.Got c (getFat fs c) := by
  have hrange : ¬ (c < 2 ∨ fs.nFatent ≤ c) := by
    have h₁ := hc.1
    have h₂ := hc.2
    omega
  rw [getFat, if_neg hrange]
  have hmounted := hg.mounted
  cases htype : fs.fsType with
  | none => exact absurd htype hmounted
  | fat12 => exact getFat12 h hg htype hc
  | fat16 =>
    refine getAligned h hg (Dvd.dvd.trans (by norm_num) hg.ssize_dvd) (by norm_num)
      (fun k hk => inTable_fat16 hg htype hc hk) ldWord (fun w w' i i' hw => ?_) ?_
    · rw [ldWord, ldWord, hw 1 (by omega)]
      exact congrArg (fun b => leNat [b, _]) (hw 0 (by omega))
    · rw [FATFS.entry, htype, FsType.entry, ldWord]
  | fat32 =>
    refine getAligned h hg hg.ssize_dvd (by norm_num) (fun k hk => inTable_fat32 hg htype hc hk)
      (fun w i => ldDword w i &&& 0x0FFFFFFF) (fun w w' i i' hw => ?_) ?_
    · have h₀ : w i = w' i' := hw 0 (by omega)
      simp only [ldDword, h₀, hw 1 (by omega), hw 2 (by omega), hw 3 (by omega)]
    · rw [FATFS.entry, htype, FsType.entry]
      exact Nat.and_two_pow_sub_one_eq_mod _ 28

end Read

/-! ## The bytes of an entry -/

section Format

variable {f : ℕ → UInt8} {c c' val : ℕ}

theorem toNat_ofNat (v : ℕ) : (UInt8.ofNat v).toNat = v % 2 ^ 8 := UInt8.toNat_ofNat'

/-- Bytes in a row are put into a table. -/
def splice (f : ℕ → UInt8) (a : ℕ) (l : List UInt8) (k : ℕ) : UInt8 :=
  if a ≤ k then (l[k - a]?).getD (f k) else f k

theorem splice_get {a i : ℕ} {l : List UInt8} (hi : i < l.length) :
    splice f a l (a + i) = l[i] := by
  rw [splice, if_pos (Nat.le_add_right a i), Nat.add_sub_cancel_left,
    List.getElem?_eq_getElem hi]
  rfl

theorem splice_of_not {a k : ℕ} {l : List UInt8} (hk : k < a ∨ a + l.length ≤ k) :
    splice f a l k = f k := by
  unfold splice
  split_ifs with hle
  · rw [List.getElem?_eq_none (by omega)]
    rfl
  · rfl

/-- A two-byte number is put into the table. -/
theorem entry_fat16 (f : ℕ → UInt8) (c val c' : ℕ) :
    FsType.fat16.entry (splice f (2 * c) [UInt8.ofNat val, UInt8.ofNat (val / 2 ^ 8)]) c' =
      if c' = c then val % 2 ^ 16 else FsType.fat16.entry f c' := by
  simp only [FsType.entry]
  by_cases heq : c' = c
  · subst heq
    rw [if_pos rfl]
    have h₀ := splice_get (f := f) (a := 2 * c') (i := 0) (l := [UInt8.ofNat val,
      UInt8.ofNat (val / 2 ^ 8)]) (by simp)
    have h₁ := splice_get (f := f) (a := 2 * c') (i := 1) (l := [UInt8.ofNat val,
      UInt8.ofNat (val / 2 ^ 8)]) (by simp)
    rw [Nat.add_zero] at h₀
    simp only [h₀, h₁, List.getElem_cons_zero, List.getElem_cons_succ, leNat, toNat_ofNat]
    omega
  · rw [if_neg heq]
    have hother (i : ℕ) (hi : i < 2) : splice f (2 * c)
        [UInt8.ofNat val, UInt8.ofNat (val / 2 ^ 8)] (2 * c' + i) = f (2 * c' + i) :=
      splice_of_not (by simp only [List.length_cons, List.length_nil]; omega)
    have h₀ := hother 0 (by omega)
    rw [Nat.add_zero] at h₀
    simp only [h₀, hother 1 (by omega)]

/-- A four-byte number is put into the table. -/
theorem entry_fat32 (f : ℕ → UInt8) (c v c' : ℕ) :
    FsType.fat32.entry (splice f (4 * c) [UInt8.ofNat v, UInt8.ofNat (v / 2 ^ 8),
      UInt8.ofNat (v / 2 ^ 16), UInt8.ofNat (v / 2 ^ 16 / 2 ^ 8)]) c' =
        if c' = c then v % 2 ^ 28 else FsType.fat32.entry f c' := by
  simp only [FsType.entry]
  by_cases heq : c' = c
  · subst heq
    rw [if_pos rfl]
    have hbyte (i : ℕ) (hi : i < 4) := splice_get (f := f) (a := 4 * c') (i := i)
      (l := [UInt8.ofNat v, UInt8.ofNat (v / 2 ^ 8), UInt8.ofNat (v / 2 ^ 16),
        UInt8.ofNat (v / 2 ^ 16 / 2 ^ 8)]) hi
    have h₀ := hbyte 0 (by omega)
    rw [Nat.add_zero] at h₀
    simp only [h₀, hbyte 1 (by omega), hbyte 2 (by omega), hbyte 3 (by omega),
      List.getElem_cons_zero, List.getElem_cons_succ, leNat, toNat_ofNat]
    omega
  · rw [if_neg heq]
    have hother (i : ℕ) (hi : i < 4) : splice f (4 * c) [UInt8.ofNat v, UInt8.ofNat (v / 2 ^ 8),
        UInt8.ofNat (v / 2 ^ 16), UInt8.ofNat (v / 2 ^ 16 / 2 ^ 8)] (4 * c' + i) =
          f (4 * c' + i) :=
      splice_of_not (by simp only [List.length_cons, List.length_nil]; omega)
    have h₀ := hother 0 (by omega)
    rw [Nat.add_zero] at h₀
    simp only [h₀, hother 1 (by omega), hother 2 (by omega), hother 3 (by omega)]

theorem toNat_low (b : UInt8) : (b &&& 0x0F).toNat = b.toNat % 2 ^ 4 := by
  rw [UInt8.toNat_and]
  exact Nat.and_two_pow_sub_one_eq_mod _ 4

theorem toNat_high (b : UInt8) : (b &&& 0xF0).toNat = b.toNat / 2 ^ 4 * 2 ^ 4 := by
  have hb := b.toNat_lt
  rw [UInt8.toNat_and]
  generalize b.toNat = n at *
  show n &&& 0xF0 = _
  interval_cases n <;> rfl

/-- Half a byte below the one that stays. -/
theorem toNat_or_low (b v : UInt8) :
    ((b &&& (0xF0 : UInt8)) ||| (v &&& (0x0F : UInt8))).toNat =
      b.toNat / 2 ^ 4 * 2 ^ 4 + v.toNat % 2 ^ 4 := by
  rw [UInt8.toNat_or, toNat_high, toNat_low, Nat.mul_comm]
  exact (Nat.two_pow_add_eq_or_of_lt (Nat.mod_lt _ (by norm_num)) _).symm

/-- Half a byte above the one that stays. -/
theorem toNat_or_high (b v : UInt8) :
    ((b &&& (0x0F : UInt8)) ||| (v <<< (4 : UInt8))).toNat =
      b.toNat % 2 ^ 4 + v.toNat % 2 ^ 4 * 2 ^ 4 := by
  have hshift : (v <<< (4 : UInt8)).toNat = 2 ^ 4 * (v.toNat % 2 ^ 4) := by
    rw [UInt8.toNat_shiftLeft, Nat.shiftLeft_eq]
    show v.toNat * 2 ^ 4 % 2 ^ 8 = _
    omega
  rw [UInt8.toNat_or, toNat_low, hshift, Nat.or_comm,
    ← Nat.two_pow_add_eq_or_of_lt (Nat.mod_lt _ (by norm_num))]
  omega

/-- The first byte of an entry of 12 bits. -/
def firstByte (c val : ℕ) (p : UInt8) : UInt8 :=
  if c % 2 = 1 then (p &&& (0x0F : UInt8)) ||| (UInt8.ofNat val <<< (4 : UInt8))
  else UInt8.ofNat val

/-- The second byte of an entry of 12 bits. -/
def secondByte (c val : ℕ) (p : UInt8) : UInt8 :=
  if c % 2 = 1 then UInt8.ofNat (val >>> 4)
  else (p &&& (0xF0 : UInt8)) ||| (UInt8.ofNat (val >>> 8) &&& (0x0F : UInt8))

theorem toNat_firstByte (c val : ℕ) (p : UInt8) : (firstByte c val p).toNat =
    if c % 2 = 1 then p.toNat % 2 ^ 4 + val % 2 ^ 4 * 2 ^ 4 else val % 2 ^ 8 := by
  unfold firstByte
  split_ifs
  · rw [toNat_or_high, toNat_ofNat]
    omega
  · exact toNat_ofNat val

theorem toNat_secondByte (c val : ℕ) (p : UInt8) : (secondByte c val p).toNat =
    if c % 2 = 1 then val / 2 ^ 4 % 2 ^ 8
    else p.toNat / 2 ^ 4 * 2 ^ 4 + val / 2 ^ 8 % 2 ^ 4 := by
  unfold secondByte
  split_ifs
  · rw [toNat_ofNat, Nat.shiftRight_eq_div_pow]
  · rw [toNat_or_low, toNat_ofNat, Nat.shiftRight_eq_div_pow]
    omega

/-- A number of 12 bits is put into the table. -/
theorem entry_fat12 (f : ℕ → UInt8) (c val c' : ℕ) :
    FsType.fat12.entry (splice f (c + c / 2) [firstByte c val (f (c + c / 2)),
      secondByte c val (f (c + c / 2 + 1))]) c' =
        if c' = c then val % 2 ^ 12 else FsType.fat12.entry f c' := by
  have hfirst := toNat_firstByte c val (f (c + c / 2))
  have hsecond := toNat_secondByte c val (f (c + c / 2 + 1))
  generalize hx : firstByte c val (f (c + c / 2)) = x at *
  generalize hy : secondByte c val (f (c + c / 2 + 1)) = y at *
  have h₀ : splice f (c + c / 2) [x, y] (c + c / 2) = x := splice_get (i := 0) (by simp)
  have h₁ : splice f (c + c / 2) [x, y] (c + c / 2 + 1) = y := splice_get (i := 1) (by simp)
  have hother (k : ℕ) (hk : k < c + c / 2 ∨ c + c / 2 + 2 ≤ k) :
      splice f (c + c / 2) [x, y] k = f k := splice_of_not hk
  simp only [FsType.entry, leNat]
  by_cases heq : c' = c
  · subst heq
    rw [if_pos rfl, h₀, h₁]
    split_ifs with hodd
    · rw [hfirst, hsecond, if_pos hodd, if_pos hodd]
      omega
    · rw [hfirst, hsecond, if_neg hodd, if_neg hodd]
      omega
  · rw [if_neg heq]
    rcases Nat.lt_trichotomy (c' + c' / 2) (c + c / 2) with hlt | hsame | hlt
    · rw [hother (c' + c' / 2) (by omega)]
      by_cases hshared : c' + c' / 2 + 1 = c + c / 2
      · -- the entry in front, which is even
        have hodd : c % 2 = 1 := by omega
        rw [if_pos hodd] at hfirst
        rw [hshared, h₀, hfirst, if_neg (by omega), if_neg (by omega)]
        omega
      · rw [hother (c' + c' / 2 + 1) (by omega)]
    · omega
    · rw [hother (c' + c' / 2 + 1) (by omega)]
      by_cases hshared : c' + c' / 2 = c + c / 2 + 1
      · -- the entry behind, which is odd
        have hodd : ¬ c % 2 = 1 := by omega
        rw [if_neg hodd] at hsecond
        rw [hshared, h₁, hsecond, if_pos (by omega), if_pos (by omega)]
        omega
      · rw [hother (c' + c' / 2) (by omega)]

end Format

/-! ## Writing -/

/-- The bytes of the table are these now, and nothing else has changed. -/
structure FATFS.Wrote (fs : FATFS) (f : ℕ → UInt8) (fs' : FATFS) : Prop where
  geometry : fs'.toGeometry = fs.toGeometry
  coherent : fs'.Coherent
  table : ∀ k, fs.InTable k → fs.fatByte fs'.view k = f k
  others : ∀ s, fs.Plain s → ¬ fs.InFat s → fs'.view s = fs.view s
  aside : fs.Aside fs'
  freeClust : fs'.freeClust = fs.freeClust
  fine : fs.Fine → fs'.Fine

/-- The entries are these now, and nothing else has changed but for the numbers that FatFs keeps of
them. -/
structure FATFS.Shows (fs : FATFS) (T : ℕ → ℕ) (fs' : FATFS) : Prop where
  geometry : fs'.toGeometry = fs.toGeometry
  coherent : fs'.Coherent
  entry : ∀ c, fs.InRange c → fs'.entry c = T c
  others : ∀ s, fs.Plain s → ¬ fs.InFat s → fs'.view s = fs.view s
  aside : fs.Aside fs'
  fine : fs.Fine → fs'.Fine

/-- What `put_fat` can do. On an error an entry of 12 bits may be left half written. -/
inductive FATFS.PutResult (fs : FATFS) (c v : ℕ) : FResult × FATFS → Prop
  | ok {fs' : FATFS} : fs'.freeClust = fs.freeClust →
      fs.Shows (Function.update fs.entry c (v % fs.fsType.range)) fs' → PutResult fs c v (.ok, fs')
  | failed {fs' : FATFS} : fs'.freeClust = fs.freeClust → ¬ fs.Fine → fs.Shows fs.entry fs' →
      PutResult fs c v (.diskErr, fs')
  | half {fs' : FATFS} (w : ℕ) : fs'.freeClust = fs.freeClust → ¬ fs.Fine → fs.fsType = .fat12 →
      fs.Shows (Function.update fs.entry c w) fs' → PutResult fs c v (.diskErr, fs')

section Write

variable {fs fs' : FATFS} {f : ℕ → UInt8} {c v k : ℕ}

theorem FATFS.Moved.wrote {sector : ℕ} {r : FResult × FATFS} (hg : fs.WellFormed)
    (h : fs.Moved sector r) (hsector : fs.InFat sector) : fs.Wrote (fs.fatByte fs.view) r.2 :=
  ⟨h.kept.geometry, h.coherent, fun _ hk => h.kept.fatByte hg hk, fun s hs _ => h.kept.view s hs,
    h.outside hsector, h.kept.freeClust, fun hfine => (h.fine hfine).2⟩

theorem FATFS.Wrote.moved {sector : ℕ} {r : FResult × FATFS} (hg : fs.WellFormed)
    (h : fs.Wrote f fs') (hmoved : fs'.Moved sector r) (hsector : fs.InFat sector) :
    fs.Wrote f r.2 := by
  have hkept := hmoved.kept
  have haside := hmoved.outside (show fs'.InFat sector by rwa [h.geometry])
  refine ⟨hkept.geometry.trans h.geometry, hmoved.coherent, fun k hk => ?_, fun s hs hfat => ?_,
    h.aside.trans h.geometry haside, hkept.freeClust.trans h.freeClust,
    fun hfine => (hmoved.fine (h.fine hfine)).2⟩
  · have hbyte := hkept.fatByte (k := k) (by rwa [h.geometry]) (by rwa [h.geometry])
    rw [h.geometry] at hbyte
    exact hbyte.trans (h.table k hk)
  · exact (hkept.view s (by rwa [h.geometry])).trans (h.others s hs hfat)

/-- Different bytes of the table are in different places. -/
theorem place_ne {ssize k' : ℕ} (hne : k ≠ k') (hdiv : k / ssize = k' / ssize) :
    k % ssize ≠ k' % ssize := by
  intro hmod
  apply hne
  rw [← Nat.div_add_mod k ssize, hdiv, hmod, Nat.div_add_mod]

/-- A byte of the table is written in the window. -/
theorem FATFS.Wrote.poke (hg : fs.WellFormed) (h : fs.Wrote f fs')
    (hwin : fs'.winsect = fs.fatbase + k / fs.ssize) (hk : fs.InTable k) (b : UInt8) :
    fs.Wrote (Function.update f k b) (fs'.poke (k % fs.ssize) b) := by
  have hfat := inFat_of_inTable hg hk
  have hplain := plain_of_inFat hg hfat
  obtain ⟨hcoherent, hview⟩ := poke_view h.coherent (by rw [hwin]; exact hplain.1) (k % fs.ssize) b
  refine ⟨h.geometry, hcoherent, fun k' hk' => ?_, fun s hs hnot => ?_, h.aside, h.freeClust,
    fun hfine => (h.fine hfine).poke _ _⟩
  · rw [Geometry.fatByte, hview, hwin]
    by_cases heq : k' = k
    · subst heq
      rw [Function.update_self, Function.update_self, Function.update_self]
    · rw [Function.update_of_ne heq, ← h.table k' hk', Geometry.fatByte]
      by_cases hdiv : k' / fs.ssize = k / fs.ssize
      · rw [hdiv, Function.update_self, Function.update_of_ne (place_ne heq hdiv)]
      · rw [Function.update_of_ne (by omega)]
  · rw [hview, hwin, Function.update_of_ne, h.others s hs hnot]
    rintro rfl
    exact hnot hfat

/-- What the table says is in its bytes. -/
theorem FsType.entry_congr {g : Geometry} {f f' : ℕ → UInt8} (hg : g.WellFormed)
    (hc : g.InRange c) (hf : ∀ k, g.InTable k → f' k = f k) :
    g.fsType.entry f' c = g.fsType.entry f c := by
  have hmounted := hg.mounted
  cases htype : g.fsType with
  | none => exact absurd htype hmounted
  | fat12 =>
    obtain ⟨hlow, hhigh⟩ := inTable_fat12 hg htype hc
    simp only [FsType.entry, hf _ hlow, hf _ hhigh]
  | fat16 =>
    have hbyte (k : ℕ) (hk : k < 2) := hf _ (inTable_fat16 hg htype hc hk)
    have hzero := hbyte 0 (by omega)
    rw [Nat.add_zero] at hzero
    simp only [FsType.entry, hzero, hbyte 1 (by omega)]
  | fat32 =>
    have hbyte (k : ℕ) (hk : k < 4) := hf _ (inTable_fat32 hg htype hc hk)
    have hzero := hbyte 0 (by omega)
    rw [Nat.add_zero] at hzero
    simp only [FsType.entry, hzero, hbyte 1 (by omega), hbyte 2 (by omega), hbyte 3 (by omega)]

theorem FATFS.Wrote.shows (hg : fs.WellFormed) (h : fs.Wrote f fs') :
    fs.Shows (fs.fsType.entry f) fs' := by
  refine ⟨h.geometry, h.coherent, fun c hc => ?_, h.others, h.aside, h.fine⟩
  rw [FATFS.entry, h.geometry]
  exact FsType.entry_congr hg hc h.table

theorem FATFS.Shows.congr {T T' : ℕ → ℕ} (h : fs.Shows T fs')
    (heq : ∀ c, fs.InRange c → T c = T' c) : fs.Shows T' fs' :=
  ⟨h.geometry, h.coherent, fun c hc => (h.entry c hc).trans (heq c hc), h.others, h.aside, h.fine⟩

theorem FATFS.Shows.trans {T T' : ℕ → ℕ} {fs'' : FATFS} (h : fs.Shows T fs')
    (h' : fs'.Shows T' fs'') : fs.Shows T' fs'' :=
  ⟨h'.geometry.trans h.geometry, h'.coherent, fun c hc => h'.entry c (by rwa [h.geometry]),
    fun s hs hfat => (h'.others s (by rwa [h.geometry]) (by rwa [h.geometry])).trans
      (h.others s hs hfat), h.aside.trans h.geometry h'.aside, fun hfine => h'.fine (h.fine hfine)⟩

/-- Bytes one after the other. -/
theorem splice_cons (f : ℕ → UInt8) (a : ℕ) (b : UInt8) (l : List UInt8) :
    splice f a (b :: l) = splice (Function.update f a b) (a + 1) l := by
  funext k
  unfold splice
  rcases Nat.lt_trichotomy k a with hlt | rfl | hlt
  · rw [if_neg (by omega), if_neg (by omega), Function.update_of_ne (by omega)]
  · rw [if_pos (Nat.le_refl k), if_neg (by omega), Nat.sub_self, Function.update_self]
    rfl
  · rw [if_pos (by omega), if_pos (by omega), Function.update_of_ne (by omega),
      show k - a = k - (a + 1) + 1 by omega, List.getElem?_cons_succ]

theorem splice_nil (f : ℕ → UInt8) (a : ℕ) : splice f a [] = f := by
  funext k
  exact splice_of_not (by rw [List.length_nil]; omega)

/-- An entry of two or four bytes is written. -/
theorem putAligned (h : fs.Coherent) (hg : fs.WellFormed) {m : ℕ} (hm : m ∣ fs.ssize)
    (hpos : 0 < m) (htable : ∀ k < m, fs.InTable (m * c + k)) (store : FATFS → ℕ → FATFS)
    (hfree : ∀ fs i, (store fs i).freeClust = fs.freeClust)
    (hstore : ∀ fs', fs.Wrote (fs.fatByte fs.view) fs' →
      fs'.winsect = fs.fatbase + c / (fs.ssize / m) →
        fs.Shows (Function.update fs.entry c (v % fs.fsType.range))
          (store fs' (c * m % fs.ssize))) :
    fs.PutResult c v (match moveWindow fs (fs.fatbase + c / (fs.ssize / m)) with
      | (res, fs') => if res ≠ .ok then (res, fs') else (.ok, store fs' (c * m % fs'.ssize))) := by
  have hmoved := moveWindow_fat h hg (htable 0 hpos)
  have hfat := inFat_of_inTable hg (htable 0 hpos)
  rw [(aligned hg.ssize_pos hm hpos).1] at hmoved hfat
  rcases hr : moveWindow fs (fs.fatbase + c / (fs.ssize / m)) with ⟨res, fs'⟩
  rw [hr] at hmoved
  have hkept : fs.Kept fs' := hmoved.kept
  have hssize : fs'.ssize = fs.ssize := congrArg Geometry.ssize hkept.geometry
  have hwrote : fs.Wrote (fs.fatByte fs.view) fs' := hmoved.wrote hg hfat
  rcases hmoved.res with ⟨hok, hwin⟩ | herr
  · have hok' : res = .ok := hok
    simp only [hok', ne_eq, not_true_eq_false, if_false, hssize]
    exact .ok ((hfree _ _).trans hkept.freeClust) (hstore fs' hwrote hwin)
  · have herr' : res = .diskErr := herr
    simp only [herr', ne_eq, reduceCtorEq, not_false_eq_true, if_true]
    exact .failed hkept.freeClust (hmoved.not_fine herr) (hwrote.shows hg)

/-- `ST_WORD` on the table. -/
theorem FATFS.Wrote.stWord (hg : fs.WellFormed) (h : fs.Wrote f fs') {a i : ℕ}
    (hplace : ∀ j < 2, fs'.winsect = fs.fatbase + (a + j) / fs.ssize ∧
      (a + j) % fs.ssize = i + j ∧ fs.InTable (a + j)) :
    fs.Wrote (splice f a [UInt8.ofNat v, UInt8.ofNat (v / 2 ^ 8)]) (fs'.stWord i v) := by
  obtain ⟨hwin₀, hmod₀, htable₀⟩ := hplace 0 (by omega)
  obtain ⟨hwin₁, hmod₁, htable₁⟩ := hplace 1 (by omega)
  have hfirst := h.poke hg hwin₀ htable₀ (UInt8.ofNat v)
  have hsecond := hfirst.poke hg hwin₁ htable₁ (UInt8.ofNat (v / 2 ^ 8))
  rw [hmod₀, hmod₁] at hsecond
  rw [splice_cons, splice_cons, splice_nil]
  exact hsecond

theorem putFat16 (h : fs.Coherent) (hg : fs.WellFormed) (htype : fs.fsType = .fat16)
    (hc : fs.InRange c) : fs.PutResult c v (putFat fs c v) := by
  have h₁ := hc.1
  have h₂ := hc.2
  rw [putFat, if_neg (by omega), htype]
  have htable (k : ℕ) (hk : k < 2) := inTable_fat16 hg htype hc hk
  have hdvd : 2 ∣ fs.ssize := Dvd.dvd.trans (by norm_num) hg.ssize_dvd
  refine putAligned h hg hdvd (by norm_num) htable (fun fs i => fs.stWord i v) (fun _ _ => rfl)
    fun fs' hwrote hwin => ?_
  have hput := hwrote.stWord hg (a := 2 * c) (i := c * 2 % fs.ssize) (v := v) fun j hj => by
    obtain ⟨hdiv, hmod⟩ := aligned (c := c) hg.ssize_pos hdvd hj
    rw [hdiv]
    exact ⟨hwin, hmod, htable j hj⟩
  refine (hput.shows hg).congr fun c' _ => ?_
  rw [htype, entry_fat16, Function.update_apply, FATFS.entry, htype]
  rfl

theorem putFat32 (h : fs.Coherent) (hg : fs.WellFormed) (htype : fs.fsType = .fat32)
    (hc : fs.InRange c) : fs.PutResult c v (putFat fs c v) := by
  have h₁ := hc.1
  have h₂ := hc.2
  rw [putFat, if_neg (by omega), htype]
  have htable (k : ℕ) (hk : k < 4) := inTable_fat32 hg htype hc hk
  refine putAligned h hg hg.ssize_dvd (by norm_num) htable
    (fun fs i => fs.stDword i (v ||| ldDword fs.win i &&& 0xF0000000)) (fun _ _ => rfl)
    fun fs' hwrote hwin => ?_
  generalize hword : v ||| ldDword fs'.win (c * 4 % fs.ssize) &&& 0xF0000000 = word
  have haligned (j : ℕ) (hj : j < 4) : fs'.winsect = fs.fatbase + (4 * c + j) / fs.ssize ∧
      (4 * c + j) % fs.ssize = c * 4 % fs.ssize + j ∧ fs.InTable (4 * c + j) := by
    obtain ⟨hdiv, hmod⟩ := aligned (c := c) hg.ssize_pos hg.ssize_dvd hj
    rw [hdiv]
    exact ⟨hwin, hmod, htable j hj⟩
  have hlow := hwrote.stWord hg (a := 4 * c) (i := c * 4 % fs.ssize) (v := word)
    fun j hj => haligned j (by omega)
  have hput := hlow.stWord hg (a := 4 * c + 2) (i := c * 4 % fs.ssize + 2) (v := word / 2 ^ 16)
    fun j hj => by
      rw [Nat.add_assoc, Nat.add_assoc]
      exact haligned (2 + j) (by omega)
  have hjoin : splice (splice (fs.fatByte fs.view) (4 * c) [UInt8.ofNat word,
      UInt8.ofNat (word / 2 ^ 8)]) (4 * c + 2) [UInt8.ofNat (word / 2 ^ 16),
        UInt8.ofNat (word / 2 ^ 16 / 2 ^ 8)] = splice (fs.fatByte fs.view) (4 * c)
          [UInt8.ofNat word, UInt8.ofNat (word / 2 ^ 8), UInt8.ofNat (word / 2 ^ 16),
            UInt8.ofNat (word / 2 ^ 16 / 2 ^ 8)] := by
    simp only [splice_cons, splice_nil]
  rw [hjoin] at hput
  refine (hput.shows hg).congr fun c' _ => ?_
  have hrange : word % 2 ^ 28 = v % 2 ^ 28 := by
    rw [← hword, Nat.or_mod_two_pow, Nat.and_mod_two_pow]
    simp
  rw [htype, entry_fat32, Function.update_apply, FATFS.entry, htype, hrange]
  rfl

/-- Half an entry of 12 bits is half of that for another number. -/
theorem half_eq (c v : ℕ) (p q : UInt8) :
    ∃ w, firstByte c w p = firstByte c v p ∧ secondByte c w q = q := by
  have hq := q.toNat_lt
  by_cases hodd : c % 2 = 1
  · refine ⟨v % 2 ^ 4 + q.toNat * 2 ^ 4, ?_, ?_⟩
    · rw [← UInt8.toNat_inj, toNat_firstByte, toNat_firstByte, if_pos hodd, if_pos hodd]
      omega
    · rw [← UInt8.toNat_inj, toNat_secondByte, if_pos hodd]
      omega
  · refine ⟨v % 2 ^ 8 + q.toNat % 2 ^ 4 * 2 ^ 8, ?_, ?_⟩
    · rw [← UInt8.toNat_inj, toNat_firstByte, toNat_firstByte, if_neg hodd, if_neg hodd]
      omega
    · rw [← UInt8.toNat_inj, toNat_secondByte, if_neg hodd]
      omega

/-- The second half of an entry of 12 bits is written. -/
theorem putSecond (hg : fs.WellFormed) (htype : fs.fsType = .fat12) (hc : fs.InRange c)
    (h : fs.Wrote (Function.update (fs.fatByte fs.view) (c + c / 2)
      (firstByte c v (fs.fatByte fs.view (c + c / 2)))) fs') :
    fs.PutResult c v (match moveWindow fs' (fs'.fatbase + (c + c / 2 + 1) / fs'.ssize) with
      | (res, fs'') =>
        if res ≠ .ok then (res, fs'')
        else (.ok, fs''.poke ((c + c / 2 + 1) % fs''.ssize)
          (secondByte c v (fs''.win ((c + c / 2 + 1) % fs''.ssize))))) := by
  obtain ⟨-, hhigh⟩ := inTable_fat12 hg htype hc
  have hssize : fs'.ssize = fs.ssize := congrArg Geometry.ssize h.geometry
  have hfatbase : fs'.fatbase = fs.fatbase := congrArg Geometry.fatbase h.geometry
  have hmoved := moveWindow_fat (k := c + c / 2 + 1) h.coherent (by rwa [h.geometry])
    (by rwa [h.geometry])
  rcases hr : moveWindow fs' (fs'.fatbase + (c + c / 2 + 1) / fs'.ssize) with ⟨res, fs''⟩
  have hfat := inFat_of_inTable hg hhigh
  rw [hr, hfatbase, hssize] at hmoved
  have hwrote : fs.Wrote _ fs'' := h.moved hg hmoved hfat
  have hssize' : fs''.ssize = fs.ssize := congrArg Geometry.ssize hwrote.geometry
  rcases hmoved.res with ⟨hok, hwin⟩ | herr
  · have hok' : res = .ok := hok
    have hwin' : fs''.winsect = fs.fatbase + (c + c / 2 + 1) / fs.ssize := hwin
    have hsecond : fs''.win ((c + c / 2 + 1) % fs.ssize) =
        fs.fatByte fs.view (c + c / 2 + 1) := by
      have hbyte := hwrote.table _ hhigh
      rw [Function.update_of_ne (by omega)] at hbyte
      rw [← hbyte, Geometry.fatByte, ← hwin']
      exact (congrFun (if_pos rfl) _).symm
    simp only [hok', ne_eq, not_true_eq_false, if_false, hssize', hsecond]
    have hput := hwrote.poke hg hwin' hhigh
      (secondByte c v (fs.fatByte fs.view (c + c / 2 + 1)))
    refine .ok hwrote.freeClust ((hput.shows hg).congr fun c' _ => ?_)
    have hentry := entry_fat12 (fs.fatByte fs.view) c v c'
    rw [splice_cons, splice_cons, splice_nil] at hentry
    rw [htype, hentry, Function.update_apply, FATFS.entry, htype]
    rfl
  · have herr' : res = .diskErr := herr
    simp only [herr', ne_eq, reduceCtorEq, not_false_eq_true, if_true]
    obtain ⟨w, hfirst, hsecond⟩ := half_eq c v (fs.fatByte fs.view (c + c / 2))
      (fs.fatByte fs.view (c + c / 2 + 1))
    refine .half (w % 2 ^ 12) hwrote.freeClust (fun hfine => hmoved.not_fine herr (h.fine hfine))
      htype ((hwrote.shows hg).congr fun c' _ => ?_)
    have hentry := entry_fat12 (fs.fatByte fs.view) c w c'
    rw [splice_cons, splice_cons, splice_nil, hfirst, hsecond,
      Function.update_eq_self_iff.mpr (Function.update_of_ne (by omega) _ _).symm] at hentry
    rw [htype, hentry, Function.update_apply, FATFS.entry, htype]

theorem putFat12 (h : fs.Coherent) (hg : fs.WellFormed) (htype : fs.fsType = .fat12)
    (hc : fs.InRange c) : fs.PutResult c v (putFat fs c v) := by
  have h₁ := hc.1
  have h₂ := hc.2
  obtain ⟨hlow, -⟩ := inTable_fat12 hg htype hc
  have hmoved := moveWindow_fat h hg hlow
  rw [putFat, if_neg (by omega), htype]
  dsimp only
  rcases hr : moveWindow fs (fs.fatbase + (c + c / 2) / fs.ssize) with ⟨res, fs'⟩
  rw [hr] at hmoved
  have hwrote : fs.Wrote (fs.fatByte fs.view) fs' :=
    hmoved.wrote hg (inFat_of_inTable hg hlow)
  have hssize : fs'.ssize = fs.ssize := congrArg Geometry.ssize hwrote.geometry
  rcases hmoved.res with ⟨hok, hwin⟩ | herr
  · have hok' : res = .ok := hok
    have hfirst : fs'.win ((c + c / 2) % fs.ssize) = fs.fatByte fs.view (c + c / 2) :=
      win_eq_fatByte hmoved.kept hg hwin hlow
    simp only [hok', ne_eq, not_true_eq_false, if_false]
    refine putSecond hg htype hc ?_
    rw [hssize, hfirst]
    exact hwrote.poke hg hwin hlow _
  · have herr' : res = .diskErr := herr
    simp only [herr', ne_eq, reduceCtorEq, not_false_eq_true, if_true]
    exact .failed hmoved.kept.freeClust (hmoved.not_fine herr) (hwrote.shows hg)

theorem putFat_put (h : fs.Coherent) (hg : fs.WellFormed) (hc : fs.InRange c) :
    fs.PutResult c v (putFat fs c v) := by
  have hmounted := hg.mounted
  cases htype : fs.fsType with
  | none => exact absurd htype hmounted
  | fat12 => exact putFat12 h hg htype hc
  | fat16 => exact putFat16 h hg htype hc
  | fat32 => exact putFat32 h hg htype hc

end Write

end OlivePiccolo.FatFs
