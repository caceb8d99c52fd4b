import OlivePiccolo.FatFs.Entries
import OlivePiccolo.Library.ChainTable
import OlivePiccolo.Library.Loop

/-!
# Cluster chains

`create_chain` and `remove_chain` of `ff.c`. A cluster that is free is looked for from the one
behind on, around the volume (`search_spec`), so that there is none when the result is `0`; what has
happened to the table is known on any device (`createChain_created`, `removeChain_removed`).
-/

namespace OlivePiccolo.FatFs

open ChainTable

/-- `free_clust` when it is not known. -/
def unknown : ℕ := 0xFFFFFFFF

/-- The mark of the last link. -/
def lastLink : ℕ := 0x0FFFFFFF

/-- What the search for a free cluster ends with. -/
inductive Found
  | free (ncl : ℕ)
  | stop (cs : ℕ)

/-- A round of the search from `scl` on. -/
def searchRound (scl : ℕ) : ℕ × FATFS → Option (Round (ℕ × FATFS) (Found × FATFS))
  | (ncl, fs) =>
    let ncl := ncl + 1
    -- wrap around
    let wrapped := fs.nFatent ≤ ncl
    let ncl := if wrapped then 2 else ncl
    if wrapped ∧ scl < ncl then some (.done (.stop 0, fs))
    else
      let (cs, fs) := getFat fs ncl
      if cs = 0 then some (.done (.free ncl, fs))
      else if cs = diskError ∨ cs = 1 then some (.done (.stop cs, fs))
      else if ncl = scl then some (.done (.stop 0, fs))
      else some (.again (ncl, fs))

/-- Mark the new cluster, and link it to the previous one. -/
def linkCluster (fs : FATFS) (clst ncl : ℕ) : ℕ × FATFS :=
  let (res, fs) := putFat fs ncl lastLink
  let (res, fs) := if res = .ok ∧ clst ≠ 0 then putFat fs clst ncl else (res, fs)
  if res = .ok then
    let fs := { fs with lastClust := ncl }
    if fs.freeClust ≠ unknown then
      (ncl, { fs with freeClust := (fs.freeClust + (2 ^ 32 - 1)) % 2 ^ 32, fsiDirty := true })
    else (ncl, fs)
  else (if res = .diskErr then diskError else 1, fs)

/-- Look for a free cluster, and take it. -/
def stretch (fuel : ℕ) (fs : FATFS) (clst scl : ℕ) : Option (ℕ × FATFS) :=
  (loop (searchRound scl) fuel (scl, fs)).bind fun (found, fs) =>
    match found with
    | .stop cs => some (cs, fs)
    | .free ncl => some (linkCluster fs clst ncl)

/-- `create_chain` -/
def createChain (fuel : ℕ) (fs : FATFS) (clst : ℕ) : Option (ℕ × FATFS) :=
  if clst = 0 then
    let scl := fs.lastClust
    stretch fuel fs clst (if scl = 0 ∨ fs.nFatent ≤ scl then 1 else scl)
  else
    let (cs, fs) := getFat fs clst
    if cs < 2 then some (1, fs)
    else if cs = diskError then some (cs, fs)
    else if cs < fs.nFatent then some (cs, fs)
    else stretch fuel fs clst clst

/-- A round of `remove_chain`. -/
def removeRound : ℕ × FATFS → Option (Round (ℕ × FATFS) (FResult × FATFS))
  | (clst, fs) =>
    if clst < fs.nFatent then
      let (nxt, fs) := getFat fs clst
      if nxt = 0 then some (.done (.ok, fs))
      else if nxt = 1 then some (.done (.intErr, fs))
      else if nxt = diskError then some (.done (.diskErr, fs))
      else
        let (res, fs) := putFat fs clst 0
        if res ≠ .ok then some (.done (res, fs))
        else if fs.freeClust ≠ unknown then
          some (.again (nxt,
            { fs with freeClust := (fs.freeClust + 1) % 2 ^ 32, fsiDirty := true }))
        else some (.again (nxt, fs))
    else some (.done (.ok, fs))

/-- `remove_chain` -/
def removeChain (fuel : ℕ) (fs : FATFS) (clst : ℕ) : Option (FResult × FATFS) :=
  if clst < 2 ∨ fs.nFatent ≤ clst then some (.intErr, fs) else loop removeRound fuel (clst, fs)

/-! ## Looking for a free cluster -/

/-- Nothing has happened to the table. -/
structure FATFS.Stays (fs fs' : FATFS) : Prop where
  freeClust : fs'.freeClust = fs.freeClust
  shows : fs.Shows fs.entry fs'

section Search

variable {fs fs' : FATFS} {c v scl ncl : ℕ}

theorem FsType.entry_lt (t : FsType) (bytes : ℕ → UInt8) (c : ℕ) : t.entry bytes c < diskError := by
  unfold FsType.entry diskError
  cases t with
  | none => norm_num
  | fat12 =>
    have hlt := leNat_lt [bytes (c + c / 2), bytes (c + c / 2 + 1)]
    simp only [List.length_cons, List.length_nil] at hlt ⊢
    split_ifs <;> omega
  | fat16 =>
    have hlt := leNat_lt [bytes (2 * c), bytes (2 * c + 1)]
    simp only [List.length_cons, List.length_nil] at hlt ⊢
    omega
  | fat32 => exact Nat.lt_of_lt_of_le (Nat.mod_lt _ (by norm_num)) (by norm_num)

theorem FATFS.Stays.rfl (h : fs.Coherent) : fs.Stays fs :=
  ⟨Eq.refl _, Eq.refl _, h, fun _ _ => Eq.refl _, fun _ _ _ => Eq.refl _, .rfl, id⟩

/-- The table after `get_fat`. -/
theorem FATFS.Got.stays {r : ℕ × FATFS} (hg : fs.WellFormed) (h : fs.Got c r) : fs.Stays r.2 := by
  refine ⟨h.kept.freeClust, FATFS.Wrote.shows hg ⟨h.kept.geometry, h.coherent, ?_, ?_, h.aside,
    h.kept.freeClust, fun hfine => (h.fine hfine).2⟩⟩
  · exact fun k hk => h.kept.fatByte hg hk
  · exact fun s hs _ => h.kept.view s hs

/-- `get_fat` on a table. -/
theorem FATFS.Shows.getFat {T : ℕ → ℕ} (hg : fs.WellFormed) (h : fs.Shows T fs')
    (hc : fs.InRange c) :
    fs.Shows T (getFat fs' c).2 ∧ (FatFs.getFat fs' c).2.freeClust = fs'.freeClust ∧
      ((FatFs.getFat fs' c).1 = T c ∨ (FatFs.getFat fs' c).1 = diskError ∧ ¬ fs.Fine) := by
  have hg' : fs'.WellFormed := by rwa [h.geometry]
  have hgot := getFat_got h.coherent hg' (show fs'.InRange c by rwa [h.geometry])
  have hstays := hgot.stays hg'
  refine ⟨(h.trans hstays.shows).congr h.entry, hstays.freeClust, ?_⟩
  rcases hgot.res with hres | hres
  · exact .inl (hres.trans (h.entry c hc))
  · refine .inr ⟨hres, fun hfine => ?_⟩
    have hvalue := (hgot.fine (h.fine hfine)).1
    exact absurd (hres.symm.trans hvalue) (Nat.ne_of_gt (FsType.entry_lt _ _ _))

theorem FATFS.Stays.getFat (hg : fs.WellFormed) (h : fs.Stays fs') (hc : fs.InRange c) :
    fs.Stays (getFat fs' c).2 ∧ ((FatFs.getFat fs' c).1 = fs.entry c ∨
      (FatFs.getFat fs' c).1 = diskError ∧ ¬ fs.Fine) := by
  obtain ⟨hshows, hcount, hres⟩ := h.shows.getFat hg hc
  exact ⟨⟨hcount.trans h.freeClust, hshows⟩, hres⟩

/-- The clusters that the search has seen. -/
def Passed (scl ncl c : ℕ) : Prop := if scl ≤ ncl then scl < c ∧ c ≤ ncl else scl < c ∨ c ≤ ncl

/-- How far the search is from its end. -/
def ahead (n scl ncl : ℕ) : ℕ := if scl ≤ ncl then n + scl - ncl else scl - ncl

/-- The search so far. -/
structure FATFS.Searching (fs : FATFS) (scl : ℕ) (st : ℕ × FATFS) : Prop where
  stays : fs.Stays st.2
  lt : st.1 < fs.nFatent
  wrapped : st.1 < scl → 2 ≤ st.1
  passed : ∀ c, fs.InRange c → Passed scl st.1 c → fs.entry c ≠ 0

/-- What the search ends with. -/
inductive FATFS.Searched (fs : FATFS) : Found × FATFS → Prop
  | free (u : ℕ) {fs' : FATFS} : fs.Stays fs' → fs.InRange u → fs.entry u = 0 →
      Searched fs (.free u, fs')
  | full {fs' : FATFS} : fs.Stays fs' → (∀ c, fs.InRange c → fs.entry c ≠ 0) →
      Searched fs (.stop 0, fs')
  | invalid {fs' : FATFS} : fs.Stays fs' → (∃ c, fs.InRange c ∧ fs.entry c = 1) →
      Searched fs (.stop 1, fs')
  | failed {fs' : FATFS} : fs.Stays fs' → ¬ fs.Fine → Searched fs (.stop diskError, fs')

/-- A cluster is looked at. -/
theorem searchRound_look (hg : fs.WellFormed) (hstays : fs.Stays fs') (hncl : fs.InRange ncl)
    (hseen : ∀ c, fs.InRange c → (if scl < ncl then scl < c ∧ c < ncl else scl < c ∨ c < ncl) →
      fs.entry c ≠ 0) {st : ℕ × FATFS}
    (hst : ncl ≠ scl → ahead fs.nFatent scl ncl < ahead fs.nFatent scl st.1) :
    Ensures (match getFat fs' ncl with
      | (cs, fs') =>
        if cs = 0 then some (.done (.free ncl, fs'))
        else if cs = diskError ∨ cs = 1 then some (.done (.stop cs, fs'))
        else if ncl = scl then some (.done (.stop 0, fs'))
        else some (.again (ncl, fs')))
      (Ensures.AfterRound (fs.Searching scl) (fun st => ahead fs.nFatent scl st.1) fs.Searched
        st) := by
  obtain ⟨hstays', hres⟩ := hstays.getFat hg hncl
  rcases hr : getFat fs' ncl with ⟨cs, fs''⟩
  rw [hr] at hstays' hres
  rcases hres with hcs | ⟨hcs, hfine⟩
  · have hcs' : cs = fs.entry ncl := hcs
    have hlt : cs < diskError := hcs' ▸ FsType.entry_lt _ _ _
    refine .ite (fun hzero => .pure (.free ncl hstays' hncl (hcs' ▸ hzero))) fun hused => ?_
    refine .ite (fun hstop => ?_) fun hvalid => .ite (fun hlast => ?_) fun hmore => ?_
    · obtain rfl : cs = 1 := hstop.resolve_left (Nat.ne_of_lt hlt)
      exact .pure (.invalid hstays' ⟨ncl, hncl, hcs'.symm⟩)
    · refine .pure (.full hstays' fun c hc hzero => ?_)
      by_cases heq : c = ncl
      · rw [heq, ← hcs'] at hzero
        exact hused hzero
      · refine hseen c hc ?_ hzero
        rw [if_neg (by omega)]
        omega
    · refine .pure ⟨⟨hstays', hncl.2, fun _ => hncl.1, fun c hc hpassed hzero => ?_⟩, hst hmore⟩
      by_cases heq : c = ncl
      · rw [heq, ← hcs'] at hzero
        exact hused hzero
      · refine hseen c hc ?_ hzero
        unfold Passed at hpassed
        split_ifs at hpassed ⊢ <;> omega
  · have hcs' : cs = diskError := hcs
    subst hcs'
    refine .ite (fun hzero => ?_) fun _ => ?_
    · exact absurd hzero (by decide)
    · rw [if_pos (.inl rfl)]
      exact .pure (.failed hstays' hfine)

theorem search_spec (h : fs.Stays fs') (hg : fs.WellFormed) (hscl : 1 ≤ scl ∧ scl < fs.nFatent)
    {fuel : ℕ} (hfuel : fs.nFatent < fuel) :
    Ensures (loop (searchRound scl) fuel (scl, fs')) fs.Searched := by
  refine Ensures.loop (I := fs.Searching scl) (m := fun st => ahead fs.nFatent scl st.1)
    (fun st hst => ?_) ⟨h, hscl.2, fun hlt => absurd hlt (Nat.lt_irrefl scl), ?_⟩ ?_
  · obtain ⟨ncl, fs'⟩ := st
    obtain ⟨hstays, hlt, hwrapped, hpassed⟩ := hst
    have hn : fs'.nFatent = fs.nFatent := congrArg Geometry.nFatent hstays.shows.geometry
    have hthree := hg.nFatent
    unfold searchRound
    dsimp only at hlt hwrapped hpassed ⊢
    rw [hn]
    by_cases hend : fs.nFatent ≤ ncl + 1
    · -- the end of the volume
      simp only [hend, true_and, if_true]
      refine .ite (fun hfull => .pure (.full hstays fun c hc => hpassed c hc ?_)) fun hmore => ?_
      · unfold Passed
        have h₁ := hc.1
        have h₂ := hc.2
        split_ifs <;> omega
      · refine searchRound_look hg hstays ⟨Nat.le_refl 2, by omega⟩ (fun c hc hseen => ?_)
          fun hne => ?_
        · refine hpassed c hc ?_
          unfold Passed
          have h₁ := hc.1
          have h₂ := hc.2
          split_ifs at hseen ⊢ <;> omega
        · unfold ahead
          split_ifs <;> omega
    · simp only [hend, false_and, if_false]
      refine searchRound_look hg hstays ⟨by omega, by omega⟩ (fun c hc hseen => ?_) fun hne => ?_
      · refine hpassed c hc ?_
        unfold Passed
        split_ifs at hseen ⊢ <;> omega
      · unfold ahead
        split_ifs <;> omega
  · intro c hc hpassed
    unfold Passed at hpassed
    rw [if_pos (Nat.le_refl scl)] at hpassed
    omega
  · show ahead fs.nFatent scl scl < fuel
    unfold ahead
    rw [if_pos (Nat.le_refl scl)]
    omega

end Search

/-! ## Taking it -/

/-- The mark of the last link, as an entry has it. -/
def Geometry.mark (g : Geometry) : ℕ := lastLink % g.fsType.range

/-- The table with a new cluster behind another one. -/
def FATFS.taken (fs : FATFS) (clst u : ℕ) : ℕ → ℕ :=
  let T := Function.update fs.entry u fs.mark
  if clst = 0 then T else Function.update T clst u

/-- The table when a new cluster has not been linked. -/
def FATFS.Damaged (fs : FATFS) (T : ℕ → ℕ) : Prop :=
  T = fs.entry ∨ fs.fsType = .fat12 ∨
    ∃ u, fs.InRange u ∧ fs.entry u = 0 ∧ T = Function.update fs.entry u fs.mark

/-- What `create_chain` can do. -/
inductive FATFS.Created (fs : FATFS) (clst : ℕ) : ℕ × FATFS → Prop
  | full {fs' : FATFS} : fs.Stays fs' → (∀ c, fs.InRange c → fs.entry c ≠ 0) →
      (clst ≠ 0 → fs.nFatent ≤ fs.entry clst) → Created fs clst (0, fs')
  | next {fs' : FATFS} : fs.Stays fs' → clst ≠ 0 → fs.InRange (fs.entry clst) →
      Created fs clst (fs.entry clst, fs')
  | invalid {fs' : FATFS} : fs.Stays fs' →
      (clst ≠ 0 ∧ fs.entry clst < 2 ∨ ∃ c, fs.InRange c ∧ fs.entry c = 1) →
      Created fs clst (1, fs')
  | failed {fs' : FATFS} {T : ℕ → ℕ} : ¬ fs.Fine → fs'.freeClust = fs.freeClust → fs.Damaged T →
      fs.Shows T fs' → Created fs clst (diskError, fs')
  | new (u : ℕ) {fs' : FATFS} : fs.InRange u → fs.entry u = 0 →
      (clst ≠ 0 → fs.nFatent ≤ fs.entry clst) →
      fs'.freeClust = (if fs.freeClust = unknown then unknown
        else (fs.freeClust + (2 ^ 32 - 1)) % 2 ^ 32) →
      fs.Shows (fs.taken clst u) fs' → Created fs clst (u, fs')

section Take

variable {fs fs' : FATFS} {T : ℕ → ℕ} {c u v clst : ℕ}

theorem nFatent_le_mark (hg : fs.WellFormed) : fs.nFatent ≤ fs.mark := by
  have hmounted := hg.mounted
  unfold Geometry.mark lastLink FsType.range
  cases htype : fs.fsType with
  | none => exact absurd htype hmounted
  | fat12 =>
    have hn := (hg.fat12 htype).1
    norm_num
    omega
  | fat16 =>
    have hn := (hg.fat16 htype).1
    norm_num
    omega
  | fat32 =>
    have hn := (hg.fat32 htype).1
    norm_num
    omega

theorem nFatent_lt (hg : fs.WellFormed) : fs.nFatent < diskError := by
  have hmark : fs.mark ≤ lastLink := Nat.mod_le _ _
  exact Nat.lt_of_le_of_lt (Nat.le_trans (nFatent_le_mark hg) hmark) (by decide)

/-- A cluster fits into an entry. -/
theorem mod_range (hg : fs.WellFormed) (hc : fs.InRange c) : c % fs.fsType.range = c := by
  have hmark := nFatent_le_mark hg
  have hlt := hc.2
  unfold Geometry.mark at hmark
  have hpos : 0 < fs.fsType.range := by
    unfold FsType.range
    cases fs.fsType <;> norm_num
  have hrange := Nat.mod_lt lastLink hpos
  exact Nat.mod_eq_of_lt (by omega)

/-- `put_fat` on a table. -/
theorem FATFS.Shows.put (hg : fs.WellFormed) (h : fs.Shows T fs') (hc : fs.InRange c) (v : ℕ) :
    (putFat fs' c v).2.freeClust = fs'.freeClust ∧
      ((putFat fs' c v).1 = .ok ∧
          fs.Shows (Function.update T c (v % fs.fsType.range)) (putFat fs' c v).2 ∨
        (putFat fs' c v).1 = .diskErr ∧ ¬ fs.Fine ∧ (fs.Shows T (putFat fs' c v).2 ∨
          fs.fsType = .fat12 ∧ ∃ w, fs.Shows (Function.update T c w) (putFat fs' c v).2)) := by
  have hgeometry := h.geometry
  have hput := putFat_put (v := v) h.coherent (by rwa [hgeometry])
    (show fs'.InRange c by rwa [hgeometry])
  have hupdate (w : ℕ) (a : ℕ) (ha : fs.InRange a) :
      Function.update fs'.entry c w a = Function.update T c w a := by
    rw [Function.update_apply, Function.update_apply, h.entry a ha]
  rcases hr : putFat fs' c v with ⟨res, fs''⟩
  rw [hr] at hput
  cases hput with
  | ok hfree hshows =>
    rw [hgeometry] at hshows
    exact ⟨hfree, .inl ⟨rfl, (h.trans hshows).congr (hupdate _)⟩⟩
  | failed hfree hfine hshows =>
    exact ⟨hfree, .inr ⟨rfl, fun hf => hfine (h.fine hf), .inl ((h.trans hshows).congr h.entry)⟩⟩
  | half w hfree hfine htype hshows =>
    rw [hgeometry] at htype
    exact ⟨hfree, .inr ⟨rfl, fun hf => hfine (h.fine hf),
      .inr ⟨htype, w, (h.trans hshows).congr (hupdate w)⟩⟩⟩

/-- The numbers that FatFs keeps are not of the table. -/
theorem FATFS.Shows.count (h : fs.Shows T fs') (last free : ℕ) (dirty : Bool) :
    fs.Shows T { fs' with lastClust := last, freeClust := free, fsiDirty := dirty } :=
  ⟨h.geometry, ⟨h.coherent.clean, h.coherent.dirty, h.coherent.winsect⟩, h.entry, h.others, h.aside,
    h.fine⟩

/-- The new cluster is counted. -/
theorem created_count (hu : fs.InRange u) (hfree : fs.entry u = 0)
    (hclst : clst ≠ 0 → fs.nFatent ≤ fs.entry clst) (hcount : fs'.freeClust = fs.freeClust)
    (h : fs.Shows (fs.taken clst u) fs') :
    fs.Created clst (let fs' := { fs' with lastClust := u }
      if fs'.freeClust ≠ unknown then
        (u, { fs' with freeClust := (fs'.freeClust + (2 ^ 32 - 1)) % 2 ^ 32, fsiDirty := true })
      else (u, fs')) := by
  simp only [hcount]
  split_ifs with hknown
  · refine .new u hu hfree hclst ?_ (h.count _ _ _)
    rw [if_neg hknown]
  · refine .new u hu hfree hclst ?_ (h.count _ _ _)
    rw [if_pos (not_not.mp hknown)]
    exact not_not.mp hknown

theorem linkCluster_created (hg : fs.WellFormed) (h : fs.Stays fs') (hu : fs.InRange u)
    (hfree : fs.entry u = 0) (hclst : clst ≠ 0 → fs.InRange clst ∧ fs.nFatent ≤ fs.entry clst) :
    fs.Created clst (linkCluster fs' clst u) := by
  have hfirst := h.shows.put hg hu lastLink
  unfold linkCluster
  rcases hr : putFat fs' u lastLink with ⟨res, fs₁⟩
  rw [hr] at hfirst
  obtain ⟨hcount, hcases⟩ := hfirst
  have hcount₁ : fs₁.freeClust = fs.freeClust := hcount.trans h.freeClust
  rcases hcases with ⟨hok, hmark⟩ | ⟨herr, hfine, hleft⟩
  · have hok' : res = .ok := hok
    have hmark' : fs.Shows (Function.update fs.entry u fs.mark) fs₁ := hmark
    simp only [hok', true_and]
    by_cases hzero : clst = 0
    · simp only [hzero, ne_eq, not_true_eq_false, if_false, if_true]
      refine created_count hu hfree (fun hne => absurd rfl hne) hcount₁ ?_
      rw [FATFS.taken, if_pos rfl]
      exact hmark'
    · obtain ⟨hrange, hend⟩ := hclst hzero
      have hsecond := hmark'.put hg hrange u
      simp only [ne_eq, hzero, not_false_eq_true, if_true]
      rcases hr₂ : putFat fs₁ clst u with ⟨res₂, fs₂⟩
      rw [hr₂] at hsecond
      obtain ⟨hcount₂, hcases₂⟩ := hsecond
      rcases hcases₂ with ⟨hok₂, hlink⟩ | ⟨herr₂, hfine, hleft⟩
      · have hok₂' : res₂ = .ok := hok₂
        simp only [hok₂', if_true]
        refine created_count hu hfree (fun _ => hend) (hcount₂.trans hcount₁) ?_
        rw [mod_range hg hu] at hlink
        rw [FATFS.taken, if_neg hzero]
        exact hlink
      · have herr₂' : res₂ = .diskErr := herr₂
        simp only [herr₂', reduceCtorEq, if_false, if_true]
        rcases hleft with hleft | ⟨htype, w, hleft⟩
        · exact .failed hfine (hcount₂.trans hcount₁) (.inr (.inr ⟨u, hu, hfree, rfl⟩)) hleft
        · exact .failed hfine (hcount₂.trans hcount₁) (.inr (.inl htype)) hleft
  · have herr' : res = .diskErr := herr
    simp only [herr', reduceCtorEq, false_and, if_false, if_true]
    rcases hleft with hleft | ⟨htype, w, hleft⟩
    · exact .failed hfine hcount₁ (.inl rfl) hleft
    · exact .failed hfine hcount₁ (.inr (.inl htype)) hleft

theorem stretch_created (h : fs.Stays fs') (hg : fs.WellFormed) {scl fuel : ℕ}
    (hscl : 1 ≤ scl ∧ scl < fs.nFatent)
    (hclst : clst ≠ 0 → fs.InRange clst ∧ fs.nFatent ≤ fs.entry clst) (hfuel : fs.nFatent < fuel) :
    Ensures (stretch fuel fs' clst scl) (fs.Created clst) := by
  unfold stretch
  refine (search_spec h hg hscl hfuel).bind fun r hr => ?_
  cases hr with
  | free u hstays hu hfree => exact .pure (linkCluster_created hg hstays hu hfree hclst)
  | full hstays hfull => exact .pure (.full hstays hfull fun hne => (hclst hne).2)
  | invalid hstays hinvalid => exact .pure (.invalid hstays (.inr hinvalid))
  | failed hstays hfine => exact .pure (.failed hfine hstays.freeClust (.inl rfl) hstays.shows)

/-- **A cluster for a chain.** -/
theorem createChain_created (h : fs.Coherent) (hg : fs.WellFormed)
    (hclst : clst ≠ 0 → fs.InRange clst) {fuel : ℕ} (hfuel : fs.nFatent < fuel) :
    Ensures (createChain fuel fs clst) (fs.Created clst) := by
  have hthree := hg.nFatent
  unfold createChain
  by_cases hzero : clst = 0
  · rw [if_pos hzero]
    refine stretch_created (.rfl h) hg ?_ (fun hne => absurd hzero hne) hfuel
    split_ifs <;> omega
  · rw [if_neg hzero]
    obtain ⟨hstays, hres⟩ := (FATFS.Stays.rfl h).getFat hg (hclst hzero)
    rcases hr : getFat fs clst with ⟨cs, fs'⟩
    rw [hr] at hstays hres
    have hn : fs'.nFatent = fs.nFatent := congrArg Geometry.nFatent hstays.shows.geometry
    rcases hres with hcs | ⟨hcs, hfine⟩
    · have hcs' : cs = fs.entry clst := hcs
      have hlt := FsType.entry_lt fs.fsType (fs.fatByte fs.view) clst
      simp only [hn]
      refine .ite (fun hinvalid => .pure (.invalid hstays (.inl ⟨hzero, hcs' ▸ hinvalid⟩)))
        fun htwo => ?_
      rw [if_neg (by rw [hcs']; exact Nat.ne_of_lt hlt)]
      refine .ite (fun hnext => ?_) fun hend => ?_
      · rw [hcs'] at htwo hnext ⊢
        exact .pure (.next hstays hzero ⟨by omega, hnext⟩)
      · rw [hcs'] at hend
        have hrange := hclst hzero
        exact stretch_created hstays hg ⟨Nat.le_of_succ_le hrange.1, hrange.2⟩
          (fun _ => ⟨hrange, Nat.not_lt.mp hend⟩) hfuel
    · have hcs' : cs = diskError := hcs
      simp only [hcs']
      rw [if_neg (by decide), if_pos trivial]
      exact .pure (.failed hfine hstays.freeClust (.inl rfl) hstays.shows)

end Take

/-! ## Giving it back -/

/-- One more free cluster is counted. -/
def countUp (n : ℕ) : ℕ := if n = unknown then unknown else (n + 1) % 2 ^ 32

/-- What `remove_chain` can do with a chain. -/
inductive FATFS.Removed (fs : FATFS) (l : List ℕ) : FResult × FATFS → Prop
  | ok {fs' : FATFS} : fs'.freeClust = countUp^[l.length] fs.freeClust →
      fs.Shows (cleared fs.entry l) fs' → Removed fs l (.ok, fs')
  | failed {fs' : FATFS} (front back : List ℕ) : ¬ fs.Fine → l = front ++ back →
      fs'.freeClust = countUp^[front.length] fs.freeClust →
      fs.Shows (cleared fs.entry front) fs' → Removed fs l (.diskErr, fs')
  | half {fs' : FATFS} (T : ℕ → ℕ) : ¬ fs.Fine → fs.fsType = .fat12 → fs.Shows T fs' →
      Removed fs l (.diskErr, fs')

/-- A cluster is where the rest of a chain begins. -/
def Geometry.At (g : Geometry) (clst : ℕ) : List ℕ → Prop
  | [] => g.nFatent ≤ clst
  | c :: _ => clst = c

section Remove

variable {fs fs' : FATFS} {clst : ℕ} {l front back : List ℕ}

/-- Some more free clusters are counted, as far as the number goes. -/
theorem countUp_iterate {n : ℕ} (hn : n < 2 ^ 32) (k : ℕ) :
    countUp^[k] n = min (n + k) unknown := by
  induction k with
  | zero =>
    rw [Function.iterate_zero, id, Nat.add_zero]
    unfold unknown
    omega
  | succ k ih =>
    rw [Function.iterate_succ_apply', ih]
    unfold countUp unknown
    split_ifs <;> omega

/-- The rest of a chain is given back. -/
theorem removeLoop (hg : fs.WellFormed) (hl : l = front ++ back)
    (hlinked : Linked fs.nFatent fs.entry l) (hplace : ∀ c ∈ l, fs.InRange c) (hnodup : l.Nodup)
    (hcount : fs'.freeClust = countUp^[front.length] fs.freeClust)
    (h : fs.Shows (cleared fs.entry front) fs')
    (hclst : fs.At clst back) {fuel : ℕ}
    (hfuel : back.length < fuel) : Ensures (loop removeRound fuel (clst, fs')) (fs.Removed l) := by
  have hn : fs'.nFatent = fs.nFatent := congrArg Geometry.nFatent h.geometry
  induction back generalizing front fs' clst fuel with
  | nil =>
    obtain ⟨fuel, rfl⟩ : ∃ k, fuel = k + 1 := ⟨fuel - 1, by omega⟩
    have hend : ¬ clst < fs'.nFatent := by
      rw [hn]
      exact Nat.not_lt.mpr hclst
    rw [List.append_nil] at hl
    rw [loop, removeRound, if_neg hend, hl]
    exact .pure (.ok hcount h)
  | cons c back ih =>
    rw [List.length_cons] at hfuel
    obtain ⟨fuel, rfl⟩ : ∃ k, fuel = k + 1 := ⟨fuel - 1, by omega⟩
    obtain rfl : clst = c := hclst
    have hmem : clst ∈ l := by simp [hl]
    have hrange := hplace clst hmem
    have hnot : clst ∉ front := by
      rw [hl, List.nodup_append] at hnodup
      exact fun hfront => hnodup.2.2 clst hfront clst List.mem_cons_self rfl
    have hentry : cleared fs.entry front clst = fs.entry clst := if_neg hnot
    obtain ⟨hshows, hcount₁, hres⟩ := h.getFat hg hrange
    rw [loop, removeRound, if_pos (hn ▸ hrange.2)]
    rcases hr : getFat fs' clst with ⟨nxt, fs₁⟩
    rw [hr] at hshows hcount₁ hres
    rcases hres with hnxt | ⟨hnxt, hfine⟩
    · have hnxt' : nxt = fs.entry clst := hnxt.trans hentry
      have hlt : nxt < diskError := hnxt' ▸ FsType.entry_lt _ _ _
      -- the cluster behind, or the end of the chain
      have hnext : fs.At nxt back := by
        rw [hl] at hlinked
        cases back with
        | nil => exact hnxt' ▸ hlinked.last
        | cons d back => exact hnxt'.trans hlinked.next
      have htwo : 2 ≤ nxt := by
        cases back with
        | nil =>
          have hthree := hg.nFatent
          exact Nat.le_trans (by omega) hnext
        | cons d back =>
          have hd := (hplace d (by simp [hl])).1
          exact Nat.le_trans hd (Nat.le_of_eq hnext.symm)
      obtain ⟨hcount₂, hput⟩ := FATFS.Shows.put hg hshows hrange 0
      rcases hr₂ : putFat fs₁ clst 0 with ⟨res, fs₂⟩
      rw [hr₂] at hcount₂ hput
      have hcount₃ : fs₂.freeClust = countUp^[front.length] fs.freeClust :=
        (hcount₂.trans hcount₁).trans hcount
      simp only [show nxt ≠ 0 by omega, show nxt ≠ 1 by omega, Nat.ne_of_lt hlt, if_false]
      rcases hput with ⟨hok, hclear⟩ | ⟨herr, hfine, hleft⟩
      · have hok' : res = .ok := hok
        have hclear' : fs.Shows (cleared fs.entry (front ++ [clst])) fs₂ := by
          rw [cleared_snoc]
          rwa [Nat.zero_mod] at hclear
        have hlength : countUp^[(front ++ [clst]).length] fs.freeClust =
            countUp fs₂.freeClust := by
          rw [hcount₃, List.length_append, List.length_singleton, Function.iterate_succ_apply']
        have hl' : l = front ++ [clst] ++ back := by rw [hl, List.append_assoc]; rfl
        simp only [hok', hr₂, ne_eq, not_true_eq_false, if_false]
        split_ifs with hknown
        · refine ih hl' ?_ hclear' hnext (by omega) (congrArg Geometry.nFatent hclear'.geometry)
          rw [hlength, countUp, if_pos hknown]
          exact hknown
        · refine ih hl' ?_ (hclear'.count _ _ _) hnext (by omega)
            (congrArg Geometry.nFatent hclear'.geometry)
          rw [hlength, countUp, if_neg hknown]
      · have herr' : res = .diskErr := herr
        simp only [herr', hr₂, ne_eq, reduceCtorEq, not_false_eq_true, if_true]
        rcases hleft with hleft | ⟨htype, w, hleft⟩
        · exact .pure (.failed front (clst :: back) hfine hl hcount₃ hleft)
        · exact .pure (.half _ hfine htype hleft)
    · have hnxt' : nxt = diskError := hnxt
      subst hnxt'
      simp only [show diskError ≠ 0 by decide, show diskError ≠ 1 by decide, if_false, if_true]
      exact .pure (.failed front (clst :: back) hfine hl (hcount₁.trans hcount) hshows)

/-- **A chain is given back.** -/
theorem removeChain_removed (h : fs.Coherent) (hg : fs.WellFormed)
    (hlinked : Linked fs.nFatent fs.entry (clst :: l)) (hplace : ∀ c ∈ clst :: l, fs.InRange c)
    (hnodup : (clst :: l).Nodup) {fuel : ℕ} (hfuel : fs.nFatent < fuel) :
    Ensures (removeChain fuel fs clst) (fs.Removed (clst :: l)) := by
  have hrange := hplace clst List.mem_cons_self
  have h₁ := hrange.1
  have h₂ := hrange.2
  have hlength : (clst :: l).length ≤ (List.range fs.nFatent).length :=
    (List.subperm_of_subset hnodup fun c hc => List.mem_range.mpr (hplace c hc).2).length_le
  rw [List.length_range] at hlength
  rw [removeChain, if_neg (by omega)]
  refine removeLoop hg (List.nil_append _).symm hlinked hplace hnodup rfl ?_ rfl (by omega)
  rw [cleared_nil]
  exact (FATFS.Stays.rfl h).shows

end Remove

end OlivePiccolo.FatFs
