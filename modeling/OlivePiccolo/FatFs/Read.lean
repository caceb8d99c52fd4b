import OlivePiccolo.FatFs.Contents

/-!
# Reading a file

`f_read` returns the bytes of the file from its position on (`fRead_outcome`): those of a sector in
part come from the sector buffer, sectors in a row from the disk, where one of them may still be in
the buffer.
-/

namespace OlivePiccolo.FatFs

section Read

variable {ι : Type*} [DecidableEq ι] {ok : Prop} {pool : ℕ → Prop} {q : ι → List ℕ} {i : ι}
  {fs fs' : FATFS} {fp fp' : FIL} {data : ℕ → Option UInt8} {n btr : ℕ} {rbuff : List UInt8}

/-- The transfer so far. -/
structure ReadInv (ok : Prop) (pool : ℕ → Prop) (fs : FATFS) (q : ι → List ℕ) (i : ι) (fp : FIL)
    (data : ℕ → Option UInt8) (n : ℕ) (fs' : FATFS) (fp' : FIL) (btr : ℕ) (rbuff : List UInt8) :
    Prop where
  carried : Carried ok pool fs q i fs' (q i)
  fixed : fp'.fixed = fp.fixed
  rooted : fp'.Rooted fs'.toGeometry pool (q i)
  bounded : fp'.Bounded fs'.toGeometry (q i)
  rest : fp'.fptr + btr = fp.fptr + n
  length : fp'.fptr = fp.fptr + rbuff.length
  aligned : fp'.Aligned fs'.toGeometry (q i)
  held : ok → fp'.Holds fs' (q i) data ∧ Reads data fp.fptr rbuff

/-- How a transfer ends. -/
inductive ReadEnded (ok : Prop) (pool : ℕ → Prop) (fs : FATFS) (q : ι → List ℕ) (i : ι) (fp : FIL)
    (data : ℕ → Option UInt8) (n : ℕ) : ReadEnd → Prop
  | go {fs' : FATFS} {fp' : FIL} {rbuff : List UInt8} :
      ReadInv ok pool fs q i fp data n fs' fp' 0 rbuff → fp'.Pointed fs'.toGeometry (q i) →
        ReadEnded ok pool fs q i fp data n (.go, fs', fp', rbuff)
  | abort {fs' : FATFS} {fp' : FIL} {rbuff : List UInt8} : ¬ ok →
      Carried ok pool fs q i fs' (q i) → fp'.fixed = fp.fixed →
        fp'.Rooted fs'.toGeometry pool (q i) →
          ReadEnded ok pool fs q i fp data n (.abort .diskErr, fs', fp', rbuff)

/-- What a round does. -/
def ReadNext (ok : Prop) (pool : ℕ → Prop) (fs : FATFS) (q : ι → List ℕ) (i : ι) (fp : FIL)
    (data : ℕ → Option UInt8) (n btr : ℕ) : Round Reading ReadEnd → Prop
  | .again (fs', fp', btr', rbuff) =>
    ReadInv ok pool fs q i fp data n fs' fp' btr' rbuff ∧ fp'.Pointed fs'.toGeometry (q i) ∧
      btr' < btr
  | .done r => ReadEnded ok pool fs q i fp data n r

/-- Bytes of the sector buffer. -/
theorem readPart_next (h : ReadInv ok pool fs q i fp data n fs' fp' btr rbuff) (hbtr : 0 < btr)
    (hle : fp.fptr + n ≤ fp.fsize) (hloc : fp'.Located fs'.toGeometry (q i))
    (hsector : fp'.dsect = fs'.place (q i) (fp'.fptr / fs'.ssize)) :
    ReadNext ok pool fs q i fp data n btr (readPart fs' fp' btr rbuff) := by
  have hg := h.carried.good.wellFormed
  obtain ⟨hpos, hcount, hin, hbcs⟩ := part_spec hg hbtr fp'.fptr
  have hrest := h.rest
  have hlength := h.length
  have hsize := h.bounded.fsize_lt
  have hfsize := fsize_of_fixed h.fixed
  obtain ⟨hbounded, hpointed⟩ := hloc.advance h.bounded hg hpos hbcs (by omega)
  unfold readPart
  refine ⟨⟨h.carried, h.fixed, ⟨h.rooted.sclust, h.rooted.dirty⟩, hbounded, ?_, ?_,
    fun hmid => ?_, fun hok => ⟨?_, ?_⟩⟩, hpointed, ?_⟩
  · show fp'.fptr + fs'.part fp'.fptr btr + (btr - fs'.part fp'.fptr btr) = _
    omega
  · show fp'.fptr + fs'.part fp'.fptr btr = _
    rw [List.length_append, List.length_map, List.length_range]
    omega
  · have hdiv := add_div_of_mid hg.ssize_pos hin hmid
    show fp'.dsect = fs'.place (q i) ((fp'.fptr + fs'.part fp'.fptr btr) / fs'.ssize)
    rw [hdiv]
    exact hsector
  · exact (h.held hok).1.advance _
  · refine reads_append (h.held hok).2 fun k b hk hdata => ?_
    rw [List.length_map, List.length_range] at hk
    rw [List.getElem?_map, List.getElem?_range hk, Option.map_some]
    rw [← hlength] at hdata
    have hsplit : fp'.fptr + k = fp'.fptr / fs'.ssize * fs'.ssize + (fp'.fptr % fs'.ssize + k) := by
      have hdiv := Nat.div_add_mod' fp'.fptr fs'.ssize
      omega
    rw [hsplit] at hdata
    have hstored := (h.held hok).1.stored _ _ b (hloc.lt hg) (by omega) hdata
    exact congrArg some (hstored.1 hsector)
  · show btr - fs'.part fp'.fptr btr < btr
    omega

/-- The bytes of sectors in a row, one of which may be in the sector buffer. -/
theorem readSectors_byte (h : Carried ok pool fs q i fs' (q i)) (hheld : fp'.Holds fs' (q i) data)
    (hloc : fp'.Located fs'.toGeometry (q i)) (hmod : fp'.fptr % fs'.ssize = 0) {sect cc k : ℕ}
    (hend : fp'.fptr / fs'.ssize % fs'.csize + cc ≤ fs'.csize)
    (hsect : sect = fs'.place (q i) (fp'.fptr / fs'.ssize)) {buff : ℕ → Sector}
    (hbuff : ∀ j, buff j = fs'.disk.sectors (sect + j)) (hk : k < fs'.ssize * cc) {b : UInt8}
    (hdata : data (fp'.fptr + k) = some b) :
    (if fp'.faDirty = true ∧ sect ≤ fp'.dsect ∧ fp'.dsect < sect + cc then
      Function.update buff (fp'.dsect - sect) fp'.buf else buff) (k / fs'.ssize) (k % fs'.ssize) =
        b := by
  have hg := h.good.wellFormed
  have hj : k / fs'.ssize < cc := (Nat.div_lt_iff_lt_mul hg.ssize_pos).mpr (by rwa [Nat.mul_comm])
  have hin : fp'.fptr / fs'.ssize % fs'.csize + k / fs'.ssize < fs'.csize :=
    Nat.lt_of_lt_of_le (Nat.add_lt_add_left hj _) hend
  have hplace : fs'.place (q i) (fp'.fptr / fs'.ssize + k / fs'.ssize) = sect + k / fs'.ssize := by
    rw [hsect]
    exact place_add hg hin
  have hsplit : fp'.fptr + k =
      (fp'.fptr / fs'.ssize + k / fs'.ssize) * fs'.ssize + k % fs'.ssize := by
    have hdiv := Nat.div_add_mod' fp'.fptr fs'.ssize
    have hdiv' := Nat.div_add_mod' k fs'.ssize
    rw [Nat.add_mul]
    omega
  rw [hsplit] at hdata
  obtain ⟨hbuf, hdisk⟩ := hheld.stored _ _ b (hloc.add_lt hin) (Nat.mod_lt k hg.ssize_pos) hdata
  rw [hplace] at hbuf hdisk
  by_cases hsame : fp'.dsect = sect + k / fs'.ssize ∧ fp'.faDirty = true
  · have hle : sect ≤ fp'.dsect := hsame.1 ▸ Nat.le_add_right _ _
    have hlt : fp'.dsect < sect + cc := hsame.1 ▸ Nat.add_lt_add_left hj _
    rw [if_pos ⟨hsame.2, hle, hlt⟩, hsame.1, Nat.add_sub_cancel_left, Function.update_self]
    exact hbuf hsame.1
  · have hbyte : buff (k / fs'.ssize) (k % fs'.ssize) = b := by
      rw [hbuff]
      exact hdisk hsame
    split_ifs with hin
    · rw [Function.update_of_ne]
      · exact hbyte
      · intro heq
        exact hsame ⟨by rw [heq, Nat.add_sub_cancel' hin.2.1], hin.1⟩
    · exact hbyte

/-- Sectors in a row. -/
theorem readSectors_next (h : ReadInv ok pool fs q i fp data n fs' fp' btr rbuff)
    (hle : fp.fptr + n ≤ fp.fsize) (hloc : fp'.Located fs'.toGeometry (q i))
    (hmod : fp'.fptr % fs'.ssize = 0) (hbtr : btr / fs'.ssize ≠ 0) {sect cc : ℕ}
    (hsect : sect = fs'.place (q i) (fp'.fptr / fs'.ssize))
    (hcc : cc = fs'.clip (fp'.fptr / fs'.ssize % fs'.csize) btr) :
    ReadNext ok pool fs q i fp data n btr (readSectors fs' fp' btr rbuff sect cc) := by
  have hg := h.carried.good.wellFormed
  obtain ⟨hpos, hcount, hend, hbcs⟩ := clip_spec hg hbtr hmod
  rw [← hcc] at hpos hcount hend hbcs
  have hrest := h.rest
  have hlength := h.length
  have hsize := h.bounded.fsize_lt
  have hfsize := fsize_of_fixed h.fixed
  have hbytes : 0 < fs'.ssize * cc := Nat.mul_pos hg.ssize_pos hpos
  have hlt : fp'.fptr + fs'.ssize * cc < 2 ^ 32 := by omega
  obtain ⟨hcarried, hquiet, hread⟩ := h.carried.read sect
  unfold readSectors
  rcases hr : fs'.disk.read sect with ⟨done, buff, disk⟩
  rw [hr] at hcarried hquiet hread
  cases done with
  | false =>
    have hok : ¬ ok := fun hok => absurd (hread hok).1 (by simp)
    exact .abort hok hcarried h.fixed h.rooted
  | true =>
    obtain ⟨hbounded, hpointed⟩ := hloc.advance h.bounded hg hbytes hbcs hlt
    refine ⟨⟨hcarried, h.fixed, ⟨h.rooted.sclust, h.rooted.dirty⟩, hbounded, ?_, ?_,
      fun hmid => ?_, fun hok => ⟨?_, ?_⟩⟩, hpointed, ?_⟩
    · show fp'.fptr + fs'.ssize * cc + (btr - fs'.ssize * cc) = _
      omega
    · rw [List.length_append, bytesOf, List.length_map, List.length_range, ← Nat.add_assoc,
        ← hlength]
    · refine absurd ?_ hmid
      show (fp'.fptr + fs'.ssize * cc) % fs'.ssize = 0
      rw [Nat.add_mul_mod_self_left, hmod]
    · exact ((h.held hok).1.quiet h.carried hquiet).advance _
    · refine reads_append (h.held hok).2 fun k b hk hdata => ?_
      rw [← hlength] at hdata
      rw [bytesOf, List.length_map, List.length_range] at hk
      rw [bytesOf, List.getElem?_map, List.getElem?_range hk, Option.map_some]
      exact congrArg some (readSectors_byte h.carried (h.held hok).1 hloc hmod hend hsect
        (hread hok).2 hk hdata)
    · show btr - fs'.ssize * cc < btr
      omega

/-- The current cluster does not matter until the position moves on. -/
theorem ReadInv.clust (h : ReadInv ok pool fs q i fp data n fs' fp' btr rbuff) (c : ℕ) :
    ReadInv ok pool fs q i fp data n fs' { fp' with clust := c } btr rbuff :=
  ⟨h.carried, h.fixed, ⟨h.rooted.sclust, h.rooted.dirty⟩, ⟨h.bounded.fptr_le, h.bounded.fsize_le,
    h.bounded.fptr_lt, h.bounded.fsize_lt⟩, h.rest, h.length, h.aligned,
    fun hok => ⟨⟨(h.held hok).1.own, (h.held hok).1.beyond, (h.held hok).1.stored⟩,
      (h.held hok).2⟩⟩

/-- The volume is another one. -/
theorem ReadInv.quiet (h : ReadInv ok pool fs q i fp data n fs' fp' btr rbuff) {fs'' : FATFS}
    (hcarried : Carried ok pool fs q i fs'' (q i)) (hquiet : Quiet pool fs' fs'') :
    ReadInv ok pool fs q i fp data n fs'' fp' btr rbuff := by
  have hgeometry := hquiet.geometry
  refine ⟨hcarried, h.fixed, ?_, ?_, h.rest, h.length, ?_, fun hok => ⟨?_, (h.held hok).2⟩⟩
  · rw [hgeometry]
    exact h.rooted
  · rw [hgeometry]
    exact h.bounded
  · rw [hgeometry]
    exact h.aligned
  · exact (h.held hok).1.quiet h.carried hquiet

/-- What follows the chain. -/
structure ReadAt (ok : Prop) (pool : ℕ → Prop) (fs : FATFS) (q : ι → List ℕ) (i : ι) (fp : FIL)
    (data : ℕ → Option UInt8) (n btr : ℕ) (rbuff : List UInt8) (p : ℕ) (g : Geometry)
    (r : Stage × FATFS × FIL) : Prop where
  res : r.1 = .go ∨ r.1 ≠ .go ∧
    ReadEnded ok pool fs q i fp data n (r.1, r.2.1, r.2.2, rbuff)
  inv : r.1 = .go → ReadInv ok pool fs q i fp data n r.2.1 r.2.2 btr rbuff
  located : r.1 = .go → r.2.2.Located r.2.1.toGeometry (q i)
  fptr : r.1 = .go → r.2.2.fptr = p
  geometry : r.1 = .go → r.2.1.toGeometry = g

/-- The next cluster of the chain. -/
theorem readCluster_spec (h : ReadInv ok pool fs q i fp data n fs' fp' btr rbuff)
    (hpointed : fp'.Pointed fs'.toGeometry (q i)) (hmod : fp'.fptr % fs'.bcs = 0)
    (hlt : fp'.fptr < (q i).length * fs'.bcs) :
    ReadAt ok pool fs q i fp data n btr rbuff fp'.fptr fs'.toGeometry (readCluster fs' fp') := by
  have hg := h.carried.good.wellFormed
  have hindex : fp'.fptr / fs'.bcs < (q i).length := (Nat.div_lt_iff_lt_mul (bcs_pos hg)).mpr hlt
  obtain ⟨d, hget⟩ : ∃ d, (q i)[fp'.fptr / fs'.bcs]? = some d :=
    ⟨_, List.getElem?_eq_getElem hindex⟩
  have hrange := h.carried.inRange (List.mem_of_getElem? hget)
  have htwo := hrange.1
  have hltn := hrange.2
  have hdword := nFatent_lt hg
  have hfollow : ¬ d < 2 ∧ ¬ d = diskError := by omega
  unfold readCluster
  by_cases hzero : fp'.fptr = 0
  · have hsclust : fp'.sclust = d := by
      rw [h.rooted.sclust, List.head?_eq_getElem?]
      rw [hzero, Nat.zero_div] at hget
      rw [hget]
      rfl
    rw [if_pos hzero]
    show ReadAt ok pool fs q i fp data n btr rbuff _ _ (readFollow fs' fp' fp'.sclust)
    rw [hsclust, readFollow, if_neg hfollow.1, if_neg hfollow.2]
    exact ⟨.inl rfl, fun _ => h.clust d, fun _ => hget, fun _ => rfl, fun _ => rfl⟩
  · have hprev := hpointed (Nat.pos_of_ne_zero hzero)
    have hnext := pred_div_of_dvd (bcs_pos hg) hmod (Nat.pos_of_ne_zero hzero)
    rw [← hnext] at hget
    obtain ⟨front, back, hsplit⟩ := split_pair hprev hget
    have hclust := h.carried.inRange (List.mem_of_getElem? hprev)
    obtain ⟨hgood, hquiet, hnfree, hres⟩ := h.carried.good.getFat hclust
    have hcarried := h.carried.quiet hgood hquiet hnfree
    have hentry : fs'.entry fp'.clust = d := by
      have hq : Function.update q i (q i) i = front ++ fp'.clust :: d :: back := by
        rw [Function.update_self]
        exact hsplit
      exact h.carried.good.entry_next hq
    rw [if_neg hzero]
    rcases hr : getFat fs' fp'.clust with ⟨clst, fs''⟩
    rw [hr] at hgood hquiet hnfree hres hcarried
    have hinv := h.quiet hcarried hquiet
    rcases hres with hclst | ⟨hclst, hok⟩
    · have hclst' : clst = d := hclst.trans hentry
      simp only [hclst', readFollow, hfollow, if_false]
      refine ⟨.inl rfl, fun _ => hinv.clust d, fun _ => ?_, fun _ => rfl, fun _ => hquiet.geometry⟩
      show (q i)[fp'.fptr / fs''.bcs]? = some d
      rw [show fs''.bcs = fs'.bcs from congrArg Geometry.bcs hquiet.geometry, ← hnext]
      exact hget
    · have hclst' : clst = diskError := hclst
      simp only [hclst', readFollow]
      rw [if_neg (by decide), if_pos trivial]
      have hgo : Stage.abort .diskErr ≠ .go := by simp
      exact ⟨.inr ⟨hgo, .abort hok hcarried h.fixed hinv.rooted⟩, fun h => absurd h hgo,
        fun h => absurd h hgo, fun h => absurd h hgo, fun h => absurd h hgo⟩

/-- A sector is loaded, and read in part. -/
theorem readLoad_next (h : ReadInv ok pool fs q i fp data n fs' fp' btr rbuff)
    (hle : fp.fptr + n ≤ fp.fsize) (hloc : fp'.Located fs'.toGeometry (q i))
    (hmod : fp'.fptr % fs'.ssize = 0) (hbtr : 0 < btr) {sect : ℕ}
    (hsect : sect = fs'.place (q i) (fp'.fptr / fs'.ssize)) :
    ReadNext ok pool fs q i fp data n btr (match readLoad fs' fp' sect with
      | (done, fs', fp') =>
        if ¬ done then .done (.abort .diskErr, fs', fp', rbuff)
        else readPart fs' { fp' with dsect := sect } btr rbuff) := by
  have hg := h.carried.good.wellFormed
  obtain ⟨hcarried, hgeometry, ⟨buf, dirty, hfp, himp⟩, hload⟩ :=
    readLoad_spec h.carried h.rooted (fun hok => (h.held hok).1) (hloc.lt hg) hsect
  rcases hr : readLoad fs' fp' sect with ⟨done, fs₁, fp₁⟩
  rw [hr] at hcarried hgeometry hfp hload
  have hgeometry' : fs₁.toGeometry = fs'.toGeometry := hgeometry
  have hfp' : fp₁ = { fp' with buf := buf, faDirty := dirty } := hfp
  subst hfp'
  cases done with
  | false =>
    have hok : ¬ ok := fun hok => absurd (hload hok).1 (by simp)
    refine .abort hok hcarried h.fixed ⟨h.rooted.sclust, fun hdirty => ?_⟩
    rw [hgeometry']
    exact h.rooted.dirty (himp hdirty)
  | true =>
    have hinv : ReadInv ok pool fs q i fp data n fs₁
        { fp' with buf := buf, faDirty := dirty, dsect := sect } btr rbuff := by
      refine ⟨hcarried, h.fixed, ⟨h.rooted.sclust, fun _ => ?_⟩, ?_, h.rest, h.length,
        fun hmid => ?_, fun hok => ⟨(hload hok).2, (h.held hok).2⟩⟩
      · obtain ⟨c, hc, hp, -, hin⟩ := h.carried.place (hloc.lt hg)
        rw [hgeometry']
        exact ⟨c, hc, hp, hsect ▸ hin⟩
      · rw [hgeometry']
        exact ⟨h.bounded.fptr_le, h.bounded.fsize_le, h.bounded.fptr_lt, h.bounded.fsize_lt⟩
      · rw [hgeometry'] at hmid
        exact absurd hmod hmid
    refine readPart_next hinv hbtr hle ?_ ?_
    · rw [hgeometry']
      exact hloc
    · rw [hgeometry']
      exact hsect

/-- At the beginning of a sector. -/
theorem readSector_next (h : ReadInv ok pool fs q i fp data n fs' fp' btr rbuff)
    (hle : fp.fptr + n ≤ fp.fsize) (hloc : fp'.Located fs'.toGeometry (q i))
    (hmod : fp'.fptr % fs'.ssize = 0) (hbtr : 0 < btr) :
    ReadNext ok pool fs q i fp data n btr
      (readSector fs' fp' btr rbuff (fs'.csect fp'.fptr)) := by
  have hgood := h.carried.good
  obtain ⟨hne, hsect⟩ := hloc.sector hgood.wellFormed hgood.sized fun _ => h.carried.inRange
  unfold readSector
  rw [if_neg hne]
  by_cases hdirect : btr / fs'.ssize ≠ 0
  · rw [if_pos hdirect]
    refine readSectors_next h hle hloc hmod hdirect hsect ?_
    rw [csect_eq hgood.sized]
  · rw [if_neg hdirect]
    exact readLoad_next h hle hloc hmod hbtr hsect

theorem readRound_next (h : ReadInv ok pool fs q i fp data n fs' fp' btr rbuff)
    (hpointed : fp'.Pointed fs'.toGeometry (q i)) (hle : fp.fptr + n ≤ fp.fsize) :
    Ensures (readRound (fs', fp', btr, rbuff)) (ReadNext ok pool fs q i fp data n btr) := by
  have hgood := h.carried.good
  have hg := hgood.wellFormed
  unfold readRound
  refine .ite (fun hzero => ?_) fun hbtr => ?_
  · subst hzero
    exact .pure (.go h hpointed)
  · have hbtr' := Nat.pos_of_ne_zero hbtr
    refine .ite (fun hmod => ?_) fun hmid => ?_
    · have hlt : fp'.fptr < (q i).length * fs'.bcs := by
        have hfsize := h.bounded.fsize_le
        have hsame := fsize_of_fixed h.fixed
        have hrest := h.rest
        omega
      have hbcs := mod_bcs fs'.toGeometry fp'.fptr
      by_cases hfirst : fs'.csect fp'.fptr = 0
      · have hcluster : fp'.fptr % fs'.bcs = 0 := by
          rw [csect_eq hgood.sized] at hfirst
          rw [hbcs, hmod, hfirst, Nat.mul_zero]
        obtain ⟨hres, hinv, hloc, hfptr, hgeometry⟩ := readCluster_spec h hpointed hcluster hlt
        simp only [hfirst, if_true]
        rcases hr : readCluster fs' fp' with ⟨stage, fs₁, fp₁⟩
        rw [hr] at hres hinv hloc hfptr hgeometry
        cases stage with
        | go =>
          have hfptr' : fp₁.fptr = fp'.fptr := hfptr rfl
          have hgeometry' : fs₁.toGeometry = fs'.toGeometry := hgeometry rfl
          have hnext := readSector_next (hinv rfl) hle (hloc rfl)
            (by rw [hfptr', hgeometry']; exact hmod) hbtr'
          rw [hfptr', hgeometry', hfirst] at hnext
          exact .pure hnext
        | full => exact .pure (hres.resolve_left (by simp)).2
        | abort res => exact .pure (hres.resolve_left (by simp)).2
      · simp only [hfirst, if_false]
        refine .pure (readSector_next h hle (hpointed.located ?_) hmod hbtr')
        rw [csect_eq hgood.sized] at hfirst
        have hpos := Nat.mul_pos hg.ssize_pos (Nat.pos_of_ne_zero hfirst)
        omega
    · refine .pure (readPart_next h hbtr' hle (hpointed.located ?_) (h.aligned hmid))
      rw [mod_bcs]
      omega

/-- The loop of `f_read`. -/
theorem readLoop (h : ReadInv ok pool fs q i fp data n fs' fp' btr rbuff)
    (hpointed : fp'.Pointed fs'.toGeometry (q i)) (hle : fp.fptr + n ≤ fp.fsize) {fuel : ℕ}
    (hfuel : btr < fuel) :
    Ensures (loop readRound fuel (fs', fp', btr, rbuff)) (ReadEnded ok pool fs q i fp data n) := by
  refine Ensures.loop (I := fun st => ReadInv ok pool fs q i fp data n st.1 st.2.1 st.2.2.1
    st.2.2.2 ∧ st.2.1.Pointed st.1.toGeometry (q i)) (m := fun st => st.2.2.1)
    (fun st hst => ?_) ⟨h, hpointed⟩ hfuel
  refine (readRound_next hst.1 hst.2 hle).mono fun r hr => ?_
  cases r with
  | again st' => exact ⟨⟨hr.1, hr.2.1⟩, hr.2.2⟩
  | done r => exact hr

/-- A transfer that has been done. -/
theorem ReadInv.outcome {f : Content} {m : ℕ} (hfp : fp.Is ok pool fs (q i) f)
    (hread : fp.faRead = true) (herr : fp.err = .ok) (hle : fp.fptr ≤ fp.fsize)
    (h : ReadInv ok pool fs q i fp f.data (min m (fp.fsize - fp.fptr)) fs' fp' 0 rbuff)
    (hpointed : fp'.Pointed fs'.toGeometry (q i)) :
    Outcome ok pool fs q i f (.read m) (.read .ok rbuff) fs' fp' := by
  have hrest := h.rest
  have hlength := h.length
  have herr' := (err_of_fixed h.fixed).trans herr
  have hfsize := fsize_of_fixed h.fixed
  refine ⟨q i, { f with pos := f.pos + rbuff.length }, h.carried, ⟨h.rooted,
    fun _ => ⟨h.bounded, hpointed, h.aligned, by omega⟩,
    (faRead_of_fixed h.fixed).trans hfp.readable, (faWrite_of_fixed h.fixed).trans hfp.writable,
    (entry_of_fixed h.fixed).trans hfp.entry, fun hok => ?_⟩, fun hok => ?_⟩
  · have hheld := hfp.held hok
    refine ⟨herr', ?_, hfsize.trans hheld.fsize, hheld.clusters, (h.held hok).1⟩
    rw [hlength, hheld.fptr]
  · have hheld := hfp.held hok
    rw [h.carried.nfree_eq hok]
    refine .read m rbuff (hfp.readable ▸ hread) ?_ ?_
    · rw [← hheld.fsize, ← hheld.fptr]
      omega
    · rw [← hheld.fptr]
      exact (h.held hok).2

/-- **Reading a file.** On any device, the volume stays as it is; one that does not fail returns the
bytes of the file. -/
theorem fRead_outcome {f : Content} (h : Good ok pool fs q) (hfp : fp.Is ok pool fs (q i) f)
    (n : ℕ) {fuel : ℕ} (hfuel : n < fuel) :
    Ensures (fRead fuel fs fp n) fun r =>
      Outcome ok pool fs q i f (.read n) (.read r.1 r.2.1) r.2.2.1 r.2.2.2 := by
  have hmounted := h.wellFormed.mounted
  have hvalid : validate fs = .ok := if_neg hmounted
  unfold fRead
  rw [hvalid, if_neg (by simp)]
  refine .ite (fun herr => ?_) fun herr => .ite (fun hdenied => ?_) fun hread => ?_
  · refine .pure ⟨q i, f, .start h, hfp, fun hok => absurd (hfp.held hok).err herr⟩
  · refine .pure ⟨q i, f, .start h, hfp, fun hok => ?_⟩
    refine .readDenied ?_
    rw [← hfp.readable]
    simpa using hdenied
  · obtain ⟨hbounded, hpointed, haligned, hle⟩ := hfp.bounded (not_not.mp herr)
    have hmin : (if fp.fsize - fp.fptr < n then fp.fsize - fp.fptr else n) =
        min n (fp.fsize - fp.fptr) := by
      split_ifs <;> omega
    simp only [hmin]
    have hinv : ReadInv ok pool fs q i fp f.data (min n (fp.fsize - fp.fptr)) fs fp
        (min n (fp.fsize - fp.fptr)) [] := by
      refine ⟨.start h, rfl, hfp.rooted, hbounded, rfl, rfl, haligned, fun hok => ?_⟩
      refine ⟨(hfp.held hok).holds, fun k b hk _ => ?_⟩
      cases hk
    refine .map ((readLoop hinv hpointed (by omega) (by omega)).mono fun r hr => ?_)
    cases hr with
    | go hinv hpointed =>
      exact hinv.outcome hfp (by simpa using hread) (not_not.mp herr) hle hpointed
    | abort hok hcarried hfixed hrooted =>
      exact outcome_of_error hfp hok (by simp) hcarried (entry_of_fixed hfixed)
        (faRead_of_fixed hfixed) (faWrite_of_fixed hfixed) hrooted

end Read

end OlivePiccolo.FatFs
