import OlivePiccolo.FatFs.Seek

/-!
# Cutting a file

`f_truncate` gives the clusters behind the position back (`fTruncate_outcome`). The sector buffer
may be of one of them; it is written back while they are of no other file.
-/

namespace OlivePiccolo.FatFs

section Truncate

variable {ι : Type*} [DecidableEq ι] {ok : Prop} {pool : ℕ → Prop} {q : ι → List ℕ} {i : ι}
  {fs fs' : FATFS} {fp fp' : FIL} {l : List ℕ}

/-- What happens to the chain. -/
inductive Truncated (ok : Prop) (pool : ℕ → Prop) (fs : FATFS) (q : ι → List ℕ) (i : ι) :
    FIL → FResult × FATFS × FIL → Prop
  | ok (fp : FIL) {fs' : FATFS} (l back : List ℕ) : q i = l ++ back →
      l.length = clustersFor fs.bcs fp.fptr → Carried ok pool fs q i fs' l → Quiet pool fs fs' →
        Truncated ok pool fs q i fp (.ok, fs', { fp with sclust := (l.head?).getD 0 })
  | failed (fp : FIL) {fs' : FATFS} (l : List ℕ) : ¬ ok → Carried ok pool fs q i fs' l →
      fs'.toGeometry = fs.toGeometry →
        Truncated ok pool fs q i fp (.diskErr, fs', { fp with sclust := (l.head?).getD 0 })

/-- All of the file is cut. -/
theorem truncateChain_all (h : Good ok pool fs q) (hsclust : fp.sclust = ((q i).head?).getD 0)
    (hne : q i ≠ []) (hzero : fp.fptr = 0) {fuel : ℕ} (hfuel : fs.nFatent < fuel) :
    Ensures (truncateChain fuel fs fp) (Truncated ok pool fs q i fp) := by
  obtain ⟨hgood, hdropped⟩ := h.forget i
  obtain ⟨c, l, hq⟩ := List.exists_cons_of_ne_nil hne
  have hb := bcs_pos h.wellFormed
  rw [hq] at hsclust hdropped
  change fp.sclust = c at hsclust
  unfold truncateChain
  rw [if_pos hzero, hsclust]
  refine .map ((hgood.removeChain hdropped hfuel).mono fun r hr => ?_)
  obtain ⟨res, fs'⟩ := r
  obtain ⟨hgood', hquiet, hres⟩ := hr
  rcases hres with ⟨hok, hnfree⟩ | ⟨herr, hok⟩
  · have hok' : res = .ok := hok
    subst hok'
    refine .ok fp [] (q i) rfl ?_ ((Carried.start h).quiet_of hgood' hquiet fun _ => ?_) hquiet
    · rw [hzero, clustersFor_mod hb (Nat.zero_mod _), Nat.zero_div]
      rfl
    · rw [hq, List.length_nil, List.length_cons]
      exact hnfree
  · have herr' : res = .diskErr := herr
    subst herr'
    exact .failed fp [] hok ((Carried.start h).quiet_of hgood' hquiet fun hok' => absurd hok' hok)
      hquiet.geometry

/-- The clusters behind the current one are cut. -/
theorem truncateChain_part (h : Good ok pool fs q) (hsclust : fp.sclust = ((q i).head?).getD 0)
    (hpos : 0 < fp.fptr) (hpointed : fp.Pointed fs.toGeometry (q i)) {fuel : ℕ}
    (hfuel : fs.nFatent < fuel) :
    Ensures (truncateChain fuel fs fp) (Truncated ok pool fs q i fp) := by
  have hclust := hpointed hpos
  have hb := bcs_pos h.wellFormed
  have hmem := List.mem_of_getElem? hclust
  have hthree := h.wellFormed.nFatent
  have hclusters : clustersFor fs.bcs fp.fptr = (fp.fptr - 1) / fs.bcs + 1 := by
    rw [clustersFor, ← Nat.add_div_right _ hb]
    exact congrArg (· / fs.bcs) (by omega)
  obtain ⟨front, back, hq, hlength⟩ : ∃ front back, q i = front ++ fp.clust :: back ∧
      front.length = (fp.fptr - 1) / fs.bcs := by
    obtain ⟨hk, hget⟩ := List.getElem?_eq_some_iff.mp hclust
    refine ⟨(q i).take ((fp.fptr - 1) / fs.bcs), (q i).drop ((fp.fptr - 1) / fs.bcs + 1), ?_,
      List.length_take_of_le (Nat.le_of_lt hk)⟩
    rw [← hget, ← List.drop_eq_getElem_cons, List.take_append_drop]
  have hfirst : fp.sclust = ((front ++ [fp.clust]).head?).getD 0 := by
    rw [hsclust, hq]
    cases front <;> rfl
  have hwhole : { fp with sclust := ((q i).head?).getD 0 } = fp := by rw [← hsclust]
  have hcut : { fp with sclust := ((front ++ [fp.clust]).head?).getD 0 } = fp := by rw [← hfirst]
  have hlength' : (front ++ [fp.clust]).length = clustersFor fs.bcs fp.fptr := by
    rw [hclusters, List.length_append, hlength, List.length_singleton]
  obtain ⟨hgood, hquiet, hnfree, hres⟩ := h.getFat (h.inRange hmem)
  unfold truncateChain
  rw [if_neg (Nat.pos_iff_ne_zero.mp hpos)]
  rcases hr : getFat fs fp.clust with ⟨ncl, fs₁⟩
  rw [hr] at hgood hquiet hnfree hres
  have hgeometry : fs₁.toGeometry = fs.toGeometry := hquiet.geometry
  have hcarried : Carried ok pool fs q i fs₁ (q i) :=
    (Carried.start h).quiet_of (by rwa [Function.update_eq_self]) hquiet fun _ => by rw [hnfree]
  rcases hres with hncl | ⟨hncl, hok⟩
  · have hncl' : ncl = fs.entry fp.clust := hncl
    have hlt : ncl < diskError := hncl' ▸ FsType.entry_lt _ _ _
    refine .ite (fun herr => absurd herr (Nat.ne_of_lt hlt)) fun _ => ?_
    cases back with
    | nil =>
      have hlast := h.entry_last hq
      have hlast' : fs₁.nFatent ≤ ncl := by rwa [hgeometry, hncl']
      refine .ite (fun hone => ?_) fun _ => .ite (fun hmore => ?_) fun _ => .pure ?_
      · rw [hgeometry] at hlast'
        omega
      · omega
      · have hall := Truncated.ok fp (q i) [] (List.append_nil _).symm (by rw [hq, hlength'])
          hcarried hquiet
        rwa [hwhole] at hall
    | cons d back =>
      have hd := h.inRange (i := i) (c := d) (by simp [hq])
      rw [h.entry_next hq] at hncl'
      subst hncl'
      have htwo := hd.1
      have hmore : ncl < fs₁.nFatent := by
        rw [hgeometry]
        exact hd.2
      refine .ite (fun hone => by omega) fun _ => .ite (fun _ => ?_) fun hnot => absurd hmore hnot
      have hall := hgood.cut hq
      rcases hput : putFat fs₁ fp.clust lastLink with ⟨res, fs₂⟩
      rw [hput] at hall
      rcases hall with ⟨hok, hgood', hdropped, hquiet', hnfree'⟩ | ⟨herr, hok, hgood', hquiet'⟩
      · have hok' : res = .ok := hok
        subst hok'
        have hfuel' : fs₂.nFatent < fuel := by
          rw [show fs₂.toGeometry = fs₁.toGeometry from hquiet'.geometry, hgeometry]
          exact hfuel
        refine .ite (fun _ => ?_) fun hnot => absurd rfl hnot
        refine .map ((hgood'.removeChain hdropped hfuel').mono fun r hr => ?_)
        obtain ⟨res, fs₃⟩ := r
        obtain ⟨hgood'', hquiet'', hres⟩ := hr
        have hquiet₃ := (hquiet.trans hquiet').trans hquiet''
        rcases hres with ⟨hok, hnfree''⟩ | ⟨herr, hok⟩
        · have hok' : res = .ok := hok
          subst hok'
          have hall := Truncated.ok fp (front ++ [fp.clust]) (ncl :: back)
            (by rw [hq, List.append_assoc]; rfl) hlength'
            ((Carried.start h).quiet_of hgood'' hquiet₃ fun _ => ?_) hquiet₃
          · rwa [hcut] at hall
          · change fs₃.nfree = fs₂.nfree + (back.length + 1) at hnfree''
            change fs₂.nfree = fs₁.nfree at hnfree'
            change fs₁.nfree = fs.nfree at hnfree
            rw [hq]
            simp only [List.length_append, List.length_cons, List.length_nil]
            omega
        · have herr' : res = .diskErr := herr
          subst herr'
          have hall := Truncated.failed fp (front ++ [fp.clust]) hok
            ((Carried.start h).quiet_of hgood'' hquiet₃ fun hok' => absurd hok' hok)
            hquiet₃.geometry
          rwa [hcut] at hall
      · have herr' : res = .diskErr := herr
        subst herr'
        refine .ite (fun hnot => by cases hnot) fun _ => .pure ?_
        have hcarried' : Carried ok pool fs q i fs₂ (q i) :=
          (Carried.start h).quiet_of (by rwa [Function.update_eq_self]) (hquiet.trans hquiet')
            fun hok' => absurd hok' hok
        have hall := Truncated.failed fp (q i) hok hcarried' (hquiet.trans hquiet').geometry
        rwa [hwhole] at hall
  · have hncl' : ncl = diskError := hncl
    subst hncl'
    refine .ite (fun _ => .pure ?_) fun hnot => absurd rfl hnot
    have hall := Truncated.failed fp (q i) hok hcarried hgeometry
    rwa [hwhole] at hall

/-- The clusters behind the position are cut. -/
theorem truncateChain_spec (fp : FIL) (h : Good ok pool fs q)
    (hsclust : fp.sclust = ((q i).head?).getD 0)
    (hlt : fp.fptr < (q i).length * fs.bcs) (hpointed : fp.Pointed fs.toGeometry (q i)) {fuel : ℕ}
    (hfuel : fs.nFatent < fuel) :
    Ensures (truncateChain fuel fs fp) (Truncated ok pool fs q i fp) := by
  by_cases hzero : fp.fptr = 0
  · refine truncateChain_all h hsclust (fun hnil => ?_) hzero hfuel
    rw [hnil, List.length_nil, Nat.zero_mul] at hlt
    omega
  · exact truncateChain_part h hsclust (Nat.pos_of_ne_zero hzero) hpointed hfuel

/-- The file after its chain has been cut. -/
theorem Truncated.outcome {f : Content} (h : Good ok pool fs q) (hfp : fp.Is ok pool fs (q i) f)
    (hwrite : fp.faWrite = true) (herr : fp.err = .ok) (hlt : fp.fptr < fp.fsize)
    {back : List ℕ} (hq : q i = l ++ back) (hlength : l.length = clustersFor fs.bcs fp.fptr)
    (hcarried : Carried ok pool fs q i fs' l) (hquiet : Quiet pool fs fs') {done : Bool}
    {fs'' : FATFS} {fp'' : FIL}
    (hr : writeBack fs' { fp with
      fsize := fp.fptr, faWritten := true, sclust := (l.head?).getD 0 } = (done, fs'', fp'')) :
    done = true ∧ Outcome ok pool fs q i f .truncate (.done .ok) fs'' fp'' ∨
      done = false ∧ Outcome ok pool fs q i f .truncate (.done .diskErr) fs''
        { fp'' with err := .diskErr } := by
  obtain ⟨hbounded, hpointed, haligned, hle⟩ := hfp.bounded herr
  have hgeometry := hquiet.geometry
  have hg := h.wellFormed
  have hb := bcs_pos hg
  obtain ⟨hcarried', hres, hgeometry', hstored⟩ := writeBack_stored { fp with
    fsize := fp.fptr, faWritten := true, sclust := (l.head?).getD 0 } hcarried
    (fun hdirty => by
      rw [hgeometry]
      exact hfp.rooted.dirty hdirty)
    (fun hok hdirty j hij d hd => by
      obtain ⟨k, hk, heq⟩ := (hfp.held hok).holds.own hdirty
      obtain ⟨c, -, -, hc, hin⟩ := (Carried.start h).place hk
      rw [hgeometry]
      exact (Carried.start h).foreign hc (heq ▸ hin) hij hd)
  rw [hr] at hcarried' hres hgeometry' hstored
  have hgeometry'' : fs''.toGeometry = fs.toGeometry :=
    Eq.trans (show fs''.toGeometry = fs'.toGeometry from hgeometry') hgeometry
  rcases hres with ⟨hdone, hfp''⟩ | ⟨hdone, hfp'', hok⟩
  · have hfp' : fp'' = { fp with
      fsize := fp.fptr, faWritten := true, sclust := (l.head?).getD 0, faDirty := false } := hfp''
    subst hfp'
    have hpos : fp.Pointed fs.toGeometry l := by
      intro hpos
      have hget := hpointed hpos
      have hindex : (fp.fptr - 1) / fs.bcs < l.length := by
        rw [hlength, clustersFor, show fp.fptr + fs.bcs - 1 = fp.fptr - 1 + fs.bcs by omega,
          Nat.add_div_right _ hb]
        exact Nat.lt_succ_self _
      rwa [hq, List.getElem?_append_left hindex] at hget
    have hreach : fp.fptr ≤ l.length * fs.bcs := by
      rw [hlength]
      exact le_clustersFor hb fp.fptr
    have hmid (hmid : fp.fptr % fs.ssize ≠ 0) : fp.dsect = fs.place l (fp.fptr / fs.ssize) := by
      have hsplit := mod_bcs fs.toGeometry fp.fptr
      have hin : fp.fptr / fs.ssize < l.length * fs.csize :=
        FIL.Located.lt (hpos.located (by omega)) hg
      rw [haligned hmid, hq, place_append hg hin]
    have hlength' (hok : ok) : l.length = (f.truncate fs.bcs).clusters := by
      have hheld := hfp.held hok
      rw [hlength, Content.truncate, if_pos (by rw [← hheld.fptr, ← hheld.fsize]; exact hlt),
        hheld.fptr]
    refine .inl ⟨hdone, l, f.truncate fs.bcs, hcarried', ⟨⟨rfl, fun hdirty => ?_⟩, fun _ => ?_,
      ?_, ?_, ?_, fun hok => ?_⟩, fun hok => ?_⟩
    · cases hdirty
    · rw [hgeometry'']
      exact ⟨⟨hreach, hreach, hbounded.fptr_lt, hbounded.fptr_lt⟩, hpos, hmid, Nat.le_refl _⟩
    · refine Eq.trans hfp.readable ?_
      unfold Content.truncate
      split_ifs <;> rfl
    · refine Eq.trans hfp.writable ?_
      unfold Content.truncate
      split_ifs <;> rfl
    · refine Eq.trans hfp.entry ?_
      unfold Content.truncate
      split_ifs <;> rfl
    · have hheld := hfp.held hok
      have hquiet' := hheld.holds.quiet (Carried.start h) hquiet
      have hcut : f.truncate fs.bcs = { f with
          size := f.pos
          clusters := clustersFor fs.bcs f.pos
          data := fun p => if p < f.pos then f.data p else none } := by
        rw [Content.truncate, if_pos (by rw [← hheld.fptr, ← hheld.fsize]; exact hlt)]
      refine ⟨herr, ?_, ?_, hlength' hok, ⟨fun hdirty => ?_, fun p hp _ => ?_,
        fun k o b hk ho hdata => ?_⟩⟩
      · rw [hcut]
        exact hheld.fptr
      · rw [hcut]
        exact hheld.fptr
      · cases hdirty
      · rw [hcut]
        change fp.fptr ≤ p at hp
        rw [hheld.fptr] at hp
        exact if_neg (by omega)
      · rw [hcut] at hdata
        change (if _ then _ else _) = some b at hdata
        split_ifs at hdata with hp
        have hg' : fs''.WellFormed := by rwa [hgeometry'']
        have hk' : k < (q i).length * fs'.csize := by
          rw [hgeometry'', ← hgeometry] at hk
          rw [hq, List.length_append]
          exact Nat.lt_of_lt_of_le hk (Nat.mul_le_mul_right _ (Nat.le_add_right _ _))
        rw [hgeometry'', ← hgeometry] at ho hdata
        have hbyte := hstored hok _ o b (hquiet'.stored k o b hk' ho hdata)
        rw [hq, ← hgeometry', place_append hg' hk] at hbyte
        exact hbyte
    · have hheld := hfp.held hok
      refine .truncate fs''.nfree (hfp.writable ▸ hwrite) ?_
      rw [← hlength' hok, hcarried'.nfree hok, hheld.clusters]
  · have hfp' : fp'' = _ := hfp''
    subst hfp'
    refine .inr ⟨hdone, outcome_of_error hfp hok (by simp) hcarried' rfl rfl rfl
      ⟨rfl, fun hdirty => ?_⟩⟩
    rw [hgeometry'']
    exact hfp.rooted.dirty hdirty

/-- **Cutting a file.** On any device, only the chain of the file is cut; one that does not fail has
its clusters free then. -/
theorem fTruncate_outcome {f : Content} (h : Good ok pool fs q) (hfp : fp.Is ok pool fs (q i) f)
    {fuel : ℕ} (hfuel : fs.nFatent < fuel) :
    Ensures (fTruncate fuel fs fp) fun r =>
      Outcome ok pool fs q i f .truncate (.done r.1) r.2.1 r.2.2 := by
  have hmounted := h.wellFormed.mounted
  have hvalid : validate fs = .ok := if_neg hmounted
  unfold fTruncate
  rw [hvalid, if_neg (by simp)]
  refine .ite (fun herr => ?_) fun herr => .ite (fun hdenied => ?_) fun hwrite => ?_
  · refine .pure ⟨q i, f, .start h, hfp, fun hok => absurd (hfp.held hok).err herr⟩
  · refine .pure ⟨q i, f, .start h, hfp, fun hok => ?_⟩
    refine .truncateDenied ?_
    rw [← hfp.writable]
    simpa using hdenied
  · obtain ⟨hbounded, hpointed, haligned, hle⟩ := hfp.bounded (not_not.mp herr)
    refine .ite (fun hlt => ?_) fun hge => ?_
    · have hfsize := hbounded.fsize_le
      have htruncated := truncateChain_spec { fp with fsize := fp.fptr, faWritten := true } h
        hfp.rooted.sclust (Nat.lt_of_lt_of_le hlt hfsize) hpointed hfuel
      refine .map (htruncated.mono fun r hr => ?_)
      cases hr with
      | @ok fs' l back hq hlength hcarried hquiet =>
        dsimp only
        rw [if_pos rfl]
        rcases hr : writeBack fs' { fp with
          fsize := fp.fptr, faWritten := true, sclust := (l.head?).getD 0 } with ⟨done, fs'', fp''⟩
        rcases Truncated.outcome h hfp (by simpa using hwrite) (not_not.mp herr) hlt hq hlength
          hcarried hquiet hr with ⟨rfl, hall⟩ | ⟨rfl, hall⟩
        · exact hall
        · exact hall
      | @failed fs' l hok hcarried hgeometry =>
        refine outcome_of_error hfp hok (by simp) hcarried rfl rfl rfl ⟨rfl, fun hdirty => ?_⟩
        have hdirty' := hfp.rooted.dirty hdirty
        rw [← hgeometry] at hdirty'
        exact hdirty'
    · refine .pure ⟨q i, f, .start h, hfp, fun hok => ?_⟩
      have hheld := hfp.held hok
      have hsame : f.truncate fs.bcs = f := by
        rw [Content.truncate, if_neg (by rw [← hheld.fptr, ← hheld.fsize]; exact hge)]
      have hwritable : f.writable = true := by
        rw [← hfp.writable]
        simpa using hwrite
      have hdoes : Does fs.bcs f fs.nfree .truncate (.done .ok) (f.truncate fs.bcs) fs.nfree :=
        .truncate fs.nfree hwritable (by rw [hsame])
      rw [hsame] at hdoes
      exact hdoes

end Truncate

end OlivePiccolo.FatFs
