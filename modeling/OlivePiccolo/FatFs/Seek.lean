import OlivePiccolo.FatFs.Write

/-!
# Moving the position

`f_lseek` goes from the current cluster or from the first one along the chain, and stretches it if
the file can be written (`fLseek_outcome`); it then loads the sector that the position is in.
-/

namespace OlivePiccolo.FatFs

section Seek

variable {ι : Type*} [DecidableEq ι] {ok : Prop} {pool : ℕ → Prop} {q : ι → List ℕ} {i : ι}
  {fs fs' : FATFS} {fp fp' : FIL} {data : ℕ → Option UInt8} {l : List ℕ}
  {target clst ofs k nsect : ℕ}

/-- The members of `FIL` that moving the position leaves right. -/
structure SeekInv (ok : Prop) (pool : ℕ → Prop) (fs : FATFS) (q : ι → List ℕ) (i : ι) (fp : FIL)
    (data : ℕ → Option UInt8) (fs' : FATFS) (fp' : FIL) (l : List ℕ) (m : ℕ) : Prop where
  carried : Carried ok pool fs q i fs' l
  fixed : fp'.fixed = fp.fixed
  rooted : fp'.Rooted fs'.toGeometry pool l
  fsize_le : fp'.fsize ≤ l.length * fs'.bcs
  clusters : l.length = max (q i).length m
  held : ok → fp'.Holds fs' l data

/-- The cluster of the position on the way, and how far the target is. -/
structure SeekAt (g : Geometry) (l : List ℕ) (target k : ℕ) (fp' : FIL) (clst ofs : ℕ) : Prop where
  index : l[k]? = some clst
  clust : fp'.clust = clst
  fptr : fp'.fptr = k * g.bcs
  pos : 0 < ofs
  target : fp'.fptr + ofs = target

/-- How the search for the cluster ends. -/
inductive SeekEnded (ok : Prop) (pool : ℕ → Prop) (fs : FATFS) (q : ι → List ℕ) (i : ι) (fp : FIL)
    (data : ℕ → Option UInt8) (target : ℕ) : Stage × Seeking → Prop
  | go {fs' : FATFS} {fp' : FIL} {l : List ℕ} {k clst ofs : ℕ} :
      SeekInv ok pool fs q i fp data fs' fp' l (k + 1) →
        SeekAt fs'.toGeometry l target k fp' clst ofs → ofs ≤ fs'.bcs →
          SeekEnded ok pool fs q i fp data target (.go, fs', fp', clst, ofs)
  | full {fs' : FATFS} {fp' : FIL} {l : List ℕ} {k ofs : ℕ} :
      SeekInv ok pool fs q i fp data fs' fp' l (k + 1) →
        SeekAt fs'.toGeometry l target k fp' fp'.clust ofs → fs'.bcs < ofs → k + 1 = l.length →
          fs'.nfree = 0 → SeekEnded ok pool fs q i fp data target (.go, fs', fp', 0, fs'.bcs)
  | abort {fs' : FATFS} {fp' : FIL} {l : List ℕ} {clst ofs : ℕ} : ¬ ok →
      Carried ok pool fs q i fs' l → fp'.fixed = fp.fixed → fp'.Rooted fs'.toGeometry pool l →
        SeekEnded ok pool fs q i fp data target (.abort .diskErr, fs', fp', clst, ofs)

/-- What a round does. -/
def SeekNext (ok : Prop) (pool : ℕ → Prop) (fs : FATFS) (q : ι → List ℕ) (i : ι) (fp : FIL)
    (data : ℕ → Option UInt8) (target ofs : ℕ) : Round Seeking (Stage × Seeking) → Prop
  | .again (fs', fp', clst, ofs') =>
    (∃ l k, SeekInv ok pool fs q i fp data fs' fp' l (k + 1) ∧
      SeekAt fs'.toGeometry l target k fp' clst ofs') ∧ ofs' < ofs
  | .done r => SeekEnded ok pool fs q i fp data target r

/-- The position is another one. -/
theorem FIL.Holds.seek (h : fp'.Holds fs' l data) (hle : fp'.fptr ≤ fp'.fsize) (n : ℕ) :
    FIL.Holds fs' l { fp' with fptr := n } data :=
  ⟨h.own, fun p hsize _ => h.beyond p hsize (Nat.le_trans hle hsize), h.stored⟩

namespace SeekInv

variable {fs'' : FATFS} {m : ℕ}

/-- The volume is another one. -/
theorem quiet (h : SeekInv ok pool fs q i fp data fs' fp' l m)
    (hcarried : Carried ok pool fs q i fs'' l) (hquiet : Quiet pool fs' fs'') :
    SeekInv ok pool fs q i fp data fs'' fp' l m := by
  have hgeometry := hquiet.geometry
  refine ⟨hcarried, h.fixed, ⟨h.rooted.sclust, fun hdirty => ?_⟩, ?_, h.clusters,
    fun hok => (h.held hok).quiet h.carried hquiet⟩
  · rw [hgeometry]
    exact h.rooted.dirty hdirty
  · rw [hgeometry]
    exact h.fsize_le

/-- The position moves on to a cluster of the chain. -/
theorem next (h : SeekInv ok pool fs q i fp data fs' fp' l (k + 1)) (hk : k + 1 < l.length)
    (c n : ℕ) :
    SeekInv ok pool fs q i fp data fs' { fp' with clust := c, fptr := fp'.fptr + n } l (k + 2) := by
  have hclusters := h.clusters
  refine ⟨h.carried, h.fixed, ⟨h.rooted.sclust, h.rooted.dirty⟩, h.fsize_le, by omega,
    fun hok => ?_⟩
  have hheld := (h.held hok).advance n
  exact ⟨hheld.own, hheld.beyond, hheld.stored⟩

/-- The chain gets a cluster. -/
theorem new (h : SeekInv ok pool fs q i fp data fs' fp' l m) (hm : m = l.length) {u : ℕ}
    (hcarried : Carried ok pool fs q i fs'' (l ++ [u])) (hquiet : Quiet pool fs' fs'')
    (hne : l ≠ []) (hle : fp'.fptr ≤ l.length * fs'.bcs) :
    SeekInv ok pool fs q i fp data fs'' fp' (l ++ [u]) (m + 1) := by
  have hgeometry := hquiet.geometry
  have hclusters := h.clusters
  have hlength : (l ++ [u]).length = l.length + 1 := by
    rw [List.length_append, List.length_singleton]
  refine ⟨hcarried, h.fixed, ⟨?_, fun hdirty => ?_⟩, ?_, by omega, fun hok => ?_⟩
  · rw [List.head?_append_of_ne_nil l hne]
    exact h.rooted.sclust
  · rw [hgeometry]
    exact h.rooted.dirty hdirty
  · rw [hgeometry, hlength]
    exact Nat.le_trans h.fsize_le (Nat.mul_le_mul_right _ (Nat.le_add_right _ _))
  · refine ((h.held hok).quiet h.carried hquiet).append ?_ ?_ ?_ u
    · rw [hgeometry]
      exact h.carried.good.wellFormed
    · rw [hgeometry]
      exact h.fsize_le
    · rw [hgeometry]
      exact hle

end SeekInv

/-- A cluster of the chain has been found. -/
theorem seekFound_next {fs'' : FATFS} {l' : List ℕ} {d : ℕ}
    (h : SeekInv ok pool fs q i fp data fs'' { fp' with clust := d, fptr := fp'.fptr + fs'.bcs } l'
      (k + 2))
    (hat : SeekAt fs'.toGeometry l target k fp' clst ofs)
    (hgeometry : fs''.toGeometry = fs'.toGeometry)
    (hd : l'[k + 1]? = some d) (hofs : fs'.bcs < ofs) (hb : 0 < fs'.bcs) :
    SeekNext ok pool fs q i fp data target ofs
      (if fp'.faWrite ∧ d = 0 then .done (.go, fs'', fp', d, fs'.bcs)
      else if d = diskError then .done (.abort .diskErr, fs'', fp', d, ofs)
      else if d ≤ 1 ∨ fs''.nFatent ≤ d then .done (.abort .intErr, fs'', fp', d, ofs)
      else .again (fs'', { fp' with clust := d, fptr := fp'.fptr + fs'.bcs }, d,
        ofs - fs'.bcs)) := by
  have hrange := h.carried.inRange (List.mem_of_getElem? hd)
  have htwo := hrange.1
  have hltn := hrange.2
  have hdword := nFatent_lt h.carried.good.wellFormed
  have htarget := hat.target
  rw [if_neg (by omega), if_neg (by omega), if_neg (by omega)]
  refine ⟨⟨l', k + 1, h, hd, rfl, ?_, ?_, ?_⟩, ?_⟩
  · show fp'.fptr + fs'.bcs = (k + 1) * fs''.bcs
    rw [hgeometry, Nat.succ_mul, hat.fptr]
  · omega
  · show fp'.fptr + fs'.bcs + (ofs - fs'.bcs) = target
    omega
  · omega

/-- A round of the loop that follows the clusters. -/
theorem seekRound_next (h : SeekInv ok pool fs q i fp data fs' fp' l (k + 1))
    (hat : SeekAt fs'.toGeometry l target k fp' clst ofs)
    (hlimit : fp'.faWrite = false → target ≤ (q i).length * fs'.bcs) {fuel : ℕ}
    (hfuel : fs.nFatent < fuel) :
    Ensures (seekRound fuel (fs', fp', clst, ofs))
      (SeekNext ok pool fs q i fp data target ofs) := by
  have hg := h.carried.good.wellFormed
  have hb := bcs_pos hg
  have hindex := hat.index
  have hk := (List.getElem?_eq_some_iff.mp hindex).1
  have hmem := List.mem_of_getElem? hindex
  have htwo := (h.carried.inRange hmem).1
  have hclusters := h.clusters
  -- the cluster is the last one
  have hlast {front : List ℕ} (hl : l = front ++ [clst]) : k + 1 = l.length := by
    have hat' : l[front.length]? = some clst := by
      rw [hl, List.getElem?_concat_length]
    have heq := (List.getElem?_inj hk h.carried.nodup).mp (hindex.trans hat'.symm)
    rw [heq, hl, List.length_append, List.length_singleton]
  unfold seekRound
  refine .ite (fun hofs => ?_) fun hofs => .pure (.go h hat (Nat.not_lt.mp hofs))
  change fs'.bcs < ofs at hofs
  by_cases hwrite : fp'.faWrite = true
  · rw [if_pos hwrite]
    refine .map ((h.carried.createChain (.inr hmem) hfuel).mono fun r hr => ?_)
    cases hr with
    | @full fs'' hend hcarried hquiet hzero =>
      obtain ⟨front, hl⟩ := hend.resolve_left fun hnew => by omega
      have hat' : SeekAt fs''.toGeometry l target k fp' fp'.clust ofs := by
        rw [hquiet.geometry]
        exact ⟨hat.clust ▸ hindex, rfl, hat.fptr, hat.pos, hat.target⟩
      have hbcs : fs''.bcs = fs'.bcs := congrArg Geometry.bcs hquiet.geometry
      have hended := SeekEnded.full (h.quiet hcarried hquiet) hat' (by rwa [hbcs]) (hlast hl) hzero
      rw [hbcs] at hended
      show SeekNext ok pool fs q i fp data target ofs (if fp'.faWrite ∧ 0 = 0 then _ else _)
      rw [if_pos ⟨hwrite, rfl⟩]
      exact hended
    | @next fs'' front back d hq hcarried hquiet =>
      have hat' : l[front.length]? = some clst := by simp [hq]
      have heq := (List.getElem?_inj hk h.carried.nodup).mp (hindex.trans hat'.symm)
      have hd : l[k + 1]? = some d := by
        rw [heq, hq]
        simp
      have hlt := (List.getElem?_eq_some_iff.mp hd).1
      exact seekFound_next ((h.quiet hcarried hquiet).next hlt d _)
        hat hquiet.geometry hd hofs hb
    | @failed fs'' hok hcarried hquiet =>
      have hinv := h.quiet hcarried hquiet
      show SeekNext ok pool fs q i fp data target ofs (if fp'.faWrite ∧ diskError = 0 then _ else _)
      rw [if_neg (by simp [diskError])]
      exact .abort hok hcarried h.fixed hinv.rooted
    | @new fs'' u hu hend hcarried hquiet =>
      obtain ⟨front, hl⟩ := hend.resolve_left fun hnew => by omega
      have hlength := hlast hl
      have hne : l ≠ [] := by
        rw [hl]
        exact List.append_ne_nil_of_right_ne_nil _ (List.cons_ne_nil _ _)
      have hle : fp'.fptr ≤ l.length * fs'.bcs := by
        rw [hat.fptr]
        exact Nat.mul_le_mul_right _ (Nat.le_of_lt hk)
      have hinv := h.new hlength hcarried hquiet hne hle
      have hd : (l ++ [u])[k + 1]? = some u := by
        rw [hlength, List.getElem?_concat_length]
      refine seekFound_next ⟨hcarried, hinv.fixed, ⟨hinv.rooted.sclust, hinv.rooted.dirty⟩,
        hinv.fsize_le, hinv.clusters, fun hok => ?_⟩ hat hquiet.geometry hd hofs hb
      have hheld := (hinv.held hok).advance fs'.bcs
      exact ⟨hheld.own, hheld.beyond, hheld.stored⟩
  · rw [if_neg hwrite]
    have hlimit' := hlimit (by simpa using hwrite)
    have hlt : k + 1 < l.length := by
      have htarget := hat.target
      rw [hat.fptr] at htarget
      by_contra hge
      have hmul := Nat.mul_le_mul_right fs'.bcs (show (q i).length ≤ k + 1 by omega)
      rw [Nat.succ_mul] at hmul
      omega
    obtain ⟨d, hd⟩ : ∃ d, l[k + 1]? = some d := ⟨_, List.getElem?_eq_getElem hlt⟩
    obtain ⟨front, back, hsplit⟩ := split_pair hindex hd
    obtain ⟨hgood, hquiet, hnfree, hres⟩ := h.carried.good.getFat (h.carried.inRange hmem)
    have hcarried := h.carried.quiet hgood hquiet hnfree
    have hentry : fs'.entry clst = d := by
      have hq : Function.update q i l i = front ++ clst :: d :: back := by
        rw [Function.update_self]
        exact hsplit
      exact h.carried.good.entry_next hq
    rcases hr : getFat fs' clst with ⟨d', fs''⟩
    rw [hr] at hgood hquiet hnfree hres hcarried
    have hinv := h.quiet hcarried hquiet
    refine .map (.pure ?_)
    rcases hres with hd' | ⟨hd', hok⟩
    · obtain rfl : d' = d := hd'.trans hentry
      exact seekFound_next (hinv.next hlt d' _) hat hquiet.geometry hd hofs hb
    · obtain rfl : d' = diskError := hd'
      show SeekNext ok pool fs q i fp data target ofs (if fp'.faWrite ∧ diskError = 0 then _ else _)
      rw [if_neg (by simp [diskError])]
      exact .abort hok hcarried h.fixed hinv.rooted

/-- The loop that follows the clusters. -/
theorem seekLoop (h : SeekInv ok pool fs q i fp data fs' fp' l (k + 1))
    (hat : SeekAt fs'.toGeometry l target k fp' clst ofs)
    (hlimit : fp.faWrite = false → target ≤ (q i).length * fs.bcs) {fuel : ℕ}
    (hfuel : fs.nFatent < fuel) (hofs : ofs < fuel) :
    Ensures (loop (seekRound fuel) fuel (fs', fp', clst, ofs))
      (SeekEnded ok pool fs q i fp data target) := by
  refine Ensures.loop (I := fun st => ∃ l k, SeekInv ok pool fs q i fp data st.1 st.2.1 l (k + 1) ∧
    SeekAt st.1.toGeometry l target k st.2.1 st.2.2.1 st.2.2.2) (m := fun st => st.2.2.2)
    (fun st hst => ?_) ⟨l, k, h, hat⟩ hofs
  obtain ⟨l, k, hinv, hat⟩ := hst
  refine (seekRound_next hinv hat (fun hwrite => ?_) hfuel).mono fun r hr => ?_
  · rw [hinv.carried.frame.geometry]
    exact hlimit (faWrite_of_fixed hinv.fixed ▸ hwrite)
  · cases r with
    | again st' => exact hr
    | done r => exact hr

/-- Where a seek begins. -/
inductive SeekBegun (ok : Prop) (pool : ℕ → Prop) (fs : FATFS) (q : ι → List ℕ) (i : ι) (fp : FIL)
    (data : ℕ → Option UInt8) (target : ℕ) : Stage × Seeking → Prop
  | go {fs' : FATFS} {fp' : FIL} {l : List ℕ} {k clst ofs : ℕ} :
      SeekInv ok pool fs q i fp data fs' fp' l (k + 1) →
        SeekAt fs'.toGeometry l target k fp' clst ofs →
          SeekBegun ok pool fs q i fp data target (.go, fs', fp', clst, ofs)
  | still {fs' : FATFS} {fp' : FIL} {l : List ℕ} {ofs : ℕ} :
      SeekInv ok pool fs q i fp data fs' fp' l 0 → fp'.fptr = 0 →
        (ok → target = 0 ∨ (q i).length + fs.nfree = 0) →
          SeekBegun ok pool fs q i fp data target (.go, fs', fp', 0, ofs)
  | abort {fs' : FATFS} {fp' : FIL} {l : List ℕ} {clst ofs : ℕ} : ¬ ok →
      Carried ok pool fs q i fs' l → fp'.fixed = fp.fixed → fp'.Rooted fs'.toGeometry pool l →
        SeekBegun ok pool fs q i fp data target (.abort .diskErr, fs', fp', clst, ofs)

/-- The current cluster, the first one, or a new one. -/
theorem seekStart_spec (h : SeekInv ok pool fs q i fp data fs { fp with fptr := 0 } (q i) 0)
    (hptr : fp.fptr < 2 ^ 32) (hpointed : fp.Pointed fs.toGeometry (q i)) (hofs : 0 < ofs)
    {fuel : ℕ} (hfuel : fs.nFatent < fuel) :
    Ensures (seekStart fuel fs { fp with fptr := 0 } fp.fptr ofs)
      (SeekBegun ok pool fs q i fp data ofs) := by
  have hgood := h.carried.good
  have hg := hgood.wellFormed
  have hb := bcs_pos hg
  unfold seekStart
  refine .ite (fun hahead => ?_) fun _ => ?_
  · obtain ⟨hpos, hle⟩ := hahead
    change (fp.fptr - 1) / fs.bcs ≤ (ofs - 1) / fs.bcs at hle
    have hclust := hpointed hpos
    have hk := (List.getElem?_eq_some_iff.mp hclust).1
    have hmul := Nat.mul_le_mul_right fs.bcs hle
    have hdiv := Nat.div_mul_le_self (ofs - 1) fs.bcs
    rw [mask_eq hgood.sized (by omega)]
    refine .pure (.go (l := q i) (k := (fp.fptr - 1) / fs.bcs) ?_ ?_)
    · have hclusters := h.clusters
      refine ⟨h.carried, h.fixed, ⟨h.rooted.sclust, h.rooted.dirty⟩, h.fsize_le, by omega,
        fun hok => ?_⟩
      have hheld := (h.held hok).advance ((fp.fptr - 1) / fs.bcs * fs.bcs)
      rw [Nat.zero_add] at hheld
      exact hheld
    · refine ⟨hclust, rfl, rfl, by omega, ?_⟩
      show (fp.fptr - 1) / fs.bcs * fs.bcs + (ofs - (fp.fptr - 1) / fs.bcs * fs.bcs) = ofs
      omega
  · have hsclust := h.rooted.sclust
    change fp.sclust = ((q i).head?).getD 0 at hsclust
    refine .ite (fun hzero => ?_) fun hne => ?_
    · have hnil : q i = [] := by
        cases hq : q i with
        | nil => rfl
        | cons c l =>
          have hc := (h.carried.inRange (c := c) (by simp [hq])).1
          rw [hq] at hsclust
          change fp.sclust = c at hsclust
          change fp.sclust = 0 at hzero
          omega
      refine .map ((h.carried.createChain (.inl ⟨rfl, hnil⟩) hfuel).mono fun r hr => ?_)
      cases hr with
      | @full fs'' hend hcarried hquiet hnone =>
        have hinv := h.quiet hcarried hquiet
        refine .still (l := q i) ⟨hcarried, hinv.fixed, ⟨?_, hinv.rooted.dirty⟩, hinv.fsize_le,
          hinv.clusters, fun hok => ⟨(hinv.held hok).own, (hinv.held hok).beyond,
            (hinv.held hok).stored⟩⟩ rfl fun hok => ?_
        · rw [hnil]
          rfl
        · have hnfree := hcarried.nfree hok
          have hlength := congrArg List.length hnil
          rw [List.length_nil] at hlength
          omega
      | @next fs'' front back d hq hcarried hquiet =>
        rw [hnil] at hq
        simp at hq
      | @failed fs'' hok hcarried hquiet =>
        have hinv := h.quiet hcarried hquiet
        exact .abort hok hcarried h.fixed ⟨hinv.rooted.sclust, hinv.rooted.dirty⟩
      | @new fs'' u hu hend hcarried hquiet =>
        have htwo := hu.1
        have hlt := hu.2
        have hdword := nFatent_lt hg
        show SeekBegun ok pool fs q i fp data ofs
          (if u = 1 then _ else if u = diskError then _ else _)
        rw [if_neg (by omega), if_neg (by omega)]
        have hgeometry := hquiet.geometry
        rw [hnil] at hcarried
        refine .go (l := [u]) (k := 0) ⟨hcarried, h.fixed, ⟨rfl, fun hdirty => ?_⟩, ?_, ?_,
          fun hok => ?_⟩ ⟨rfl, rfl, (Nat.zero_mul _).symm, hofs, Nat.zero_add ofs⟩
        · rw [hgeometry]
          exact h.rooted.dirty hdirty
        · refine Nat.le_trans h.fsize_le ?_
          rw [hnil, List.length_nil, Nat.zero_mul]
          exact Nat.zero_le _
        · rw [hnil]
          rfl
        · have hheld := (h.held hok).quiet h.carried hquiet
          have hsize := h.fsize_le
          rw [← hgeometry] at hsize
          have happend := hheld.append (by rwa [hgeometry]) hsize (Nat.zero_le _) u
          rw [hnil] at happend
          exact ⟨happend.own, happend.beyond, happend.stored⟩
    · cases hq : q i with
      | nil =>
        rw [hq] at hsclust
        exact absurd hsclust hne
      | cons c l =>
        rw [hq] at hsclust
        refine .pure (.go (l := q i) (k := 0) ⟨h.carried, h.fixed, ⟨h.rooted.sclust,
          h.rooted.dirty⟩, h.fsize_le, ?_, fun hok => ⟨(h.held hok).own, (h.held hok).beyond,
            (h.held hok).stored⟩⟩ ⟨?_, rfl, (Nat.zero_mul _).symm, hofs, Nat.zero_add ofs⟩)
        · rw [hq, List.length_cons]
          omega
        · rw [hq, show fp.sclust = c from hsclust]
          rfl

/-- The position has been found, and its sector. -/
structure SeekSpot (ok : Prop) (pool : ℕ → Prop) (fs : FATFS) (q : ι → List ℕ) (i : ι) (fp : FIL)
    (data : ℕ → Option UInt8) (target : ℕ) (fs' : FATFS) (fp' : FIL) (l : List ℕ) (nsect : ℕ) :
    Prop where
  inv : SeekInv ok pool fs q i fp data fs' fp' l (clustersFor fs'.bcs fp'.fptr)
  pointed : fp'.Pointed fs'.toGeometry l
  fptr_le : fp'.fptr ≤ l.length * fs'.bcs
  le_target : fp'.fptr ≤ target
  sector : fp'.fptr % fs'.ssize ≠ 0 →
    fp'.fptr / fs'.ssize < l.length * fs'.csize ∧ nsect = fs'.place l (fp'.fptr / fs'.ssize)
  reached : ok → fp'.fptr = min target (((q i).length + fs.nfree) * fs.bcs)

/-- How it is found. -/
inductive SeekFound (ok : Prop) (pool : ℕ → Prop) (fs : FATFS) (q : ι → List ℕ) (i : ι) (fp : FIL)
    (data : ℕ → Option UInt8) (target : ℕ) : Stage × FATFS × FIL × ℕ → Prop
  | go {fs' : FATFS} {fp' : FIL} {l : List ℕ} {nsect : ℕ} :
      SeekSpot ok pool fs q i fp data target fs' fp' l nsect →
        SeekFound ok pool fs q i fp data target (.go, fs', fp', nsect)
  | abort {fs' : FATFS} {fp' : FIL} {l : List ℕ} {nsect : ℕ} : ¬ ok →
      Carried ok pool fs q i fs' l → fp'.fixed = fp.fixed → fp'.Rooted fs'.toGeometry pool l →
        SeekFound ok pool fs q i fp data target (.abort .diskErr, fs', fp', nsect)

/-- The sector of a position in a cluster. -/
theorem place_cluster {g : Geometry} (hg : g.WellFormed) {c n : ℕ} (hc : l[k]? = some c)
    (hn : n < g.bcs) :
    (k * g.bcs + n) / g.ssize < l.length * g.csize ∧
      g.place l ((k * g.bcs + n) / g.ssize) = g.sectorOf c + n / g.ssize := by
  have hk := (List.getElem?_eq_some_iff.mp hc).1
  have hdiv : n / g.ssize < g.csize := (Nat.div_lt_iff_lt_mul hg.ssize_pos).mpr hn
  have hsector : (k * g.bcs + n) / g.ssize = n / g.ssize + g.csize * k := by
    rw [show k * g.bcs + n = n + g.ssize * (g.csize * k) by rw [Geometry.bcs]; ring,
      Nat.add_mul_div_left _ _ hg.ssize_pos]
  have hmul := Nat.mul_le_mul_right g.csize (show k + 1 ≤ l.length from hk)
  rw [Nat.succ_mul, Nat.mul_comm k] at hmul
  rw [hsector]
  refine ⟨by omega, ?_⟩
  rw [Geometry.place, Nat.add_mul_div_left _ _ hg.csize_pos, Nat.div_eq_of_lt hdiv, Nat.zero_add,
    hc, Nat.add_mul_mod_self_left, Nat.mod_eq_of_lt hdiv]
  rfl

/-- In a cluster. -/
theorem SeekInv.spot (h : SeekInv ok pool fs q i fp data fs' fp' l (k + 1)) {t : ℕ}
    (hat : SeekAt fs'.toGeometry l t k fp' clst ofs) (hofs : ofs ≤ fs'.bcs) (ht : t ≤ target)
    (hreached : ok → t = min target (((q i).length + fs.nfree) * fs.bcs))
    (hnsect : ofs % fs'.ssize ≠ 0 → nsect = fs'.sectorOf clst + ofs / fs'.ssize) :
    SeekSpot ok pool fs q i fp data target fs' { fp' with fptr := fp'.fptr + ofs } l nsect := by
  have hg := h.carried.good.wellFormed
  have hb := bcs_pos hg
  have hk := (List.getElem?_eq_some_iff.mp hat.index).1
  have hpos := hat.pos
  have hfptr := hat.fptr
  have htarget := hat.target
  have hmul := Nat.mul_le_mul_right fs'.bcs (show k + 1 ≤ l.length from hk)
  rw [Nat.succ_mul] at hmul
  have hmod : fp'.fptr % fs'.bcs = 0 := by rw [hfptr, Nat.mul_mod_left]
  have hdiv : fp'.fptr / fs'.bcs = k := by rw [hfptr, Nat.mul_div_cancel _ hb]
  have hclusters : clustersFor fs'.bcs (fp'.fptr + ofs) = k + 1 := by
    rw [clustersFor_add hb hpos (by omega), hdiv]
  refine ⟨⟨h.carried, h.fixed, ⟨h.rooted.sclust, h.rooted.dirty⟩, h.fsize_le, ?_,
    fun hok => (h.held hok).advance ofs⟩, fun _ => ?_, ?_, ?_, fun hmid => ?_, fun hok => ?_⟩
  · rw [hclusters]
    exact h.clusters
  · have hprev : (fp'.fptr + ofs - 1) / fs'.bcs = k := by
      rw [Nat.div_eq_iff hb]
      omega
    show l[(fp'.fptr + ofs - 1) / fs'.bcs]? = some fp'.clust
    rw [hprev, hat.clust]
    exact hat.index
  · show fp'.fptr + ofs ≤ l.length * fs'.bcs
    omega
  · show fp'.fptr + ofs ≤ target
    omega
  · change (fp'.fptr + ofs) % fs'.ssize ≠ 0 at hmid
    have hsplit := mod_bcs fs'.toGeometry fp'.fptr
    have hssize : fp'.fptr % fs'.ssize = 0 := by omega
    have hofs' : ofs % fs'.ssize ≠ 0 := by
      rw [Nat.add_mod, hssize, Nat.zero_add, Nat.mod_mod] at hmid
      exact hmid
    have hlt : ofs < fs'.bcs := by
      refine Nat.lt_of_le_of_ne hofs fun heq => hofs' ?_
      rw [heq, Geometry.bcs, Nat.mul_mod_left]
    have hplace := place_cluster hg hat.index hlt
    rw [← hfptr] at hplace
    exact ⟨hplace.1, (hnsect hofs').trans hplace.2.symm⟩
  · exact htarget.trans (hreached hok)

/-- The cluster of the target, and the sector there. -/
theorem seekSector_spec {r : Stage × Seeking} {fuel : ℕ}
    (hr : SeekBegun ok pool fs q i fp data target r) (hgo : r.1 = .go)
    (hlimit : fp.faWrite = false → target ≤ (q i).length * fs.bcs)
    (hfuel : fs.nFatent < fuel) (hofs : target < fuel) :
    Ensures (seekSector fuel r.2.1 r.2.2.1 r.2.2.2.1 r.2.2.2.2)
      (SeekFound ok pool fs q i fp data target) := by
  cases hr with
  | @go fs' fp' l k clst ofs hinv hat =>
    have htarget := hat.target
    have htwo := (hinv.carried.inRange (List.mem_of_getElem? hat.index)).1
    unfold seekSector
    rw [if_pos (show clst ≠ 0 by omega)]
    refine .map ((seekLoop hinv hat hlimit hfuel (show ofs < fuel by omega)).mono fun r hr => ?_)
    cases hr with
    | @go fs' fp' l k clst ofs hinv hat hle =>
      have hg := hinv.carried.good.wellFormed
      have hc := hinv.carried.inRange (List.mem_of_getElem? hat.index)
      obtain ⟨heq, hne⟩ := clust2sect_eq hg hc
      have hreached (hok : ok) : target = min target (((q i).length + fs.nfree) * fs.bcs) := by
        have hk := (List.getElem?_eq_some_iff.mp hat.index).1
        have hnfree := hinv.carried.nfree hok
        have hmul := Nat.mul_le_mul_right fs.bcs
          (show k + 1 ≤ (q i).length + fs.nfree by omega)
        have hbcs : fs'.bcs = fs.bcs := congrArg Geometry.bcs hinv.carried.frame.geometry
        have htarget := hat.target
        rw [hat.fptr, hbcs] at htarget
        rw [hbcs] at hle
        rw [Nat.succ_mul] at hmul
        omega
      dsimp only
      by_cases hmid : ofs % fs'.ssize ≠ 0
      · rw [if_pos hmid, heq, if_neg hne]
        exact .go (hinv.spot hat hle (Nat.le_refl _) hreached fun _ => rfl)
      · rw [if_neg hmid]
        exact .go (hinv.spot hat hle (Nat.le_refl _) hreached fun h => absurd h hmid)
    | @full fs' fp' l k ofs hinv hat hlt hlast hzero =>
      have hmid : ¬ fs'.bcs % fs'.ssize ≠ 0 := by
        rw [Geometry.bcs, Nat.mul_mod_left]
        exact fun h => h rfl
      have hb := bcs_pos hinv.carried.good.wellFormed
      have htarget := hat.target
      dsimp only
      rw [if_neg hmid]
      refine .go (hinv.spot (t := fp'.fptr + fs'.bcs) ⟨hat.index, rfl, hat.fptr, hb, rfl⟩
        (Nat.le_refl _) (by omega) (fun hok => ?_) fun h => absurd h hmid)
      have hnfree := hinv.carried.nfree hok
      have hbcs : fs'.bcs = fs.bcs := congrArg Geometry.bcs hinv.carried.frame.geometry
      have hend : fp'.fptr + fs'.bcs = ((q i).length + fs.nfree) * fs.bcs := by
        rw [hat.fptr, hbcs, ← Nat.succ_mul]
        exact congrArg (· * fs.bcs) (by omega)
      omega
    | abort hok hcarried hfixed hrooted => exact .abort hok hcarried hfixed hrooted
  | @still fs' fp' l ofs hinv hzero hnone =>
    have hb := bcs_pos hinv.carried.good.wellFormed
    unfold seekSector
    rw [if_neg (by simp)]
    have hspot : SeekSpot ok pool fs q i fp data target fs' fp' l 0 := by
      refine ⟨?_, fun hpos => ?_, ?_, ?_, fun hmid => ?_, fun hok => ?_⟩
      · rw [hzero, clustersFor_mod hb (Nat.zero_mod _), Nat.zero_div]
        exact hinv
      · omega
      · rw [hzero]
        exact Nat.zero_le _
      · omega
      · rw [hzero, Nat.zero_mod] at hmid
        exact absurd rfl hmid
      · rcases hnone hok with htarget | hnone
        · omega
        · rw [hnone, Nat.zero_mul]
          omega
    exact .pure (.go hspot)
  | abort hok hcarried hfixed hrooted => exact absurd hgo (by simp)

/-- The members of the file after a seek. -/
theorem SeekSpot.outcome {f : Content} (hfp : fp.Is ok pool fs (q i) f) (herr : fp.err = .ok)
    (h : SeekSpot ok pool fs q i fp f.data target fs' fp' l nsect)
    (haligned : fp'.Aligned fs'.toGeometry l) (htarget : target < 2 ^ 32)
    (hofs : target = if fp.fsize < ofs ∧ ¬ fp.faWrite then fp.fsize else ofs) :
    Outcome ok pool fs q i f (.lseek ofs) (.done .ok) fs' (if fp'.fsize < fp'.fptr then
      { fp' with fsize := fp'.fptr, faWritten := true } else fp') := by
  have hfixed := h.inv.fixed
  have hfsize := fsize_of_fixed hfixed
  have hsize := (hfp.bounded herr).1.fsize_lt
  have hle := h.le_target
  have hbcs : fs'.bcs = fs.bcs := congrArg Geometry.bcs h.inv.carried.frame.geometry
  have hclusters := h.inv.clusters
  rw [hbcs] at hclusters
  have hsame : ∃ written, (if fp'.fsize < fp'.fptr then
      { fp' with fsize := fp'.fptr, faWritten := true } else fp') =
        { fp' with fsize := max fp'.fsize fp'.fptr, faWritten := written } := by
    split_ifs with hlt
    · exact ⟨true, by rw [Nat.max_eq_right (Nat.le_of_lt hlt)]⟩
    · exact ⟨fp'.faWritten, by rw [Nat.max_eq_left (Nat.not_lt.mp hlt)]⟩
  obtain ⟨written, hsame⟩ := hsame
  have hpos (hok : ok) : fp'.fptr = (f.seek fs.bcs fs.nfree ofs).pos := by
    have hheld := hfp.held hok
    rw [h.reached hok, hofs, hheld.fsize, hheld.clusters, hfp.writable]
    rfl
  have hlength (hok : ok) : l.length = (f.seek fs.bcs fs.nfree ofs).clusters := by
    rw [hclusters, hpos hok, (hfp.held hok).clusters]
    rfl
  rw [hsame]
  refine ⟨l, f.seek fs.bcs fs.nfree ofs, h.inv.carried, ⟨⟨h.inv.rooted.sclust, h.inv.rooted.dirty⟩,
    fun _ => ⟨⟨h.fptr_le, Nat.max_le.mpr ⟨h.inv.fsize_le, h.fptr_le⟩,
      Nat.lt_of_le_of_lt hle htarget,
      Nat.max_lt.mpr ⟨hfsize ▸ hsize, Nat.lt_of_le_of_lt hle htarget⟩⟩, h.pointed, haligned,
        Nat.le_max_right _ _⟩, (faRead_of_fixed hfixed).trans hfp.readable,
    (faWrite_of_fixed hfixed).trans hfp.writable, (entry_of_fixed hfixed).trans hfp.entry,
    fun hok => ?_⟩, fun hok => ?_⟩
  · have hheld := hfp.held hok
    have hdata := h.inv.held hok
    refine ⟨(err_of_fixed hfixed).trans herr, hpos hok, ?_, hlength hok, hdata.own,
      fun p hp hp' => hdata.beyond p (Nat.le_trans (Nat.le_max_left _ _) hp) hp', hdata.stored⟩
    show max fp'.fsize fp'.fptr = max f.size (f.seek fs.bcs fs.nfree ofs).pos
    rw [hfsize, hheld.fsize, hpos hok]
  · refine .lseek ofs fs'.nfree ?_
    rw [← hlength hok, h.inv.carried.nfree hok, (hfp.held hok).clusters]

/-- The sector of the position comes into the sector buffer. -/
theorem seekFill_spec {f : Content} (hfp : fp.Is ok pool fs (q i) f) (herr : fp.err = .ok)
    (h : SeekSpot ok pool fs q i fp f.data target fs' fp' l nsect) (htarget : target < 2 ^ 32)
    (hofs : target = if fp.fsize < ofs ∧ ¬ fp.faWrite then fp.fsize else ofs) :
    (seekFill fs' fp' nsect).1 = .go ∧ Outcome ok pool fs q i f (.lseek ofs) (.done .ok)
        (seekFill fs' fp' nsect).2.1 (seekFill fs' fp' nsect).2.2 ∨
      (seekFill fs' fp' nsect).1 = .abort .diskErr ∧ Outcome ok pool fs q i f (.lseek ofs)
        (.done .diskErr) (seekFill fs' fp' nsect).2.1
          { (seekFill fs' fp' nsect).2.2 with err := .diskErr } := by
  have hfixed := h.inv.fixed
  unfold seekFill
  by_cases hload : fp'.fptr % fs'.ssize ≠ 0 ∧ nsect ≠ fp'.dsect
  · rw [if_pos hload]
    obtain ⟨hlt, hsect⟩ := h.sector hload.1
    obtain ⟨hcarried, hgeometry, ⟨buf, dirty, hfp₁, himp⟩, hread⟩ :=
      readLoad_spec h.inv.carried h.inv.rooted h.inv.held hlt hsect
    rcases hr : readLoad fs' fp' nsect with ⟨done, fs₁, fp₁⟩
    rw [hr] at hcarried hgeometry hfp₁ hread
    have hgeometry' : fs₁.toGeometry = fs'.toGeometry := hgeometry
    have hfp₁' : fp₁ = { fp' with buf := buf, faDirty := dirty } := hfp₁
    subst hfp₁'
    cases done with
    | false =>
      have hok : ¬ ok := fun hok => absurd (hread hok).1 (by simp)
      have hrooted : FIL.Rooted fs₁.toGeometry pool l
          { fp' with buf := buf, faDirty := dirty } := by
        refine ⟨h.inv.rooted.sclust, fun hdirty => ?_⟩
        rw [hgeometry']
        exact h.inv.rooted.dirty (himp hdirty)
      exact .inr ⟨rfl, outcome_of_error hfp hok (by simp) hcarried (entry_of_fixed hfixed)
        (faRead_of_fixed hfixed) (faWrite_of_fixed hfixed) hrooted⟩
    | true =>
      have hspot : SeekSpot ok pool fs q i fp f.data target fs₁
          { fp' with buf := buf, faDirty := dirty, dsect := nsect } l nsect := by
        refine ⟨⟨hcarried, hfixed, ⟨h.inv.rooted.sclust, fun _ => ?_⟩, ?_, ?_,
          fun hok => (hread hok).2⟩, ?_, ?_, h.le_target, ?_, h.reached⟩
        · obtain ⟨c, hc, hpool, -, hin⟩ := h.inv.carried.place hlt
          rw [hgeometry']
          exact ⟨c, hc, hpool, hsect ▸ hin⟩
        · rw [hgeometry']
          exact h.inv.fsize_le
        · rw [hgeometry']
          exact h.inv.clusters
        · rw [hgeometry']
          exact h.pointed
        · rw [hgeometry']
          exact h.fptr_le
        · rw [hgeometry']
          exact h.sector
      have haligned : FIL.Aligned fs₁.toGeometry l
          { fp' with buf := buf, faDirty := dirty, dsect := nsect } := by
        rw [hgeometry']
        exact fun _ => hsect
      exact .inl ⟨rfl, hspot.outcome hfp herr haligned htarget hofs⟩
  · rw [if_neg hload]
    have haligned : fp'.Aligned fs'.toGeometry l := by
      intro hmid
      obtain ⟨-, hsect⟩ := h.sector hmid
      rw [← hsect]
      by_contra hne
      exact hload ⟨hmid, fun heq => hne heq.symm⟩
    exact .inl ⟨rfl, h.outcome hfp herr haligned htarget hofs⟩

/-- **Moving the position.** On any device, only the chain of the file is stretched; one that does
not fail has the position then, as far as there are free clusters for it. -/
theorem fLseek_outcome {f : Content} (h : Good ok pool fs q) (hfp : fp.Is ok pool fs (q i) f)
    (ofs : ℕ) (hofs : ofs < 2 ^ 32) {fuel : ℕ} (hfuel : fs.nFatent < fuel) (hofs' : ofs < fuel) :
    Ensures (fLseek fuel fs fp ofs) fun r =>
      Outcome ok pool fs q i f (.lseek ofs) (.done r.1) r.2.1 r.2.2 := by
  have hmounted := h.wellFormed.mounted
  have hvalid : validate fs = .ok := if_neg hmounted
  unfold fLseek
  rw [hvalid, if_neg (by simp)]
  refine .ite (fun herr => ?_) fun herr => ?_
  · refine .pure ⟨q i, f, .start h, hfp, fun hok => absurd (hfp.held hok).err herr⟩
  · obtain ⟨hbounded, hpointed, haligned, hle⟩ := hfp.bounded (not_not.mp herr)
    have hb := bcs_pos h.wellFormed
    have hfsize := hbounded.fsize_lt
    have hfsize_le := hbounded.fsize_le
    generalize htarget : (if fp.fsize < ofs ∧ ¬ fp.faWrite then fp.fsize else ofs) = target
    have hlt : target ≤ ofs ∧ target < 2 ^ 32 ∧
        (fp.faWrite = false → target ≤ (q i).length * fs.bcs) := by
      rw [← htarget]
      split_ifs with hclip
      · exact ⟨by omega, hfsize, fun _ => hfsize_le⟩
      · refine ⟨Nat.le_refl _, hofs, fun hwrite => ?_⟩
        by_contra hgt
        exact hclip ⟨by omega, by simp [hwrite]⟩
    have hinv : SeekInv ok pool fs q i fp f.data fs { fp with fptr := 0 } (q i) 0 := by
      refine ⟨.start h, rfl, ⟨hfp.rooted.sclust, hfp.rooted.dirty⟩, hfsize_le, by omega,
        fun hok => (hfp.held hok).holds.seek hle 0⟩
    have hbegun : Ensures (if target ≠ 0 then seekStart fuel fs { fp with fptr := 0 } fp.fptr target
        else some (.go, fs, { fp with fptr := 0 }, 0, 0))
        (SeekBegun ok pool fs q i fp f.data target) := by
      refine .ite (fun hne => ?_) fun hzero => .pure (.still hinv rfl fun _ => .inl ?_)
      · exact seekStart_spec hinv hbounded.fptr_lt hpointed (Nat.pos_of_ne_zero hne) hfuel
      · exact not_not.mp hzero
    refine .map (hbegun.bind fun r hr => ?_)
    rcases r with ⟨stage, fs', fp', clst, ofs'⟩
    cases stage with
    | go =>
      refine .map ((seekSector_spec hr rfl hlt.2.2 hfuel (by omega)).mono fun r hr => ?_)
      cases hr with
      | @go fs'' fp'' l nsect hspot =>
        have hfill := seekFill_spec hfp (not_not.mp herr) hspot hlt.2.1 htarget.symm
        dsimp only
        rcases hr : seekFill fs'' fp'' nsect with ⟨stage, fs₁, fp₁⟩
        rw [hr] at hfill
        rcases hfill with ⟨hstage, hout⟩ | ⟨hstage, hout⟩
        · have hstage' : stage = .go := hstage
          subst hstage'
          exact hout
        · have hstage' : stage = .abort .diskErr := hstage
          subst hstage'
          exact hout
      | abort hok hcarried hfixed hrooted =>
        exact outcome_of_error hfp hok (by simp) hcarried (entry_of_fixed hfixed)
          (faRead_of_fixed hfixed) (faWrite_of_fixed hfixed) hrooted
    | full => cases hr
    | abort res =>
      cases hr with
      | abort hok hcarried hfixed hrooted =>
        exact .pure (outcome_of_error hfp hok (by simp) hcarried (entry_of_fixed hfixed)
          (faRead_of_fixed hfixed) (faWrite_of_fixed hfixed) hrooted)

end Seek

end OlivePiccolo.FatFs
