import OlivePiccolo.FatFs.Contents

/-!
# Writing a file

`f_write` puts bytes at the position of a file, as far as there are clusters for them
(`fWrite_outcome`): a sector in part goes to the sector buffer, sectors in a row go to the disk, and
to the buffer if it is of one of them.
-/

namespace OlivePiccolo.FatFs

section Overwrite

variable {data : ℕ → Option UInt8} {pos p n : ℕ} {l l' : List UInt8}

theorem overwrite_nil (data : ℕ → Option UInt8) (pos : ℕ) : overwrite data pos [] = data := by
  funext p
  simp [overwrite]

theorem overwrite_append (data : ℕ → Option UInt8) (pos : ℕ) (l l' : List UInt8) :
    overwrite data pos (l ++ l') = overwrite (overwrite data pos l) (pos + l.length) l' := by
  funext p
  unfold overwrite
  by_cases hp : pos ≤ p
  · by_cases hl : pos + l.length ≤ p
    · rw [if_pos hp, if_pos hl, if_pos hp, List.getElem?_append_right (by omega),
        List.getElem?_eq_none (l := l) (by omega), Option.none_or, Nat.sub_sub]
    · rw [if_pos hp, if_neg hl, if_pos hp, List.getElem?_append_left (by omega)]
  · rw [if_neg hp, if_neg (by omega), if_neg hp]

theorem overwrite_of_not (hp : p < pos ∨ pos + l.length ≤ p) : overwrite data pos l p = data p := by
  unfold overwrite
  split_ifs
  · rw [List.getElem?_eq_none (by omega), Option.none_or]
  · rfl

theorem overwrite_of_mem (h₁ : pos ≤ p) (h₂ : p < pos + l.length) :
    overwrite data pos l p = l[p - pos]? := by
  have hlt : p - pos < l.length := by omega
  rw [overwrite, if_pos h₁, List.getElem?_eq_getElem hlt, Option.some_or]

end Overwrite

section Clusters

variable {bcs p n m : ℕ}

theorem clustersFor_le (hb : 0 < bcs) (hp : p ≤ n * bcs) : clustersFor bcs p ≤ n := by
  rw [clustersFor, Nat.div_le_iff_le_mul_add_pred hb]
  rw [Nat.mul_comm] at hp
  omega

/-- At the end of so many clusters. -/
theorem clustersFor_mod (hb : 0 < bcs) (hp : p % bcs = 0) : clustersFor bcs p = p / bcs := by
  have hsplit : p + bcs - 1 = bcs - 1 + bcs * (p / bcs) := by
    have hdiv := Nat.div_add_mod p bcs
    omega
  rw [clustersFor, hsplit, Nat.add_mul_div_left _ _ hb, Nat.div_eq_of_lt (by omega), Nat.zero_add]

/-- With a byte in one more. -/
theorem clustersFor_add (hb : 0 < bcs) (hn : 0 < n) (hle : p % bcs + n ≤ bcs) :
    clustersFor bcs (p + n) = p / bcs + 1 := by
  have hsplit : p + n + bcs - 1 = p % bcs + n - 1 + bcs * (p / bcs + 1) := by
    have hdiv := Nat.div_add_mod p bcs
    rw [Nat.mul_succ]
    omega
  rw [clustersFor, hsplit, Nat.add_mul_div_left _ _ hb, Nat.div_eq_of_lt (by omega), Nat.zero_add]

/-- With some bytes of one more. -/
theorem clustersFor_of_mod (hp : p % bcs ≠ 0) (hb : 0 < bcs) : clustersFor bcs p = p / bcs + 1 := by
  have hlt := Nat.mod_lt p hb
  have hsplit : p + bcs - 1 = p % bcs - 1 + bcs * (p / bcs + 1) := by
    have hdiv := Nat.div_add_mod p bcs
    rw [Nat.mul_succ]
    omega
  rw [clustersFor, hsplit, Nat.add_mul_div_left _ _ hb, Nat.div_eq_of_lt (by omega), Nat.zero_add]

theorem le_clustersFor (hb : 0 < bcs) (p : ℕ) : p ≤ clustersFor bcs p * bcs := by
  have hdiv := Nat.div_add_mod' (p + bcs - 1) bcs
  have hlt := Nat.mod_lt (p + bcs - 1) hb
  unfold clustersFor
  omega

end Clusters

section Write

variable {ι : Type*} [DecidableEq ι] {ok : Prop} {pool : ℕ → Prop} {q : ι → List ℕ} {i : ι}
  {fs fs' : FATFS} {fp fp' : FIL} {data : ℕ → Option UInt8} {total written rest : List UInt8}
  {l : List ℕ} {m : ℕ}

/-- The transfer so far. There are clusters for `m` bytes. -/
structure WriteInv (ok : Prop) (pool : ℕ → Prop) (fs : FATFS) (q : ι → List ℕ) (i : ι) (fp : FIL)
    (data : ℕ → Option UInt8) (total : List UInt8) (m : ℕ) (fs' : FATFS) (fp' : FIL) (l : List ℕ)
    (written rest : List UInt8) : Prop where
  split : total = written ++ rest
  carried : Carried ok pool fs q i fs' l
  fixed : fp'.fixed = fp.fixed
  rooted : fp'.Rooted fs'.toGeometry pool l
  bounded : fp'.Bounded fs'.toGeometry l
  pos : fp'.fptr = fp.fptr + written.length
  dword : fp.fptr + total.length < 2 ^ 32
  clusters : l.length = max (q i).length (clustersFor fs'.bcs m)
  aligned : fp'.Aligned fs'.toGeometry l
  held : ok → fp'.Holds fs' l (overwrite data fp.fptr written)

/-- How a transfer ends. -/
inductive WriteEnded (ok : Prop) (pool : ℕ → Prop) (fs : FATFS) (q : ι → List ℕ) (i : ι) (fp : FIL)
    (data : ℕ → Option UInt8) (total : List UInt8) : WriteEnd → Prop
  | go {fs' : FATFS} {fp' : FIL} {l : List ℕ} {written : List UInt8} :
      WriteInv ok pool fs q i fp data total fp'.fptr fs' fp' l written [] →
        fp'.Pointed fs'.toGeometry l →
          WriteEnded ok pool fs q i fp data total (.go, fs', fp', [])
  | full {fs' : FATFS} {fp' : FIL} {l : List ℕ} {written rest : List UInt8} :
      WriteInv ok pool fs q i fp data total fp'.fptr fs' fp' l written rest →
        fp'.Pointed fs'.toGeometry l → fp'.fptr = l.length * fs'.bcs → fs'.nfree = 0 →
          WriteEnded ok pool fs q i fp data total (.full, fs', fp', rest)
  | abort {fs' : FATFS} {fp' : FIL} {l : List ℕ} {rest : List UInt8} : ¬ ok →
      Carried ok pool fs q i fs' l → fp'.fixed = fp.fixed → fp'.Rooted fs'.toGeometry pool l →
        WriteEnded ok pool fs q i fp data total (.abort .diskErr, fs', fp', rest)

/-- What a round does. -/
def WriteNext (ok : Prop) (pool : ℕ → Prop) (fs : FATFS) (q : ι → List ℕ) (i : ι) (fp : FIL)
    (data : ℕ → Option UInt8) (total rest : List UInt8) : Round Writing WriteEnd → Prop
  | .again (fs', fp', rest') =>
    (∃ l written, WriteInv ok pool fs q i fp data total fp'.fptr fs' fp' l written rest' ∧
      fp'.Pointed fs'.toGeometry l) ∧ rest'.length < rest.length
  | .done r => WriteEnded ok pool fs q i fp data total r

/-- Bytes of the sector buffer are others. -/
theorem FIL.Holds.put (h : fp'.Holds fs' l data) (hcarried : Carried ok pool fs q i fs' l)
    (hloc : fp'.Located fs'.toGeometry l)
    (hsector : fp'.dsect = fs'.place l (fp'.fptr / fs'.ssize)) {bytes : List UInt8}
    (hle : fp'.fptr % fs'.ssize + bytes.length ≤ fs'.ssize) {n : ℕ} (hn : n = bytes.length)
    {buf : Sector}
    (hin : ∀ j < bytes.length, bytes[j]? = some (buf (fp'.fptr % fs'.ssize + j)))
    (hout : ∀ j, j < fp'.fptr % fs'.ssize ∨ fp'.fptr % fs'.ssize + bytes.length ≤ j →
      buf j = fp'.buf j) :
    FIL.Holds fs' l { fp' with buf := buf, faDirty := true, fptr := fp'.fptr + n }
      (overwrite data fp'.fptr bytes) := by
  have hg := hcarried.good.wellFormed
  have hsplit := Nat.div_add_mod' fp'.fptr fs'.ssize
  subst hn
  refine ⟨fun _ => ⟨_, hloc.lt hg, hsector⟩, fun p hsize hptr => ?_, fun k o b hk ho hdata => ?_⟩
  · rw [overwrite_of_not (.inr hptr)]
    exact h.beyond p hsize (Nat.le_trans (Nat.le_add_right _ _) hptr)
  · by_cases hmem : fp'.fptr ≤ k * fs'.ssize + o ∧
        k * fs'.ssize + o < fp'.fptr + bytes.length
    · have hsame : k = fp'.fptr / fs'.ssize := by
        rcases Nat.lt_trichotomy k (fp'.fptr / fs'.ssize) with hlt | heq | hlt
        · have hmul := Nat.mul_le_mul_right fs'.ssize (show k + 1 ≤ fp'.fptr / fs'.ssize from hlt)
          rw [Nat.succ_mul] at hmul
          omega
        · exact heq
        · have hmul := Nat.mul_le_mul_right fs'.ssize (show fp'.fptr / fs'.ssize + 1 ≤ k from hlt)
          rw [Nat.succ_mul] at hmul
          omega
      subst hsame
      have hj : fp'.fptr / fs'.ssize * fs'.ssize + o - fp'.fptr = o - fp'.fptr % fs'.ssize := by
        omega
      rw [overwrite_of_mem hmem.1 hmem.2, hj, hin _ (by omega)] at hdata
      refine ⟨fun _ => ?_, fun hnot => absurd ⟨hsector, rfl⟩ hnot⟩
      rw [Nat.add_sub_cancel' (by omega)] at hdata
      exact Option.some.inj hdata
    · rw [overwrite_of_not (by omega)] at hdata
      obtain ⟨hbuf, hdisk⟩ := h.stored k o b hk ho hdata
      refine ⟨fun heq => ?_, fun hnot => hdisk fun hsame => hnot ⟨hsame.1, rfl⟩⟩
      have hsame : k = fp'.fptr / fs'.ssize := by
        by_contra hne
        exact hcarried.place_ne hk (hloc.lt hg) hne (Eq.trans (Eq.symm heq) hsector)
      show buf o = b
      rw [hout o (by subst hsame; omega)]
      exact hbuf heq

/-- Bytes go to the sector buffer. -/
theorem writePart_next
    (h : WriteInv ok pool fs q i fp data total (fp'.fptr + 1) fs' fp' l written rest)
    (hrest : rest ≠ []) (hloc : fp'.Located fs'.toGeometry l)
    (hsector : fp'.dsect = fs'.place l (fp'.fptr / fs'.ssize)) :
    WriteNext ok pool fs q i fp data total rest (writePart fs' fp' rest) := by
  have hg := h.carried.good.wellFormed
  obtain ⟨hpos, hcount, hin, hbcs⟩ := part_spec hg (List.length_pos_iff.mpr hrest) fp'.fptr
  have hlength := congrArg List.length h.split
  rw [List.length_append] at hlength
  have hp := h.pos
  have hdword := h.dword
  obtain ⟨hbounded, hpointed⟩ := hloc.advance h.bounded hg hpos hbcs (by omega)
  unfold writePart
  generalize hn : fs'.part fp'.fptr rest.length = n at *
  have htake : (rest.take n).length = n := by rw [List.length_take]; omega
  refine ⟨⟨l, written ++ rest.take n, ⟨?_, h.carried, h.fixed, ⟨h.rooted.sclust, fun _ => ?_⟩,
    ⟨hbounded.fptr_le, hbounded.fsize_le, hbounded.fptr_lt, hbounded.fsize_lt⟩, ?_, h.dword, ?_,
    fun hmid => ?_, fun hok => ?_⟩, hpointed⟩, ?_⟩
  · rw [List.append_assoc, List.take_append_drop]
    exact h.split
  · obtain ⟨c, hc, hpool, -, hin⟩ := h.carried.place (hloc.lt hg)
    exact ⟨c, hc, hpool, hsector ▸ hin⟩
  · rw [List.length_append, htake, ← Nat.add_assoc, ← hp]
  · have hclusters := h.clusters
    have hb := bcs_pos hg
    rw [clustersFor_add hb Nat.one_pos (by omega)] at hclusters
    rw [clustersFor_add hb hpos hbcs]
    exact hclusters
  · have hdiv := add_div_of_mid hg.ssize_pos hin hmid
    show fp'.dsect = fs'.place l ((fp'.fptr + n) / fs'.ssize)
    rw [hdiv]
    exact hsector
  · rw [overwrite_append, ← hp]
    refine (h.held hok).put h.carried hloc hsector (by rwa [htake]) (by rw [htake])
      (fun j hj => ?_) fun j hj => ?_
    · rw [htake] at hj
      have hlt : j < rest.length := by omega
      rw [if_pos (by omega), Nat.add_sub_cancel_left, List.getElem?_take_of_lt hj,
        List.getD_eq_getElem?_getD, List.getElem?_eq_getElem hlt]
      rfl
    · rw [htake] at hj
      rw [if_neg (by omega)]
  · rw [List.length_drop]
    omega

/-- Sectors of the file are others, and the sector buffer if it is one of them. -/
theorem FIL.Holds.direct (h : fp'.Holds fs' l data) (hcarried : Carried ok pool fs q i fs' l)
    (hloc : fp'.Located fs'.toGeometry l) (hmod : fp'.fptr % fs'.ssize = 0)
    (hclean : fp'.faDirty = false) {sect cc : ℕ}
    (hend : fp'.fptr / fs'.ssize % fs'.csize + cc ≤ fs'.csize)
    (hsect : sect = fs'.place l (fp'.fptr / fs'.ssize)) (hcc : fs'.ssize * cc ≤ rest.length)
    {disk : Disk} (hdisk : ∀ t, disk.sectors t = if sect ≤ t ∧ t < sect + cc then
      sectorsOf fs'.ssize rest (t - sect) else fs'.disk.sectors t) :
    FIL.Holds { fs' with disk := disk } l
      { fp' with
        buf := if sect ≤ fp'.dsect ∧ fp'.dsect < sect + cc then
          sectorsOf fs'.ssize rest (fp'.dsect - sect) else fp'.buf
        faDirty := if sect ≤ fp'.dsect ∧ fp'.dsect < sect + cc then false else fp'.faDirty
        fptr := fp'.fptr + fs'.ssize * cc }
      (overwrite data fp'.fptr (rest.take (fs'.ssize * cc))) := by
  have hg := hcarried.good.wellFormed
  have hsplit := Nat.div_add_mod' fp'.fptr fs'.ssize
  have htake : (rest.take (fs'.ssize * cc)).length = fs'.ssize * cc := by
    rw [List.length_take]
    omega
  have hplace (j : ℕ) (hj : j < cc) : fs'.place l (fp'.fptr / fs'.ssize + j) = sect + j := by
    rw [hsect]
    exact place_add hg (by omega)
  have hmul (j : ℕ) : (fp'.fptr / fs'.ssize + j) * fs'.ssize = fp'.fptr + j * fs'.ssize := by
    rw [Nat.add_mul]
    omega
  refine ⟨fun hdirty => ?_, fun p hsize hptr => ?_, fun k o b hk ho hdata => ?_⟩
  · simp [hclean] at hdirty
  · rw [overwrite_of_not (.inr (by rwa [htake]))]
    exact h.beyond p hsize (Nat.le_trans (Nat.le_add_right _ _) hptr)
  · change k < l.length * fs'.csize at hk
    change o < fs'.ssize at ho
    change overwrite data fp'.fptr _ (k * fs'.ssize + o) = some b at hdata
    by_cases hmem : fp'.fptr / fs'.ssize ≤ k ∧ k < fp'.fptr / fs'.ssize + cc
    · obtain ⟨j, rfl⟩ := Nat.exists_eq_add_of_le hmem.1
      have hj : j < cc := by omega
      have hlt := Nat.mul_le_mul_right fs'.ssize (show j + 1 ≤ cc from hj)
      rw [Nat.succ_mul, Nat.mul_comm cc] at hlt
      have hindex : (fp'.fptr / fs'.ssize + j) * fs'.ssize + o - fp'.fptr = j * fs'.ssize + o := by
        rw [hmul]
        omega
      rw [overwrite_of_mem (by rw [hmul]; omega) (by rw [hmul, htake]; omega), hindex,
        List.getElem?_take_of_lt (by omega)] at hdata
      have hbyte : sectorsOf fs'.ssize rest j o = b := by
        rw [sectorsOf, List.getD_eq_getElem?_getD, hdata]
        rfl
      rw [show Geometry.place _ l (fp'.fptr / fs'.ssize + j) = sect + j from hplace j hj]
      refine ⟨fun hsame => ?_, fun _ => ?_⟩
      · have hsame' : fp'.dsect = sect + j := hsame
        show (if _ then _ else _ : Sector) o = b
        rw [hsame', if_pos (by omega), Nat.add_sub_cancel_left]
        exact hbyte
      · show disk.sectors (sect + j) o = b
        rw [hdisk, if_pos (by omega), Nat.add_sub_cancel_left]
        exact hbyte
    · have hout : k * fs'.ssize + o < fp'.fptr ∨
          fp'.fptr + fs'.ssize * cc ≤ k * fs'.ssize + o := by
        by_cases hlt : k < fp'.fptr / fs'.ssize
        · have hle := Nat.mul_le_mul_right fs'.ssize (show k + 1 ≤ fp'.fptr / fs'.ssize from hlt)
          rw [Nat.succ_mul] at hle
          omega
        · have hle := Nat.mul_le_mul_right fs'.ssize
            (show fp'.fptr / fs'.ssize + cc ≤ k by omega)
          rw [hmul, Nat.mul_comm cc] at hle
          omega
      rw [overwrite_of_not (by rwa [htake])] at hdata
      obtain ⟨hbuf, hold⟩ := h.stored k o b hk ho hdata
      have hother : ¬ (sect ≤ fs'.place l k ∧ fs'.place l k < sect + cc) := by
        rintro ⟨h₁, h₂⟩
        obtain ⟨j, hj⟩ := Nat.exists_eq_add_of_le h₁
        have hlt : j < cc := by omega
        refine hcarried.place_ne hk (hloc.add_lt (by omega)) (fun heq => hmem ?_)
          (hj.trans (hplace j hlt).symm)
        omega
      refine ⟨fun hsame => ?_, fun _ => ?_⟩
      · have hsame' : fp'.dsect = fs'.place l k := hsame
        show (if _ then _ else _ : Sector) o = b
        rw [hsame', if_neg hother]
        exact hbuf hsame'
      · show disk.sectors (fs'.place l k) o = b
        rw [hdisk, if_neg hother]
        exact hold fun hdirty => absurd (hclean.symm.trans hdirty.2) (by simp)

/-- Sectors in a row. -/
theorem writeSectors_next
    (h : WriteInv ok pool fs q i fp data total (fp'.fptr + 1) fs' fp' l written rest)
    (hloc : fp'.Located fs'.toGeometry l) (hmod : fp'.fptr % fs'.ssize = 0)
    (hclean : fp'.faDirty = false) (hrest : rest.length / fs'.ssize ≠ 0) {sect cc : ℕ}
    (hsect : sect = fs'.place l (fp'.fptr / fs'.ssize))
    (hcc : cc = fs'.clip (fp'.fptr / fs'.ssize % fs'.csize) rest.length) :
    WriteNext ok pool fs q i fp data total rest (writeSectors fs' fp' rest sect cc) := by
  have hg := h.carried.good.wellFormed
  obtain ⟨hpos, hcount, hend, hbcs⟩ := clip_spec hg hrest hmod
  rw [← hcc] at hpos hcount hend hbcs
  have hlength := congrArg List.length h.split
  rw [List.length_append] at hlength
  have hp := h.pos
  have hdword := h.dword
  have hbytes : 0 < fs'.ssize * cc := Nat.mul_pos hg.ssize_pos hpos
  have hlt : fp'.fptr + fs'.ssize * cc < 2 ^ 32 := by omega
  obtain ⟨hbounded, hpointed⟩ := hloc.advance h.bounded hg hbytes hbcs hlt
  have hin (t : ℕ) (h₁ : sect ≤ t) (h₂ : t < sect + cc) :
      ∃ c, fs'.InRange c ∧ pool c ∧ c ∈ l ∧ fs'.InClust c t := by
    obtain ⟨j, rfl⟩ := Nat.exists_eq_add_of_le h₁
    have hj : fp'.fptr / fs'.ssize % fs'.csize + j < fs'.csize := by omega
    have hplace : fs'.place l (fp'.fptr / fs'.ssize + j) = sect + j := by
      rw [hsect]
      exact place_add hg hj
    rw [← hplace]
    exact h.carried.place (hloc.add_lt hj)
  obtain ⟨hcarried, hwrite⟩ := h.carried.write (sectorsOf fs'.ssize rest)
    (fun t h₁ h₂ => by
      obtain ⟨c, hc, hpool, -, hct⟩ := hin t h₁ h₂
      exact ⟨c, hc, hpool, hct⟩)
    (fun _ t h₁ h₂ j hij d hd => by
      obtain ⟨c, -, -, hc, hct⟩ := hin t h₁ h₂
      exact h.carried.foreign hc hct hij hd)
  have htake : (rest.take (fs'.ssize * cc)).length = fs'.ssize * cc := by
    rw [List.length_take]
    omega
  unfold writeSectors
  rcases hr : fs'.disk.write (sectorsOf fs'.ssize rest) sect cc with ⟨done, disk⟩
  rw [hr] at hcarried hwrite
  cases done with
  | false =>
    have hok : ¬ ok := fun hok => absurd (hwrite hok).1 (by simp)
    exact .abort hok hcarried h.fixed h.rooted
  | true =>
    refine ⟨⟨l, written ++ rest.take (fs'.ssize * cc), ⟨?_, hcarried, h.fixed,
      ⟨h.rooted.sclust, fun hdirty => ?_⟩, ⟨hbounded.fptr_le, hbounded.fsize_le,
      hbounded.fptr_lt, hbounded.fsize_lt⟩, ?_, h.dword, ?_,
      fun hmid => ?_, fun hok => ?_⟩, hpointed⟩, ?_⟩
    · rw [List.append_assoc, List.take_append_drop]
      exact h.split
    · simp [hclean] at hdirty
    · rw [List.length_append, htake, ← Nat.add_assoc, ← hp]
    · have hclusters := h.clusters
      have hb := bcs_pos hg
      rw [clustersFor_add hb Nat.one_pos (by omega)] at hclusters
      show l.length = max (q i).length (clustersFor fs'.bcs (fp'.fptr + fs'.ssize * cc))
      rw [clustersFor_add hb hbytes hbcs]
      exact hclusters
    · refine absurd ?_ hmid
      show (fp'.fptr + fs'.ssize * cc) % fs'.ssize = 0
      rw [Nat.add_mul_mod_self_left, hmod]
    · rw [overwrite_append, ← hp]
      exact (h.held hok).direct h.carried hloc hmod hclean hend hsect hcount (hwrite hok).2
    · show (rest.drop (fs'.ssize * cc)).length < rest.length
      rw [List.length_drop]
      omega

/-- What follows or stretches the chain. -/
inductive WriteAt (ok : Prop) (pool : ℕ → Prop) (fs : FATFS) (q : ι → List ℕ) (i : ι) (fp : FIL)
    (data : ℕ → Option UInt8) (total written rest : List UInt8) (p : ℕ) (g : Geometry) :
    Stage × FATFS × FIL → Prop
  | go {fs' : FATFS} {fp' : FIL} {l : List ℕ} :
      WriteInv ok pool fs q i fp data total (fp'.fptr + 1) fs' fp' l written rest →
        fp'.Located fs'.toGeometry l → fp'.fptr = p → fs'.toGeometry = g →
          WriteAt ok pool fs q i fp data total written rest p g (.go, fs', fp')
  | ended {stage : Stage} {fs' : FATFS} {fp' : FIL} : stage ≠ .go →
      WriteEnded ok pool fs q i fp data total (stage, fs', fp', rest) →
        WriteAt ok pool fs q i fp data total written rest p g (stage, fs', fp')

/-- The volume is another one, and so is the current cluster. -/
theorem WriteInv.quiet (h : WriteInv ok pool fs q i fp data total m fs' fp' l written rest)
    {fs'' : FATFS} (hcarried : Carried ok pool fs q i fs'' l) (hquiet : Quiet pool fs' fs'')
    (c : ℕ) :
    WriteInv ok pool fs q i fp data total m fs'' { fp' with clust := c } l written rest := by
  have hgeometry := hquiet.geometry
  refine ⟨h.split, hcarried, h.fixed, ⟨h.rooted.sclust, fun hdirty => ?_⟩, ?_, h.pos, h.dword, ?_,
    ?_, fun hok => ?_⟩
  · rw [hgeometry]
    exact h.rooted.dirty hdirty
  · rw [hgeometry]
    exact ⟨h.bounded.fptr_le, h.bounded.fsize_le, h.bounded.fptr_lt, h.bounded.fsize_lt⟩
  · rw [hgeometry]
    exact h.clusters
  · rw [hgeometry]
    exact h.aligned
  · have hheld := (h.held hok).quiet h.carried hquiet
    exact ⟨hheld.own, hheld.beyond, hheld.stored⟩

/-- The file has a cluster for the byte at the position. -/
theorem WriteInv.next (h : WriteInv ok pool fs q i fp data total fp'.fptr fs' fp' l written rest)
    (hmod : fp'.fptr % fs'.bcs = 0) (hlt : fp'.fptr / fs'.bcs < l.length) :
    WriteInv ok pool fs q i fp data total (fp'.fptr + 1) fs' fp' l written rest := by
  have hb := bcs_pos h.carried.good.wellFormed
  refine ⟨h.split, h.carried, h.fixed, h.rooted, h.bounded, h.pos, h.dword, ?_, h.aligned, h.held⟩
  have hclusters := h.clusters
  rw [clustersFor_mod hb hmod] at hclusters
  rw [clustersFor_add hb Nat.one_pos (by omega)]
  omega

/-- The file gets a cluster for the byte at the position. -/
theorem WriteInv.new (h : WriteInv ok pool fs q i fp data total fp'.fptr fs' fp' l written rest)
    (hmod : fp'.fptr % fs'.bcs = 0) (heq : fp'.fptr / fs'.bcs = l.length) {fs'' : FATFS} {u : ℕ}
    (hcarried : Carried ok pool fs q i fs'' (l ++ [u])) (hquiet : Quiet pool fs' fs'') :
    WriteInv ok pool fs q i fp data total (fp'.fptr + 1) fs''
      { fp' with clust := u, sclust := if fp'.sclust = 0 then u else fp'.sclust } (l ++ [u])
      written rest := by
  have hg := h.carried.good.wellFormed
  have hb := bcs_pos hg
  have hgeometry := hquiet.geometry
  have hlength : (l ++ [u]).length = l.length + 1 := by
    rw [List.length_append, List.length_singleton]
  have hmul := Nat.mul_le_mul_right fs'.bcs (Nat.le_add_right l.length 1)
  refine ⟨h.split, hcarried, h.fixed, ⟨?_, fun hdirty => ?_⟩, ?_, h.pos, h.dword, ?_,
    fun hmid => ?_, fun hok => ?_⟩
  · show (if fp'.sclust = 0 then u else fp'.sclust) = _
    have hsclust := h.rooted.sclust
    cases l with
    | nil =>
      have hsclust' : fp'.sclust = 0 := hsclust
      rw [if_pos hsclust']
      rfl
    | cons c l =>
      have hc := (h.carried.inRange (List.mem_cons_self (a := c) (l := l))).1
      have hsclust' : fp'.sclust = c := hsclust
      rw [if_neg (by omega)]
      exact hsclust
  · rw [hgeometry]
    exact h.rooted.dirty hdirty
  · rw [hgeometry]
    refine ⟨?_, ?_, h.bounded.fptr_lt, h.bounded.fsize_lt⟩
    · rw [hlength]
      exact Nat.le_trans h.bounded.fptr_le hmul
    · rw [hlength]
      exact Nat.le_trans h.bounded.fsize_le hmul
  · rw [hgeometry, hlength]
    have hclusters := h.clusters
    rw [clustersFor_mod hb hmod] at hclusters
    show l.length + 1 = max (q i).length (clustersFor fs'.bcs (fp'.fptr + 1))
    rw [clustersFor_add hb Nat.one_pos (by omega)]
    omega
  · rw [hgeometry] at hmid
    change fp'.fptr % fs'.ssize ≠ 0 at hmid
    have hsplit := mod_bcs fs'.toGeometry fp'.fptr
    omega
  · have hheld := ((h.held hok).quiet h.carried hquiet).append (by rwa [hgeometry])
      (by rw [hgeometry]; exact h.bounded.fsize_le) (by rw [hgeometry]; exact h.bounded.fptr_le) u
    exact ⟨hheld.own, hheld.beyond, hheld.stored⟩

/-- The next cluster of the chain. -/
theorem writeFollow_next
    (h : WriteInv ok pool fs q i fp data total fp'.fptr fs' fp' l written rest)
    (hmod : fp'.fptr % fs'.bcs = 0) {fs'' : FATFS} (hcarried : Carried ok pool fs q i fs'' l)
    (hquiet : Quiet pool fs' fs'') {d : ℕ} (hd : l[fp'.fptr / fs'.bcs]? = some d) :
    WriteAt ok pool fs q i fp data total written rest fp'.fptr fs'.toGeometry
      (writeFollow fs'' fp' d) := by
  have hmem := List.mem_of_getElem? hd
  have hrange := h.carried.inRange hmem
  have htwo := hrange.1
  have hltn := hrange.2
  have hdword := nFatent_lt h.carried.good.wellFormed
  have hfirst : fp'.sclust ≠ 0 := by
    rw [h.rooted.sclust]
    cases l with
    | nil => cases hmem
    | cons c l =>
      have hc := (h.carried.inRange (List.mem_cons_self (a := c) (l := l))).1
      show c ≠ 0
      omega
  have hnext := (h.next hmod (List.getElem?_eq_some_iff.mp hd).1).quiet hcarried hquiet d
  unfold writeFollow
  simp only [hfirst]
  rw [if_neg (by omega), if_neg (by omega), if_neg (by omega)]
  refine .go hnext ?_ rfl hquiet.geometry
  rw [hquiet.geometry]
  exact hd

/-- What `create_chain` has returned. -/
theorem writeFollow_spec
    (h : WriteInv ok pool fs q i fp data total fp'.fptr fs' fp' l written rest)
    (hpointed : fp'.Pointed fs'.toGeometry l) (hmod : fp'.fptr % fs'.bcs = 0) {clst : ℕ}
    (hclst : fp'.fptr = 0 ∧ clst = 0 ∧ l = [] ∨
      0 < fp'.fptr ∧ l[(fp'.fptr - 1) / fs'.bcs]? = some clst) {r : ℕ × FATFS}
    (hr : Stretched ok pool fs q i fs' l clst r) :
    WriteAt ok pool fs q i fp data total written rest fp'.fptr fs'.toGeometry
      (writeFollow r.2 fp' r.1) := by
  have hg := h.carried.good.wellFormed
  have hb := bcs_pos hg
  have hdword := nFatent_lt hg
  have hnext := pred_div_of_dvd hb hmod
  have hinRange (hpos : 0 < fp'.fptr) (hget : l[(fp'.fptr - 1) / fs'.bcs]? = some clst) :
      2 ≤ clst :=
    (h.carried.inRange (List.mem_of_getElem? hget)).1
  -- the position is at the end of the chain
  have hend (hlast : clst = 0 ∧ l = [] ∨ ∃ front, l = front ++ [clst]) :
      fp'.fptr / fs'.bcs = l.length := by
    rcases hclst with ⟨hzero, -, rfl⟩ | ⟨hpos, hget⟩
    · rw [hzero, Nat.zero_div, List.length_nil]
    · obtain ⟨front, rfl⟩ := hlast.resolve_left fun hnew => by
        have htwo := hinRange hpos hget
        omega
      have hindex := (List.getElem?_inj (List.getElem?_eq_some_iff.mp hget).1 h.carried.nodup).mp
        (hget.trans (List.getElem?_concat_length (l := front) (a := clst)).symm)
      rw [← hnext hpos, hindex, List.length_append, List.length_singleton]
  cases hr with
  | full hlast hcarried hquiet hzero =>
    have hlength := hend hlast
    have hdiv := Nat.div_add_mod' fp'.fptr fs'.bcs
    have hinv := h.quiet hcarried hquiet fp'.clust
    refine .ended (by simp) (.full hinv ?_ ?_ hzero)
    · rw [hquiet.geometry]
      exact hpointed
    · rw [hquiet.geometry, ← hlength]
      show fp'.fptr = fp'.fptr / fs'.bcs * fs'.bcs
      omega
  | next front back d hq hcarried hquiet =>
    rcases hclst with ⟨-, -, rfl⟩ | ⟨hpos, hget⟩
    · simp at hq
    · subst hq
      have hat : (front ++ clst :: d :: back)[front.length]? = some clst := by simp
      have hindex := (List.getElem?_inj (List.getElem?_eq_some_iff.mp hget).1 h.carried.nodup).mp
        (hget.trans hat.symm)
      refine writeFollow_next h hmod hcarried hquiet ?_
      rw [← hnext hpos, hindex]
      simp
  | failed hok hcarried hquiet =>
    have hinv := h.quiet hcarried hquiet fp'.clust
    exact .ended (by simp) (.abort hok hcarried h.fixed hinv.rooted)
  | @new fs'' u hu hlast hcarried hquiet =>
    have htwo := hu.1
    have hlt := hu.2
    have hnew := h.new hmod (hend hlast) hcarried hquiet
    have hloc : (l ++ [u])[fp'.fptr / fs''.bcs]? = some u := by
      rw [hquiet.geometry, hend hlast, List.getElem?_concat_length]
    show WriteAt ok pool fs q i fp data total written rest _ _ (writeFollow fs'' fp' u)
    unfold writeFollow
    rw [if_neg (by omega), if_neg (by omega), if_neg (by omega)]
    by_cases hfirst : fp'.sclust = 0
    · simp only [hfirst, if_true] at hnew ⊢
      exact .go hnew hloc rfl hquiet.geometry
    · simp only [hfirst, if_false] at hnew ⊢
      exact .go hnew hloc rfl hquiet.geometry

/-- Follow or stretch the chain. -/
theorem writeCluster_spec
    (h : WriteInv ok pool fs q i fp data total fp'.fptr fs' fp' l written rest)
    (hpointed : fp'.Pointed fs'.toGeometry l) (hmod : fp'.fptr % fs'.bcs = 0) {fuel : ℕ}
    (hfuel : fs.nFatent < fuel) :
    Ensures (writeCluster fuel fs' fp')
      (WriteAt ok pool fs q i fp data total written rest fp'.fptr fs'.toGeometry) := by
  have hsclust := h.rooted.sclust
  unfold writeCluster
  by_cases hzero : fp'.fptr = 0
  · rw [if_pos hzero]
    cases l with
    | nil =>
      have hsclust' : fp'.sclust = 0 := hsclust
      rw [if_pos hsclust']
      exact .map ((h.carried.createChain (.inl ⟨rfl, rfl⟩) hfuel).mono fun r hr =>
        writeFollow_spec h hpointed hmod (.inl ⟨hzero, rfl, rfl⟩) hr)
    | cons c l =>
      have hc := (h.carried.inRange (List.mem_cons_self (a := c) (l := l))).1
      have hsclust' : fp'.sclust = c := hsclust
      rw [if_neg (by omega), hsclust']
      refine .pure (writeFollow_next h hmod h.carried .rfl ?_)
      rw [hzero, Nat.zero_div]
      rfl
  · have hpos := Nat.pos_of_ne_zero hzero
    have hget := hpointed hpos
    rw [if_neg hzero]
    exact .map ((h.carried.createChain (.inr (List.mem_of_getElem? hget)) hfuel).mono fun r hr =>
      writeFollow_spec h hpointed hmod (.inr ⟨hpos, hget⟩) hr)

/-- A sector that is to be written in part comes into the sector buffer. -/
theorem writeLoad_spec (data : ℕ → Option UInt8) (h : Carried ok pool fs q i fs' l)
    (hloc : fp'.Located fs'.toGeometry l)
    (hclean : fp'.faDirty = false) (hmod : fp'.fptr % fs'.ssize = 0) {sect : ℕ}
    (hsect : sect = fs'.place l (fp'.fptr / fs'.ssize)) :
    Carried ok pool fs q i (writeLoad fs' fp' sect).2.1 l ∧
      (writeLoad fs' fp' sect).2.1.toGeometry = fs'.toGeometry ∧
        (∃ buf, (writeLoad fs' fp' sect).2.2 = { fp' with buf := buf }) ∧
          (ok → (writeLoad fs' fp' sect).1 = true ∧ (fp'.Holds fs' l data →
            FIL.Holds (writeLoad fs' fp' sect).2.1 l
              { (writeLoad fs' fp' sect).2.2 with dsect := sect } data)) := by
  have hg := h.good.wellFormed
  have hlt := hloc.lt hg
  have hsplit := Nat.div_add_mod' fp'.fptr fs'.ssize
  unfold writeLoad
  by_cases hload : fp'.dsect ≠ sect ∧ fp'.fptr < fp'.fsize
  · rw [if_pos hload]
    exact fill_spec h fp' data hclean hlt hsect
  · rw [if_neg hload]
    refine ⟨h, rfl, ⟨fp'.buf, rfl⟩, fun _ => ⟨rfl, fun hheld => ⟨fun hdirty => ?_, hheld.beyond,
      fun k o b hk ho hdata => ?_⟩⟩⟩
    · exact absurd (hdirty.symm.trans hclean) (by simp)
    · change k < l.length * fs'.csize at hk
      change o < fs'.ssize at ho
      change data (k * fs'.ssize + o) = some b at hdata
      obtain ⟨hbuf, hdisk⟩ := hheld.stored k o b hk ho hdata
      refine ⟨fun hsame => ?_, fun _ => hdisk fun hdirty =>
        absurd (hdirty.2.symm.trans hclean) (by simp)⟩
      have hplace : fs'.place l (fp'.fptr / fs'.ssize) = fs'.place l k := hsect.symm.trans hsame
      have hsector : fp'.fptr / fs'.ssize = k := by
        by_contra hne
        exact h.place_ne hlt hk hne hplace
      by_cases hdsect : fp'.dsect = sect
      · exact hbuf (hdsect.trans hsame)
      · -- at the growing edge there is no byte yet
        rw [← hsector, hheld.beyond _ (by omega) (by omega)] at hdata
        cases hdata

/-- A sector in part. -/
theorem writeLoad_next
    (h : WriteInv ok pool fs q i fp data total (fp'.fptr + 1) fs' fp' l written rest)
    (hrest : rest ≠ []) (hloc : fp'.Located fs'.toGeometry l) (hclean : fp'.faDirty = false)
    (hmod : fp'.fptr % fs'.ssize = 0) {sect : ℕ}
    (hsect : sect = fs'.place l (fp'.fptr / fs'.ssize)) :
    WriteNext ok pool fs q i fp data total rest (match writeLoad fs' fp' sect with
      | (done, fs', fp') =>
        if ¬ done then .done (.abort .diskErr, fs', fp', rest)
        else writePart fs' { fp' with dsect := sect } rest) := by
  obtain ⟨hcarried, hgeometry, ⟨buf, hfp⟩, hload⟩ :=
    writeLoad_spec (overwrite data fp.fptr written) h.carried hloc hclean hmod hsect
  rcases hr : writeLoad fs' fp' sect with ⟨done, fs₁, fp₁⟩
  rw [hr] at hcarried hgeometry hfp hload
  have hgeometry' : fs₁.toGeometry = fs'.toGeometry := hgeometry
  have hfp' : fp₁ = { fp' with buf := buf } := hfp
  subst hfp'
  have hrooted : fp'.Rooted fs₁.toGeometry pool l := by
    rw [hgeometry']
    exact h.rooted
  cases done with
  | false =>
    have hok : ¬ ok := fun hok => absurd (hload hok).1 (by simp)
    exact .abort hok hcarried h.fixed ⟨hrooted.sclust, hrooted.dirty⟩
  | true =>
    have hinv : WriteInv ok pool fs q i fp data total (fp'.fptr + 1) fs₁
        { fp' with buf := buf, dsect := sect } l written rest := by
      refine ⟨h.split, hcarried, h.fixed, ⟨hrooted.sclust, fun hdirty => ?_⟩, ?_, h.pos, h.dword,
        ?_, fun hmid => ?_, fun hok => (hload hok).2 (h.held hok)⟩
      · exact absurd (hdirty.symm.trans hclean) (by simp)
      · rw [hgeometry']
        exact ⟨h.bounded.fptr_le, h.bounded.fsize_le, h.bounded.fptr_lt, h.bounded.fsize_lt⟩
      · rw [hgeometry']
        exact h.clusters
      · rw [hgeometry'] at hmid
        exact absurd hmod hmid
    refine writePart_next hinv hrest ?_ ?_
    · rw [hgeometry']
      exact hloc
    · rw [hgeometry']
      exact hsect

/-- At the beginning of a sector. -/
theorem writeSector_next
    (h : WriteInv ok pool fs q i fp data total (fp'.fptr + 1) fs' fp' l written rest)
    (hrest : rest ≠ []) (hloc : fp'.Located fs'.toGeometry l)
    (hmod : fp'.fptr % fs'.ssize = 0) :
    WriteNext ok pool fs q i fp data total rest
      (writeSector fs' fp' rest (fs'.csect fp'.fptr)) := by
  obtain ⟨hcarried, hres, hgeometry, hheld⟩ :=
    writeBack_spec h.carried h.rooted h.held
  unfold writeSector
  rcases hr : writeBack fs' fp' with ⟨done, fs₁, fp₁⟩
  rw [hr] at hcarried hres hgeometry hheld
  have hgeometry' : fs₁.toGeometry = fs'.toGeometry := hgeometry
  rcases hres with ⟨hdone, hfp⟩ | ⟨hdone, hfp, hok⟩
  · have hdone' : done = true := hdone
    have hfp' : fp₁ = { fp' with faDirty := false } := hfp
    subst hdone'
    subst hfp'
    have hinv : WriteInv ok pool fs q i fp data total (fp'.fptr + 1) fs₁
        { fp' with faDirty := false } l written rest := by
      refine ⟨h.split, hcarried, h.fixed, ⟨h.rooted.sclust, fun hdirty => ?_⟩, ?_, h.pos, h.dword,
        ?_, ?_, hheld⟩
      · cases hdirty
      · rw [hgeometry']
        exact ⟨h.bounded.fptr_le, h.bounded.fsize_le, h.bounded.fptr_lt, h.bounded.fsize_lt⟩
      · rw [hgeometry']
        exact h.clusters
      · rw [hgeometry']
        exact h.aligned
    have hgood := hcarried.good
    have hloc' : FIL.Located fs₁.toGeometry l { fp' with faDirty := false } := by
      rw [hgeometry']
      exact hloc
    have hmod' : fp'.fptr % fs₁.ssize = 0 := by rwa [hgeometry']
    obtain ⟨hne, hsect⟩ := hloc'.sector hgood.wellFormed hgood.sized fun _ => hcarried.inRange
    have hcsect : fs'.csect fp'.fptr = fs₁.csect fp'.fptr := by rw [hgeometry']
    rw [hcsect]
    simp only [not_true_eq_false, if_false]
    rw [if_neg hne]
    by_cases hdirect : rest.length / fs₁.ssize ≠ 0
    · rw [if_pos hdirect]
      refine writeSectors_next hinv hloc' hmod' rfl hdirect hsect ?_
      rw [csect_eq hgood.sized]
    · rw [if_neg hdirect]
      exact writeLoad_next hinv hrest hloc' rfl hmod' hsect
  · have hdone' : done = false := hdone
    have hfp' : fp₁ = fp' := hfp
    subst hdone'
    subst hfp'
    refine .abort hok hcarried h.fixed ?_
    rw [hgeometry']
    exact h.rooted

/-- Inside of a cluster. -/
theorem WriteInv.mid (h : WriteInv ok pool fs q i fp data total fp'.fptr fs' fp' l written rest)
    (hmid : fp'.fptr % fs'.bcs ≠ 0) :
    WriteInv ok pool fs q i fp data total (fp'.fptr + 1) fs' fp' l written rest := by
  have hb := bcs_pos h.carried.good.wellFormed
  have hlt := Nat.mod_lt fp'.fptr hb
  refine ⟨h.split, h.carried, h.fixed, h.rooted, h.bounded, h.pos, h.dword, ?_, h.aligned, h.held⟩
  rw [clustersFor_add hb Nat.one_pos (by omega), ← clustersFor_of_mod hmid hb]
  exact h.clusters

theorem writeRound_next
    (h : WriteInv ok pool fs q i fp data total fp'.fptr fs' fp' l written rest)
    (hpointed : fp'.Pointed fs'.toGeometry l) {fuel : ℕ} (hfuel : fs.nFatent < fuel) :
    Ensures (writeRound fuel (fs', fp', rest)) (WriteNext ok pool fs q i fp data total rest) := by
  have hgood := h.carried.good
  have hg := hgood.wellFormed
  have hbcs := mod_bcs fs'.toGeometry fp'.fptr
  unfold writeRound
  refine .ite (fun hnil => ?_) fun hrest => ?_
  · subst hnil
    exact .pure (.go h hpointed)
  · refine .ite (fun hmod => ?_) fun hmid => ?_
    · by_cases hfirst : fs'.csect fp'.fptr = 0
      · have hcluster : fp'.fptr % fs'.bcs = 0 := by
          rw [csect_eq hgood.sized] at hfirst
          rw [hbcs, hmod, hfirst, Nat.mul_zero]
        simp only [hfirst, if_true]
        refine .map ((writeCluster_spec h hpointed hcluster hfuel).mono fun r hr => ?_)
        cases hr with
        | go hinv hloc hfptr hgeometry =>
          have hnext := writeSector_next hinv hrest hloc (by rw [hfptr, hgeometry]; exact hmod)
          rw [hfptr, hgeometry, hfirst] at hnext
          exact hnext
        | @ended stage fs₁ fp₁ hne hended =>
          cases stage with
          | go => exact absurd rfl hne
          | full => exact hended
          | abort res => exact hended
      · have hmid : fp'.fptr % fs'.bcs ≠ 0 := by
          rw [csect_eq hgood.sized] at hfirst
          have hpos := Nat.mul_pos hg.ssize_pos (Nat.pos_of_ne_zero hfirst)
          omega
        simp only [hfirst, if_false]
        exact .pure (writeSector_next (h.mid hmid) hrest (hpointed.located hmid) hmod)
    · have hmid' : fp'.fptr % fs'.bcs ≠ 0 := by omega
      exact .pure (writePart_next (h.mid hmid') hrest (hpointed.located hmid')
        (h.aligned hmid))

/-- The loop of `f_write`. -/
theorem writeLoop (h : WriteInv ok pool fs q i fp data total fp'.fptr fs' fp' l written rest)
    (hpointed : fp'.Pointed fs'.toGeometry l) {fuel : ℕ} (hfuel : fs.nFatent < fuel)
    (hlength : rest.length < fuel) :
    Ensures (loop (writeRound fuel) fuel (fs', fp', rest))
      (WriteEnded ok pool fs q i fp data total) := by
  refine Ensures.loop (I := fun st => ∃ l written, WriteInv ok pool fs q i fp data total
    st.2.1.fptr st.1 st.2.1 l written st.2.2 ∧ st.2.1.Pointed st.1.toGeometry l)
    (m := fun st => st.2.2.length) (fun st hst => ?_) ⟨l, written, h, hpointed⟩ hlength
  obtain ⟨l, written, hinv, hpointed⟩ := hst
  refine (writeRound_next hinv hpointed hfuel).mono fun r hr => ?_
  cases r with
  | again st' => exact hr
  | done r => exact hr

/-- The members of the file after a transfer. -/
theorem WriteInv.outcome {f : Content} {buff : List UInt8} (hfp : fp.Is ok pool fs (q i) f)
    (hwrite : fp.faWrite = true) (herr : fp.err = .ok)
    (h : WriteInv ok pool fs q i fp f.data total fp'.fptr fs' fp' l written rest)
    (hpointed : fp'.Pointed fs'.toGeometry l) (htake : buff.take written.length = written)
    (hfull : ok → written.length = min (if f.pos + buff.length < 2 ^ 32 then buff.length else 0)
      ((f.clusters + fs.nfree) * fs.bcs - f.pos)) :
    Outcome ok pool fs q i f (.write buff) (.write .ok written.length) fs'
      { (if fp'.fsize < fp'.fptr then { fp' with fsize := fp'.fptr } else fp') with
        faWritten := true } := by
  have hmax : ({ (if fp'.fsize < fp'.fptr then { fp' with fsize := fp'.fptr } else fp') with
      faWritten := true } : FIL) =
        { fp' with fsize := max fp'.fsize fp'.fptr, faWritten := true } := by
    split_ifs with hlt
    · rw [Nat.max_eq_right (Nat.le_of_lt hlt)]
    · rw [Nat.max_eq_left (Nat.not_lt.mp hlt)]
  have hbounded := h.bounded
  have hpos := h.pos
  have hfsize := fsize_of_fixed h.fixed
  have hbcs : fs'.bcs = fs.bcs := congrArg Geometry.bcs h.carried.frame.geometry
  have hclusters := h.clusters
  rw [hbcs] at hclusters
  rw [hmax]
  refine ⟨l, f.write fs.bcs written, h.carried, ⟨⟨h.rooted.sclust, h.rooted.dirty⟩, fun _ =>
    ⟨⟨hbounded.fptr_le, Nat.max_le.mpr ⟨hbounded.fsize_le, hbounded.fptr_le⟩, hbounded.fptr_lt,
      Nat.max_lt.mpr ⟨hbounded.fsize_lt, hbounded.fptr_lt⟩⟩, hpointed, h.aligned,
      Nat.le_max_right _ _⟩, (faRead_of_fixed h.fixed).trans hfp.readable,
    (faWrite_of_fixed h.fixed).trans hfp.writable, (entry_of_fixed h.fixed).trans hfp.entry,
    fun hok => ?_⟩, fun hok => ?_⟩
  · have hheld := hfp.held hok
    have hdata := h.held hok
    rw [hheld.fptr] at hdata
    have hptr : fp'.fptr = f.pos + written.length := by rw [hpos, hheld.fptr]
    refine ⟨(err_of_fixed h.fixed).trans herr, hptr, ?_, ?_, ⟨hdata.own, fun p hsize hp => ?_, ?_⟩⟩
    · show max fp'.fsize fp'.fptr = max f.size (f.pos + written.length)
      rw [hfsize, hheld.fsize, hptr]
    · show l.length = max f.clusters (clustersFor fs.bcs (f.pos + written.length))
      rw [hclusters, hheld.clusters, hptr]
    · exact hdata.beyond p (Nat.le_trans (Nat.le_max_left _ _) hsize) hp
    · exact hdata.stored
  · have hheld := hfp.held hok
    have hdoes : fs'.nfree + (f.write fs.bcs (buff.take written.length)).clusters =
        fs.nfree + f.clusters → Does fs.bcs f fs.nfree (.write buff) (.write .ok written.length)
          (f.write fs.bcs (buff.take written.length)) fs'.nfree :=
      .write buff written.length fs'.nfree (hfp.writable ▸ hwrite) (hfull hok)
    rw [htake] at hdoes
    have hlen : (f.write fs.bcs written).clusters = l.length := by
      show max f.clusters (clustersFor fs.bcs (f.pos + written.length)) = l.length
      rw [hclusters, hheld.clusters, hpos, hheld.fptr]
    refine hdoes ?_
    rw [hlen, h.carried.nfree hok, hheld.clusters]

/-- **Writing a file.** On any device, only the chain of the file is stretched; one that does not
fail has the bytes then, as far as there are free clusters for them. -/
theorem fWrite_outcome {f : Content} (h : Good ok pool fs q) (hfp : fp.Is ok pool fs (q i) f)
    (buff : List UInt8) (hbuff : buff.length < 2 ^ 32) {fuel : ℕ} (hfuel : fs.nFatent < fuel)
    (hlength : buff.length < fuel) :
    Ensures (fWrite fuel fs fp buff) fun r =>
      Outcome ok pool fs q i f (.write buff) (.write r.1 r.2.1) r.2.2.1 r.2.2.2 := by
  have hmounted := h.wellFormed.mounted
  have hvalid : validate fs = .ok := if_neg hmounted
  unfold fWrite
  rw [hvalid, if_neg (by simp)]
  refine .ite (fun herr => ?_) fun herr => .ite (fun hdenied => ?_) fun hwrite => ?_
  · refine .pure ⟨q i, f, .start h, hfp, fun hok => absurd (hfp.held hok).err herr⟩
  · refine .pure ⟨q i, f, .start h, hfp, fun hok => ?_⟩
    refine .writeDenied ?_
    rw [← hfp.writable]
    simpa using hdenied
  · obtain ⟨hbounded, hpointed, haligned, hle⟩ := hfp.bounded (not_not.mp herr)
    have hlt := hbounded.fptr_lt
    generalize htotal : (if (fp.fptr + buff.length) % 2 ^ 32 < fp.fptr then [] else buff) = total
    have hwhich : total = if fp.fptr + buff.length < 2 ^ 32 then buff else [] := by
      rw [← htotal]
      split_ifs <;> first | rfl | omega
    have hsum : fp.fptr + total.length < 2 ^ 32 ∧ total.length ≤ buff.length ∧
        total.length = if fp.fptr + buff.length < 2 ^ 32 then buff.length else 0 := by
      rw [hwhich]
      split_ifs
      · omega
      · exact ⟨hlt, Nat.zero_le _, rfl⟩
    have htake (written rest : List UInt8) (heq : total = written ++ rest) :
        buff.take written.length = written := by
      rw [hwhich] at heq
      split_ifs at heq
      · rw [heq, List.take_left]
      · obtain ⟨rfl, -⟩ := List.append_eq_nil_iff.mp heq.symm
        rfl
    have hinv : WriteInv ok pool fs q i fp f.data total fp.fptr fs fp (q i) [] total := by
      refine ⟨rfl, .start h, rfl, hfp.rooted, hbounded, rfl, hsum.1, ?_, haligned, fun hok => ?_⟩
      · exact (Nat.max_eq_left (clustersFor_le (bcs_pos h.wellFormed) hbounded.fptr_le)).symm
      · rw [overwrite_nil]
        exact (hfp.held hok).holds
    -- the clusters there are
    have hreach {fs' : FATFS} {fp' : FIL} {l : List ℕ} {written rest : List UInt8}
        (hinv : WriteInv ok pool fs q i fp f.data total fp'.fptr fs' fp' l written rest)
        (hok : ok) : f.pos + written.length ≤ (f.clusters + fs.nfree) * fs.bcs ∧
          (fp'.fptr = l.length * fs'.bcs → fs'.nfree = 0 →
            f.pos + written.length = (f.clusters + fs.nfree) * fs.bcs) := by
      have hbcs : fs'.bcs = fs.bcs := congrArg Geometry.bcs hinv.carried.frame.geometry
      have hle := hinv.bounded.fptr_le
      have hnfree := hinv.carried.nfree hok
      rw [(hfp.held hok).clusters, Nat.add_comm fs.nfree] at hnfree
      rw [hbcs, hinv.pos, (hfp.held hok).fptr] at hle ⊢
      refine ⟨Nat.le_trans hle (Nat.mul_le_mul_right _ (by omega)), fun hend hzero => ?_⟩
      rw [hend, ← hnfree, hzero, Nat.zero_add]
    refine .map ((writeLoop hinv hpointed hfuel (by omega)).mono fun r hr => ?_)
    cases hr with
    | @go fs' fp' l written hinv hpointed =>
      have hsplit := hinv.split
      rw [List.append_nil] at hsplit
      subst hsplit
      refine hinv.outcome hfp (by simpa using hwrite) (not_not.mp herr) hpointed
        (htake total [] (List.append_nil total).symm) fun hok => ?_
      have hheld := hfp.held hok
      have hfit := (hreach hinv hok).1
      rw [hsum.2.2, hheld.fptr] at hfit ⊢
      omega
    | @full fs' fp' l written rest hinv hpointed hend hzero =>
      have hsplit := hinv.split
      have hlen : total.length - rest.length = written.length := by
        rw [hsplit, List.length_append, Nat.add_sub_cancel]
      have hgoal := hinv.outcome hfp (by simpa using hwrite) (not_not.mp herr) hpointed
        (htake written rest hsplit) fun hok => ?_
      · rw [← hlen] at hgoal
        exact hgoal
      · have hheld := hfp.held hok
        have hfit := (hreach hinv hok).2 hend hzero
        have hlen := congrArg List.length hsplit
        rw [List.length_append, hsum.2.2, hheld.fptr] at hlen
        omega
    | abort hok hcarried hfixed hrooted =>
      exact outcome_of_error hfp hok (by simp) hcarried (entry_of_fixed hfixed)
        (faRead_of_fixed hfixed) (faWrite_of_fixed hfixed) hrooted

end Write

end OlivePiccolo.FatFs
