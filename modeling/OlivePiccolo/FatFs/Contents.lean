import OlivePiccolo.FatFs.Volume

/-!
# Contents of a file

The bytes of an open file are in its sector buffer and in the sectors of its clusters. `Bounded` and
`Pointed` say where the members of `FIL` point to, on any device; `Holds` says which bytes the file
has, on one that does not fail. A byte that has not been written is `none`, and may be read as
anything.
-/

namespace OlivePiccolo.FatFs

/-! ## What a file is to its user -/

/-- An open file, as its user sees it, and how many clusters it has. -/
structure Content where
  readable : Bool
  writable : Bool
  pos : ℕ
  size : ℕ
  clusters : ℕ
  /-- The sector of its directory entry, and where it is there. -/
  entry : ℕ × ℕ
  data : ℕ → Option UInt8

/-- A call. -/
inductive Call
  | read (btr : ℕ)
  | write (buff : List UInt8)
  | lseek (ofs : ℕ)
  | truncate

/-- What a call returns. -/
inductive Reply
  | read (res : FResult) (bytes : List UInt8)
  | write (res : FResult) (bw : ℕ)
  | done (res : FResult)

/-- How many clusters these bytes need. -/
def clustersFor (bcs n : ℕ) : ℕ := (n + bcs - 1) / bcs

/-- The bytes from a position on are others. -/
def overwrite (data : ℕ → Option UInt8) (pos : ℕ) (bytes : List UInt8) (p : ℕ) : Option UInt8 :=
  if pos ≤ p then (bytes[p - pos]?).or (data p) else data p

/-- The bytes are those of a file from a position on. -/
def Reads (data : ℕ → Option UInt8) (pos : ℕ) (l : List UInt8) : Prop :=
  ∀ k b, k < l.length → data (pos + k) = some b → l[k]? = some b

theorem reads_append {data : ℕ → Option UInt8} {pos : ℕ} {l l' : List UInt8}
    (h : Reads data pos l) (h' : Reads data (pos + l.length) l') : Reads data pos (l ++ l') := by
  intro k b hk hdata
  by_cases hlt : k < l.length
  · rw [List.getElem?_append_left hlt]
    exact h k b hlt hdata
  · rw [List.getElem?_append_right (Nat.not_lt.mp hlt)]
    rw [List.length_append] at hk
    refine h' (k - l.length) b (by omega) ?_
    rwa [Nat.add_assoc, Nat.add_sub_cancel' (Nat.not_lt.mp hlt)]

/-- The position is moved to where the clusters reach. -/
def Content.seek (bcs free ofs : ℕ) (f : Content) : Content :=
  let ofs := if f.size < ofs ∧ ¬ f.writable then f.size else ofs
  let pos := min ofs ((f.clusters + free) * bcs)
  { f with pos := pos, size := max f.size pos, clusters := max f.clusters (clustersFor bcs pos) }

/-- Bytes are written as far as the clusters reach. -/
def Content.write (bcs : ℕ) (bytes : List UInt8) (f : Content) : Content :=
  let pos := f.pos + bytes.length
  { f with
    pos := pos
    size := max f.size pos
    clusters := max f.clusters (clustersFor bcs pos)
    data := overwrite f.data f.pos bytes }

/-- The file ends at its position. -/
def Content.truncate (bcs : ℕ) (f : Content) : Content :=
  if f.pos < f.size then
    { f with
      size := f.pos
      clusters := clustersFor bcs f.pos
      data := fun p => if p < f.pos then f.data p else none }
  else f

/-- What a call does with a file, and the number of free clusters. -/
inductive Does (bcs : ℕ) (f : Content) (free : ℕ) : Call → Reply → Content → ℕ → Prop
  | read (n : ℕ) (bytes : List UInt8) : f.readable = true →
      bytes.length = min n (f.size - f.pos) → Reads f.data f.pos bytes →
      Does bcs f free (.read n) (.read .ok bytes) { f with pos := f.pos + bytes.length } free
  | readDenied {n : ℕ} : f.readable = false →
      Does bcs f free (.read n) (.read .denied []) f free
  | write (buff : List UInt8) (k free' : ℕ) : f.writable = true →
      k = min (if f.pos + buff.length < 2 ^ 32 then buff.length else 0)
        ((f.clusters + free) * bcs - f.pos) →
      free' + (f.write bcs (buff.take k)).clusters = free + f.clusters →
      Does bcs f free (.write buff) (.write .ok k) (f.write bcs (buff.take k)) free'
  | writeDenied {buff : List UInt8} : f.writable = false →
      Does bcs f free (.write buff) (.write .denied 0) f free
  | lseek (ofs free' : ℕ) :
      free' + (f.seek bcs free ofs).clusters = free + f.clusters →
      Does bcs f free (.lseek ofs) (.done .ok) (f.seek bcs free ofs) free'
  | truncate (free' : ℕ) : f.writable = true →
      free' + (f.truncate bcs).clusters = free + f.clusters →
      Does bcs f free .truncate (.done .ok) (f.truncate bcs) free'
  | truncateDenied : f.writable = false → Does bcs f free .truncate (.done .denied) f free

/-! ## What it is on the volume -/

/-- The members of `FIL` that are right even after an error. -/
structure FIL.Rooted (g : Geometry) (pool : ℕ → Prop) (l : List ℕ) (fp : FIL) : Prop where
  sclust : fp.sclust = (l.head?).getD 0
  dirty : fp.faDirty = true → ∃ c, g.InRange c ∧ pool c ∧ g.InClust c fp.dsect

/-- The position and the size are in the clusters of the file. -/
structure FIL.Bounded (g : Geometry) (l : List ℕ) (fp : FIL) : Prop where
  fptr_le : fp.fptr ≤ l.length * g.bcs
  fsize_le : fp.fsize ≤ l.length * g.bcs
  fptr_lt : fp.fptr < 2 ^ 32
  fsize_lt : fp.fsize < 2 ^ 32

/-- The current cluster is that of the byte in front. -/
def FIL.Pointed (g : Geometry) (l : List ℕ) (fp : FIL) : Prop :=
  0 < fp.fptr → l[(fp.fptr - 1) / g.bcs]? = some fp.clust

/-- The position is in a cluster. -/
def FIL.Located (g : Geometry) (l : List ℕ) (fp : FIL) : Prop :=
  l[fp.fptr / g.bcs]? = some fp.clust

/-- The byte is in the sector, or is to be written there. -/
def Stored (fs : FATFS) (fp : FIL) (s o : ℕ) (b : UInt8) : Prop :=
  (fp.dsect = s → fp.buf o = b) ∧ (¬ (fp.dsect = s ∧ fp.faDirty = true) → fs.disk.sectors s o = b)

/-- Inside of a sector, the buffer is this sector. -/
def FIL.Aligned (g : Geometry) (l : List ℕ) (fp : FIL) : Prop :=
  fp.fptr % g.ssize ≠ 0 → fp.dsect = g.place l (fp.fptr / g.ssize)

/-- The bytes of a file. -/
structure FIL.Holds (fs : FATFS) (l : List ℕ) (fp : FIL) (data : ℕ → Option UInt8) : Prop where
  own : fp.faDirty = true → ∃ k < l.length * fs.csize, fp.dsect = fs.place l k
  beyond : ∀ p, fp.fsize ≤ p → fp.fptr ≤ p → data p = none
  stored : ∀ k o b, k < l.length * fs.csize → o < fs.ssize → data (k * fs.ssize + o) = some b →
    Stored fs fp (fs.place l k) o b

/-- The members that a transfer leaves as they are. -/
def FIL.fixed (fp : FIL) : Bool × Bool × FResult × ℕ × ℕ × ℕ :=
  (fp.faRead, fp.faWrite, fp.err, fp.fsize, fp.dirSect, fp.dirPtr)

/-- Nothing has happened to the other files. -/
structure Frame {ι : Type*} (ok : Prop) (q : ι → List ℕ) (i : ι) (fs fs' : FATFS) : Prop where
  geometry : fs'.toGeometry = fs.toGeometry
  sectors : ok → ∀ j, j ≠ i → ∀ c ∈ q j, ∀ s, fs.InClust c s →
    fs'.disk.sectors s = fs.disk.sectors s

section Fixed

variable {fp fp' : FIL}

theorem faRead_of_fixed (h : fp'.fixed = fp.fixed) : fp'.faRead = fp.faRead := congrArg (·.1) h

theorem faWrite_of_fixed (h : fp'.fixed = fp.fixed) : fp'.faWrite = fp.faWrite :=
  congrArg (·.2.1) h

theorem err_of_fixed (h : fp'.fixed = fp.fixed) : fp'.err = fp.err := congrArg (·.2.2.1) h

theorem fsize_of_fixed (h : fp'.fixed = fp.fixed) : fp'.fsize = fp.fsize := congrArg (·.2.2.2.1) h

theorem entry_of_fixed (h : fp'.fixed = fp.fixed) :
    (fp'.dirSect, fp'.dirPtr) = (fp.dirSect, fp.dirPtr) := congrArg (·.2.2.2.2) h

end Fixed

section Frame

variable {ι : Type*} {ok : Prop} {pool : ℕ → Prop} {q : ι → List ℕ} {i : ι} {fs fs' fs'' : FATFS}

theorem Frame.rfl : Frame ok q i fs fs := ⟨Eq.refl _, fun _ _ _ _ _ _ _ => Eq.refl _⟩

theorem Frame.trans (h : Frame ok q i fs fs') (h' : Frame ok q i fs' fs'') :
    Frame ok q i fs fs'' := by
  refine ⟨h'.geometry.trans h.geometry, fun hok j hij c hc s hs => ?_⟩
  rw [h'.sectors hok j hij c hc s (by rwa [h.geometry]), h.sectors hok j hij c hc s hs]

theorem Quiet.frame (h : Quiet pool fs fs') (hgood : Good ok pool fs q) : Frame ok q i fs fs' :=
  ⟨h.geometry, fun _ j _ c hc s hs =>
    h.sectors c s (hgood.inRange hc) (hgood.owned j c hc) hs⟩

end Frame

/-! ## Positions -/

section Position

variable {g : Geometry} {l : List ℕ} {fp : FIL} {n p : ℕ}

theorem bcs_pos (hg : g.WellFormed) : 0 < g.bcs := Nat.mul_pos hg.csize_pos hg.ssize_pos

theorem div_bcs (g : Geometry) (p : ℕ) : p / g.ssize / g.csize = p / g.bcs := by
  rw [Nat.div_div_eq_div_mul, Geometry.bcs, Nat.mul_comm]

theorem mod_bcs (g : Geometry) (p : ℕ) :
    p % g.bcs = p % g.ssize + g.ssize * (p / g.ssize % g.csize) := by
  rw [Geometry.bcs, Nat.mul_comm, Nat.mod_mul]

/-- Inside of a cluster, it is the one of the byte in front. -/
theorem pred_div (hp : p % n ≠ 0) : (p - 1) / n = p / n := by
  have hpos : 0 < n ∨ n = 0 := by omega
  rcases hpos with hpos | rfl
  · rw [Nat.div_eq_iff hpos]
    have hsplit := Nat.div_add_mod p n
    have hlt := Nat.mod_lt p hpos
    rw [Nat.mul_comm] at hsplit
    constructor <;> omega
  · rw [Nat.div_zero, Nat.div_zero]

/-- At the beginning of a cluster, the byte in front is in the one in front. -/
theorem pred_div_of_dvd (hpos : 0 < n) (hp : p % n = 0) (hne : 0 < p) :
    (p - 1) / n + 1 = p / n := by
  obtain ⟨m, rfl⟩ := Nat.dvd_of_mod_eq_zero hp
  rw [Nat.mul_div_cancel_left m hpos]
  obtain ⟨k, rfl⟩ : ∃ k, m = k + 1 := ⟨m - 1, by
    have hm := Nat.pos_of_mul_pos_left hne
    omega⟩
  have hdiv : (n * (k + 1) - 1) / n = k := by
    rw [Nat.div_eq_iff hpos, Nat.mul_succ, Nat.mul_comm k n]
    omega
  rw [hdiv]

/-- Inside of a sector, a position that moves on in it is of the same one. -/
theorem add_div_of_mid {r : ℕ} (hpos : 0 < n) (hle : p % n + r ≤ n) (hmid : (p + r) % n ≠ 0) :
    (p + r) / n = p / n := by
  have hsplit : p + r = p % n + r + n * (p / n) := by
    have hdiv := Nat.div_add_mod p n
    omega
  rw [hsplit, Nat.add_mul_mod_self_left] at hmid
  have hlt : p % n + r < n := by
    refine Nat.lt_of_le_of_ne hle fun heq => hmid ?_
    rw [heq, Nat.mod_self]
  rw [hsplit, Nat.add_mul_div_left _ _ hpos, Nat.div_eq_of_lt hlt, Nat.zero_add]

theorem FIL.Pointed.located (h : fp.Pointed g l) (hp : fp.fptr % g.bcs ≠ 0) : fp.Located g l := by
  have hpos : 0 < fp.fptr := Nat.pos_of_ne_zero fun hzero => hp (by rw [hzero, Nat.zero_mod])
  have hclust := h hpos
  rwa [pred_div hp] at hclust

/-- The sectors from a position on that are in the cluster. -/
theorem FIL.Located.add_lt (h : fp.Located g l) {j : ℕ}
    (hj : fp.fptr / g.ssize % g.csize + j < g.csize) :
    fp.fptr / g.ssize + j < l.length * g.csize := by
  have hindex := (List.getElem?_eq_some_iff.mp h).1
  rw [← div_bcs] at hindex
  have hle := Nat.mul_le_mul_right g.csize (show _ + 1 ≤ l.length from hindex)
  have hsplit := Nat.div_add_mod' (fp.fptr / g.ssize) g.csize
  rw [Nat.succ_mul] at hle
  omega

theorem FIL.Located.lt (h : fp.Located g l) (hg : g.WellFormed) :
    fp.fptr / g.ssize < l.length * g.csize :=
  h.add_lt (j := 0) (Nat.mod_lt _ hg.csize_pos)

/-- The sector at a position. -/
theorem FIL.Located.sector (h : fp.Located g l) (hg : g.WellFormed) (hs : g.Sized)
    (hl : ∀ c ∈ l, g.InRange c) :
    g.clust2sect fp.clust ≠ 0 ∧
      g.clust2sect fp.clust + g.csect fp.fptr = g.place l (fp.fptr / g.ssize) := by
  have hc := hl _ (List.mem_of_getElem? h)
  obtain ⟨heq, hne⟩ := clust2sect_eq hg hc
  rw [heq]
  refine ⟨hne, ?_⟩
  rw [Geometry.place, div_bcs, h, csect_eq hs]
  rfl

/-- A place of a list and the next one. -/
theorem split_pair {k c d : ℕ} (hc : l[k]? = some c) (hd : l[k + 1]? = some d) :
    ∃ front back, l = front ++ c :: d :: back := by
  obtain ⟨hk, hc⟩ := List.getElem?_eq_some_iff.mp hc
  obtain ⟨hk', hd⟩ := List.getElem?_eq_some_iff.mp hd
  refine ⟨l.take k, l.drop (k + 2), ?_⟩
  rw [← hc, ← hd, ← List.drop_eq_getElem_cons, ← List.drop_eq_getElem_cons, List.take_append_drop]

/-- The position moves on in its cluster. -/
theorem FIL.Located.advance (hloc : fp.Located g l) (h : fp.Bounded g l) (hg : g.WellFormed)
    (hn : 0 < n) (hle : fp.fptr % g.bcs + n ≤ g.bcs) (hlt : fp.fptr + n < 2 ^ 32) :
    FIL.Bounded g l { fp with fptr := fp.fptr + n } ∧
      FIL.Pointed g l { fp with fptr := fp.fptr + n } := by
  have hpos := bcs_pos hg
  have hindex : fp.fptr / g.bcs < l.length := (List.getElem?_eq_some_iff.mp hloc).1
  have hsplit := Nat.div_add_mod fp.fptr g.bcs
  have hmul := Nat.mul_le_mul_right g.bcs (show fp.fptr / g.bcs + 1 ≤ l.length from hindex)
  rw [Nat.succ_mul, Nat.mul_comm] at hmul
  refine ⟨⟨?_, h.fsize_le, hlt, h.fsize_lt⟩, fun _ => ?_⟩
  · show fp.fptr + n ≤ l.length * g.bcs
    omega
  · have hdiv : (fp.fptr + n - 1) / g.bcs = fp.fptr / g.bcs := by
      rw [Nat.div_eq_iff hpos, Nat.mul_comm]
      omega
    show l[(fp.fptr + n - 1) / g.bcs]? = some fp.clust
    rw [hdiv]
    exact hloc

/-- The bytes up to the end of the sector are in the cluster. -/
theorem part_spec (hg : g.WellFormed) {count : ℕ} (hn : 0 < count) (p : ℕ) :
    0 < g.part p count ∧ g.part p count ≤ count ∧ p % g.ssize + g.part p count ≤ g.ssize ∧
      p % g.bcs + g.part p count ≤ g.bcs := by
  have hlt := Nat.mod_lt p hg.ssize_pos
  have hcsect := Nat.mod_lt (p / g.ssize) hg.csize_pos
  have hle := Nat.mul_le_mul_left g.ssize (show p / g.ssize % g.csize + 1 ≤ g.csize from hcsect)
  rw [Nat.mul_succ, Nat.mul_comm g.ssize g.csize] at hle
  rw [mod_bcs]
  unfold Geometry.part Geometry.bcs
  simp only
  split_ifs <;> omega

/-- The sectors up to the end of the cluster. -/
theorem clip_spec (hg : g.WellFormed) {count : ℕ} (hn : count / g.ssize ≠ 0)
    (hp : p % g.ssize = 0) :
    0 < g.clip (p / g.ssize % g.csize) count ∧
      g.ssize * g.clip (p / g.ssize % g.csize) count ≤ count ∧
        p / g.ssize % g.csize + g.clip (p / g.ssize % g.csize) count ≤ g.csize ∧
          p % g.bcs + g.ssize * g.clip (p / g.ssize % g.csize) count ≤ g.bcs := by
  have hcsect := Nat.mod_lt (p / g.ssize) hg.csize_pos
  have hclip : 0 < g.clip (p / g.ssize % g.csize) count ∧
      g.clip (p / g.ssize % g.csize) count ≤ count / g.ssize ∧
        p / g.ssize % g.csize + g.clip (p / g.ssize % g.csize) count ≤ g.csize := by
    unfold Geometry.clip
    generalize count / g.ssize = m at hn ⊢
    generalize p / g.ssize % g.csize = j at hcsect ⊢
    simp only
    split_ifs <;> omega
  have hcount := Nat.mul_le_mul_left g.ssize hclip.2.1
  have hend := Nat.mul_le_mul_left g.ssize hclip.2.2
  refine ⟨hclip.1, Nat.le_trans hcount (Nat.mul_div_le count g.ssize), hclip.2.2, ?_⟩
  rw [mod_bcs, hp, Nat.zero_add, ← Nat.mul_add, Geometry.bcs, Nat.mul_comm g.csize]
  exact hend

end Position

/-! ## The volume during a call -/

/-- The volume while something is done with a file, which has these clusters now. -/
structure Carried {ι : Type*} [DecidableEq ι] (ok : Prop) (pool : ℕ → Prop) (fs : FATFS)
    (q : ι → List ℕ) (i : ι) (fs' : FATFS) (l : List ℕ) : Prop where
  good : Good ok pool fs' (Function.update q i l)
  frame : Frame ok q i fs fs'
  nfree : ok → fs'.nfree + l.length = fs.nfree + (q i).length

/-- The file on an error-free device. -/
structure FIL.Shows (fs : FATFS) (l : List ℕ) (fp : FIL) (f : Content) : Prop where
  err : fp.err = .ok
  fptr : fp.fptr = f.pos
  fsize : fp.fsize = f.size
  clusters : l.length = f.clusters
  holds : fp.Holds fs l f.data

/-- The object is that of a file, between calls. -/
structure FIL.Is (ok : Prop) (pool : ℕ → Prop) (fs : FATFS) (l : List ℕ) (fp : FIL) (f : Content) :
    Prop where
  rooted : fp.Rooted fs.toGeometry pool l
  bounded : fp.err = .ok → fp.Bounded fs.toGeometry l ∧ fp.Pointed fs.toGeometry l ∧
    fp.Aligned fs.toGeometry l ∧ fp.fptr ≤ fp.fsize
  readable : fp.faRead = f.readable
  writable : fp.faWrite = f.writable
  entry : (fp.dirSect, fp.dirPtr) = f.entry
  held : ok → fp.Shows fs l f

/-- What a call leads to. -/
def Outcome {ι : Type*} [DecidableEq ι] (ok : Prop) (pool : ℕ → Prop) (fs : FATFS)
    (q : ι → List ℕ) (i : ι) (f : Content) (call : Call) (reply : Reply) (fs' : FATFS) (fp' : FIL) :
    Prop :=
  ∃ l f', Carried ok pool fs q i fs' l ∧ fp'.Is ok pool fs' l f' ∧
    (ok → Does fs.bcs f fs.nfree call reply f' fs'.nfree)

/-- What `create_chain` can do during a call. -/
inductive Stretched {ι : Type*} [DecidableEq ι] (ok : Prop) (pool : ℕ → Prop) (fs : FATFS)
    (q : ι → List ℕ) (i : ι) (fs' : FATFS) (l : List ℕ) (clst : ℕ) : ℕ × FATFS → Prop
  | full {fs'' : FATFS} : (clst = 0 ∧ l = [] ∨ ∃ front, l = front ++ [clst]) →
      Carried ok pool fs q i fs'' l → Quiet pool fs' fs'' → fs''.nfree = 0 →
      Stretched ok pool fs q i fs' l clst (0, fs'')
  | next {fs'' : FATFS} (front back : List ℕ) (d : ℕ) : l = front ++ clst :: d :: back →
      Carried ok pool fs q i fs'' l → Quiet pool fs' fs'' →
      Stretched ok pool fs q i fs' l clst (d, fs'')
  | failed {fs'' : FATFS} : ¬ ok → Carried ok pool fs q i fs'' l → Quiet pool fs' fs'' →
      Stretched ok pool fs q i fs' l clst (diskError, fs'')
  | new {fs'' : FATFS} (u : ℕ) : fs'.InRange u →
      (clst = 0 ∧ l = [] ∨ ∃ front, l = front ++ [clst]) →
      Carried ok pool fs q i fs'' (l ++ [u]) → Quiet pool fs' fs'' →
      Stretched ok pool fs q i fs' l clst (u, fs'')

section Carried

variable {ι : Type*} [DecidableEq ι] {ok : Prop} {pool : ℕ → Prop} {q : ι → List ℕ} {i : ι}
  {fs fs' fs'' : FATFS} {l : List ℕ} {fp : FIL} {data : ℕ → Option UInt8} {c k s clst : ℕ}

theorem Carried.start (h : Good ok pool fs q) : Carried ok pool fs q i fs (q i) := by
  refine ⟨?_, .rfl, fun _ => rfl⟩
  rw [Function.update_eq_self]
  exact h

namespace Carried

theorem inRange (h : Carried ok pool fs q i fs' l) (hc : c ∈ l) : fs'.InRange c := by
  refine h.good.inRange (i := i) ?_
  rwa [Function.update_self]

theorem owned (h : Carried ok pool fs q i fs' l) (hc : c ∈ l) : pool c := by
  refine h.good.owned i c ?_
  rwa [Function.update_self]

theorem nodup (h : Carried ok pool fs q i fs' l) : l.Nodup := by
  have hnodup := h.good.chains.nodup i
  rwa [Function.update_self] at hnodup

/-- A sector of the file. -/
theorem place (h : Carried ok pool fs q i fs' l) (hk : k < l.length * fs'.csize) :
    ∃ c, fs'.InRange c ∧ pool c ∧ c ∈ l ∧ fs'.InClust c (fs'.place l k) := by
  obtain ⟨c, -, hmem, hin⟩ := place_inClust h.good.wellFormed hk
  exact ⟨c, h.inRange hmem, h.owned hmem, hmem, hin⟩

/-- Different sectors of the file. -/
theorem place_ne (h : Carried ok pool fs q i fs' l) {k' : ℕ} (hk : k < l.length * fs'.csize)
    (hk' : k' < l.length * fs'.csize) (hne : k ≠ k') : fs'.place l k ≠ fs'.place l k' := fun heq =>
  hne (place_inj h.good.wellFormed (fun _ => h.inRange) h.nodup hk hk' heq)

/-- The clusters of another file. -/
theorem apart (h : Carried ok pool fs q i fs' l) {j : ι} (hij : j ≠ i) (hc : c ∈ q j) :
    fs'.InRange c ∧ c ∉ l := by
  have hmem : c ∈ Function.update q i l j := by rwa [Function.update_of_ne hij]
  refine ⟨h.good.inRange hmem, fun hl => hij ?_⟩
  refine h.good.chains.disjoint j i c hmem ?_
  rwa [Function.update_self]

/-- Nothing has happened to the sectors of the files; the file may have other clusters. -/
theorem quiet_of (h : Carried ok pool fs q i fs' l) {l' : List ℕ}
    (hgood : Good ok pool fs'' (Function.update q i l')) (hquiet : Quiet pool fs' fs'')
    (hnfree : ok → fs''.nfree + l'.length = fs'.nfree + l.length) :
    Carried ok pool fs q i fs'' l' := by
  refine ⟨hgood, h.frame.trans ⟨hquiet.geometry, fun _ j hij c hc s hs => ?_⟩, fun hok => ?_⟩
  · have hmem : c ∈ Function.update q i l j := by rwa [Function.update_of_ne hij]
    exact hquiet.sectors c s (h.good.inRange hmem) (h.good.owned j c hmem) hs
  · rw [hnfree hok]
    exact h.nfree hok

theorem quiet (h : Carried ok pool fs q i fs' l) (hgood : Good ok pool fs'' (Function.update q i l))
    (hquiet : Quiet pool fs' fs'') (hnfree : fs''.nfree = fs'.nfree) :
    Carried ok pool fs q i fs'' l :=
  h.quiet_of hgood hquiet fun _ => by rw [hnfree]

/-- The file gets a cluster. -/
theorem createChain (h : Carried ok pool fs q i fs' l) (hclst : clst = 0 ∧ l = [] ∨ clst ∈ l)
    {fuel : ℕ} (hfuel : fs.nFatent < fuel) :
    Ensures (createChain fuel fs' clst) (Stretched ok pool fs q i fs' l clst) := by
  have hfuel' : fs'.nFatent < fuel := by rwa [h.frame.geometry]
  have hself : Function.update q i l i = l := Function.update_self _ _ _
  have hclst' : clst = 0 ∧ Function.update q i l i = [] ∨ clst ∈ Function.update q i l i := by
    rwa [hself]
  refine (h.good.createChain hclst' hfuel').mono fun r hr => ?_
  cases hr with
  | full hend hgood hquiet hzero hnfree =>
    rw [hself] at hend
    exact .full hend (h.quiet_of hgood hquiet fun _ => by rw [hnfree]) hquiet (hnfree.trans hzero)
  | next front back d hgood hquiet hq hnfree =>
    rw [hself] at hq
    exact .next front back d hq (h.quiet_of hgood hquiet fun _ => by rw [hnfree]) hquiet
  | failed hok hgood hquiet =>
    exact .failed hok (h.quiet_of hgood hquiet fun hok' => absurd hok' hok) hquiet
  | new u hu hpool hnot hend hgood hquiet hnfree =>
    rw [hself] at hend
    rw [hself, Function.update_idem] at hgood
    refine .new u hu hend (h.quiet_of hgood hquiet fun _ => ?_) hquiet
    rw [List.length_append, List.length_singleton, ← hnfree]
    omega

/-- The same clusters, and as many free ones. -/
theorem nfree_eq (h : Carried ok pool fs q i fs' (q i)) (hok : ok) : fs'.nfree = fs.nfree :=
  Nat.add_right_cancel (h.nfree hok)

/-- A sector is read. -/
theorem read (h : Carried ok pool fs q i fs' l) (s : ℕ) :
    Carried ok pool fs q i { fs' with disk := (fs'.disk.read s).2.2 } l ∧
      Quiet pool fs' { fs' with disk := (fs'.disk.read s).2.2 } ∧
        (ok → (fs'.disk.read s).1 = true ∧
          ∀ k, (fs'.disk.read s).2.1 k = fs'.disk.sectors (s + k)) := by
  obtain ⟨hgood, hquiet, hnfree, hread⟩ := h.good.read s
  exact ⟨h.quiet hgood hquiet hnfree, hquiet, hread⟩

/-- A sector of the file is of no other one. -/
theorem foreign (h : Carried ok pool fs q i fs' l) (hc : c ∈ l) (hin : fs'.InClust c s) {j : ι}
    (hij : j ≠ i) {d : ℕ} (hd : d ∈ q j) : ¬ fs'.InClust d s := by
  intro hin'
  obtain ⟨hrange, hnot⟩ := h.apart hij hd
  exact hnot (inClust_unique (h.inRange hc) hrange hin hin' ▸ hc)

/-- Sectors of the pool are written that are of no other file. -/
theorem write (h : Carried ok pool fs q i fs' l) (buff : ℕ → Sector) {s count : ℕ}
    (hpool : ∀ t, s ≤ t → t < s + count → ∃ c, fs'.InRange c ∧ pool c ∧ fs'.InClust c t)
    (hforeign : ok → ∀ t, s ≤ t → t < s + count → ∀ j, j ≠ i → ∀ d ∈ q j, ¬ fs'.InClust d t) :
    Carried ok pool fs q i { fs' with disk := (fs'.disk.write buff s count).2 } l ∧
      (ok → (fs'.disk.write buff s count).1 = true ∧ ∀ t,
        (fs'.disk.write buff s count).2.sectors t =
          if s ≤ t ∧ t < s + count then buff (t - s) else fs'.disk.sectors t) := by
  obtain ⟨hgood, hnfree, hwrite⟩ := h.good.write buff hpool
  refine ⟨⟨hgood, h.frame.trans ⟨rfl, fun hok j hij c hc t ht => ?_⟩, fun hok => ?_⟩, hwrite⟩
  · rw [(hwrite hok).2 t, if_neg]
    rintro ⟨hle, hlt⟩
    exact hforeign hok t hle hlt j hij c hc ht
  · rw [hnfree]
    exact h.nfree hok

end Carried

/-! ## The bytes -/

/-- Nothing has happened to the sectors. -/
theorem FIL.Holds.quiet (h : fp.Holds fs' l data) (hcarried : Carried ok pool fs q i fs' l)
    (hquiet : Quiet pool fs' fs'') : fp.Holds fs'' l data := by
  have hgeometry := hquiet.geometry
  refine ⟨?_, h.beyond, ?_⟩
  · rw [hgeometry]
    exact h.own
  · rw [hgeometry]
    intro k o b hk ho hdata
    obtain ⟨hbuf, hdisk⟩ := h.stored k o b hk ho hdata
    obtain ⟨c, hc, hp, -, hin⟩ := hcarried.place hk
    refine ⟨hbuf, fun hclean => ?_⟩
    rw [hquiet.sectors c _ hc hp hin]
    exact hdisk hclean

/-- The file gets a cluster; it has no byte there. -/
theorem FIL.Holds.append (h : fp.Holds fs' l data) (hg : fs'.WellFormed)
    (hsize : fp.fsize ≤ l.length * fs'.bcs) (hptr : fp.fptr ≤ l.length * fs'.bcs) (u : ℕ) :
    fp.Holds fs' (l ++ [u]) data := by
  refine ⟨fun hdirty => ?_, h.beyond, fun k o b hk ho hdata => ?_⟩
  · obtain ⟨k, hk, heq⟩ := h.own hdirty
    refine ⟨k, ?_, heq.trans (place_append hg hk).symm⟩
    rw [List.length_append]
    exact Nat.lt_of_lt_of_le hk (Nat.mul_le_mul_right _ (Nat.le_add_right _ _))
  · have hlt : k < l.length * fs'.csize := by
      by_contra hge
      have hle := Nat.mul_le_mul_right fs'.ssize (Nat.not_lt.mp hge)
      rw [Nat.mul_assoc] at hle
      change l.length * fs'.bcs ≤ _ at hle
      rw [h.beyond _ (by omega) (by omega)] at hdata
      cases hdata
    rw [place_append hg hlt]
    exact h.stored k o b hlt ho hdata

/-- The position moves on. -/
theorem FIL.Holds.advance (h : fp.Holds fs' l data) (n : ℕ) :
    FIL.Holds fs' l { fp with fptr := fp.fptr + n } data :=
  ⟨h.own, fun p hsize hptr => h.beyond p hsize (Nat.le_trans (Nat.le_add_right _ n) hptr), h.stored⟩

/-- The sector buffer is written back. -/
theorem writeBack_stored (fp : FIL) (h : Carried ok pool fs q i fs' l)
    (hroot : fp.faDirty = true → ∃ c, fs'.InRange c ∧ pool c ∧ fs'.InClust c fp.dsect)
    (hforeign : ok → fp.faDirty = true → ∀ j, j ≠ i → ∀ d ∈ q j, ¬ fs'.InClust d fp.dsect) :
    Carried ok pool fs q i (writeBack fs' fp).2.1 l ∧
      ((writeBack fs' fp).1 = true ∧ (writeBack fs' fp).2.2 = { fp with faDirty := false } ∨
        (writeBack fs' fp).1 = false ∧ (writeBack fs' fp).2.2 = fp ∧ ¬ ok) ∧
          (writeBack fs' fp).2.1.toGeometry = fs'.toGeometry ∧
            (ok → ∀ s o b, Stored fs' fp s o b →
              Stored (writeBack fs' fp).2.1 (writeBack fs' fp).2.2 s o b) := by
  unfold writeBack
  by_cases hdirty : fp.faDirty = true
  · rw [if_pos hdirty]
    have hpool (t : ℕ) (h₁ : fp.dsect ≤ t) (h₂ : t < fp.dsect + 1) :
        ∃ c, fs'.InRange c ∧ pool c ∧ fs'.InClust c t := by
      obtain rfl : t = fp.dsect := by omega
      exact hroot hdirty
    have hother (hok : ok) (t : ℕ) (h₁ : fp.dsect ≤ t) (h₂ : t < fp.dsect + 1) :
        ∀ j, j ≠ i → ∀ d ∈ q j, ¬ fs'.InClust d t := by
      obtain rfl : t = fp.dsect := by omega
      exact hforeign hok hdirty
    obtain ⟨hcarried, hwrite⟩ := h.write (fun _ => fp.buf) hpool hother
    rcases hr : fs'.disk.write (fun _ => fp.buf) fp.dsect 1 with ⟨done, disk⟩
    rw [hr] at hcarried hwrite
    refine ⟨hcarried, ?_, rfl, fun hok s o b hstored => ?_⟩
    · cases done with
      | true => exact .inl ⟨rfl, rfl⟩
      | false => exact .inr ⟨rfl, rfl, fun hok => absurd (hwrite hok).1 (by simp)⟩
    · obtain ⟨hdone, hsectors⟩ := hwrite hok
      have hdone' : done = true := hdone
      subst hdone'
      refine ⟨hstored.1, fun _ => ?_⟩
      show disk.sectors s o = b
      rw [show disk.sectors s = _ from hsectors s]
      split_ifs with hin
      · exact hstored.1 (by omega)
      · exact hstored.2 fun hsame => hin (by omega)
  · rw [if_neg hdirty]
    have hfp : { fp with faDirty := false } = fp := by
      rw [← Bool.eq_false_iff.mpr hdirty]
    exact ⟨h, .inl ⟨rfl, hfp.symm⟩, rfl, fun _ _ _ _ hstored => hstored⟩

theorem writeBack_spec (h : Carried ok pool fs q i fs' l) (hroot : fp.Rooted fs'.toGeometry pool l)
    (hholds : ok → fp.Holds fs' l data) :
    Carried ok pool fs q i (writeBack fs' fp).2.1 l ∧
      ((writeBack fs' fp).1 = true ∧ (writeBack fs' fp).2.2 = { fp with faDirty := false } ∨
        (writeBack fs' fp).1 = false ∧ (writeBack fs' fp).2.2 = fp ∧ ¬ ok) ∧
          (writeBack fs' fp).2.1.toGeometry = fs'.toGeometry ∧
            (ok → (writeBack fs' fp).2.2.Holds (writeBack fs' fp).2.1 l data) := by
  obtain ⟨hcarried, hres, hgeometry, hstored⟩ := writeBack_stored fp h hroot.dirty
    fun hok hdirty j hij d hd => by
      obtain ⟨k, hk, heq⟩ := (hholds hok).own hdirty
      obtain ⟨c, -, -, hc, hin⟩ := h.place hk
      exact h.foreign hc (heq ▸ hin) hij hd
  refine ⟨hcarried, hres, hgeometry, fun hok => ?_⟩
  have hheld := hholds hok
  have hstored' := hstored hok
  rcases hres with ⟨-, hfp⟩ | ⟨-, -, hnot⟩
  · rw [hfp] at hstored' ⊢
    refine ⟨fun hnot => ?_, hheld.beyond, ?_⟩
    · cases hnot
    · rw [hgeometry]
      exact fun k o b hk ho hdata => hstored' _ _ _ (hheld.stored k o b hk ho hdata)
  · exact absurd hok hnot

/-- The sector buffer is filled. -/
theorem fill_spec (h : Carried ok pool fs q i fs' l) (fp : FIL) (data : ℕ → Option UInt8)
    (hclean : fp.faDirty = false) (hk : k < l.length * fs'.csize) (hs : s = fs'.place l k) :
    Carried ok pool fs q i (fill fs' fp s).2.1 l ∧
      (fill fs' fp s).2.1.toGeometry = fs'.toGeometry ∧
        (∃ buf, (fill fs' fp s).2.2 = { fp with buf := buf }) ∧
          (ok → (fill fs' fp s).1 = true ∧ (fp.Holds fs' l data →
            FIL.Holds (fill fs' fp s).2.1 l { (fill fs' fp s).2.2 with dsect := s } data)) := by
  obtain ⟨hcarried, hquiet, hread⟩ := h.read s
  unfold fill
  rcases hr : fs'.disk.read s with ⟨done, buff, disk⟩
  rw [hr] at hcarried hquiet hread
  refine ⟨hcarried, rfl, ⟨buff 0, rfl⟩, fun hok => ⟨(hread hok).1, fun hheld => ?_⟩⟩
  have hbuff : buff 0 = fs'.disk.sectors s := (hread hok).2 0
  have hheld' := hheld.quiet h hquiet
  refine ⟨fun hdirty => ?_, hheld'.beyond, fun k' o b hk' ho hdata => ?_⟩
  · exact absurd (hdirty.symm.trans hclean) (by simp)
  · have hdisk := (hheld'.stored k' o b hk' ho hdata).2 fun hdirty =>
      absurd (hdirty.2.symm.trans hclean) (by simp)
    refine ⟨fun hsame => ?_, fun _ => hdisk⟩
    have hsector : disk.sectors s = fs'.disk.sectors s := by
      obtain ⟨c, hc, hp, -, hin⟩ := h.place hk
      rw [hs]
      exact hquiet.sectors c _ hc hp hin
    show buff 0 o = b
    rw [hbuff, ← hsector]
    rw [show s = fs'.place l k' from hsame]
    exact hdisk

/-- A sector comes into the sector buffer. -/
theorem readLoad_spec (h : Carried ok pool fs q i fs' l) (hroot : fp.Rooted fs'.toGeometry pool l)
    (hholds : ok → fp.Holds fs' l data) (hk : k < l.length * fs'.csize) (hs : s = fs'.place l k) :
    Carried ok pool fs q i (readLoad fs' fp s).2.1 l ∧
      (readLoad fs' fp s).2.1.toGeometry = fs'.toGeometry ∧
        (∃ buf dirty, (readLoad fs' fp s).2.2 = { fp with buf := buf, faDirty := dirty } ∧
          (dirty = true → fp.faDirty = true)) ∧
            (ok → (readLoad fs' fp s).1 = true ∧
              FIL.Holds (readLoad fs' fp s).2.1 l { (readLoad fs' fp s).2.2 with dsect := s }
                data) := by
  unfold readLoad
  by_cases hne : fp.dsect ≠ s
  · rw [if_pos hne]
    obtain ⟨hcarried, hres, hgeometry, hheld⟩ := writeBack_spec h hroot hholds
    rcases hr : writeBack fs' fp with ⟨done, fs₁, fp₁⟩
    rw [hr] at hcarried hres hgeometry hheld
    rcases hres with ⟨hdone, hfp⟩ | ⟨hdone, hfp, hok⟩
    · have hdone' : done = true := hdone
      have hfp' : fp₁ = { fp with faDirty := false } := hfp
      have hgeometry' : fs₁.toGeometry = fs'.toGeometry := hgeometry
      subst hdone'
      subst hfp'
      simp only [if_true]
      have hk' : k < l.length * fs₁.csize := by rwa [hgeometry']
      have hs' : s = fs₁.place l k := by rwa [hgeometry']
      obtain ⟨hcarried', hgeometry'', ⟨buf, hfp⟩, hfill⟩ :=
        fill_spec hcarried { fp with faDirty := false } data rfl hk' hs'
      refine ⟨hcarried', hgeometry''.trans hgeometry', ⟨buf, false, hfp, ?_⟩, fun hok => ?_⟩
      · intro hnot
        cases hnot
      · exact ⟨(hfill hok).1, (hfill hok).2 (hheld hok)⟩
    · have hdone' : done = false := hdone
      have hfp' : fp₁ = fp := hfp
      subst hdone'
      subst hfp'
      exact ⟨hcarried, hgeometry, ⟨fp₁.buf, fp₁.faDirty, rfl, id⟩, fun h => absurd h hok⟩
  · rw [if_neg hne]
    have hdsect : { fp with dsect := s } = fp := by
      rw [← not_not.mp hne]
    refine ⟨h, rfl, ⟨fp.buf, fp.faDirty, rfl, id⟩, fun hok => ⟨rfl, ?_⟩⟩
    rw [hdsect]
    exact hholds hok

/-- A file after an error. -/
theorem outcome_of_error {fp' : FIL} {f : Content} {call : Call} {reply : Reply} {res : FResult}
    (hfp : fp.Is ok pool fs (q i) f) (hok : ¬ ok) (hres : res ≠ .ok)
    (hcarried : Carried ok pool fs q i fs' l)
    (hentry : (fp'.dirSect, fp'.dirPtr) = (fp.dirSect, fp.dirPtr)) (hread : fp'.faRead = fp.faRead)
    (hwrite : fp'.faWrite = fp.faWrite) (hrooted : fp'.Rooted fs'.toGeometry pool l) :
    Outcome ok pool fs q i f call reply fs' { fp' with err := res } := by
  refine ⟨l, f, hcarried, ⟨⟨hrooted.sclust, hrooted.dirty⟩, fun herr => absurd herr hres,
    hread.trans hfp.readable, hwrite.trans hfp.writable, hentry.trans hfp.entry,
    fun h => absurd h hok⟩, fun h => absurd h hok⟩

end Carried

end OlivePiccolo.FatFs
