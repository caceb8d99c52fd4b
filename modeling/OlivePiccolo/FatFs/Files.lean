import OlivePiccolo.FatFs.Read
import OlivePiccolo.FatFs.Sync

/-!
# Files of a volume

Calls on the open files of a volume, in any order. On a device that does not fail, they are those on
independent arrays of bytes that share the free clusters (`run_refines`), and a file that has been
synchronized is on the disk (`run_durable`). On any device, with entries of 16 or 32 bits, no cluster
gets into two files (`run_safe`).
-/

namespace OlivePiccolo.FatFs

/-- A call of the API. -/
inductive Op
  | call (c : Call)
  | sync (tm : ℕ)

/-- What a call does. -/
def Call.exec (fuel : ℕ) (fs : FATFS) (fp : FIL) : Call → Option (Reply × FATFS × FIL)
  | .read btr => (fRead fuel fs fp btr).map fun (res, bytes, s) => (.read res bytes, s)
  | .write buff => (fWrite fuel fs fp buff).map fun (res, bw, s) => (.write res bw, s)
  | .lseek ofs => (fLseek fuel fs fp ofs).map fun (res, s) => (.done res, s)
  | .truncate => (fTruncate fuel fs fp).map fun (res, s) => (.done res, s)

def Op.exec (fuel : ℕ) (fs : FATFS) (fp : FIL) : Op → Option (Reply × FATFS × FIL)
  | .call c => c.exec fuel fs fp
  | .sync tm =>
    let (res, s) := fSync fs fp tm
    some (.done res, s)

/-- Calls on files, one after the other. -/
def run {ι : Type*} [DecidableEq ι] (fuel : ℕ) :
    List (ι × Op) → FATFS → (ι → FIL) → Option (List Reply × FATFS × (ι → FIL))
  | [], fs, files => some ([], fs, files)
  | (i, op) :: l, fs, files => (op.exec fuel fs (files i)).bind fun (reply, fs, fp) =>
    (run fuel l fs (Function.update files i fp)).map fun (replies, s) => (reply :: replies, s)

/-- The arguments are of 32 bits. -/
def Call.Fits (fuel : ℕ) : Call → Prop
  | .read btr => btr < fuel
  | .write buff => buff.length < 2 ^ 32 ∧ buff.length < fuel
  | .lseek ofs => ofs < 2 ^ 32 ∧ ofs < fuel
  | .truncate => True

def Op.Fits (fuel : ℕ) : Op → Prop
  | .call c => c.Fits fuel
  | .sync _ => True

/-! ## What the files are to their users -/

/-- Calls on arrays of bytes, one after the other. -/
inductive Replies {ι : Type*} [DecidableEq ι] (bcs : ℕ) :
    (ι → Content) → ℕ → List (ι × Op) → List Reply → (ι → Content) → ℕ → Prop
  | nil {v : ι → Content} {free : ℕ} : Replies bcs v free [] [] v free
  | call {v v' : ι → Content} {free free' free'' : ℕ} {i : ι} {c : Call} {reply : Reply}
      {f : Content} {l : List (ι × Op)} {replies : List Reply} :
      Does bcs (v i) free c reply f free' →
        Replies bcs (Function.update v i f) free' l replies v' free'' →
          Replies bcs v free ((i, .call c) :: l) (reply :: replies) v' free''
  | sync {v v' : ι → Content} {free free' : ℕ} {i : ι} {tm : ℕ} {l : List (ι × Op)}
      {replies : List Reply} : Replies bcs v free l replies v' free' →
        Replies bcs v free ((i, .sync tm) :: l) (.done .ok :: replies) v' free'

/-- The volume and its open files. -/
structure Files {ι : Type*} (ok : Prop) (pool : ℕ → Prop) (fs : FATFS) (q : ι → List ℕ)
    (files : ι → FIL) (v : ι → Content) : Prop where
  good : Good ok pool fs q
  file : ∀ i, (files i).Is ok pool fs (q i) (v i)
  placed : ok → ∀ i, fs.Placed pool (v i).entry.1
  info : fs.fsType = .fat32 → fs.volbase + 1 < fs.fatbase

section Files

variable {ι : Type*} [DecidableEq ι] {ok : Prop} {pool : ℕ → Prop} {q : ι → List ℕ} {i j : ι}
  {fs fs' : FATFS} {fp fp' : FIL} {f f' : Content} {files : ι → FIL} {v : ι → Content}
  {l : List ℕ} {ops : List (ι × Op)} {fuel : ℕ}

omit [DecidableEq ι] in
/-- Nothing happens to the other files. -/
theorem FIL.Is.frame (hgood : Good ok pool fs q) (h : fp.Is ok pool fs (q j) f)
    (hframe : Frame ok q i fs fs') (hij : j ≠ i) : fp.Is ok pool fs' (q j) f := by
  have hgeometry := hframe.geometry
  refine ⟨?_, ?_, h.readable, h.writable, h.entry, fun hok => ?_⟩
  · rw [hgeometry]
    exact h.rooted
  · rw [hgeometry]
    exact h.bounded
  · have hheld := h.held hok
    refine ⟨hheld.err, hheld.fptr, hheld.fsize, hheld.clusters, ?_, hheld.holds.beyond, ?_⟩
    · rw [hgeometry]
      exact hheld.holds.own
    · rw [hgeometry]
      intro k o b hk ho hdata
      obtain ⟨hbuf, hdisk⟩ := hheld.holds.stored k o b hk ho hdata
      obtain ⟨c, -, hc, hin⟩ := place_inClust hgood.wellFormed hk
      refine ⟨hbuf, fun hclean => ?_⟩
      rw [hframe.sectors hok j hij c hc _ hin]
      exact hdisk hclean

/-- A call on one of the files. -/
theorem Files.step (h : Files ok pool fs q files v) (hcarried : Carried ok pool fs q i fs' l)
    (hfp : fp'.Is ok pool fs' l f') (hentry : ok → f'.entry = (v i).entry) :
    Files ok pool fs' (Function.update q i l) (Function.update files i fp')
      (Function.update v i f') := by
  have hgeometry := hcarried.frame.geometry
  refine ⟨hcarried.good, fun j => ?_, fun hok j => ?_, ?_⟩
  · by_cases hij : j = i
    · subst hij
      rw [Function.update_self, Function.update_self, Function.update_self]
      exact hfp
    · rw [Function.update_of_ne hij, Function.update_of_ne hij, Function.update_of_ne hij]
      exact (h.file j).frame h.good hcarried.frame hij
  · rw [hgeometry]
    by_cases hij : j = i
    · subst hij
      rw [Function.update_self, hentry hok]
      exact h.placed hok j
    · rw [Function.update_of_ne hij]
      exact h.placed hok j
  · rw [hgeometry]
    exact h.info

theorem Does.entry {bcs free free' : ℕ} {c : Call} {reply : Reply}
    (h : Does bcs f free c reply f' free') : f'.entry = f.entry := by
  cases h with
  | truncate =>
    unfold Content.truncate
    split_ifs <;> rfl
  | _ => rfl

theorem call_outcome (h : Good ok pool fs q) (hfp : fp.Is ok pool fs (q i) f)
    (c : Call) (hc : c.Fits fuel) (hfuel : fs.nFatent < fuel) :
    Ensures (c.exec fuel fs fp) fun r => Outcome ok pool fs q i f c r.1 r.2.1 r.2.2 := by
  cases c with
  | read btr => exact .map (fRead_outcome h hfp btr hc)
  | write buff => exact .map (fWrite_outcome h hfp buff hc.1 hfuel hc.2)
  | lseek ofs => exact .map (fLseek_outcome h hfp ofs hc.1 hfuel hc.2)
  | truncate => exact .map (fTruncate_outcome h hfp hfuel)

/-- Calls one after the other. -/
theorem run_spec (h : Files ok pool fs q files v) (hops : ∀ x ∈ ops, x.2.Fits fuel)
    (hsync : ∀ i tm, (i, Op.sync tm) ∈ ops → ok) (hfuel : fs.nFatent < fuel) :
    Ensures (run fuel ops fs files) fun r => ∃ q' v', Files ok pool r.2.1 q' r.2.2 v' ∧
      r.2.1.toGeometry = fs.toGeometry ∧
        (ok → Replies fs.bcs v fs.nfree ops r.1 v' r.2.1.nfree) := by
  induction ops generalizing fs files q v with
  | nil => exact .pure ⟨q, v, h, rfl, fun _ => .nil⟩
  | cons x ops ih =>
    obtain ⟨i, op⟩ := x
    have hops' : ∀ x ∈ ops, x.2.Fits fuel := fun x hx => hops x (List.mem_cons_of_mem _ hx)
    have hsync' : ∀ i tm, (i, Op.sync tm) ∈ ops → ok := fun i tm hx =>
      hsync i tm (List.mem_cons_of_mem _ hx)
    unfold run
    cases op with
    | call c =>
      have hc := hops _ List.mem_cons_self
      refine (call_outcome h.good (h.file i) c hc hfuel).bind fun r hr => ?_
      obtain ⟨reply, fs₁, fp₁⟩ := r
      obtain ⟨l, f', hcarried, hfp, hdoes⟩ := hr
      have hgeometry : fs₁.toGeometry = fs.toGeometry := hcarried.frame.geometry
      have hstep := h.step hcarried hfp fun hok => (hdoes hok).entry
      refine .map ((ih hstep hops' hsync' (by rwa [hgeometry])).mono fun r hr => ?_)
      obtain ⟨q', v', hfiles, hgeometry', hreplies⟩ := hr
      refine ⟨q', v', hfiles, hgeometry'.trans hgeometry, fun hok => .call (hdoes hok) ?_⟩
      have hreplies' := hreplies hok
      rwa [hgeometry] at hreplies'
    | sync tm =>
      have hok := hsync i tm List.mem_cons_self
      obtain ⟨hres, hcarried, hfp, -⟩ :=
        fSync_durable h.good hok (h.file i) (h.placed hok i) h.info tm
      rcases hr : fSync fs (files i) tm with ⟨res, fs₁, fp₁⟩
      rw [hr] at hres hcarried hfp
      have hres' : res = .ok := hres
      subst hres'
      have hgeometry : fs₁.toGeometry = fs.toGeometry := hcarried.frame.geometry
      have hnfree : fs₁.nfree = fs.nfree := hcarried.nfree_eq hok
      have hstep := h.step hcarried hfp fun _ => rfl
      rw [Function.update_eq_self] at hstep
      have hexec : Op.exec fuel fs (files i) (.sync tm) = some (.done .ok, fs₁, fp₁) := by
        simp only [Op.exec, hr]
      refine .bind_of_eq hexec ?_
      refine .map ((ih hstep hops' hsync' (by rwa [hgeometry])).mono fun r hr => ?_)
      obtain ⟨q', v', hfiles, hgeometry', hreplies⟩ := hr
      refine ⟨q', v', hfiles, hgeometry'.trans hgeometry, fun hok => .sync ?_⟩
      have hreplies' := hreplies hok
      rwa [hgeometry, Function.update_eq_self, hnfree] at hreplies'

end Files

/-! ## Files with nothing in them -/

/-- A new file, with its entry in the root directory. -/
def fresh (i : Fin 2) : FIL where
  faRead := true
  faWrite := true
  faWritten := true
  faDirty := false
  err := .ok
  fptr := 0
  fsize := 0
  sclust := 0
  clust := 0
  dsect := 0
  dirSect := 33
  dirPtr := 32 * i
  buf := fun _ => 0

/-- It is empty. -/
def empty (i : Fin 2) : Content where
  readable := true
  writable := true
  pos := 0
  size := 0
  clusters := 0
  entry := (33, 32 * i)
  data := fun _ => none

section Blank

variable {answers : ℕ → Answer} {ok : Prop}

theorem blank_entry (c : ℕ) : (blank answers).entry c = 0 := by
  have hview (s : ℕ) : (blank answers).view s = fun _ => 0 := by
    unfold FATFS.view
    split_ifs <;> rfl
  show leNat [(blank answers).view _ _, (blank answers).view _ _] = 0
  rw [hview, hview]
  rfl

theorem blank_good (hok : ok → ∀ n, answers n = .ok) :
    Good ok (fun _ => True) (blank answers) (fun _ : Fin 2 => []) where
  wellFormed := blank_wellFormed
  sized := ⟨⟨0, by decide, rfl⟩, ⟨9, by decide, rfl⟩⟩
  coherent := blank_coherent
  fine := fun h => blank_fine (hok h)
  fat12 := fun h => by cases h
  chains := ⟨fun _ => ChainTable.linked_nil, fun _ c hc => (by cases hc), fun _ => List.nodup_nil,
    fun _ _ c hc => (by cases hc)⟩
  valid := fun c _ => by
    rw [blank_entry]
    decide
  pooled := fun _ _ _ => trivial
  owned := fun _ _ _ => trivial
  apart := fun c s hc _ hs => (inClust_plain blank_wellFormed hc hs).1.1
  dword := show 0xFFFFFFFF < 2 ^ 32 by decide
  count := fun h => absurd rfl h
  exact := fun _ h => absurd rfl h

theorem fresh_is (i : Fin 2) :
    (fresh i).Is ok (fun _ => True) (blank answers) [] (empty i) where
  rooted := ⟨rfl, fun h => (by cases h)⟩
  bounded := fun _ => ⟨⟨Nat.zero_le _, Nat.zero_le _, Nat.two_pow_pos 32, Nat.two_pow_pos 32⟩,
    fun h => absurd h (Nat.lt_irrefl 0), fun h => absurd (Nat.zero_mod _) h, Nat.le_refl 0⟩
  readable := rfl
  writable := rfl
  entry := rfl
  held := fun _ => ⟨rfl, rfl, rfl, rfl, fun h => (by cases h), fun _ _ _ => rfl,
    fun _ _ _ _ _ h => (by cases h)⟩

theorem blank_files (hok : ok → ∀ n, answers n = .ok) :
    Files ok (fun _ => True) (blank answers) (fun _ : Fin 2 => []) fresh empty where
  good := blank_good hok
  file := fresh_is
  placed := fun _ _ => ⟨Nat.le_refl 33, show 33 < noSector by decide, fun c _ _ h => absurd h.1 (by
    show ¬ (c - 2) * 1 + 65 ≤ 33
    omega)⟩
  info := fun h => by cases h

end Blank

/-! ## Any order of calls -/

section Run

variable {ι : Type*} [DecidableEq ι] {pool : ℕ → Prop} {q : ι → List ℕ} {fs : FATFS}
  {files : ι → FIL} {v : ι → Content} {ops : List (ι × Op)} {fuel : ℕ}

/-- **Files are arrays of bytes.** On a device that does not fail, calls in any order return what
they return on independent arrays that share the free clusters. A byte that nobody has written may
be read as anything, and each time as something else. A seek ends early only when there are no free
clusters left, and a write only then, or without a byte written if it would reach 2^32. -/
theorem run_refines (h : Files True pool fs q files v) (hops : ∀ x ∈ ops, x.2.Fits fuel)
    (hfuel : fs.nFatent < fuel) :
    Ensures (run fuel ops fs files) fun r => ∃ q' v', Files True pool r.2.1 q' r.2.2 v' ∧
      Replies fs.bcs v fs.nfree ops r.1 v' r.2.1.nfree := by
  refine (run_spec h hops (fun _ _ _ => trivial) hfuel).mono fun r hr => ?_
  obtain ⟨q', v', hfiles, -, hreplies⟩ := hr
  exact ⟨q', v', hfiles, hreplies trivial⟩

/-- Two files in turn. -/
theorem run_refines_blank : Ensures (run 5000 [((0 : Fin 2), .call (.write [1, 2, 3])),
    (1, .call (.write [4])), (0, .call (.lseek 1)), (0, .sync 0), (0, .call (.read 5))]
      (blank fun _ => .ok) fresh) fun r => ∃ q' v',
        Files True (fun _ => True) r.2.1 q' r.2.2 v' ∧
          Replies (blank fun _ => .ok).bcs empty (blank fun _ => .ok).nfree
            [((0 : Fin 2), .call (.write [1, 2, 3])), (1, .call (.write [4])),
              (0, .call (.lseek 1)), (0, .sync 0), (0, .call (.read 5))] r.1 v' r.2.1.nfree :=
  run_refines (blank_files fun _ _ => rfl) (by simp [Op.Fits, Call.Fits])
    (show 4088 < 5000 by decide)

/-- **No cluster gets into two files.** On a device that may fail at any access, with entries of 16
or 32 bits, calls in any order leave each file a chain of its own of clusters that are not free, its
size in it, and FatFs never counts too few free clusters. -/
theorem run_safe (h : Files False pool fs q files v) (hops : ∀ x ∈ ops, x.2.Fits fuel)
    (hcalls : ∀ x ∈ ops, ∃ c, x.2 = .call c) (hfuel : fs.nFatent < fuel) :
    Ensures (run fuel ops fs files) fun r => ∃ q' : ι → List ℕ,
      (∀ i, ChainTable.Linked r.2.1.nFatent r.2.1.entry (q' i) ∧
        (r.2.2 i).sclust = ((q' i).head?).getD 0) ∧
      (∀ i j c, c ∈ q' i → c ∈ q' j → i = j) ∧
      (∀ i, ∀ c ∈ q' i, fs.InRange c ∧ r.2.1.entry c ≠ 0) ∧
      (∀ i, (r.2.2 i).err = .ok →
        (r.2.2 i).fptr ≤ (r.2.2 i).fsize ∧ (r.2.2 i).fsize ≤ (q' i).length * fs.bcs) ∧
      (r.2.1.freeClust ≠ unknown → r.2.1.nfree ≤ r.2.1.freeClust) := by
  have hsync (i : ι) (tm : ℕ) (hmem : (i, Op.sync tm) ∈ ops) : False := by
    obtain ⟨c, hc⟩ := hcalls _ hmem
    cases hc
  refine (run_spec h hops hsync hfuel).mono fun r hr => ?_
  obtain ⟨q', v', hfiles, hgeometry, -⟩ := hr
  have hgood := hfiles.good
  refine ⟨q', fun i => ⟨hgood.chains.linked i, (hfiles.file i).rooted.sclust⟩,
    hgood.chains.disjoint, fun i c hc => ⟨?_, ?_⟩, fun i herr => ?_, hgood.count⟩
  · rw [← hgeometry]
    exact hgood.inRange hc
  · have htwo := hgood.chains.two_le hc
    omega
  · obtain ⟨hbounded, -, -, hle⟩ := (hfiles.file i).bounded herr
    rw [← hgeometry]
    exact ⟨hle, hbounded.fsize_le⟩

/-- A device that fails at each third access. -/
theorem run_safe_blank : Ensures (run 5000 [((0 : Fin 2), .call (.write [1, 2, 3])),
    (1, .call (.write [4])), (0, .call .truncate), (1, .call (.lseek 600))]
      (blank fun n => if n % 3 = 2 then .error fun _ _ => 7 else .ok) fresh) fun r =>
        ∃ q' : Fin 2 → List ℕ,
          (∀ i, ChainTable.Linked r.2.1.nFatent r.2.1.entry (q' i) ∧
            (r.2.2 i).sclust = ((q' i).head?).getD 0) ∧
          (∀ i j c, c ∈ q' i → c ∈ q' j → i = j) ∧
          (∀ i, ∀ c ∈ q' i, blankGeometry.InRange c ∧ r.2.1.entry c ≠ 0) ∧
          (∀ i, (r.2.2 i).err = .ok → (r.2.2 i).fptr ≤ (r.2.2 i).fsize ∧
            (r.2.2 i).fsize ≤ (q' i).length * blankGeometry.bcs) ∧
          (r.2.1.freeClust ≠ unknown → r.2.1.nfree ≤ r.2.1.freeClust) :=
  run_safe (blank_files False.elim) (by simp [Op.Fits, Call.Fits]) (by simp)
    (show 4088 < 5000 by decide)

/-- **A file that has been synchronized is on the disk.** On a device that does not fail, behind
calls in any order, the disk alone has a file when it has been changed and synchronized. -/
theorem run_durable (h : Files True pool fs q files v) (hops : ∀ x ∈ ops, x.2.Fits fuel)
    (hfuel : fs.nFatent < fuel) (i : ι) (tm : ℕ) :
    Ensures (run fuel ops fs files) fun r => ∃ v' free,
      Replies fs.bcs v fs.nfree ops r.1 v' free ∧ (fSync r.2.1 (r.2.2 i) tm).1 = .ok ∧
        ((r.2.2 i).faWritten = true → ∃ l,
          Durable fs.toGeometry (fSync r.2.1 (r.2.2 i) tm).2.1.disk.sectors l (v' i)) := by
  refine (run_spec h hops (fun _ _ _ => trivial) hfuel).mono fun r hr => ?_
  obtain ⟨q', v', hfiles, hgeometry, hreplies⟩ := hr
  obtain ⟨hres, -, -, hdurable⟩ := fSync_durable hfiles.good trivial (hfiles.file i)
    (hfiles.placed trivial i) hfiles.info tm
  refine ⟨v', _, hreplies trivial, hres, fun hwritten => ⟨q' i, ?_⟩⟩
  rw [← hgeometry]
  exact hdurable hwritten

theorem run_durable_blank : Ensures (run 5000 [((0 : Fin 2), .call (.write [1, 2, 3])),
    (1, .call (.write [4]))] (blank fun _ => .ok) fresh) fun r => ∃ v' free,
      Replies (blank fun _ => .ok).bcs empty (blank fun _ => .ok).nfree
        [((0 : Fin 2), .call (.write [1, 2, 3])), (1, .call (.write [4]))] r.1 v' free ∧
        (fSync r.2.1 (r.2.2 1) 0).1 = .ok ∧ ((r.2.2 1).faWritten = true → ∃ l,
          Durable blankGeometry (fSync r.2.1 (r.2.2 1) 0).2.1.disk.sectors l (v' 1)) :=
  run_durable (blank_files fun _ _ => rfl) (by simp [Op.Fits, Call.Fits])
    (show 4088 < 5000 by decide) 1 0

end Run

end OlivePiccolo.FatFs
