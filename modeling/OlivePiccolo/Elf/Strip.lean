import OlivePiccolo.Elf.Reading

/-!
# What the ELF tool keeps

A section is needed if it has contents that are loaded with a segment, and its name is not in the
list of those to remove. It is kept if a segment that is not discarded loads its bytes to its
addresses. `ELF_strip` trims a segment to the extent of the sections that were seen in it, so that
a section is kept exactly if such sections begin in front of it and end behind it
(`strip_keeps_iff`). In a file of the usual layout the section itself is one of them
(`Needed.saved`); where the header of the string table is in front of the table, none may be
(`not_strip_keeps`).
-/

namespace OlivePiccolo.Elf

open Tcl

attribute [local irreducible] toInt32 toInt16

/-! ## Sections that are needed, and segments that hold them -/

/-- The segment loads the bytes to these addresses. What a compressed segment loads is not in it. -/
def Phdr.Holds (phdr : Phdr) (vaddr paddr : ℤ) (bytes : List UInt8) : Prop :=
  phdr.pType = ptLoad ∧ ∃ k : ℕ, vaddr ≡ phdr.pVaddr + k [ZMOD 2 ^ 32] ∧
    paddr ≡ phdr.pPaddr + k [ZMOD 2 ^ 32] ∧ slice phdr.content k bytes.length = bytes

/-- The same for a segment of the file, with the place of the bytes in it. -/
def Segment.HoldsAt (p : Segment) (bin : List UInt8) (k : ℕ) (vaddr paddr : ℤ)
    (bytes : List UInt8) : Prop :=
  p.type = 1 ∧ vaddr ≡ p.vaddr + k [ZMOD 2 ^ 32] ∧ paddr ≡ p.paddr + k [ZMOD 2 ^ 32] ∧
    slice (slice bin p.offset p.filesz) k bytes.length = bytes

section Needed

variable (bin : List UInt8) (names : List (List UInt8)) (i j : ℕ)

/-- The section is loaded with the segment, and is not to be removed. -/
structure Needed : Prop where
  segment_lt : i < phnum bin
  section_lt : j < shnum bin
  loaded : (sectionAt bin j).Loaded
  lies : (sectionAt bin j).LiesIn (segmentAt bin i)
  unnamed : nameOf bin j ∉ names

/-- The bytes of a section. -/
def contents : List UInt8 := slice bin (sectionAt bin j).offset (sectionAt bin j).size

/-- The address that the section is loaded to with the segment. -/
def loadAddr : ℤ :=
  (segmentAt bin i).paddr + ((sectionAt bin j).addr - (segmentAt bin i).vaddr)

/-- After `ELF_read`, `ELF_remove_sections` and `ELF_strip` there is a segment with the section. -/
def Kept : Prop :=
  ∃ phlist, elfRead bin = some phlist ∧
    ∃ phdr ∈ (elfStrip (elfRemoveSections phlist names)).phdrs, phdr.discard = false ∧
      phdr.Holds (sectionAt bin j).addr (loadAddr bin i j) (contents bin j)

/-- The section counts as one of the segment, and stays so: there are fewer than 2^15 sections, it
can be read, its address is in the segment as signed numbers are compared, and its name matches no
listed one. -/
structure Seen : Prop where
  section_lt : j < shnum bin
  shnum_lt : shnum bin < 2 ^ 15
  readable : Readable bin j
  starts : toInt32 (segmentAt bin i).vaddr ≤ toInt32 (sectionAt bin j).addr
  inside : toInt32 (sectionAt bin j).addr <
    toInt32 (segmentAt bin i).vaddr + toInt32 (segmentAt bin i).memsz
  unmatched : ∀ s ∈ names, ¬ stringMatch (nameOf bin j) s = true

/-- Sections that are seen begin and end around the addresses. An end that is not positive needs
none. -/
def Spans (lo hi : ℤ) : Prop :=
  (∃ y, Seen bin names i y ∧ toInt32 (sectionAt bin y).addr ≤ lo) ∧
    (hi ≤ 0 ∨ ∃ z, Seen bin names i z ∧
      hi ≤ toInt32 (sectionAt bin z).addr + toInt32 (sectionAt bin z).size)

/-- What the segment holds from `k` on is not cut off. With zeros behind its contents a segment is
not trimmed. -/
def Spared (k n : ℕ) : Prop :=
  if (segmentAt bin i).filesz = (segmentAt bin i).memsz then
    Spans bin names i (toInt32 (segmentAt bin i).vaddr + k)
      (toInt32 (segmentAt bin i).vaddr + k + n)
  else ∃ lo, Spans bin names i lo (lo + 1)

/-- One of fewer than 2^15 segments, its own or another one, holds the section, and it is spared
there. -/
def Saved : Prop :=
  ∃ i' < phnum bin, phnum bin < 2 ^ 15 ∧ ∃ k : ℕ,
    (segmentAt bin i').HoldsAt bin k (sectionAt bin j).addr (loadAddr bin i j) (contents bin j) ∧
      Spared bin names i' k (contents bin j).length

end Needed

/-! ## What is left of a segment -/

theorem fst_foldl_extendTo_le {l : List Shdr} {v : ℤ × ℤ} {lo : ℤ} :
    (l.foldl extendTo v).1 ≤ lo ↔ v.1 ≤ lo ∨ ∃ y ∈ l, y.shAddr ≤ lo := by
  induction l generalizing v with
  | nil => simp
  | cons s l ih =>
    have hfirst : (extendTo v s).1 ≤ lo ↔ v.1 ≤ lo ∨ s.shAddr ≤ lo := by
      unfold extendTo
      dsimp only
      split <;> omega
    rw [List.foldl_cons, ih, hfirst, or_assoc]
    simp

theorem le_snd_foldl_extendTo {l : List Shdr} {v : ℤ × ℤ} {hi : ℤ} :
    hi ≤ (l.foldl extendTo v).2 ↔ hi ≤ v.2 ∨ ∃ z ∈ l, hi ≤ z.shAddr + z.shSize := by
  induction l generalizing v with
  | nil => simp
  | cons s l ih =>
    have hsecond : hi ≤ (extendTo v s).2 ↔ hi ≤ v.2 ∨ hi ≤ s.shAddr + s.shSize := by
      unfold extendTo
      dsimp only
      split <;> omega
    rw [List.foldl_cons, ih, hsecond, or_assoc]
    simp

/-- The extent of a segment goes around a range. A range behind the largest address that
`ELF_strip` starts with ends in front of the end of a section, which begins in front of it. -/
theorem Phdr.extent_iff {phdr : Phdr} {lo hi : ℤ} (hlt : lo < hi)
    (haddr : ∀ y ∈ phdr.sections, y.shAddr ≤ 0x7fffffff) :
    phdr.extent.1 ≤ lo ∧ hi ≤ phdr.extent.2 ↔
      (∃ y ∈ phdr.sections, y.shAddr ≤ lo) ∧
        (hi ≤ 0 ∨ ∃ z ∈ phdr.sections, hi ≤ z.shAddr + z.shSize) := by
  unfold Phdr.extent
  rw [fst_foldl_extendTo_le, le_snd_foldl_extendTo]
  dsimp only
  refine and_congr_left fun hend => or_iff_right_of_imp fun hbehind => ?_
  rcases hend with hneg | ⟨z, hz, -⟩
  · omega
  · exact ⟨z, hz, (haddr z hz).trans hbehind⟩

theorem slice_inside {l : List UInt8} {k n : ℕ} (hn : n ≠ 0) (h : (slice l k n).length = n) :
    k + n ≤ l.length := by
  rw [slice, List.length_take, List.length_drop] at h
  omega

/-- A segment that is trimmed holds what it held in the part that is left. -/
theorem Phdr.trim_holds {phdr : Phdr} {vmin vmax vaddr paddr : ℤ} {bytes : List UInt8}
    (hmin : phdr.pVaddr ≤ vmin) (hlt : vmin < vmax) (hbytes : bytes ≠ []) :
    (phdr.trim vmin vmax).Holds vaddr paddr bytes ↔
      phdr.pType = ptLoad ∧ ∃ k : ℕ, vaddr ≡ phdr.pVaddr + k [ZMOD 2 ^ 32] ∧
        paddr ≡ phdr.pPaddr + k [ZMOD 2 ^ 32] ∧ slice phdr.content k bytes.length = bytes ∧
          vmin ≤ phdr.pVaddr + k ∧ phdr.pVaddr + k + bytes.length ≤ vmax := by
  obtain ⟨d, hd⟩ := Int.le.dest hmin
  obtain ⟨n, hn⟩ := Int.le.dest hlt.le
  have hlength : bytes.length ≠ 0 := mt List.length_eq_zero_iff.mp hbytes
  have hcontent : (phdr.trim vmin vmax).content = slice phdr.content d n :=
    stringRange_eq phdr.content (by omega) _ (by omega)
  have hpaddr : (phdr.trim vmin vmax).pPaddr = phdr.pPaddr + d := by
    show phdr.pPaddr + (vmin - phdr.pVaddr) = _
    omega
  have hvaddr : (phdr.trim vmin vmax).pVaddr = phdr.pVaddr + d := by
    show phdr.pVaddr + (vmin - phdr.pVaddr) = _
    omega
  unfold Phdr.Holds
  rw [hcontent, hpaddr, hvaddr]
  refine and_congr_right fun _ => ⟨?_, ?_⟩
  · rintro ⟨k, hv, hp, hslice⟩
    have hinside := slice_inside hlength (congrArg List.length hslice)
    have hle : (slice phdr.content d n).length ≤ n := List.length_take_le _ _
    refine ⟨d + k, ?_, ?_, ?_, ?_, ?_⟩
    · rwa [Nat.cast_add, ← Int.add_assoc]
    · rwa [Nat.cast_add, ← Int.add_assoc]
    · rwa [slice_slice (hinside.trans hle)] at hslice
    · push_cast
      omega
    · push_cast
      omega
  · rintro ⟨k, hv, hp, hslice, hin⟩
    obtain ⟨m, rfl⟩ := Nat.exists_eq_add_of_le (show d ≤ k by omega)
    refine ⟨m, ?_, ?_, ?_⟩
    · rwa [Nat.cast_add, ← Int.add_assoc] at hv
    · rwa [Nat.cast_add, ← Int.add_assoc] at hp
    · rwa [slice_slice (by omega)]

theorem Phdr.strip_pType (phdr : Phdr) : phdr.strip.pType = phdr.pType := by
  unfold Phdr.strip Phdr.trim
  dsimp only
  split_ifs <;> rfl

/-- The branches for a segment to be loaded. -/
theorem Phdr.strip_load {phdr : Phdr} (hdiscard : phdr.discard = false)
    (htype : phdr.pType = ptLoad) :
    phdr.strip =
      if phdr.pFilesz = 0 then { phdr with discard := true }
      else if phdr.extent.2 ≤ phdr.extent.1 then { phdr with discard := true }
      else if phdr.pFilesz ≠ phdr.pMemsz then phdr
      else if phdr.pVaddr < phdr.extent.1 ∨ phdr.extent.2 < phdr.pVaddr + phdr.pMemsz then
        phdr.trim phdr.extent.1 phdr.extent.2
      else phdr := by
  have hcomp : ¬ (ptLocomp ≤ phdr.pType ∧ phdr.pType ≤ ptHicomp) := by
    rw [htype]
    decide
  unfold Phdr.strip
  rw [hdiscard, if_neg Bool.false_ne_true, if_neg hcomp, if_neg (not_not_intro htype)]

/-- **What `ELF_strip` leaves in a segment.** -/
theorem Phdr.strip_holds {phdr : Phdr} {vaddr paddr : ℤ} {bytes : List UInt8}
    (hdiscard : phdr.discard = false) (hmin : phdr.pVaddr ≤ phdr.extent.1)
    (hcontent : phdr.pType = ptLoad → (phdr.content.length : ℤ) = phdr.pFilesz)
    (hbytes : bytes ≠ []) :
    phdr.strip.discard = false ∧ phdr.strip.Holds vaddr paddr bytes ↔
      phdr.pType = ptLoad ∧ ∃ k : ℕ, vaddr ≡ phdr.pVaddr + k [ZMOD 2 ^ 32] ∧
        paddr ≡ phdr.pPaddr + k [ZMOD 2 ^ 32] ∧ slice phdr.content k bytes.length = bytes ∧
          if phdr.pFilesz = phdr.pMemsz then
            phdr.extent.1 ≤ phdr.pVaddr + k ∧ phdr.pVaddr + k + bytes.length ≤ phdr.extent.2
          else phdr.extent.1 < phdr.extent.2 := by
  by_cases htype : phdr.pType = ptLoad
  swap
  · have hother : phdr.strip.pType ≠ ptLoad := by rwa [Phdr.strip_pType]
    exact ⟨fun h => absurd h.2.1 hother, fun h => absurd h.1 htype⟩
  have hlength : bytes.length ≠ 0 := mt List.length_eq_zero_iff.mp hbytes
  have hfits {k : ℕ} (hslice : slice phdr.content k bytes.length = bytes) :
      (k + bytes.length : ℤ) ≤ phdr.pFilesz := by
    have hinside := slice_inside hlength (congrArg List.length hslice)
    rw [← hcontent htype]
    exact_mod_cast hinside
  rw [Phdr.strip_load hdiscard htype]
  by_cases hempty : phdr.pFilesz = 0
  · rw [if_pos hempty]
    refine ⟨fun h => absurd h.1 Bool.false_ne_true.symm, fun ⟨_, k, _, _, hslice, _⟩ => ?_⟩
    have := hfits hslice
    omega
  rw [if_neg hempty]
  by_cases hnone : phdr.extent.2 ≤ phdr.extent.1
  · rw [if_pos hnone]
    refine ⟨fun h => absurd h.1 Bool.false_ne_true.symm, fun ⟨_, k, _, _, _, hspared⟩ => ?_⟩
    split at hspared <;> omega
  rw [if_neg hnone]
  by_cases hzeros : phdr.pFilesz = phdr.pMemsz
  swap
  · rw [if_pos hzeros]
    simp only [if_neg hzeros, hdiscard, true_and, Int.not_le.mp hnone, and_true]
    rfl
  rw [if_neg (not_not_intro hzeros)]
  simp only [if_pos hzeros]
  by_cases hcut : phdr.pVaddr < phdr.extent.1 ∨ phdr.extent.2 < phdr.pVaddr + phdr.pMemsz
  · rw [if_pos hcut, and_iff_right (show (phdr.trim _ _).discard = false from hdiscard),
      Phdr.trim_holds hmin (Int.not_le.mp hnone) hbytes]
  · rw [if_neg hcut, and_iff_right hdiscard]
    refine and_congr_right fun _ => exists_congr fun k => ?_
    refine and_congr_right fun _ => and_congr_right fun _ => (and_iff_left_of_imp ?_).symm
    intro hslice
    have := hfits hslice
    omega

/-- The extent of a segment does not begin in front of all its sections. -/
theorem Phdr.le_extent {phdr : Phdr} {vaddr : ℤ} (hvaddr : vaddr ≤ 0x7fffffff)
    (haddr : ∀ s ∈ phdr.sections, vaddr ≤ s.shAddr) : vaddr ≤ phdr.extent.1 := by
  by_contra hbelow
  have hle : phdr.extent.1 ≤ vaddr - 1 := by omega
  rcases fst_foldl_extendTo_le.mp hle with hstart | ⟨s, hs, hslow⟩
  · dsimp only at hstart
    omega
  · have := haddr s hs
    omega

/-! ## The sections of a segment -/

variable {bin : List UInt8} {names : List (List UInt8)} {i j : ℕ}

/-- The segments as they come to `ELF_strip`, with the sections that were seen in them. -/
theorem read_segments (h : Valid bin) {phlist : Phlist} (hread : elfRead bin = some phlist) :
    ∃ shlist, phlist.phdrs =
        (List.range (if phnum bin < 2 ^ 15 then phnum bin else 0)).map (readSegment bin shlist) ∧
      ∀ names i s, s ∈ ((readSegment bin shlist i).removeSections names).sections ↔
        ∃ j, Seen bin names i j ∧ readSection bin j = s := by
  rw [← h.ePhnum_eq]
  by_cases hn : shnum bin < 2 ^ 15
  · rw [elfRead_valid h hn, Option.some.injEq] at hread
    subst hread
    refine ⟨readSections bin, rfl, fun names i s => ?_⟩
    show s ∈ List.filter _ (List.filter _ (readSections bin)) ↔ _
    rw [List.mem_filter, List.mem_filter, mem_readSections]
    simp only [decide_eq_true_iff, lsearch_nonneg, not_exists, not_and]
    constructor
    · rintro ⟨⟨⟨j, hj, hreadable, rfl⟩, hstarts, hinside⟩, hunmatched⟩
      exact ⟨j, ⟨hj, hn, hreadable, hstarts, hinside, hunmatched⟩, rfl⟩
    · rintro ⟨j, hseen, rfl⟩
      exact ⟨⟨⟨j, hseen.section_lt, hseen.readable, rfl⟩, hseen.starts, hseen.inside⟩,
        hseen.unmatched⟩
  · refine ⟨[], elfRead_unread h (Nat.not_lt.mp hn) hread, fun names i s => ?_⟩
    refine ⟨fun hs => ?_, fun ⟨j, hseen, _⟩ => absurd hseen.shnum_lt hn⟩
    cases hs

/-- The fields of a segment are those of the file. -/
structure Phdr.Reads (phdr : Phdr) (bin : List UInt8) (i : ℕ) : Prop where
  pType : phdr.pType = toInt32 (segmentAt bin i).type
  pVaddr : phdr.pVaddr = toInt32 (segmentAt bin i).vaddr
  pPaddr : phdr.pPaddr = toInt32 (segmentAt bin i).paddr
  pFilesz : phdr.pFilesz = toInt32 (segmentAt bin i).filesz
  pMemsz : phdr.pMemsz = toInt32 (segmentAt bin i).memsz
  content : phdr.content = stringRange bin (toInt32 (segmentAt bin i).offset)
    (toInt32 (segmentAt bin i).offset + toInt32 (segmentAt bin i).filesz - 1)
  discard : phdr.discard = false

theorem readSegment_reads (shlist : List Shdr) :
    ((readSegment bin shlist i).removeSections names).Reads bin i := by
  have hdiscard : ¬ (readSegment bin shlist i).discard = true := Bool.false_ne_true
  unfold Phdr.removeSections
  rw [if_neg hdiscard]
  exact ⟨rfl, rfl, rfl, rfl, rfl, rfl, rfl⟩

theorem Phdr.Reads.load_iff {phdr : Phdr} (hreads : phdr.Reads bin i) :
    phdr.pType = ptLoad ↔ (segmentAt bin i).type = 1 := by
  have hone : ptLoad = toInt32 1 := (toInt32_of_lt (by decide)).symm
  have htype : (segmentAt bin i).type < 2 ^ 32 := u32_lt bin _
  rw [hreads.pType, hone, toInt32_inj htype (by decide)]

/-- A segment to be loaded comes with its contents. -/
theorem Phdr.Reads.load {phdr : Phdr} (hreads : phdr.Reads bin i) (h : Valid bin)
    (hi : i < phnum bin) (htype : phdr.pType = ptLoad) :
    phdr.content = slice bin (segmentAt bin i).offset (segmentAt bin i).filesz ∧
      (phdr.content.length : ℤ) = phdr.pFilesz := by
  have hinside := h.segments i hi (hreads.load_iff.mp htype)
  have hlength := h.length_lt
  have hfilesz : toInt32 (segmentAt bin i).filesz = (segmentAt bin i).filesz :=
    toInt32_of_lt (by omega)
  have hoffset : toInt32 (segmentAt bin i).offset = (segmentAt bin i).offset :=
    toInt32_of_lt (by omega)
  have hcontent : phdr.content =
      slice bin (segmentAt bin i).offset (segmentAt bin i).filesz := by
    rw [hreads.content]
    exact stringRange_eq bin hoffset _ (by rw [hfilesz])
  exact ⟨hcontent, by rw [hcontent, slice_length hinside, hreads.pFilesz, hfilesz]⟩

section Segment

variable {phdr : Phdr}
  (hsections : ∀ s, s ∈ phdr.sections ↔ ∃ j, Seen bin names i j ∧ readSection bin j = s)

include hsections

/-- The extent is that of the sections that are seen. -/
theorem spans_iff {lo hi : ℤ} (hlt : lo < hi) :
    phdr.extent.1 ≤ lo ∧ hi ≤ phdr.extent.2 ↔ Spans bin names i lo hi := by
  have haddr : ∀ s ∈ phdr.sections, s.shAddr ≤ 0x7fffffff := fun s hs => by
    obtain ⟨j, -, rfl⟩ := (hsections s).mp hs
    exact toInt32_le (sectionAt bin j).addr
  rw [Phdr.extent_iff hlt haddr]
  simp only [hsections, exists_exists_and_eq_and]
  rfl

variable (hreads : phdr.Reads bin i)

include hreads

theorem spared_iff {k n : ℕ} (hn : n ≠ 0) :
    (if phdr.pFilesz = phdr.pMemsz then
        phdr.extent.1 ≤ phdr.pVaddr + k ∧ phdr.pVaddr + k + n ≤ phdr.extent.2
      else phdr.extent.1 < phdr.extent.2) ↔ Spared bin names i k n := by
  have hfilesz : (segmentAt bin i).filesz < 2 ^ 32 := u32_lt bin _
  have hmemsz : (segmentAt bin i).memsz < 2 ^ 32 := u32_lt bin _
  have hsame : phdr.pFilesz = phdr.pMemsz ↔
      (segmentAt bin i).filesz = (segmentAt bin i).memsz := by
    rw [hreads.pFilesz, hreads.pMemsz, toInt32_inj hfilesz hmemsz]
  unfold Spared
  by_cases hzeros : (segmentAt bin i).filesz = (segmentAt bin i).memsz
  · rw [if_pos (hsame.mpr hzeros), if_pos hzeros, hreads.pVaddr]
    exact spans_iff hsections (by omega)
  · rw [if_neg (mt hsame.mp hzeros), if_neg hzeros]
    constructor
    · exact fun hlt => ⟨phdr.extent.1, (spans_iff hsections (by omega)).mp ⟨le_rfl, hlt⟩⟩
    · rintro ⟨lo, hspans⟩
      have := (spans_iff hsections (by omega)).mpr hspans
      omega

/-- **What is left of a segment of the file.** -/
theorem segment_holds (h : Valid bin) (hi : i < phnum bin) {vaddr paddr : ℤ} {bytes : List UInt8}
    (hbytes : bytes ≠ []) :
    phdr.strip.discard = false ∧ phdr.strip.Holds vaddr paddr bytes ↔
      ∃ k, (segmentAt bin i).HoldsAt bin k vaddr paddr bytes ∧
        Spared bin names i k bytes.length := by
  have hlength : bytes.length ≠ 0 := mt List.length_eq_zero_iff.mp hbytes
  have hmin : phdr.pVaddr ≤ phdr.extent.1 := by
    rw [hreads.pVaddr]
    refine Phdr.le_extent (toInt32_le (segmentAt bin i).vaddr) fun s hs => ?_
    obtain ⟨j, hseen, rfl⟩ := (hsections s).mp hs
    exact hseen.starts
  have haddr {x a : ℤ} {v k : ℕ} (ha : a = toInt32 v) :
      x ≡ a + k [ZMOD 2 ^ 32] ↔ x ≡ v + k [ZMOD 2 ^ 32] := by
    have hmod := (toInt32_modEq v).add_right k
    rw [ha]
    exact ⟨fun hx => hx.trans hmod, fun hx => hx.trans hmod.symm⟩
  rw [Phdr.strip_holds hreads.discard hmin (fun htype => (hreads.load h hi htype).2) hbytes]
  constructor
  · rintro ⟨htype, k, hv, hp, hslice, hspared⟩
    rw [(hreads.load h hi htype).1] at hslice
    exact ⟨k, ⟨hreads.load_iff.mp htype, (haddr hreads.pVaddr).mp hv, (haddr hreads.pPaddr).mp hp,
      hslice⟩, (spared_iff hsections hreads hlength).mp hspared⟩
  · rintro ⟨k, ⟨htype, hv, hp, hslice⟩, hspared⟩
    have hload := hreads.load_iff.mpr htype
    rw [← (hreads.load h hi hload).1] at hslice
    exact ⟨hload, k, (haddr hreads.pVaddr).mpr hv, (haddr hreads.pPaddr).mpr hp, hslice,
      (spared_iff hsections hreads hlength).mpr hspared⟩

end Segment

/-! ## What is kept -/

theorem Spans.shnum_lt {lo hi : ℤ} (hspans : Spans bin names i lo hi) : shnum bin < 2 ^ 15 :=
  have ⟨⟨_, hseen, _⟩, _⟩ := hspans
  hseen.shnum_lt

theorem Spared.shnum_lt {k n : ℕ} (hspared : Spared bin names i k n) : shnum bin < 2 ^ 15 := by
  unfold Spared at hspared
  split at hspared
  · exact hspared.shnum_lt
  · exact hspared.elim fun _ hspans => hspans.shnum_lt

/-- A section that is needed has bytes, which are in the file. -/
theorem Needed.contents_length (h : Valid bin) (hneeded : Needed bin names i j) :
    (contents bin j).length = (sectionAt bin j).size := by
  have hinside := h.segments i hneeded.segment_lt hneeded.lies.1
  obtain ⟨-, hmemsz, hstart, hend, hplace⟩ := hneeded.lies
  exact slice_length (by omega)

theorem Needed.contents_ne_nil (h : Valid bin) (hneeded : Needed bin names i j) :
    contents bin j ≠ [] := by
  intro hnil
  have hlength := hneeded.contents_length h
  rw [hnil] at hlength
  exact hneeded.loaded.2.1 hlength.symm

/-- A section that is needed is kept exactly if it is saved. -/
theorem kept_iff (h : Valid bin) (hneeded : Needed bin names i j) :
    Kept bin names i j ↔ Saved bin names i j := by
  have hbytes := hneeded.contents_ne_nil h
  constructor
  · rintro ⟨phlist, hread, phdr, hphdr, hholds⟩
    obtain ⟨shlist, hphdrs, hsections⟩ := read_segments h hread
    obtain ⟨_, hremoved, rfl⟩ := List.mem_map.mp hphdr
    obtain ⟨_, hsegment, rfl⟩ := List.mem_map.mp hremoved
    rw [hphdrs] at hsegment
    obtain ⟨i', hi', rfl⟩ := List.mem_map.mp hsegment
    rw [List.mem_range] at hi'
    split at hi'
    · obtain ⟨k, hat, hspared⟩ :=
        (segment_holds (hsections names i') (readSegment_reads shlist) h hi' hbytes).mp hholds
      exact ⟨i', hi', ‹_›, k, hat, hspared⟩
    · exact absurd hi' (Nat.not_lt_zero i')
  · rintro ⟨i', hi', hphnum, k, hat, hspared⟩
    have hread := elfRead_valid h hspared.shnum_lt
    obtain ⟨shlist, hphdrs, hsections⟩ := read_segments h hread
    refine ⟨_, hread, _, List.mem_map_of_mem (List.mem_map_of_mem ?_),
      (segment_holds (hsections names i') (readSegment_reads shlist) h hi' hbytes).mpr
        ⟨k, hat, hspared⟩⟩
    rw [hphdrs, if_pos hphnum]
    exact List.mem_map_of_mem (List.mem_range.mpr hi')

/-- **When stripping keeps every needed section.** -/
theorem strip_keeps_iff (h : Valid bin) (names : List (List UInt8)) :
    (∀ i j, Needed bin names i j → Kept bin names i j) ↔
      ∀ i j, Needed bin names i j → Saved bin names i j :=
  forall_congr' fun _ => forall_congr' fun _ => forall_congr' fun hneeded => kept_iff h hneeded

/-! ## The usual layout -/

/-- Where a section is in the segment that it lies in. -/
theorem Needed.holdsAt (h : Valid bin) (hneeded : Needed bin names i j) {k : ℕ}
    (hk : (segmentAt bin i).vaddr + k = (sectionAt bin j).addr) :
    (segmentAt bin i).HoldsAt bin k (sectionAt bin j).addr (loadAddr bin i j)
      (contents bin j) := by
  have hlength := hneeded.contents_length h
  obtain ⟨htype, hmemsz, hstart, hend, hplace⟩ := hneeded.lies
  have hpaddr : loadAddr bin i j = (segmentAt bin i).paddr + k := by
    unfold loadAddr
    omega
  refine ⟨htype, ?_, ?_, ?_⟩
  · rw [← hk, Nat.cast_add]
  · rw [hpaddr]
  · have hoffset : (segmentAt bin i).offset + k = (sectionAt bin j).offset := by omega
    rw [hlength, slice_slice (by omega), hoffset]
    rfl

/-- **A section is saved in a file of the usual layout**: the header of the string table is not in
front of the table, and the segment is on one side of 0x80000000. -/
theorem Needed.saved (h : Valid bin) (hneeded : Needed bin names i j) (hphnum : phnum bin < 2 ^ 15)
    (hshnum : shnum bin < 2 ^ 15) (htable : (strtab bin).offset ≤ shoff bin + 40 * shstrndx bin)
    (hplain : ∀ c ∈ nameOf bin j, c ∉ special)
    (hside : (segmentAt bin i).vaddr + (segmentAt bin i).memsz ≤ 2 ^ 31 ∨
      2 ^ 31 ≤ (segmentAt bin i).vaddr) : Saved bin names i j := by
  have hlength := hneeded.contents_length h
  have hname := h.names j hneeded.section_lt
  have hinside := h.segments i hneeded.segment_lt hneeded.lies.1
  have hfile := h.length_lt
  obtain ⟨-, hmemsz, hstart, hend, -⟩ := hneeded.lies
  obtain ⟨halloc, hsize, -⟩ := hneeded.loaded
  obtain ⟨k, hk⟩ := Nat.exists_eq_add_of_le hstart
  have hreadable : Readable bin j := ⟨halloc, by unfold cutOff; omega⟩
  have hbehind : (k : ℤ) < (segmentAt bin i).memsz := by omega
  have hsize_lt : (sectionAt bin j).size < 2 ^ 31 := by omega
  have hmemsz_lt : (segmentAt bin i).memsz < 2 ^ 31 := by omega
  have haddr : toInt32 (sectionAt bin j).addr = toInt32 (segmentAt bin i).vaddr + k := by
    have haddr_lt : (sectionAt bin j).addr < 2 ^ 32 := u32_lt bin _
    rcases hside with hlow | hhigh
    · rw [toInt32_of_lt (by omega), toInt32_of_lt (by omega)]
      omega
    · rw [toInt32_of_ge (by omega) haddr_lt, toInt32_of_ge hhigh (by omega)]
      omega
  have hseen : Seen bin names i j :=
    { section_lt := hneeded.section_lt
      shnum_lt := hshnum
      readable := hreadable
      starts := by
        rw [haddr]
        exact Int.le_add_of_nonneg_right (Int.natCast_nonneg k)
      inside := by
        rw [haddr, toInt32_of_lt hmemsz_lt]
        exact Int.add_lt_add_left hbehind _
      unmatched := fun s hs hmatch =>
        hneeded.unnamed ((stringMatch_plain hplain).mp hmatch ▸ hs) }
  refine ⟨i, hneeded.segment_lt, hphnum, k, hneeded.holdsAt h hk.symm, ?_⟩
  unfold Spared
  rw [if_pos hmemsz, hlength]
  refine ⟨⟨j, hseen, haddr.le⟩, Or.inr ⟨j, hseen, ?_⟩⟩
  rw [haddr, toInt32_of_lt hsize_lt]

/-! ## Two layouts of one program -/

/-- A header, a segment and three sections: none, the code, and the names. The section headers, the
code and the string table are where the arguments say. -/
def fileHeaders (shoff text : ℕ) : List UInt8 :=
  leBytes 4 0x464c457f ++ [1, 1, 1, 0, 0, 0, 0, 0, 0, 0, 0, 0] ++ leBytes 2 2 ++ leBytes 2 113 ++
    [1, 0x2000, 52, shoff, 0].flatMap (leBytes 4) ++ [52, 32, 1, 40, 3, 2].flatMap (leBytes 2) ++
    [1, text, 0x2000, 0x2000, 4, 4, 5, 4].flatMap (leBytes 4)

def fileSections (text table : ℕ) : List UInt8 :=
  List.replicate 40 0 ++ [1, 1, 6, 0x2000, text, 4, 0, 0, 4, 0].flatMap (leBytes 4) ++
    [7, 3, 0, 0, table, 17, 0, 0, 1, 0].flatMap (leBytes 4)

def fileText : List UInt8 := [0x3a, 0x88, 0x01, 0x00]

/-- `.text` and `.shstrtab`. -/
def fileTable : List UInt8 :=
  [0, 46, 116, 101, 120, 116, 0, 46, 115, 104, 115, 116, 114, 116, 97, 98, 0]

/-- The section headers come last. -/
def tableFirst : List UInt8 :=
  fileHeaders 108 84 ++ fileText ++ fileTable ++ [0, 0, 0] ++ fileSections 84 88

/-- The section headers come first. -/
def headersFirst : List UInt8 :=
  fileHeaders 84 204 ++ fileSections 204 208 ++ fileText ++ fileTable

theorem tableFirst_valid : Valid tableFirst := by
  constructor <;> decide +kernel

theorem headersFirst_valid : Valid headersFirst := by
  constructor <;> decide +kernel

theorem tableFirst_saved (i j : ℕ) (hneeded : Needed tableFirst [] i j) :
    Saved tableFirst [] i j := by
  have hphnum : phnum tableFirst = 1 := by decide +kernel
  have hi := hneeded.segment_lt
  rw [hphnum, Nat.lt_one_iff] at hi
  subst hi
  have hplain : ∀ j < shnum tableFirst, ∀ c ∈ nameOf tableFirst j, c ∉ special := by
    decide +kernel
  exact hneeded.saved tableFirst_valid (by decide +kernel) (by decide +kernel)
    (by decide +kernel) (hplain j hneeded.section_lt) (by decide +kernel)

/-- The code is kept in the first file. -/
theorem tableFirst_keeps : Needed tableFirst [] 0 1 ∧ Kept tableFirst [] 0 1 := by
  have hneeded : Needed tableFirst [] 0 1 := by constructor <;> decide +kernel
  exact ⟨hneeded, (strip_keeps_iff tableFirst_valid []).mpr tableFirst_saved 0 1 hneeded⟩

/-- In the second file, where the names are cut off, the only segment is discarded. -/
theorem not_strip_keeps :
    Valid headersFirst ∧ Needed headersFirst [] 0 1 ∧ ¬ Kept headersFirst [] 0 1 ∧
      ∃ phlist, elfRead headersFirst = some phlist ∧
        ∀ phdr ∈ (elfStrip (elfRemoveSections phlist [])).phdrs, phdr.discard = true := by
  have hall : ((elfRead headersFirst).map fun phlist =>
      (elfStrip (elfRemoveSections phlist [])).phdrs.all (·.discard)) = some true := by
    decide +kernel
  obtain ⟨phlist, hread, hdiscard⟩ := Option.map_eq_some_iff.mp hall
  rw [List.all_eq_true] at hdiscard
  refine ⟨headersFirst_valid, ?_, ?_, phlist, hread, hdiscard⟩
  · constructor <;> decide +kernel
  · rintro ⟨phlist', hread', phdr, hphdr, hkept, -⟩
    rw [hread, Option.some.injEq] at hread'
    subst hread'
    rw [hdiscard phdr hphdr] at hkept
    cases hkept

end OlivePiccolo.Elf
