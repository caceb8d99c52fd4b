import OlivePiccolo.Elf.Strip

/-!
# The part of a segment that is kept

`ELF_strip` trims a segment to the extent of the sections that are seen in it. What it keeps is a
part of the contents of the segment (`strip_part`), unless a section that begins in the segment ends
behind it: then the segment is made longer than its contents (`Keeps.fits`).
-/

namespace OlivePiccolo.Elf

open Tcl

attribute [local irreducible] toInt32 toInt16

/-! ## The extent -/

section Extent

variable (bin : List UInt8) (names : List (List UInt8)) (i j : ℕ)

theorem seen_iff : Seen bin names i j ↔ j < shnum bin ∧ shnum bin < 2 ^ 15 ∧ Readable bin j ∧
    toInt32 (segmentAt bin i).vaddr ≤ toInt32 (sectionAt bin j).addr ∧
      toInt32 (sectionAt bin j).addr <
        toInt32 (segmentAt bin i).vaddr + toInt32 (segmentAt bin i).memsz ∧
      ∀ s ∈ names, ¬ stringMatch (nameOf bin j) s = true := by
  constructor
  · intro h
    exact ⟨h.section_lt, h.shnum_lt, h.readable, h.starts, h.inside, h.unmatched⟩
  · rintro ⟨hj, hn, hreadable, hstarts, hinside, hunmatched⟩
    exact ⟨hj, hn, hreadable, hstarts, hinside, hunmatched⟩

instance : Decidable (Seen bin names i j) := decidable_of_iff _ (seen_iff bin names i j).symm

/-- The sections that are seen in a segment. -/
def seen : List ℕ := (List.range (shnum bin)).filter (Seen bin names i ·)

/-- Their lowest address, at most the one that `ELF_strip` begins with. -/
def lowest : ℤ :=
  ((seen bin names i).map fun j => toInt32 (sectionAt bin j).addr).foldl min 0x7fffffff

/-- Their highest end, which is not negative. -/
def highest : ℤ :=
  ((seen bin names i).map fun j =>
    toInt32 (sectionAt bin j).addr + toInt32 (sectionAt bin j).size).foldl max 0

/-- What is cut off in front. A segment with zeros behind its contents is not trimmed. -/
def cut : ℕ :=
  let p := segmentAt bin i
  if p.filesz = p.memsz then (lowest bin names i - toInt32 p.vaddr).toNat else 0

/-- How much is left behind the cut. -/
def left : ℕ :=
  let p := segmentAt bin i
  if p.filesz = p.memsz then
    (min (highest bin names i) (toInt32 p.vaddr + toInt32 p.memsz) - lowest bin names i).toNat
  else p.filesz

/-- `ELF_strip` keeps the segment, and does not make it longer. -/
structure Keeps : Prop where
  phnum_lt : phnum bin < 2 ^ 15
  kept : lowest bin names i < highest bin names i
  fits : (segmentAt bin i).filesz = (segmentAt bin i).memsz →
    lowest bin names i = toInt32 (segmentAt bin i).vaddr ∨
      highest bin names i ≤ toInt32 (segmentAt bin i).vaddr + toInt32 (segmentAt bin i).memsz

end Extent

/-- The segment that is kept: `n` bytes of one of the file from `d` on, and its zeros. -/
structure PartOf (bin : List UInt8) (p : Segment) (d n : ℕ) (phdr : Phdr) : Prop where
  discard : phdr.discard = false
  pType : phdr.pType = ptLoad
  pPaddr : phdr.pPaddr = toInt32 p.paddr + d
  pFilesz : phdr.pFilesz = n
  pMemsz : phdr.pMemsz = n + (p.memsz - p.filesz : ℕ)
  content : phdr.content = slice bin (p.offset + d) n
  pos : 0 < n
  inside : d + n ≤ p.filesz

variable {bin : List UInt8} {names : List (List UInt8)} {i j : ℕ}

theorem mem_seen : j ∈ seen bin names i ↔ Seen bin names i j := by
  rw [seen, List.mem_filter, List.mem_range, decide_eq_true_iff]
  exact and_iff_right_of_imp Seen.section_lt

theorem foldl_min_le {l : List ℤ} {a c : ℤ} : l.foldl min a ≤ c ↔ a ≤ c ∨ ∃ x ∈ l, x ≤ c := by
  induction l generalizing a with
  | nil => simp
  | cons x l ih => rw [List.foldl_cons, ih, min_le_iff, or_assoc]; simp

theorem le_foldl_max {l : List ℤ} {a c : ℤ} : c ≤ l.foldl max a ↔ c ≤ a ∨ ∃ x ∈ l, c ≤ x := by
  induction l generalizing a with
  | nil => simp
  | cons x l ih => rw [List.foldl_cons, ih, le_max_iff, or_assoc]; simp

theorem lowest_le {c : ℤ} : lowest bin names i ≤ c ↔
    0x7fffffff ≤ c ∨ ∃ j, Seen bin names i j ∧ toInt32 (sectionAt bin j).addr ≤ c := by
  rw [lowest, foldl_min_le]
  simp only [List.mem_map, exists_exists_and_eq_and, mem_seen]

theorem le_highest {c : ℤ} : c ≤ highest bin names i ↔
    c ≤ 0 ∨ ∃ j, Seen bin names i j ∧
      c ≤ toInt32 (sectionAt bin j).addr + toInt32 (sectionAt bin j).size := by
  rw [highest, le_foldl_max]
  simp only [List.mem_map, exists_exists_and_eq_and, mem_seen]

theorem Seen.memsz_lt (hseen : Seen bin names i j) : (segmentAt bin i).memsz < 2 ^ 31 := by
  by_contra hge
  have hlt : (segmentAt bin i).memsz < 2 ^ 32 := u32_lt bin _
  have hneg := toInt32_of_ge (Nat.not_lt.mp hge) hlt
  have hstarts := hseen.starts
  have hinside := hseen.inside
  omega

/-- A segment with an extent has a section that is seen in it. -/
theorem exists_seen (h : lowest bin names i < highest bin names i) :
    ∃ j, Seen bin names i j ∧ toInt32 (sectionAt bin j).addr = lowest bin names i := by
  rcases lowest_le.mp (le_refl (lowest bin names i)) with hlow | ⟨j, hseen, hle⟩
  · rcases le_highest.mp (le_refl (highest bin names i)) with hhigh | ⟨j, hseen, -⟩
    · omega
    · have haddr := toInt32_le (sectionAt bin j).addr
      have hle := lowest_le.mpr (.inr ⟨j, hseen, le_rfl⟩)
      exact ⟨j, hseen, by omega⟩
  · exact ⟨j, hseen, le_antisymm hle (lowest_le.mpr (.inr ⟨j, hseen, le_rfl⟩))⟩

/-- The extent begins in the segment. -/
theorem lowest_inside (h : lowest bin names i < highest bin names i) :
    (segmentAt bin i).memsz < 2 ^ 31 ∧ toInt32 (segmentAt bin i).vaddr ≤ lowest bin names i ∧
      lowest bin names i < toInt32 (segmentAt bin i).vaddr + (segmentAt bin i).memsz := by
  obtain ⟨j, hseen, hlow⟩ := exists_seen h
  have hstarts := hseen.starts
  have hinside := hseen.inside
  rw [toInt32_of_lt hseen.memsz_lt] at hinside
  rw [hlow] at hstarts hinside
  exact ⟨hseen.memsz_lt, hstarts, hinside⟩

section Segment

variable {phdr : Phdr}
  (hsections : ∀ s, s ∈ phdr.sections ↔ ∃ j, Seen bin names i j ∧ readSection bin j = s)

include hsections

theorem extent_eq : phdr.extent = (lowest bin names i, highest bin names i) := by
  refine Prod.ext (eq_of_forall_ge_iff fun c => ?_) (eq_of_forall_le_iff fun c => ?_)
  · rw [Phdr.extent, fst_foldl_extendTo_le, lowest_le]
    simp only [hsections, exists_exists_and_eq_and]
    rfl
  · rw [Phdr.extent, le_snd_foldl_extendTo, le_highest]
    simp only [hsections, exists_exists_and_eq_and]
    rfl

variable (hreads : phdr.Reads bin i) (h : Valid bin) (hi : i < phnum bin)
  (htype : (segmentAt bin i).type = 1) (hfilesz : 0 < (segmentAt bin i).filesz)

include hreads h hi htype hfilesz

/-- What `ELF_strip` does with a segment to be loaded, by the fields in the file. -/
theorem strip_segment :
    phdr.strip =
      if highest bin names i ≤ lowest bin names i then { phdr with discard := true }
      else if (segmentAt bin i).filesz ≠ (segmentAt bin i).memsz then phdr
      else if toInt32 (segmentAt bin i).vaddr < lowest bin names i ∨ highest bin names i <
          toInt32 (segmentAt bin i).vaddr + toInt32 (segmentAt bin i).memsz then
        phdr.trim (lowest bin names i) (highest bin names i)
      else phdr := by
  have hload := hreads.load_iff.mpr htype
  have hlength := (hreads.load h hi hload).2
  have hinside := h.segments i hi htype
  have hfile := h.length_lt
  have hsame : phdr.pFilesz = toInt32 (segmentAt bin i).memsz ↔
      (segmentAt bin i).filesz = (segmentAt bin i).memsz := by
    have hfsz : (segmentAt bin i).filesz < 2 ^ 32 := u32_lt bin _
    have hmsz : (segmentAt bin i).memsz < 2 ^ 32 := u32_lt bin _
    rw [hreads.pFilesz, toInt32_inj hfsz hmsz]
  have hnonzero : phdr.pFilesz ≠ 0 := by
    rw [hreads.pFilesz, toInt32_of_lt (by omega)]
    omega
  rw [Phdr.strip_load hreads.discard hload, extent_eq hsections, if_neg hnonzero]
  simp only [ne_eq, hreads.pVaddr, hreads.pMemsz, hsame]

/-- A segment that is kept as a part of the file is kept by its sections. -/
theorem keeps_of_strip (hphnum : phnum bin < 2 ^ 15) (hkept : phdr.strip.discard = false) {d : ℕ}
    (hpaddr : phdr.strip.pPaddr ≡ (segmentAt bin i).paddr + d [ZMOD 2 ^ 32])
    (hinside : d + phdr.strip.pFilesz ≤ (segmentAt bin i).filesz) : Keeps bin names i := by
  have hstrip := strip_segment hsections hreads h hi htype hfilesz
  have hlt : lowest bin names i < highest bin names i := by
    by_contra hle
    rw [hstrip, if_pos (not_lt.mp hle)] at hkept
    exact Bool.false_ne_true hkept.symm
  refine ⟨hphnum, hlt, fun hsame => ?_⟩
  by_contra hlonger
  obtain ⟨hlow, hhigh⟩ := not_or.mp hlonger
  obtain ⟨hmlt, hstarts, hbelow⟩ := lowest_inside hlt
  rw [toInt32_of_lt hmlt] at hhigh
  rw [if_neg (not_le.mpr hlt), if_neg (not_not_intro hsame),
    if_pos (.inl (lt_of_le_of_ne hstarts (Ne.symm hlow)))] at hstrip
  rw [hstrip] at hpaddr hinside
  change phdr.pPaddr + (lowest bin names i - phdr.pVaddr) ≡ _ [ZMOD 2 ^ 32] at hpaddr
  change d + (highest bin names i - lowest bin names i) ≤ _ at hinside
  have hvaddr := hreads.pVaddr
  rw [hreads.pPaddr] at hpaddr
  have hmod := ((toInt32_modEq (segmentAt bin i).paddr).add_right _).symm.trans hpaddr
  have hdiff := Int.ModEq.add_left_cancel' _ hmod
  rw [Int.ModEq, Int.emod_eq_of_lt (by omega) (by omega),
    Int.emod_eq_of_lt (by omega) (by omega)] at hdiff
  omega

variable (hmemsz : (segmentAt bin i).filesz ≤ (segmentAt bin i).memsz)

include hmemsz

/-- **The part that is kept.** -/
theorem strip_part (hkeeps : Keeps bin names i) :
    PartOf bin (segmentAt bin i) (cut bin names i) (left bin names i) phdr.strip := by
  have hload := hreads.load_iff.mpr htype
  obtain ⟨hcontent, hlength⟩ := hreads.load h hi hload
  have hinside := h.segments i hi htype
  have hfile := h.length_lt
  obtain ⟨hmlt, hstarts, hbelow⟩ := lowest_inside hkeeps.kept
  have hfsz := hreads.pFilesz
  have hmsz := hreads.pMemsz
  have hkept := hkeeps.kept
  have hfits := hkeeps.fits
  rw [toInt32_of_lt (by omega)] at hfsz
  rw [toInt32_of_lt hmlt] at hmsz hfits
  rw [strip_segment hsections hreads h hi htype hfilesz, if_neg (not_le.mpr hkept)]
  unfold cut left
  dsimp only
  rw [toInt32_of_lt hmlt]
  by_cases hgap : (segmentAt bin i).filesz = (segmentAt bin i).memsz
  swap
  · rw [if_pos hgap, if_neg hgap, if_neg hgap]
    refine ⟨hreads.discard, hload, ?_, hfsz, ?_, hcontent, hfilesz, by omega⟩
    · rw [hreads.pPaddr, Nat.cast_zero, add_zero]
    · rw [hmsz]
      omega
  replace hfits := hfits hgap
  have hvaddr := hreads.pVaddr
  generalize lowest bin names i = low at *
  generalize highest bin names i = high at *
  generalize toInt32 (segmentAt bin i).vaddr = vaddr at *
  obtain ⟨d, hd⟩ := Int.le.dest (show vaddr ≤ low by omega)
  obtain ⟨n, hn⟩ := Int.le.dest (show low ≤ min high (vaddr + (segmentAt bin i).memsz) by omega)
  have hcut : (low - vaddr).toNat = d := by omega
  have hleft : (min high (vaddr + (segmentAt bin i).memsz) - low).toNat = n := by omega
  rw [if_neg (not_not_intro hgap), if_pos hgap, if_pos hgap, hcut, hleft]
  split_ifs with htrim
  · have hsize : high - low = n := by omega
    refine ⟨hreads.discard, hload, ?_, hsize, ?_, ?_, by omega, by omega⟩
    · show phdr.pPaddr + (low - phdr.pVaddr) = _
      rw [hreads.pPaddr, show low - phdr.pVaddr = d by omega]
    · show high - low = _
      omega
    · show stringRange phdr.content _ _ = _
      rw [stringRange_eq phdr.content (a := d) (n := n) (by omega) _ (by omega), hcontent]
      exact slice_slice (by omega)
  · obtain rfl : d = 0 := by omega
    obtain rfl : n = (segmentAt bin i).filesz := by omega
    refine ⟨hreads.discard, hload, ?_, hfsz, ?_, hcontent, hfilesz, by omega⟩
    · rw [hreads.pPaddr, Nat.cast_zero, add_zero]
    · rw [hmsz]
      omega

end Segment

end OlivePiccolo.Elf
