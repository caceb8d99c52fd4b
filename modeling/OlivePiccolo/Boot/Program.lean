import OlivePiccolo.Boot.Image
import OlivePiccolo.Elf.Part

/-!
# A program in the flash

A program is an executable file with segments at words that are apart from each other. `ELF_strip`
keeps a part of each segment, the tool makes an image of the parts, and the loader brings them to
their addresses. They are in memory, with zeros behind them, exactly if the sections of each segment
are read and end in it, what is not compressed begins at a word, and what is compressed has no zeros
behind it (`program_loads_iff`): in front of the compression these are made spaces.
-/

namespace OlivePiccolo.Boot

open StateTransition Elf Tcl

attribute [local irreducible] toInt32 toInt16

/-! ## Programs -/

section Program

variable (bin : List UInt8) (names : List (List UInt8)) (compress : Bool) (i : ℕ)

/-- A segment of the file that is to be loaded. -/
def Load : Prop := i < phnum bin ∧ (segmentAt bin i).type = 1

/-- An executable file that the tool and the loader are made for. No segment has been compressed
yet, the words of the segments are apart, and the address behind them has 32 bits; and each segment
has a section that is not to be removed. -/
structure Program : Prop where
  valid : Valid bin
  /-- `ET_EXEC` -/
  executable : u16 bin 16 = 2
  plain : ∀ i < phnum bin, ¬ (0x63700000 ≤ (segmentAt bin i).type ∧
    (segmentAt bin i).type ≤ 0x6370ffff ∧ (segmentAt bin i).type % 0x100 = 1)
  filesz_pos : ∀ i, Load bin i → 0 < (segmentAt bin i).filesz
  filesz_le : ∀ i, Load bin i → (segmentAt bin i).filesz ≤ (segmentAt bin i).memsz
  aligned : ∀ i, Load bin i → (segmentAt bin i).paddr % 4 = 0
  top : ∀ i, Load bin i → (segmentAt bin i).paddr + roundUp (segmentAt bin i).memsz 4 < 2 ^ 32
  apart : ∀ i, Load bin i → ∀ j, Load bin j → i ≠ j →
    (segmentAt bin i).paddr + roundUp (segmentAt bin i).memsz 4 ≤ (segmentAt bin j).paddr ∨
      (segmentAt bin j).paddr + roundUp (segmentAt bin j).memsz 4 ≤ (segmentAt bin i).paddr
  section_left : ∀ i, Load bin i → ∃ j < shnum bin, (sectionAt bin j).flags.testBit 1 = true ∧
    (segmentAt bin i).vaddr ≤ (sectionAt bin j).addr ∧
      (sectionAt bin j).addr < (segmentAt bin i).vaddr + (segmentAt bin i).memsz ∧
        nameOf bin j ∉ names

/-- What is kept of a segment is in memory: bytes of the file, and zeros behind them. -/
def InMemory (phdr : Phdr) (memory : BitVec 32 → UInt8) : Prop :=
  ∃ d : ℕ, phdr.pPaddr ≡ (segmentAt bin i).paddr + d [ZMOD 2 ^ 32] ∧
    d + phdr.pFilesz ≤ (segmentAt bin i).filesz ∧
    ∀ k : ℕ, (k : ℤ) < phdr.pMemsz →
      some (memory (BitVec.ofNat 32 (paddrOf phdr + k))) =
        if (k : ℤ) < phdr.pFilesz then bin[(segmentAt bin i).offset + d + k]? else some 0

/-- The segment is kept and written to the image, and the loader comes to the start of the program
with it in memory. -/
def Loaded (content : ℕ → UInt8) (s : Loader) : Prop :=
  ∃ phlist image phdr s', strippedFrom names bin = some phlist ∧
    elfImage compress phlist = some image ∧ phlist.phdrs[i]? = some phdr ∧ phdr.discard = false ∧
      Reaches (loaderStep (readBytes content)) (.loadProgramHeader, s) (.startProgram, s') ∧
        InMemory bin i phdr s'.memory

/-- The image that the tool makes of the file. -/
def programImage : Option (List UInt8) := do
  let elfData ← strippedFrom names bin
  elfImage compress elfData

/-- What is kept of the contents of a segment. -/
def keptBytes : List UInt8 :=
  slice bin ((segmentAt bin i).offset + cut bin names i) (left bin names i)

/-- What is kept of a segment, with spaces for the zeros behind it, is made shorter by the
compression. -/
def Shrinks : Prop :=
  ∃ result, compressLz4 (keptBytes bin names i ++
    List.replicate ((segmentAt bin i).memsz - (segmentAt bin i).filesz) 0x20) = some result ∧
      result.length ≠ 0 ∧ result.length < left bin names i

instance : Decidable (Shrinks bin names i) :=
  decidable_of_iff ((compressLz4 (keptBytes bin names i ++
    List.replicate ((segmentAt bin i).memsz - (segmentAt bin i).filesz) 0x20)).any
      fun result => result.length ≠ 0 ∧ result.length < left bin names i)
    (by simp [Shrinks, Option.any_eq_true])

/-- The segment comes through the tool and the loader. -/
structure Sound : Prop where
  keeps : Keeps bin names i
  words : cut bin names i % 4 = 0 ∨ compress = true ∧ Shrinks bin names i
  zeros : (segmentAt bin i).filesz < (segmentAt bin i).memsz →
    ¬ (compress = true ∧ Shrinks bin names i)

end Program

/-! ## Parts -/

section PartOf

variable {bin : List UInt8} {compress : Bool} {d n : ℕ} {p : Segment} {phdr : Phdr}
  (hpart : PartOf bin p d n phdr)

include hpart

theorem memsz_part : phdr.pMemsz.toNat = n + (p.memsz - p.filesz) := by
  rw [hpart.pMemsz]
  omega

variable (hle : p.filesz ≤ p.memsz) (htop : p.paddr + roundUp p.memsz 4 < 2 ^ 32)

include hle htop

theorem paddrOf_part : paddrOf phdr = p.paddr + d := by
  have hinside := hpart.inside
  have hup := le_roundUp (n := 4) p.memsz (by omega)
  have hmod := (toInt32_modEq p.paddr).add_right d
  rw [← hpart.pPaddr] at hmod
  rw [paddrOf, hmod, Int.emod_eq_of_lt (by omega) (by omega)]
  omega

theorem whole_part (hfile : p.offset + p.filesz ≤ bin.length) : Whole phdr := by
  have hinside := hpart.inside
  have hup := le_roundUp (n := 4) p.memsz (by omega)
  refine ⟨hpart.pType, ?_, ?_, ?_⟩
  · rw [hpart.content, slice_length (by omega), hpart.pFilesz]
  · rw [hpart.pFilesz, hpart.pMemsz]
    omega
  · rw [paddrOf_part hpart hle htop, memsz_part hpart]
    omega

/-- What is written of a part stays in the words of the segment. -/
theorem within_part (halign : p.paddr % 4 = 0) (hwhole : Whole phdr)
    (hwords : Compressed compress phdr ∨ d % 4 = 0) :
    InWords compress phdr ∧ p.paddr ≤ paddrOf phdr ∧
      paddrOf phdr + (written compress phdr).length ≤ p.paddr + roundUp p.memsz 4 := by
  have hinside := hpart.inside
  have hup := le_roundUp (n := 4) p.memsz (by omega)
  have hmemsz := memsz_part hpart
  rw [InWords, paddrOf_part hpart hle htop]
  by_cases hcomp : Compressed compress phdr
  · have hlength : (written compress phdr).length = n + (p.memsz - p.filesz) := by
      have hcontent := hwhole.content
      have hfilesz := hpart.pFilesz
      rw [written, if_pos hcomp, List.length_append, Phdr.filler, List.length_replicate]
      omega
    refine ⟨fun h => absurd hcomp h, by omega, by omega⟩
  · have hd : d % 4 = 0 := hwords.resolve_left hcomp
    have hlength := (loaded_of_written compress hwhole).2
    have hround : d + roundUp phdr.pMemsz.toNat 4 ≤ roundUp p.memsz 4 := by
      rw [hmemsz]
      unfold roundUp
      omega
    exact ⟨fun _ => ⟨by omega, by omega⟩, by omega, by omega⟩

end PartOf

section Kept

variable {bin : List UInt8} {names : List (List UInt8)} {compress : Bool} {i : ℕ} {phlist : Phlist}
  {phdr : Phdr}

/-- What is not to be loaded is discarded. -/
theorem strip_discard (hload : phdr.pType ≠ ptLoad)
    (hplain : ¬ (ptLocomp ≤ phdr.pType ∧ phdr.pType ≤ ptHicomp ∧ phdr.pType % 0x100 = ptLoad)) :
    phdr.strip.discard = true := by
  unfold Phdr.strip
  split_ifs with hdiscard hcomp hother
  · exact hdiscard
  · rfl
  · exact absurd ⟨hcomp.1, hcomp.2, not_not.mp hother⟩ hplain
  · rfl

theorem Program.load_of_strip (h : Program bin names) (hi : i < phnum bin)
    (hreads : phdr.Reads bin i) (hkept : phdr.strip.discard = false) : Load bin i := by
  refine ⟨hi, ?_⟩
  by_contra htype
  have htypelt : (segmentAt bin i).type < 2 ^ 32 := u32_lt bin _
  have hdiscard := strip_discard (mt hreads.load_iff.mp htype) (by
    rintro ⟨hlo, hhi, hlow⟩
    rw [hreads.pType] at hlo hhi hlow
    unfold ptLocomp at hlo
    unfold ptHicomp at hhi
    unfold ptLoad at hlow
    have hlt : (segmentAt bin i).type < 2 ^ 31 := by
      by_contra hge
      rw [toInt32_of_ge (Nat.not_lt.mp hge) htypelt] at hlo
      omega
    rw [toInt32_of_lt hlt] at hlo hhi hlow
    exact h.plain i hi ⟨by omega, by omega, by omega⟩)
  exact Bool.false_ne_true (hkept.symm.trans hdiscard)

/-- The segments behind `ELF_strip`: all of them, or none. -/
theorem stripped_phdrs (h : Valid bin) (hread : strippedFrom names bin = some phlist) :
    ∃ (m : ℕ) (f : ℕ → Phdr), phlist.phdrs = (List.range m).map (fun i => (f i).strip) ∧
      (phnum bin < 2 ^ 15 ∧ m = phnum bin ∨ 2 ^ 15 ≤ phnum bin ∧ m = 0) ∧
        ∀ i, (f i).Reads bin i ∧
          ∀ s, s ∈ (f i).sections ↔ ∃ j, Seen bin names i j ∧ readSection bin j = s := by
  simp only [strippedFrom, Option.bind_eq_bind, Option.bind_eq_some_iff] at hread
  obtain ⟨phlist₀, hread, hphlist⟩ := hread
  cases hphlist
  obtain ⟨shlist, hphdrs, hsections⟩ := read_segments h hread
  refine ⟨if phnum bin < 2 ^ 15 then phnum bin else 0,
    fun i => (readSegment bin shlist i).removeSections names, ?_, ?_,
      fun i => ⟨readSegment_reads shlist, hsections names i⟩⟩
  · show (phlist₀.phdrs.map _).map _ = _
    rw [hphdrs, List.map_map, List.map_map]
    refine List.map_congr_left fun i _ => ?_
    rw [Function.comp_apply, Function.comp_apply]
  · split_ifs with hlt
    · exact .inl ⟨hlt, rfl⟩
    · exact .inr ⟨Nat.le_of_not_lt hlt, rfl⟩

/-- A segment that is read and kept as a part of the file is one of fewer than 2^15. -/
theorem keeps_of_kept (h : Program bin names) (hload : Load bin i)
    (hread : strippedFrom names bin = some phlist) (hget : phlist.phdrs[i]? = some phdr)
    (hkept : phdr.discard = false) {memory : BitVec 32 → UInt8}
    (hmemory : InMemory bin i phdr memory) : Keeps bin names i := by
  obtain ⟨d, hpaddr, hinside, -⟩ := hmemory
  obtain ⟨m, f, hphdrs, hall, hreads⟩ := stripped_phdrs h.valid hread
  rw [hphdrs, List.getElem?_map, Option.map_eq_some_iff] at hget
  obtain ⟨i', hi', rfl⟩ := hget
  obtain ⟨him, hii⟩ := List.getElem?_eq_some_iff.mp hi'
  rw [List.length_range] at him
  have hphnum : phnum bin < 2 ^ 15 := by
    rcases hall with ⟨hlt, -⟩ | ⟨-, rfl⟩
    · exact hlt
    · exact absurd him (Nat.not_lt_zero _)
  rw [List.getElem_range] at hii
  subst hii
  exact keeps_of_strip (hreads i).2 (hreads i).1 h.valid hload.1 hload.2 (h.filesz_pos i hload)
    hphnum hkept hpaddr hinside

/-- The segments that are kept: those to be loaded, a part of each. -/
theorem kept_parts (h : Program bin names) (hread : strippedFrom names bin = some phlist)
    (hkeeps : ∀ i, Load bin i → Keeps bin names i) :
    ∃ (l : List ℕ) (f : ℕ → Phdr), l.Pairwise (· ≠ ·) ∧ l.length < 2 ^ 15 ∧
      phlist.kept = l.map f ∧ (∀ i, i ∈ l ↔ Load bin i) ∧
        ∀ i, Load bin i → phlist.phdrs[i]? = some (f i) ∧
          PartOf bin (segmentAt bin i) (cut bin names i) (left bin names i) (f i) := by
  obtain ⟨m, f, hphdrs, hall, hreads⟩ := stripped_phdrs h.valid hread
  have hin (i : ℕ) (hload : Load bin i) : i < m := by
    have hlt := (hkeeps i hload).phnum_lt
    have hi := hload.1
    omega
  have hpart (i : ℕ) (hload : Load bin i) :=
    strip_part (hreads i).2 (hreads i).1 h.valid hload.1 hload.2 (h.filesz_pos i hload)
      (h.filesz_le i hload) (hkeeps i hload)
  refine ⟨(List.range m).filter fun i => ¬ (f i).strip.discard, fun i => (f i).strip,
    List.nodup_range.filter _, ?_, ?_, fun i => ?_, fun i hload => ⟨?_, hpart i hload⟩⟩
  · refine Nat.lt_of_le_of_lt (List.length_filter_le _ _) ?_
    rw [List.length_range]
    omega
  · rw [Phlist.kept, hphdrs, List.filter_map]
    rfl
  · rw [List.mem_filter, List.mem_range, decide_eq_true_iff, Bool.not_eq_true]
    constructor
    · rintro ⟨hi, hkept⟩
      exact h.load_of_strip (by omega) (hreads i).1 hkept
    · exact fun hload => ⟨hin i hload, (hpart i hload).discard⟩
  · rw [hphdrs, List.getElem?_map, List.getElem?_range (hin i hload)]
    rfl

/-- The part is compressed if that makes it shorter. -/
theorem compressed_part (h : Program bin names) (hload : Load bin i)
    (hpart : PartOf bin (segmentAt bin i) (cut bin names i) (left bin names i) phdr) :
    Compressed compress phdr ↔ compress = true ∧ Shrinks bin names i := by
  have hpos := hpart.pos
  have hle := h.filesz_le i hload
  have hfilesz : phdr.pFilesz ≠ 0 := by
    rw [hpart.pFilesz]
    omega
  have hfiller : phdr.filler =
      List.replicate ((segmentAt bin i).memsz - (segmentAt bin i).filesz) 0x20 := by
    rw [Phdr.filler, hpart.pFilesz, hpart.pMemsz]
    congr 1
    omega
  rw [compressed_iff hpart.discard hpart.pType hfilesz, hpart.content, hfiller, hpart.pFilesz,
    Shrinks, keptBytes]
  simp only [Nat.cast_lt]

/-- What the loader writes of a segment is what is claimed of the memory, but for spaces behind the
contents. -/
theorem inMemory_iff (h : Program bin names) (hload : Load bin i)
    (hpart : PartOf bin (segmentAt bin i) (cut bin names i) (left bin names i) phdr)
    {memory : BitVec 32 → UInt8} (hmemory : ∀ k (hk : k < (loaded compress phdr).length),
      memory (BitVec.ofNat 32 (paddrOf phdr + k)) = (loaded compress phdr)[k]) :
    InMemory bin i phdr memory ↔
      ((segmentAt bin i).filesz < (segmentAt bin i).memsz → ¬ Compressed compress phdr) := by
  have hpos := hpart.pos
  have hinside := hpart.inside
  have hfile := h.valid.segments i hload.1 hload.2
  have hfilesz := hpart.pFilesz
  have hmemsz := hpart.pMemsz
  have hgap : (phdr.pMemsz - phdr.pFilesz).toNat =
      (segmentAt bin i).memsz - (segmentAt bin i).filesz := by
    rw [hfilesz, hmemsz]
    omega
  have hlen : phdr.content.length = left bin names i := by
    rw [hpart.content, slice_length (by omega)]
  have hloaded : (loaded compress phdr).length =
      left bin names i + ((segmentAt bin i).memsz - (segmentAt bin i).filesz) := by
    rw [loaded, List.length_append, List.length_replicate, hlen, hgap]
  have hget (k : ℕ) (hk : k < (loaded compress phdr).length) :
      some (memory (BitVec.ofNat 32 (paddrOf phdr + k))) = (loaded compress phdr)[k]? := by
    rw [hmemory k hk, List.getElem?_eq_getElem hk]
  have hbehind (k : ℕ) (hle : left bin names i ≤ k) (hk : k < (loaded compress phdr).length) :
      some (memory (BitVec.ofNat 32 (paddrOf phdr + k))) =
        some (if Compressed compress phdr then 0x20 else 0) := by
    rw [hget k hk, loaded, List.getElem?_append_right (by omega), List.getElem?_replicate,
      if_pos (by omega)]
  constructor
  · rintro ⟨d, -, -, hbytes⟩ hlt hcomp
    have hspace := hbehind (left bin names i) le_rfl (by omega)
    have hzero := hbytes (left bin names i) (by rw [hmemsz]; omega)
    rw [hfilesz, if_neg (lt_irrefl _), hspace, if_pos hcomp] at hzero
    exact absurd (Option.some.inj hzero) (by decide)
  · intro hplain
    refine ⟨cut bin names i, ?_, by rw [hfilesz]; omega, fun k hk => ?_⟩
    · rw [hpart.pPaddr]
      exact (toInt32_modEq _).add_right _
    · rw [hmemsz] at hk
      have hk' : k < (loaded compress phdr).length := by omega
      rw [hfilesz]
      split_ifs with hfront
      · rw [hget k hk', loaded, List.getElem?_append_left (by omega), hpart.content, slice,
          List.getElem?_take_of_lt (by omega), List.getElem?_drop]
      · rw [hbehind k (by omega) hk', if_neg (hplain (by omega))]

end Kept

/-! ## Runs -/

section Run

variable {content : ℕ → UInt8} {base j n : ℕ} {compress : Bool} {image : List UInt8} {ehdr : Ehdr}
  {kept : List Phdr} {s s' : Loader}
  (h : Holds content base image) (hlaid : Laid ehdr (kept.map (Phdr.packed compress)) image)
  (hsize : base + image.length ≤ 2 ^ 24) (hkept : ∀ phdr ∈ kept, phdr.discard = false)
  (hfilesz : ∀ phdr ∈ kept, phdr.pFilesz ≠ 0) (hwhole : ∀ phdr ∈ kept, Whole phdr)

include h hlaid hsize hkept hfilesz hwhole

theorem run_kept (hwords : ∀ phdr ∈ kept, InWords compress phdr) (hne : kept ≠ [])
    (hnum : kept.length < 2 ^ 32) (hat : AtHeaders base (base + 52) kept.length s) :
    ∃ s', Reaches (loaderStep (readBytes content)) (.loadProgramHeader, s) (.startProgram, s') ∧
      s'.memory = overlays s.memory (kept.map (pieceOf compress)) := by
  have hphdrs := hlaid.phdrs_inside
  have hlen : (kept.map (pieceOf compress)).length = kept.length := List.length_map ..
  rw [List.length_map] at hphdrs
  rw [← hlen] at hat
  obtain ⟨s', hreach, -, hmemory⟩ := run_segments (by simpa using hne) (fun k hk => by
    rw [hlen] at hk
    rw [List.getElem_map]
    exact boots_kept h hlaid hsize hkept hfilesz hwhole hk (hwords _ (List.getElem_mem hk)))
    hat (by omega) (by omega)
  exact ⟨s', hreach, hmemory⟩

/-- At a segment that is not compressed and does not begin at a word the loader is stuck. -/
theorem stuck_kept (hj : j < kept.length) (hplain : ¬ Compressed compress kept[j])
    (hodd : paddrOf kept[j] % 4 ≠ 0) (hat : AtHeaders base (base + 52 + 32 * j) n s) :
    ∃ s', Reaches (loaderStep (readBytes content)) (.loadProgramHeader, s) (.loadWord, s') ∧
      loaderStep (readBytes content) (.loadWord, s') = none := by
  have hmem := List.getElem_mem hj
  have hj' : j < (kept.map (Phdr.packed compress)).length := by rwa [List.length_map]
  have hget : (kept.map (Phdr.packed compress))[j] = kept[j].packed compress := List.getElem_map ..
  obtain ⟨htype, hcontent, hmemsz, hroom⟩ := hwhole _ hmem
  have hnonzero := hfilesz _ hmem
  have hphdrs := hlaid.phdrs_inside
  obtain ⟨hsame, -⟩ | ⟨_, _, -, -, -, hcomp, -⟩ :=
    packed_cases (hkept _ hmem) htype hnonzero compress
  swap
  · exact absurd hcomp hplain
  obtain ⟨offset, hheader, hinside, -⟩ := stored_segment h hlaid hj' (hget.trans hsame)
    PT_LOAD _ kept[j].pMemsz.toNat (by rw [htype]; rfl) hcontent.symm (by omega)
  have hup := le_roundUp (n := 4) kept[j].content.length (by omega)
  rw [List.length_map] at hphdrs
  rw [← add_assoc] at hheader
  exact stuck_unaligned hat (by omega) hheader (by omega) (by omega) (by omega) hroom (by omega)
    hodd

/-- **The loader comes to the end only in words.** -/
theorem aligned_of_reaches (hnum : kept.length < 2 ^ 32)
    (hat : AtHeaders base (base + 52) kept.length s)
    (htop : ∀ phdr ∈ kept, paddrOf phdr % 4 = 0 →
      paddrOf phdr + roundUp phdr.pMemsz.toNat 4 < 2 ^ 32)
    (hreach : Reaches (loaderStep (readBytes content)) (.loadProgramHeader, s)
      (.startProgram, s')) (hj : j < kept.length) : InWords compress kept[j] := by
  induction j using Nat.strong_induction_on with
  | _ j ih =>
  by_contra hout
  obtain ⟨hplain, hout⟩ := Classical.not_imp.mp hout
  have hodd : paddrOf kept[j] % 4 ≠ 0 := fun heven =>
    hout ⟨heven, htop _ (List.getElem_mem hj) heven⟩
  have hphdrs := hlaid.phdrs_inside
  rw [List.length_map] at hphdrs
  have hlen : ((kept.take j).map (pieceOf compress)).length = j := by
    rw [List.length_map, List.length_take, Nat.min_eq_left hj.le]
  obtain ⟨n, hn⟩ := Nat.exists_eq_add_of_lt hj
  have hboots (k : ℕ) (hk : k < ((kept.take j).map (pieceOf compress)).length) :
      Boots content base (base + 52 + 32 * k) ((kept.take j).map (pieceOf compress))[k] := by
    rw [hlen] at hk
    rw [List.getElem_map, List.getElem_take]
    exact boots_kept h hlaid hsize hkept hfilesz hwhole (hk.trans hj) (ih k hk (hk.trans hj))
  have hfrom : AtHeaders base (base + 52)
      (((kept.take j).map (pieceOf compress)).length + (n + 1)) s := by
    rwa [hlen, ← add_assoc, ← hn]
  obtain ⟨s₁, hfront, hat₁, -, -⟩ := run_front hboots hfrom (by omega) (by omega)
  rw [hlen] at hat₁
  obtain ⟨s₂, hstuck, hnone⟩ := stuck_kept h hlaid hsize hkept hfilesz hwhole hj hplain hodd hat₁
  have hsame := Part.mem_unique (mem_eval.mpr ⟨hreach, rfl⟩)
    (mem_eval.mpr ⟨hfront.trans hstuck, hnone⟩)
  cases hsame

end Run

/-! ## The whole program -/

/-- The image of the segments is in the flash, and the loader in front of the first of its program
headers. -/
structure Ready (compress : Bool) (phlist : Phlist) (content : ℕ → UInt8) (base : ℕ) (s : Loader) :
    Prop where
  image : ∃ image, Holds content base image ∧ base + image.length ≤ 2 ^ 24 ∧
    Laid phlist.ehdr (phlist.kept.map (Phdr.packed compress)) image
  whole : ∀ phdr ∈ phlist.kept, Whole phdr
  filesz : ∀ phdr ∈ phlist.kept, phdr.pFilesz ≠ 0
  atHeaders : AtHeaders base (base + 52) phlist.kept.length s

section Loads

variable {bin : List UInt8} {names : List (List UInt8)} {compress : Bool} {phlist : Phlist}
  {content : ℕ → UInt8} {base : ℕ} {s₀ s : Loader} (h : Program bin names)

include h

/-- A program with a segment that is kept is read. -/
theorem strippedFrom_of_keeps {i : ℕ} (hkeeps : Keeps bin names i) :
    ∃ phlist, strippedFrom names bin = some phlist := by
  obtain ⟨j, hseen, -⟩ := exists_seen hkeeps.kept
  rw [strippedFrom, elfRead_valid h.valid hseen.shnum_lt]
  exact ⟨_, rfl⟩

variable (hread : strippedFrom names bin = some phlist)
  (hkeeps : ∀ i, Load bin i → Keeps bin names i)

include hread hkeeps

/-- A segment to be loaded is one of those that are kept. -/
theorem part_mem {i : ℕ} (hi : Load bin i) {phdr : Phdr} (hget : phlist.phdrs[i]? = some phdr) :
    phdr ∈ phlist.kept ∧
      PartOf bin (segmentAt bin i) (cut bin names i) (left bin names i) phdr := by
  obtain ⟨l, f, -, -, hkept, hload, hparts⟩ := kept_parts h hread hkeeps
  obtain ⟨hget', hpart⟩ := hparts i hi
  obtain rfl := Option.some.inj (hget.symm.trans hget')
  rw [hkept]
  exact ⟨List.mem_map_of_mem ((hload i).mpr hi), hpart⟩

/-- What is kept is a part of a segment to be loaded. -/
theorem kept_part {phdr : Phdr} (hmem : phdr ∈ phlist.kept) : ∃ i, Load bin i ∧
    PartOf bin (segmentAt bin i) (cut bin names i) (left bin names i) phdr := by
  obtain ⟨l, f, -, -, hkept, hload, hparts⟩ := kept_parts h hread hkeeps
  rw [hkept] at hmem
  obtain ⟨i, hi, rfl⟩ := List.mem_map.mp hmem
  exact ⟨i, (hload i).mp hi, (hparts i ((hload i).mp hi)).2⟩

theorem program_whole {phdr : Phdr} (hmem : phdr ∈ phlist.kept) :
    Whole phdr ∧ phdr.pFilesz ≠ 0 := by
  obtain ⟨i, hi, hpart⟩ := kept_part h hread hkeeps hmem
  have hpos := hpart.pos
  refine ⟨whole_part hpart (h.filesz_le i hi) (h.top i hi) (h.valid.segments i hi.1 hi.2), ?_⟩
  rw [hpart.pFilesz]
  omega

theorem program_image (compress : Bool) : ∃ image, elfImage compress phlist = some image ∧
    Laid phlist.ehdr (phlist.kept.map (Phdr.packed compress)) image := by
  rw [elfImage_eq]
  exact elfWrite_packed (strippedFrom_ehdr hread).1
    (fun _ hmem => (program_whole h hread hkeeps hmem).2)
    (fun _ hmem => (program_whole h hread hkeeps hmem).1) compress

variable (hflash : ∀ image, programImage bin names compress = some image →
    Holds content base image ∧ base + image.length ≤ 2 ^ 24)
  (hbase : s₀.elfBase = readFrom base) (hs : FileRead content base s₀ s)

include hflash hbase hs

theorem program_ready : Ready compress phlist content base s := by
  obtain ⟨l, f, -, hlt, hkept, -⟩ := kept_parts h hread hkeeps
  obtain ⟨image, himage, hlaid⟩ := program_image h hread hkeeps compress
  obtain ⟨hholds, hsize⟩ := hflash image (by
    rw [programImage, hread]
    exact himage)
  have hlen : phlist.kept.length = l.length := by rw [hkept, List.length_map]
  have htable := laid_table hholds hlaid (strippedFrom_ehdr hread).1
    (by rw [List.length_map]; omega)
  rw [List.length_map] at htable
  exact ⟨⟨image, hholds, hsize, hlaid⟩, fun _ hmem => (program_whole h hread hkeeps hmem).1,
    fun _ hmem => (program_whole h hread hkeeps hmem).2, hs.atHeaders hbase htable⟩

/-- The loader comes to the start of the program if each segment is in words, or compressed, and
then has written what is kept of them. -/
theorem program_run {i : ℕ} (hi : Load bin i)
    (hwords : ∀ j, Load bin j → cut bin names j % 4 = 0 ∨ compress = true ∧ Shrinks bin names j) :
    ∃ s', Reaches (loaderStep (readBytes content)) (.loadProgramHeader, s) (.startProgram, s') ∧
      ∀ phdr ∈ phlist.kept, ∀ k (hk : k < (loaded compress phdr).length),
        s'.memory (BitVec.ofNat 32 (paddrOf phdr + k)) = (loaded compress phdr)[k] := by
  obtain ⟨⟨image, hholds, hsize, hlaid⟩, hwhole, hfilesz, hat⟩ :=
    program_ready h hread hkeeps hflash hbase hs
  obtain ⟨l, f, hne, hlt, hkept, hload, hparts⟩ := kept_parts h hread hkeeps
  have hwithin {j : ℕ} {phdr : Phdr} (hj : Load bin j)
      (hpart : PartOf bin (segmentAt bin j) (cut bin names j) (left bin names j) phdr) :
      InWords compress phdr ∧ (segmentAt bin j).paddr ≤ paddrOf phdr ∧
        paddrOf phdr + (written compress phdr).length ≤
          (segmentAt bin j).paddr + roundUp (segmentAt bin j).memsz 4 := by
    refine within_part hpart (h.filesz_le j hj) (h.top j hj) (h.aligned j hj) ?_ ?_
    · exact whole_part hpart (h.filesz_le j hj) (h.top j hj) (h.valid.segments j hj.1 hj.2)
    · rw [compressed_part h hj hpart]
      exact (hwords j hj).symm
  have hnonempty : phlist.kept ≠ [] := by
    rw [hkept]
    exact List.ne_nil_of_mem (List.mem_map_of_mem ((hload i).mpr hi))
  obtain ⟨s', hreach, hmemory⟩ := run_kept hholds hlaid hsize (fun _ => discard_of_kept) hfilesz
    hwhole (fun phdr hphdr => by
      obtain ⟨j, hj, hpart⟩ := kept_part h hread hkeeps hphdr
      exact (hwithin hj hpart).1)
    hnonempty (by rw [hkept, List.length_map]; omega) hat
  refine ⟨s', hreach, fun phdr hphdr k hk => ?_⟩
  obtain ⟨hfront, -⟩ := loaded_of_written compress (hwhole phdr hphdr)
  rw [hmemory, hfront.getElem hk]
  refine overlays_written (fun phdr hphdr => ?_) ?_ hphdr (Nat.lt_of_lt_of_le hk hfront.length_le)
  · obtain ⟨j, hj, hpart⟩ := kept_part h hread hkeeps hphdr
    have htop := h.top j hj
    have hin := hwithin hj hpart
    omega
  · rw [hkept, List.pairwise_map]
    refine hne.imp_of_mem fun {p q} hp hq hpq => ?_
    replace hp := (hload p).mp hp
    replace hq := (hload q).mp hq
    obtain ⟨-, hplow, hphigh⟩ := hwithin hp (hparts p hp).2
    obtain ⟨-, hqlow, hqhigh⟩ := hwithin hq (hparts q hq).2
    exact (h.apart p hp q hq hpq).imp (by omega) (by omega)

/-- The loader comes there only then. -/
theorem program_words {s' : Loader}
    (hreach : Reaches (loaderStep (readBytes content)) (.loadProgramHeader, s) (.startProgram, s'))
    {i : ℕ} (hi : Load bin i) :
    cut bin names i % 4 = 0 ∨ compress = true ∧ Shrinks bin names i := by
  obtain ⟨⟨image, hholds, hsize, hlaid⟩, hwhole, hfilesz, hat⟩ :=
    program_ready h hread hkeeps hflash hbase hs
  obtain ⟨l, f, hne, hlt, hkept, hload, hparts⟩ := kept_parts h hread hkeeps
  have hmem : f i ∈ phlist.kept := by
    rw [hkept]
    exact List.mem_map_of_mem ((hload i).mpr hi)
  have hpart := (hparts i hi).2
  obtain ⟨j, hj, hget⟩ := List.getElem_of_mem hmem
  have hwords := aligned_of_reaches hholds hlaid hsize (fun _ => discard_of_kept) hfilesz hwhole
    (by rw [hkept, List.length_map]; omega) hat (fun phdr hphdr heven => by
      obtain ⟨k, hk, hpart⟩ := kept_part h hread hkeeps hphdr
      have halign := h.aligned k hk
      rw [paddrOf_part hpart (h.filesz_le k hk) (h.top k hk)] at heven ⊢
      have hinside := hpart.inside
      have hle := h.filesz_le k hk
      have htop := h.top k hk
      rw [memsz_part hpart]
      unfold roundUp at htop ⊢
      omega) hreach hj
  rw [hget] at hwords
  rw [← compressed_part h hi hpart]
  refine or_iff_not_imp_right.mpr fun hplain => ?_
  have heven := (hwords hplain).1
  have halign := h.aligned i hi
  rw [paddrOf_part hpart (h.filesz_le i hi) (h.top i hi)] at heven
  omega

end Loads

section Iff

variable {bin : List UInt8} {names : List (List UInt8)} {compress : Bool} {content : ℕ → UInt8}
  {base : ℕ} {s₀ s : Loader} (h : Program bin names)
  (hflash : ∀ image, programImage bin names compress = some image →
    Holds content base image ∧ base + image.length ≤ 2 ^ 24)
  (hbase : s₀.elfBase = readFrom base) (hs : FileRead content base s₀ s)

include h hflash hbase hs

theorem sound_of_loaded (hloaded : ∀ i, Load bin i → Loaded bin names compress i content s) {i : ℕ}
    (hi : Load bin i) : Sound bin names compress i := by
  obtain ⟨phlist, image, phdr, s', hread, himage, hget, hkept, hreach, hmemory⟩ := hloaded i hi
  have hkeeps (j : ℕ) (hj : Load bin j) : Keeps bin names j := by
    obtain ⟨phlist', _, phdr', _, hread', -, hget', hkept', -, hmemory'⟩ := hloaded j hj
    exact keeps_of_kept h hj hread' hget' hkept' hmemory'
  have hwords (j : ℕ) (hj : Load bin j) :=
    program_words h hread hkeeps hflash hbase hs hreach hj
  obtain ⟨s'', hreach', hbytes⟩ := program_run h hread hkeeps hflash hbase hs hi hwords
  have hsame := Part.mem_unique (mem_eval.mpr ⟨hreach, rfl⟩) (mem_eval.mpr ⟨hreach', rfl⟩)
  cases hsame
  obtain ⟨hmem, hpart⟩ := part_mem h hread hkeeps hi hget
  exact ⟨hkeeps i hi, hwords i hi, fun hlt => (compressed_part h hi hpart).not.mp
    ((inMemory_iff h hi hpart (hbytes phdr hmem)).mp hmemory hlt)⟩

theorem loaded_of_sound (hsound : ∀ i, Load bin i → Sound bin names compress i) {i : ℕ}
    (hi : Load bin i) : Loaded bin names compress i content s := by
  have hkeeps (j : ℕ) (hj : Load bin j) : Keeps bin names j := (hsound j hj).keeps
  obtain ⟨phlist, hread⟩ := strippedFrom_of_keeps h (hkeeps i hi)
  obtain ⟨image, himage, -⟩ := program_image h hread hkeeps compress
  obtain ⟨s', hreach, hbytes⟩ :=
    program_run h hread hkeeps hflash hbase hs hi fun j hj => (hsound j hj).words
  obtain ⟨_, f, -, -, -, -, hparts⟩ := kept_parts h hread hkeeps
  have hget := (hparts i hi).1
  obtain ⟨hmem, hpart⟩ := part_mem h hread hkeeps hi hget
  exact ⟨phlist, image, f i, s', hread, himage, hget, hpart.discard, hreach,
    (inMemory_iff h hi hpart (hbytes _ hmem)).mpr fun hlt =>
      (compressed_part h hi hpart).not.mpr ((hsound i hi).zeros hlt)⟩

end Iff

/-- **The image and the loader load the program exactly if** the part of each segment that is kept
ends in it, is in words where it is not compressed, and has no zeros behind it where it is. -/
theorem program_loads_iff {bin : List UInt8} {names : List (List UInt8)} {compress : Bool}
    {content : ℕ → UInt8} {base : ℕ} {s₀ s : Loader} (h : Program bin names)
    (hflash : ∀ image, programImage bin names compress = some image →
      Holds content base image ∧ base + image.length ≤ 2 ^ 24)
    (hbase : s₀.elfBase = readFrom base) (hs : FileRead content base s₀ s) :
    (∀ i, Load bin i → Loaded bin names compress i content s) ↔
      ∀ i, Load bin i → Sound bin names compress i :=
  ⟨fun hloaded _ => sound_of_loaded h hflash hbase hs hloaded,
    fun hsound _ => loaded_of_sound h hflash hbase hs hsound⟩

/-! ## Three segments -/

/-- A flash with an image at its start. -/
def contentOf (image : List UInt8) (k : ℕ) : UInt8 := image.getD k 0xff

/-- The loader, when it has found an ELF file at the start of the flash. -/
def Loader.atElf : Loader :=
  { Machine.atSegment 0 0 with
    elfBase := readFrom 0
    eEntry := ELF_HEADER_LE
    ePhoff := 0
    ePhentsize := 0
    ePhnum := 0
    paddrFend := 0 }

/-- The loader behind the header of the file. -/
def Loader.behindHeader (content : ℕ → UInt8) : Loader :=
  { Loader.atElf with
    eEntry := wordAt content 24
    ePhoff := readFrom 0 + wordAt content 28
    ePhentsize := wordAt content 40 >>> 16
    ePhnum := wordAt content 44 &&& 0xffff }

/-- Three segments, the second of which has `p_memsz` as given, and 32 bytes that can be
compressed. -/
def withMemsz (memsz : UInt8) : List UInt8 := threeSegments.set 104 memsz

section Example

variable {bin : List UInt8} {names : List (List UInt8)} {compress : Bool} {n : ℕ}

theorem forall_load {bin : List UInt8} {P : ℕ → Prop} : (∀ i, Load bin i → P i) ↔
    ∀ i < phnum bin, (segmentAt bin i).type = 1 → P i :=
  forall_congr' fun _ => ⟨fun h hi htype => h ⟨hi, htype⟩, fun h hi => h hi.1 hi.2⟩

theorem behindHeader_read (content : ℕ → UInt8) :
    FileRead content 0 .atElf (.behindHeader content) := by
  have hplace (a : ℕ) : wordAt content (0 + a) = wordAt content a := by rw [Nat.zero_add]
  refine ⟨rfl, ?_, rfl, rfl, ?_, ?_, ?_⟩ <;> rw [hplace] <;> rfl

/-- The image of a program at the start of the flash. -/
theorem flash_image (hsize : (programImage bin names compress).map List.length = some n)
    (hn : n ≤ 2 ^ 24) :
    ∃ content, ∀ image, programImage bin names compress = some image →
      Holds content 0 image ∧ 0 + image.length ≤ 2 ^ 24 := by
  obtain ⟨image, himage, rfl⟩ := Option.map_eq_some_iff.mp hsize
  refine ⟨contentOf image, fun image' himage' => ?_⟩
  obtain rfl := Option.some.inj (himage.symm.trans himage')
  refine ⟨fun k hk => ?_, by omega⟩
  rw [contentOf, Nat.zero_add, List.getD_eq_getElem?_getD, List.getElem?_eq_getElem hk]
  rfl

end Example

set_option synthInstance.maxSize 1000 in
theorem withMemsz_program {memsz : UInt8} (h : memsz = 32 ∨ memsz = 40) :
    Program (withMemsz memsz) bootSections := by
  obtain rfl | rfl := h
  all_goals
    refine ⟨?_, ?_, ?_, ?_, ?_, ?_, ?_, ?_, ?_⟩
    · constructor <;> decide +kernel
    · decide +kernel
    · decide +kernel
    all_goals
      simp only [forall_load]
      decide +kernel

/-- `program_loads_iff` of a file with a segment that is cut, one that is compressed, and one with
zeros behind its contents. -/
theorem program_loads_gapless : cut (withMemsz 32) bootSections 0 = 8 ∧
    Shrinks (withMemsz 32) bootSections 1 ∧
      ∃ content, (∀ image, programImage (withMemsz 32) bootSections true = some image →
          Holds content 0 image) ∧
        ∀ i < 3, Loaded (withMemsz 32) bootSections true i content (.behindHeader content) := by
  have hphnum : phnum (withMemsz 32) = 3 := by decide +kernel
  have htypes : ∀ i < phnum (withMemsz 32), (segmentAt (withMemsz 32) i).type = 1 := by
    decide +kernel
  have hsound : ∀ i, Load (withMemsz 32) i → Sound (withMemsz 32) bootSections true i := by
    intro i hi
    have hlt := hi.1
    obtain rfl | rfl | rfl : i = 0 ∨ i = 1 ∨ i = 2 := by omega
    all_goals refine ⟨⟨?_, ?_, ?_⟩, ?_, ?_⟩ <;> decide +kernel
  have hsize : (programImage (withMemsz 32) bootSections true).map List.length = some 176 := by
    decide +kernel
  obtain ⟨content, hflash⟩ := flash_image hsize (by norm_num)
  have hloaded := (program_loads_iff (withMemsz_program (.inl rfl)) hflash rfl
    (behindHeader_read content)).mpr hsound
  exact ⟨by decide +kernel, by decide +kernel, content,
    fun image himage => (hflash image himage).1,
    fun i hi => hloaded i ⟨by omega, htypes i (by omega)⟩⟩

/-- With a gap behind the contents that are compressed it is not loaded: there are spaces in the
gap. -/
theorem not_program_loads : Program (withMemsz 40) bootSections ∧ Load (withMemsz 40) 1 ∧
    ∃ content, (∀ image, programImage (withMemsz 40) bootSections true = some image →
        Holds content 0 image ∧ 0 + image.length ≤ 2 ^ 24) ∧
      FileRead content 0 .atElf (.behindHeader content) ∧
        ¬ ∀ i, Load (withMemsz 40) i →
          Loaded (withMemsz 40) bootSections true i content (.behindHeader content) := by
  have hload : Load (withMemsz 40) 1 := ⟨by decide +kernel, by decide +kernel⟩
  have hsize : (programImage (withMemsz 40) bootSections true).map List.length = some 180 := by
    decide +kernel
  obtain ⟨content, hflash⟩ := flash_image hsize (by norm_num)
  refine ⟨withMemsz_program (.inr rfl), hload, content, hflash, behindHeader_read content, ?_⟩
  intro hloaded
  have hsound := sound_of_loaded (withMemsz_program (.inr rfl)) hflash rfl
    (behindHeader_read content) hloaded hload
  exact hsound.zeros (by decide +kernel) ⟨rfl, by decide +kernel⟩

end OlivePiccolo.Boot
