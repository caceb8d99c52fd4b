import Mathlib.Tactic.NormNum
import OlivePiccolo.Elf.Reading
import OlivePiccolo.Library.RoundUp
import OlivePiccolo.Lz4hc.RoundTrip

/-!
# The image for the flash

`ELF_compact` and `ELF_write`, and `flash_boot_gen.tcl`, which puts the configuration of the FPGA
and an ELF file into one image. What `ELF_write` returns begins with the header of the file, and
the program headers stand behind it; each of them says where the contents of its segment are
(`elfWrite_layout`). The contents are filled up to words.
-/

namespace OlivePiccolo.Elf

open Tcl

/-! ## ELF_compact -/

def ptNull : ℤ := 0
def ptNum : ℤ := 8

/-- `filler`: spaces. -/
def Phdr.filler (phdr : Phdr) : List UInt8 :=
  List.replicate (phdr.pMemsz - phdr.pFilesz).toNat 0x20

/-- A round of the loop of `ELF_compact`. -/
def Phdr.compact (procName : List UInt8 → Option (List UInt8)) (type : ℤ) (phdr : Phdr) :
    Option Phdr :=
  if phdr.discard then some phdr
  else if phdr.pType = ptNull ∨ ptNum ≤ phdr.pType ∨ phdr.pFilesz = 0 then some phdr
  else do
    let result ← procName (phdr.content ++ phdr.filler)
    if result.length = 0 ∨ phdr.pFilesz ≤ result.length then return phdr
    else return { phdr with
      pType := type + phdr.pType
      pFilesz := result.length
      content := result }

/-- `ELF_compact`. -/
def elfCompact (phlist : Phlist) (procName : List UInt8 → Option (List UInt8)) (type : ℤ) :
    Option Phlist := do
  let phdrs ← phlist.phdrs.mapM (Phdr.compact procName type)
  return { phlist with phdrs := phdrs }

/-! ## ELF_write -/

/-- `bin_ehdr`. -/
def formatEhdr (ehdr : Ehdr) (phnum : ℕ) : Option (List UInt8) := do
  let ident ← formatInts 4 4 ehdr.eIdent
  return ident ++ formatInt 2 ehdr.eType ++ formatInt 2 ehdr.eMachine ++
    formatInt 4 ehdr.eVersion ++ formatInt 4 ehdr.eEntry ++ formatInt 4 0x34 ++ formatInt 4 0 ++
    formatInt 4 ehdr.eFlags ++ formatInt 2 0x34 ++ formatInt 2 0x20 ++ formatInt 2 phnum ++
    formatInt 2 0x28 ++ formatInt 2 0 ++ formatInt 2 0

/-- What is appended to `bin_phdr` for a segment. -/
def formatPhdr (phdr : Phdr) (doffset : ℤ) : List UInt8 :=
  formatInt 4 phdr.pType ++ formatInt 4 doffset ++ formatInt 4 phdr.pVaddr ++
    formatInt 4 phdr.pPaddr ++ formatInt 4 phdr.pFilesz ++ formatInt 4 phdr.pMemsz ++
    formatInt 4 phdr.pFlags ++ formatInt 4 phdr.pAlign

/-- The variables of the loop of `ELF_write`. -/
structure Writing where
  binPhdr : List UInt8
  binBody : List UInt8
  doffset : ℤ

/-- A round of the loop of `ELF_write`. -/
def writeSegment (s : Writing) (phdr : Phdr) : Writing :=
  if phdr.discard then s
  else
    let binPhdr := s.binPhdr ++ formatPhdr phdr s.doffset
    let binBody := s.binBody ++ phdr.content
    let doffset := s.doffset + phdr.pFilesz
    let padding := 4 - doffset % 4
    if padding < 4 then
      ⟨binPhdr, binBody ++ List.replicate padding.toNat 0, doffset + padding⟩
    else ⟨binPhdr, binBody, doffset⟩

/-- The segments that are not discarded. -/
def Phlist.kept (phlist : Phlist) : List Phdr := phlist.phdrs.filter fun phdr => ¬ phdr.discard

/-- `ELF_write`. -/
def elfWrite (phlist : Phlist) : Option (List UInt8) := do
  let phnum := phlist.kept.length
  let binEhdr ← formatEhdr phlist.ehdr phnum
  let s := phlist.phdrs.foldl writeSegment ⟨[], [], 0x34 + 0x20 * phnum⟩
  return binEhdr ++ s.binPhdr ++ s.binBody

/-! ## flash_boot_gen.tcl -/

/-- The bits of a byte in the other order. -/
def reverseBits (b : UInt8) : UInt8 := ⟨b.toBitVec.reverse⟩

/-- `RBF_read_file`, of the bytes of the file. -/
def rbfRead (file : List UInt8) : List UInt8 := file.map reverseBits

/-- `RBF_write_file`, the bytes of the file. -/
def rbfWrite (data : List UInt8) : List UInt8 := data.map reverseBits

theorem rbfRead_rbfWrite (data : List UInt8) : rbfRead (rbfWrite data) = data := by
  rw [rbfRead, rbfWrite, List.map_map]
  refine List.map_id'' (fun b => ?_) data
  exact congrArg UInt8.ofBitVec BitVec.reverse_reverse_eq

/-- An RBF, and where the ELF is placed: `none` is `auto`. -/
structure RbfOption where
  rbf : List UInt8
  ofs : Option ℕ

/-- `dest` in front of the ELF. -/
def destOf : Option RbfOption → Option (List UInt8)
  | none => some []
  | some ⟨rbf, none⟩ => some (rbfRead rbf)
  | some ⟨rbf, some ofs⟩ =>
    let dest := rbfRead rbf
    -- Error: RBF is too large.
    if dest.length > ofs then none
    else some (dest ++ List.replicate (ofs - dest.length) 0xff)

/-- `.entry` and `.ipl`. -/
def bootSections : List (List UInt8) :=
  [[46, 101, 110, 116, 114, 121], [46, 105, 112, 108]]

/-- `ELF_read`, `ELF_remove_sections` and `ELF_strip`. -/
def strippedFrom (names : List (List UInt8)) (elf : List UInt8) : Option Phlist := do
  let elfData ← elfRead elf
  return elfStrip (elfRemoveSections elfData names)

/-- The file that is read, without the sections of the boot loader. -/
def strippedElf (elf : List UInt8) : Option Phlist := do
  let elfData ← elfRead elf
  return elfStrip (elfRemoveSections elfData bootSections)

/-- `LZ4_compress`, without the level. -/
def compressLz4 (src : List UInt8) : Option (List UInt8) := (Lz4hc.lz4Compress src 0).map Prod.snd

def ptCompLz4 : ℤ := ptLocomp + 0x100

/-- `ELF_compact`, or no compression, and `ELF_write`. -/
def elfImage (compress : Bool) (elfData : Phlist) : Option (List UInt8) := do
  let elfData ← if compress then elfCompact elfData compressLz4 ptCompLz4 else some elfData
  elfWrite elfData

/-- `elf_new`. -/
def elfNew (elf : List UInt8) (compress : Bool) : Option (List UInt8) := do
  let elfData ← strippedElf elf
  let elfData ← if compress then elfCompact elfData compressLz4 ptCompLz4 else some elfData
  elfWrite elfData

/-- The file that is written: `compress` stands for `--compress LZ4`. -/
def flashBootGen (rbf : Option RbfOption) (elf : List UInt8) (compress : Bool) :
    Option (List UInt8) := do
  let dest ← destOf rbf
  let elfNew ← elfNew elf compress
  let dest := dest ++ elfNew
  return if rbf.isSome then rbfWrite dest else dest

/-! ## The layout -/

/-- Contents, filled up to words. -/
def padded (content : List UInt8) : List UInt8 :=
  content ++ List.replicate (roundUp content.length 4 - content.length) 0

/-- The program headers of segments whose contents begin at `d`. -/
def headers (d : ℕ) : List Phdr → List UInt8
  | [] => []
  | phdr :: l => formatPhdr phdr d ++ headers (d + (padded phdr.content).length) l

def bodies (l : List Phdr) : List UInt8 := l.flatMap fun phdr => padded phdr.content

/-- Where the contents of a segment begin. -/
def offsetOf (d : ℕ) (l : List Phdr) (j : ℕ) : ℕ := d + (bodies (l.take j)).length

/-- What the image holds of the segments that are kept. -/
structure Laid (ehdr : Ehdr) (kept : List Phdr) (image : List UInt8) : Prop where
  header : formatEhdr ehdr kept.length = some (slice image 0 52)
  phdrs : ∀ j (hj : j < kept.length), slice image (52 + 32 * j) 32 =
    formatPhdr kept[j] (offsetOf (52 + 32 * kept.length) kept j)
  contents : ∀ j (hj : j < kept.length), slice image
    (offsetOf (52 + 32 * kept.length) kept j) (roundUp kept[j].content.length 4) =
      padded kept[j].content
  inside : ∀ j (hj : j < kept.length), offsetOf (52 + 32 * kept.length) kept j +
    roundUp kept[j].content.length 4 ≤ image.length
  phdrs_inside : 52 + 32 * kept.length ≤ image.length

section Layout

variable {l m : List UInt8} {ph body : List UInt8} {phdr : Phdr} {d j : ℕ}

@[simp] theorem length_padded (content : List UInt8) :
    (padded content).length = roundUp content.length 4 := by
  have hle := le_roundUp (n := 4) content.length (by omega)
  rw [padded, List.length_append, List.length_replicate]
  omega

@[simp] theorem length_formatPhdr (phdr : Phdr) (d : ℤ) : (formatPhdr phdr d).length = 32 := by
  simp [formatPhdr]

theorem slice_append_left {a n : ℕ} (h : a + n ≤ l.length) : slice (l ++ m) a n = slice l a n := by
  rw [slice, slice, List.drop_append_of_le_length (by omega),
    List.take_append_of_le_length (by rw [List.length_drop]; omega)]

theorem slice_append_right {a n : ℕ} : slice (l ++ m) (l.length + a) n = slice m a n := by
  rw [slice, slice, List.drop_length_add_append]

theorem slice_self : slice l 0 l.length = l := by
  rw [slice, List.drop_zero, List.take_length]

theorem writeSegment_kept (hkept : phdr.discard = false)
    (hlen : (phdr.content.length : ℤ) = phdr.pFilesz) (hd : d % 4 = 0) :
    writeSegment ⟨ph, body, d⟩ phdr = ⟨ph ++ formatPhdr phdr d, body ++ padded phdr.content,
      (d + (padded phdr.content).length : ℕ)⟩ := by
  have hsplit : roundUp phdr.content.length 4 =
      (phdr.content.length + 3) / 4 * 4 := rfl
  simp only [writeSegment, hkept, Bool.false_eq_true, if_false, length_padded]
  rw [← hlen]
  split_ifs with hpadding
  · have hcount : (4 - ((d : ℤ) + phdr.content.length) % 4).toNat =
        roundUp phdr.content.length 4 - phdr.content.length := by omega
    rw [padded, ← hcount, List.append_assoc]
    congr 1
    omega
  · have hnone : roundUp phdr.content.length 4 - phdr.content.length = 0 := by omega
    rw [padded, hnone, List.replicate_zero, List.append_nil]
    congr 1
    omega

theorem foldl_writeSegment (ph body : List UInt8) (phdrs : List Phdr)
    (hlen : ∀ phdr ∈ phdrs.filter fun phdr => ¬ phdr.discard,
      (phdr.content.length : ℤ) = phdr.pFilesz) (hd : d % 4 = 0) :
    ∃ e, phdrs.foldl writeSegment ⟨ph, body, d⟩ =
      ⟨ph ++ headers d (phdrs.filter fun phdr => ¬ phdr.discard),
        body ++ bodies (phdrs.filter fun phdr => ¬ phdr.discard), e⟩ := by
  induction phdrs generalizing ph body d with
  | nil => exact ⟨d, by simp [headers, bodies]⟩
  | cons phdr phdrs ih =>
    rw [List.foldl_cons]
    cases hkept : phdr.discard with
    | true =>
      rw [List.filter_cons_of_neg (by simp [hkept])] at hlen ⊢
      rw [writeSegment, if_pos hkept]
      exact ih ph body hlen hd
    | false =>
      rw [List.filter_cons_of_pos (by simp [hkept])] at hlen ⊢
      have hnext : (d + (padded phdr.content).length) % 4 = 0 := by
        obtain ⟨q, hq⟩ := dvd_roundUp phdr.content.length 4
        rw [length_padded]
        omega
      rw [writeSegment_kept hkept (hlen phdr List.mem_cons_self) hd]
      obtain ⟨e, he⟩ := ih (ph ++ formatPhdr phdr d) (body ++ padded phdr.content)
        (fun q hq => hlen q (List.mem_cons_of_mem phdr hq)) hnext
      refine ⟨e, ?_⟩
      rw [he, headers, bodies, bodies, List.flatMap_cons, List.append_assoc, List.append_assoc]

theorem length_headers (phdrs : List Phdr) : (headers d phdrs).length = 32 * phdrs.length := by
  induction phdrs generalizing d with
  | nil => rfl
  | cons phdr phdrs ih =>
    rw [headers, List.length_append, length_formatPhdr, ih, List.length_cons]
    omega

theorem slice_headers {phdrs : List Phdr} (hj : j < phdrs.length) :
    slice (headers d phdrs) (32 * j) 32 = formatPhdr phdrs[j] (offsetOf d phdrs j) := by
  induction phdrs generalizing d j with
  | nil => cases hj
  | cons phdr phdrs ih =>
    rw [headers]
    cases j with
    | zero =>
      have hlen := length_formatPhdr phdr d
      rw [slice_append_left (by omega), ← hlen]
      exact slice_self
    | succ j =>
      rw [List.length_cons] at hj
      have hlen := length_formatPhdr phdr d
      rw [show 32 * (j + 1) = (formatPhdr phdr d).length + 32 * j by omega, slice_append_right,
        ih (by omega), List.getElem_cons_succ]
      congr 2
      rw [offsetOf, offsetOf, List.take_succ_cons, bodies, bodies, List.flatMap_cons,
        List.length_append, Nat.add_assoc]

theorem slice_bodies {phdrs : List Phdr} (hj : j < phdrs.length) :
    slice (bodies phdrs) (bodies (phdrs.take j)).length (roundUp phdrs[j].content.length 4) =
      padded phdrs[j].content := by
  have hsplit : bodies phdrs = bodies (phdrs.take j) ++
      (padded phdrs[j].content ++ bodies (phdrs.drop (j + 1))) := by
    have hparts : phdrs.take j ++ phdrs[j] :: phdrs.drop (j + 1) = phdrs := by
      rw [List.getElem_cons_drop, List.take_append_drop]
    calc bodies phdrs = bodies (phdrs.take j ++ phdrs[j] :: phdrs.drop (j + 1)) := by rw [hparts]
      _ = _ := by rw [bodies, List.flatMap_append, List.flatMap_cons, bodies, bodies]
  have hslice : slice (bodies phdrs) (bodies (phdrs.take j)).length
      (roundUp phdrs[j].content.length 4) = slice (padded phdrs[j].content ++
        bodies (phdrs.drop (j + 1))) 0 (roundUp phdrs[j].content.length 4) := by
    rw [hsplit]
    exact slice_append_right (a := 0)
  rw [hslice, ← length_padded, slice_append_left (by omega)]
  exact slice_self

theorem bodies_inside {phdrs : List Phdr} (hj : j < phdrs.length) :
    (bodies (phdrs.take j)).length + roundUp phdrs[j].content.length 4 ≤
      (bodies phdrs).length := by
  have hle : (bodies (phdrs.take (j + 1))).length ≤ (bodies phdrs).length := by
    refine List.Sublist.length_le ?_
    exact List.Sublist.flatMap (List.take_sublist _ _) _
  rwa [List.take_succ_eq_append_getElem hj, bodies, List.flatMap_append, List.length_append,
    List.flatMap_singleton, length_padded] at hle

theorem length_formatEhdr {ehdr : Ehdr} {phnum : ℕ} {header : List UInt8}
    (h : formatEhdr ehdr phnum = some header) : header.length = 52 := by
  simp only [formatEhdr, formatInts, Option.bind_eq_bind, Option.bind_eq_some_iff] at h
  obtain ⟨ident, hident, h⟩ := h
  split_ifs at hident with hlen
  cases hident
  cases h
  simp [List.length_flatMap, Nat.min_eq_left (Nat.le_of_not_lt hlen)]

/-- **Headers and contents are where they are looked for.** -/
theorem elfWrite_layout {phlist : Phlist} {image : List UInt8}
    (himage : elfWrite phlist = some image)
    (hlen : ∀ phdr ∈ phlist.kept, (phdr.content.length : ℤ) = phdr.pFilesz) :
    Laid phlist.ehdr phlist.kept image := by
  obtain ⟨e, he⟩ := foldl_writeSegment (d := 52 + 32 * phlist.kept.length) [] [] phlist.phdrs
    hlen (by omega)
  simp only [elfWrite, Option.bind_eq_bind, Option.bind_eq_some_iff] at himage
  obtain ⟨header, hheader, himage⟩ := himage
  have hlen₁ := length_formatEhdr hheader
  push_cast at he
  rw [he, List.nil_append, List.nil_append] at himage
  replace himage := Option.some.inj himage
  change header ++ headers _ phlist.kept ++ bodies phlist.kept = image at himage
  have hlen₂ := length_headers (d := 52 + 32 * phlist.kept.length) phlist.kept
  have hlen₃ : (header ++ headers (52 + 32 * phlist.kept.length) phlist.kept).length =
      52 + 32 * phlist.kept.length := by
    rw [List.length_append, hlen₁, hlen₂]
  subst himage
  refine ⟨?_, fun j hj => ?_, fun j hj => ?_, fun j hj => ?_, ?_⟩
  · rw [hheader, List.append_assoc, slice_append_left (by omega), ← hlen₁, slice_self]
  · rw [slice_append_left (by omega), ← hlen₁, slice_append_right]
    rw [hlen₁, slice_headers hj]
  · have hslice := slice_append_right (m := bodies phlist.kept)
      (l := header ++ headers (52 + 32 * phlist.kept.length) phlist.kept)
      (a := (bodies (phlist.kept.take j)).length) (n := roundUp phlist.kept[j].content.length 4)
    rwa [hlen₃, slice_bodies hj] at hslice
  · have hle := bodies_inside hj
    rw [offsetOf, List.length_append, hlen₃]
    omega
  · rw [List.length_append, hlen₃]
    omega

/-- A field of a program header. -/
theorem Laid.field {ehdr : Ehdr} {kept : List Phdr} {image : List UInt8} (h : Laid ehdr kept image)
    (hj : j < kept.length) {k : ℕ} (hk : k < 8) :
    slice image (52 + 32 * j + 4 * k) 4 = formatInt 4 [kept[j].pType,
      (offsetOf (52 + 32 * kept.length) kept j : ℤ), kept[j].pVaddr, kept[j].pPaddr,
      kept[j].pFilesz, kept[j].pMemsz, kept[j].pFlags, kept[j].pAlign][k] := by
  rw [← slice_slice (n := 32) (by omega), h.phdrs j hj, ← slice_formatInt (by exact hk)]
  simp [formatPhdr, slice]

/-- The header of the file, in words. -/
def ehdrWords (ehdr : Ehdr) (phnum : ℕ) : List ℤ :=
  ehdr.eIdent.take 4 ++ [ehdr.eType % 2 ^ 16 + 2 ^ 16 * (ehdr.eMachine % 2 ^ 16), ehdr.eVersion,
    ehdr.eEntry, 0x34, 0, ehdr.eFlags, 0x34 + 2 ^ 16 * 0x20, phnum % 2 ^ 16 + 2 ^ 16 * 0x28, 0]

theorem Laid.word {ehdr : Ehdr} {kept : List Phdr} {image : List UInt8} (h : Laid ehdr kept image)
    (hident : ehdr.eIdent.length = 4) {k : ℕ} (hk : k < (ehdrWords ehdr kept.length).length) :
    slice image (4 * k) 4 = formatInt 4 (ehdrWords ehdr kept.length)[k] := by
  have hlen : (ehdrWords ehdr kept.length).length = 13 := by simp [ehdrWords, hident]
  have hheader : slice image 0 52 = (ehdrWords ehdr kept.length).flatMap (formatInt 4) := by
    have hformat := h.header
    simp only [formatEhdr, formatInts, hident, lt_self_iff_false, if_false, Option.bind_eq_bind,
      Option.bind_some] at hformat
    rw [← Option.some.inj hformat]
    have htwo (v w : ℤ) (hv : 0 ≤ v) (hv' : v < 2 ^ 16) (hw : 0 ≤ w) (hw' : w < 2 ^ 16) :
        formatInt 2 v ++ formatInt 2 w = formatInt 4 (v + 2 ^ 16 * w) := by
      rw [formatInt_two, Int.emod_eq_of_lt hv hv', Int.emod_eq_of_lt hw hw']
    have htype := formatInt_two ehdr.eType ehdr.eMachine
    have hsize := htwo 0x34 0x20 (by norm_num) (by norm_num) (by norm_num) (by norm_num)
    have hnum := formatInt_two kept.length 0x28
    have hnone : formatInt 4 0 = formatInt 2 0 ++ formatInt 2 0 := rfl
    simp only [ehdrWords, List.flatMap_append, List.flatMap_cons, List.flatMap_nil,
      List.append_nil, ← htype, ← hsize, List.append_assoc]
    rw [show (kept.length : ℤ) % 2 ^ 16 + 2 ^ 16 * 0x28 = kept.length % 2 ^ 16 + 2 ^ 16 *
      (0x28 % 2 ^ 16) from rfl, ← hnum, hnone]
    simp only [List.append_assoc]
  rw [← Nat.zero_add (4 * k), ← slice_slice (n := 52) (by omega), hheader]
  exact slice_formatInt hk

end Layout

/-! ## What is known of the file that is read -/

section Read

variable {elf : List UInt8} {phlist : Phlist} {names : List (List UInt8)}

theorem elfRead_ehdr (h : elfRead elf = some phlist) : phlist.ehdr.eIdent.length = 4 ∧
    phlist.ehdr.eIdent.head? = some elfmag ∧ phlist.ehdr.eMachine = emAlteraNios2 := by
  simp only [elfRead, Option.bind_eq_bind, Option.bind_eq_some_iff] at h
  obtain ⟨ehdr, hehdr, h⟩ := h
  split_ifs at h with hmarks
  simp only [Option.bind_eq_some_iff] at h
  obtain ⟨_, -, _, -, _, -, h⟩ := h
  cases h
  rw [not_or, not_not, not_not] at hmarks
  refine ⟨?_, hmarks.1, hmarks.2⟩
  simp only [scanEhdr] at hehdr
  split_ifs at hehdr with hlen
  cases hehdr
  exact length_scanInts (by omega)

theorem strippedFrom_ehdr (h : strippedFrom names elf = some phlist) :
    phlist.ehdr.eIdent.length = 4 ∧ phlist.ehdr.eIdent.head? = some elfmag ∧
      phlist.ehdr.eMachine = emAlteraNios2 := by
  simp only [strippedFrom, Option.bind_eq_bind, Option.bind_eq_some_iff] at h
  obtain ⟨phlist₀, hread, h⟩ := h
  cases h
  have hehdr := elfRead_ehdr hread
  exact hehdr

/-- A segment without data is discarded. -/
theorem strip_filesz {phdr : Phdr} (hkept : phdr.strip.discard = false)
    (hload : phdr.strip.pType = ptLoad) : phdr.strip.pFilesz ≠ 0 := by
  rcases hextent : phdr.extent with ⟨vmin, vmax⟩
  revert hkept hload
  simp only [Phdr.strip, hextent]
  split_ifs with hdiscard hcomp _ htype hzero hempty hsize htrim
  · exact fun hkept => absurd (hkept.symm.trans hdiscard) (by decide)
  · exact fun hkept => absurd hkept (by decide)
  · exact fun _ hload => absurd (hload ▸ hcomp) (by decide)
  · exact fun hkept => absurd hkept (by decide)
  · exact fun hkept => absurd hkept (by decide)
  · exact fun hkept => absurd hkept (by decide)
  · exact fun _ _ => hzero
  · intro _ _ hsame
    change vmax - vmin = 0 at hsame
    omega
  · exact fun _ _ => hzero

theorem discard_of_kept {phdr : Phdr} (hkept : phdr ∈ phlist.kept) : phdr.discard = false := by
  simpa using (List.mem_filter.mp hkept).2

theorem kept_filesz (h : strippedFrom names elf = some phlist) {phdr : Phdr}
    (hkept : phdr ∈ phlist.kept) (hload : phdr.pType = ptLoad) : phdr.pFilesz ≠ 0 := by
  simp only [strippedFrom, Option.bind_eq_bind, Option.bind_eq_some_iff] at h
  obtain ⟨phlist₀, -, h⟩ := h
  cases h
  obtain ⟨phdr₀, -, rfl⟩ := List.mem_map.mp (List.mem_filter.mp hkept).1
  exact strip_filesz (discard_of_kept hkept) hload

end Read

/-! ## Compression -/

section Compression

variable {phdr : Phdr}

theorem compressLz4_total (src : List UInt8) : ∃ result, compressLz4 src = some result := by
  obtain ⟨⟨out, result⟩, hresult, -⟩ := Lz4hc.lz4Compress_spec src 0
  exact ⟨result, by rw [compressLz4, hresult]; rfl⟩

theorem compact_total (phdr : Phdr) :
    ∃ phdr', phdr.compact compressLz4 ptCompLz4 = some phdr' ∧ phdr'.discard = phdr.discard := by
  unfold Phdr.compact
  split_ifs
  · exact ⟨phdr, rfl, rfl⟩
  · exact ⟨phdr, rfl, rfl⟩
  · obtain ⟨result, hresult⟩ := compressLz4_total (phdr.content ++ phdr.filler)
    rw [hresult]
    simp only [Option.bind_eq_bind, Option.bind_some]
    split_ifs
    · exact ⟨phdr, rfl, rfl⟩
    · exact ⟨_, rfl, rfl⟩

/-- The segment as it is written. -/
def Phdr.packed (compress : Bool) (phdr : Phdr) : Phdr :=
  if compress then (phdr.compact compressLz4 ptCompLz4).getD phdr else phdr

theorem discard_packed (compress : Bool) (phdr : Phdr) :
    (phdr.packed compress).discard = phdr.discard := by
  obtain ⟨phdr', hcompact, hdiscard⟩ := compact_total phdr
  unfold Phdr.packed
  split_ifs
  · rw [hcompact]
    exact hdiscard
  · rfl

/-- The list of the segments as they are written. -/
def Phlist.packed (compress : Bool) (phlist : Phlist) : Phlist :=
  { phlist with phdrs := phlist.phdrs.map (Phdr.packed compress) }

theorem kept_packed (compress : Bool) (phlist : Phlist) :
    (phlist.packed compress).kept = phlist.kept.map (Phdr.packed compress) := by
  rw [Phlist.kept, Phlist.packed, Phlist.kept, List.filter_map]
  congr 2
  funext phdr
  simp [discard_packed]

theorem elfImage_eq (compress : Bool) (phlist : Phlist) :
    elfImage compress phlist = elfWrite (phlist.packed compress) := by
  have hall : Phdr.compact compressLz4 ptCompLz4 = fun phdr => pure (phdr.packed true) := by
    funext phdr
    obtain ⟨phdr', hcompact, -⟩ := compact_total phdr
    rw [Phdr.packed, if_pos rfl, hcompact]
    rfl
  cases compress with
  | true =>
    simp only [elfImage, Option.bind_eq_bind, elfCompact, hall, List.mapM_pure, if_true]
    rfl
  | false =>
    have hsame : phlist.packed false = phlist := by
      rw [Phlist.packed, show Phdr.packed false = id from rfl, List.map_id]
    rw [hsame]
    rfl

theorem elfNew_eq {elf : List UInt8} {phlist : Phlist} (h : strippedElf elf = some phlist)
    (compress : Bool) : elfNew elf compress = elfWrite (phlist.packed compress) := by
  rw [← elfImage_eq, elfNew, h]
  rfl

end Compression

end OlivePiccolo.Elf
