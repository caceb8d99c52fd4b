import OlivePiccolo.Boot.Loading
import OlivePiccolo.Elf.Image
import OlivePiccolo.Elf.Strip

/-!
# From the ELF file to the memory

`flash_boot_gen.tcl` writes an image, and the boot loader reads it. Every segment that the tool
keeps is in memory when the program is started, up to `p_memsz`: its contents, and behind them
zeros, or the spaces that were compressed with the contents (`flashBoot_loads`).
-/

namespace OlivePiccolo.Boot

open StateTransition Elf Tcl

/-- The flash holds a string from a place on. -/
def Holds (content : ℕ → UInt8) (base : ℕ) (data : List UInt8) : Prop :=
  ∀ k (hk : k < data.length), content (base + k) = data[k]

section Holding

variable {content : ℕ → UInt8} {base a n : ℕ} {image data : List UInt8}

theorem Holds.append_right (h : Holds content base (data ++ image)) :
    Holds content (base + data.length) image := by
  intro k hk
  rw [add_assoc, h (data.length + k) (by rw [List.length_append]; omega),
    List.getElem_append_right (Nat.le_add_right _ _)]
  congr 1
  omega

theorem Holds.bytesAt (h : Holds content base image) (ha : a + n ≤ image.length) :
    bytesAt content (base + a) n = slice image a n := by
  apply List.ext_getElem
  · rw [length_bytesAt, slice, List.length_take, List.length_drop]
    omega
  · intro k hk _
    rw [length_bytesAt] at hk
    simp only [Boot.bytesAt, slice, List.getElem_map, List.getElem_range, List.getElem_take,
      List.getElem_drop]
    rw [add_assoc, h (a + k) (by omega)]

theorem Holds.wordAt (h : Holds content base image) {v : ℤ} (hlen : a + 4 ≤ image.length)
    (hv : slice image a 4 = formatInt 4 v) : wordAt content (base + a) = BitVec.ofInt 32 v := by
  have hbytes := h.bytesAt (n := 4) hlen
  rw [hv] at hbytes
  have hword : Boot.wordAt content (base + a) =
      BitVec.ofNat 32 (leNat (Boot.bytesAt content (base + a) 4)) := rfl
  rw [hword, hbytes]
  have hle := leNat_formatInt 4 v
  norm_num at hle
  apply BitVec.eq_of_toNat_eq
  rw [BitVec.toNat_ofNat, BitVec.toNat_ofInt]
  norm_num
  omega

end Holding

/-! ## Segments -/

/-- `p_paddr`, as an address. -/
def paddrOf (phdr : Phdr) : ℕ := (phdr.pPaddr % 2 ^ 32).toNat

/-- A segment that the loader is made for: it is not compressed yet, and begins at a word. -/
structure Bootable (phdr : Phdr) : Prop where
  pType : phdr.pType = ptLoad
  content : (phdr.content.length : ℤ) = phdr.pFilesz
  memsz : phdr.pFilesz ≤ phdr.pMemsz
  aligned : paddrOf phdr % 4 = 0
  top : paddrOf phdr + roundUp phdr.pMemsz.toNat 4 < 2 ^ 32

/-- A segment with its contents that ends in front of the end of the address space. -/
structure Whole (phdr : Phdr) : Prop where
  pType : phdr.pType = ptLoad
  content : (phdr.content.length : ℤ) = phdr.pFilesz
  memsz : phdr.pFilesz ≤ phdr.pMemsz
  room : paddrOf phdr + phdr.pMemsz.toNat < 2 ^ 32

/-- The words of two segments are apart. -/
def Disjoint (p q : Phdr) : Prop :=
  paddrOf p + roundUp p.pMemsz.toNat 4 ≤ paddrOf q ∨
    paddrOf q + roundUp q.pMemsz.toNat 4 ≤ paddrOf p

/-- The segment is compressed with its filler when the image is made. -/
def Compressed (compress : Bool) (phdr : Phdr) : Prop := (phdr.packed compress).pType ≠ ptLoad

instance (compress : Bool) (phdr : Phdr) : Decidable (Compressed compress phdr) :=
  inferInstanceAs (Decidable (_ ≠ _))

/-- Contents that are not compressed are stored in words. -/
def InWords (compress : Bool) (phdr : Phdr) : Prop :=
  ¬ Compressed compress phdr →
    paddrOf phdr % 4 = 0 ∧ paddrOf phdr + roundUp phdr.pMemsz.toNat 4 < 2 ^ 32

/-- What is in memory when the program is started. -/
def loaded (compress : Bool) (phdr : Phdr) : List UInt8 :=
  phdr.content ++ List.replicate (phdr.pMemsz - phdr.pFilesz).toNat
    (if Compressed compress phdr then 0x20 else 0)

/-- What the loader writes: the last word of the contents is a whole one. -/
def written (compress : Bool) (phdr : Phdr) : List UInt8 :=
  if Compressed compress phdr then phdr.content ++ phdr.filler
  else padded phdr.content ++
    List.replicate (phdr.pMemsz.toNat - roundUp phdr.content.length 4) 0

/-- What the loader writes, and where. -/
def pieceOf (compress : Bool) (phdr : Phdr) : BitVec 32 × List UInt8 :=
  (BitVec.ofNat 32 (paddrOf phdr), written compress phdr)

/-- What is written of two segments is apart. -/
def Clear (compress : Bool) (p q : Phdr) : Prop :=
  paddrOf p + (written compress p).length ≤ paddrOf q ∨
    paddrOf q + (written compress q).length ≤ paddrOf p

section Segments

variable {content : ℕ → UInt8} {base a j : ℕ} {compress : Bool} {phdr : Phdr} {image : List UInt8}

theorem Bootable.whole (hboot : Bootable phdr) : Whole phdr := by
  have htop := hboot.top
  have hup := le_roundUp (n := 4) phdr.pMemsz.toNat (by omega)
  exact ⟨hboot.pType, hboot.content, hboot.memsz, by omega⟩

theorem Bootable.inWords (hboot : Bootable phdr) : InWords compress phdr :=
  fun _ => ⟨hboot.aligned, hboot.top⟩

theorem compact_load (hkept : phdr.discard = false) (hload : phdr.pType = ptLoad)
    (hfilesz : phdr.pFilesz ≠ 0) {result : List UInt8}
    (hresult : compressLz4 (phdr.content ++ phdr.filler) = some result) :
    phdr.compact compressLz4 ptCompLz4 =
      if result.length = 0 ∨ phdr.pFilesz ≤ result.length then some phdr
      else some { phdr with
        pType := ptCompLz4 + ptLoad
        pFilesz := result.length
        content := result } := by
  unfold Phdr.compact
  rw [if_neg (by simp [hkept]), if_neg (by simp [hload, hfilesz, ptLoad, ptNull, ptNum]),
    hresult, hload]
  rfl

/-- A segment is compressed if that makes it shorter. -/
theorem compressed_iff (hkept : phdr.discard = false) (hload : phdr.pType = ptLoad)
    (hfilesz : phdr.pFilesz ≠ 0) (compress : Bool) :
    Compressed compress phdr ↔ compress = true ∧ ∃ result,
      compressLz4 (phdr.content ++ phdr.filler) = some result ∧ result.length ≠ 0 ∧
        (result.length : ℤ) < phdr.pFilesz := by
  obtain ⟨result, hresult⟩ := compressLz4_total (phdr.content ++ phdr.filler)
  have hshort : (∃ result', compressLz4 (phdr.content ++ phdr.filler) = some result' ∧
      result'.length ≠ 0 ∧ (result'.length : ℤ) < phdr.pFilesz) ↔
        ¬ (result.length = 0 ∨ phdr.pFilesz ≤ result.length) := by
    rw [hresult, not_or, not_le]
    simp
  cases compress with
  | false => exact iff_of_false (not_not.mpr hload) fun h => Bool.false_ne_true h.1
  | true =>
    rw [Compressed, Phdr.packed, if_pos rfl, compact_load hkept hload hfilesz hresult, hshort,
      and_iff_right rfl]
    split_ifs with hskip
    · exact iff_of_false (not_not.mpr hload) (not_not.mpr hskip)
    · refine iff_of_true ?_ hskip
      show ¬ ptCompLz4 + ptLoad = ptLoad
      decide

theorem packed_cases (hkept : phdr.discard = false) (hload : phdr.pType = ptLoad)
    (hfilesz : phdr.pFilesz ≠ 0) (compress : Bool) :
    phdr.packed compress = phdr ∧ ¬ Compressed compress phdr ∨
      ∃ out result, Lz4hc.lz4Compress (phdr.content ++ phdr.filler) 0 = some (out, result) ∧
        result ≠ [] ∧ (result.length : ℤ) < phdr.pFilesz ∧ Compressed compress phdr ∧
          phdr.packed compress = { phdr with
            pType := ptCompLz4 + ptLoad
            pFilesz := result.length
            content := result } := by
  obtain ⟨⟨out, result⟩, hresult, -⟩ :=
    Lz4hc.lz4Compress_spec (phdr.content ++ phdr.filler) 0
  have hcompress : compressLz4 (phdr.content ++ phdr.filler) = some result := by
    rw [compressLz4, hresult]
    rfl
  cases compress with
  | false => exact .inl ⟨rfl, not_not.mpr hload⟩
  | true =>
    rw [Compressed, Phdr.packed, if_pos rfl, compact_load hkept hload hfilesz hcompress]
    split_ifs with hskip
    · exact .inl ⟨rfl, not_not.mpr hload⟩
    · rw [not_or, List.length_eq_zero_iff, not_le] at hskip
      refine .inr ⟨out, result, hresult, hskip.1, hskip.2, ?_, rfl⟩
      show ¬ ptCompLz4 + ptLoad = ptLoad
      decide

/-- A segment of the image. -/
theorem stored_segment {ehdr : Ehdr} {kept : List Phdr} (h : Holds content base image)
    (hlaid : Laid ehdr kept image) (hj : j < kept.length) (hget : kept[j] = phdr)
    (type : BitVec 32) (filesz memsz : ℕ) (htype : BitVec.ofInt 32 phdr.pType = type)
    (hfilesz : phdr.pFilesz = filesz) (hmemsz : phdr.pMemsz = memsz) :
    ∃ offset, Header content (base + (52 + 32 * j)) type offset (paddrOf phdr) filesz memsz ∧
      offset + roundUp phdr.content.length 4 ≤ image.length ∧
        bytesAt content (base + offset) (roundUp phdr.content.length 4) = padded phdr.content := by
  have hphdrs := hlaid.phdrs_inside
  have hinside := hlaid.inside j hj
  have hcontents := h.bytesAt hinside
  have hfield (k : ℕ) (hk : k < 8) := h.wordAt (by omega) (hlaid.field hj hk)
  rw [hlaid.contents j hj] at hcontents
  simp only [hget] at hinside hcontents hfield
  have hnat (n : ℕ) : BitVec.ofInt 32 (n : ℤ) = BitVec.ofNat 32 n := BitVec.ofInt_natCast 32 n
  refine ⟨_, ⟨(hfield 0 (by omega)).trans htype, (hfield 1 (by omega)).trans (hnat _), ?_, ?_, ?_⟩,
    hinside, hcontents⟩
  · refine (hfield 3 (by omega)).trans ?_
    apply BitVec.eq_of_toNat_eq
    rw [BitVec.toNat_ofInt, BitVec.toNat_ofNat, paddrOf]
    show (phdr.pPaddr % _).toNat = _
    norm_num
    omega
  · refine (hfield 4 (by omega)).trans ?_
    rw [← hnat, ← hfilesz]
    rfl
  · refine (hfield 5 (by omega)).trans ?_
    rw [← hnat, ← hmemsz]
    rfl

theorem boots_segment {ehdr : Ehdr} {kept : List Phdr} (h : Holds content base image)
    (hlaid : Laid ehdr (kept.map (Phdr.packed compress)) image)
    (hsize : base + image.length ≤ 2 ^ 24) (hj : j < kept.length) (hkept : kept[j].discard = false)
    (hfilesz : kept[j].pFilesz ≠ 0) (hwhole : Whole kept[j]) (hwords : InWords compress kept[j]) :
    Boots content base (base + (52 + 32 * j)) (pieceOf compress kept[j]) := by
  have hj' : j < (kept.map (Phdr.packed compress)).length := by rwa [List.length_map]
  have hget : (kept.map (Phdr.packed compress))[j] = kept[j].packed compress := List.getElem_map ..
  have hlen := hwhole.content
  have hmemsz := hwhole.memsz
  have hroom := hwhole.room
  have hup := le_roundUp (n := 4) kept[j].pMemsz.toNat (by omega)
  obtain ⟨hsame, hplain⟩ | ⟨out, result, hresult, hne, hshort, hcomp, hpacked⟩ :=
    packed_cases hkept hwhole.pType hfilesz compress
  · obtain ⟨offset, hheader, hinside, hbytes⟩ := stored_segment h hlaid hj' (hget.trans hsame)
      PT_LOAD _ kept[j].pMemsz.toNat (by rw [hwhole.pType]; rfl) hlen.symm (by omega)
    obtain ⟨halign, htop⟩ := hwords hplain
    rw [pieceOf, written, if_neg hplain, ← hbytes]
    exact .plain hheader halign (by omega) (by omega) htop (by omega)
  · have hsrc : (kept[j].content ++ kept[j].filler).length = kept[j].pMemsz.toNat := by
      rw [List.length_append, Phdr.filler, List.length_replicate]
      omega
    obtain ⟨offset, hheader, hinside, hbytes⟩ := stored_segment h hlaid hj' (hget.trans hpacked)
      PT_LOAD_LZ4 result.length (kept[j].content ++ kept[j].filler).length rfl rfl
      (by rw [hsrc, Int.toNat_of_nonneg (by omega)])
    dsimp only at hinside hbytes
    have hupper := le_roundUp (n := 4) result.length (by omega)
    have hresult_bytes : bytesAt content (base + offset) result.length = result := by
      have hparts : bytesAt content (base + offset)
          (result.length + (roundUp result.length 4 - result.length)) = _ := bytesAt_add
      rw [Nat.add_sub_cancel' hupper, hbytes, padded] at hparts
      exact (List.append_inj_left hparts length_bytesAt.symm).symm
    rw [pieceOf, written, if_pos hcomp]
    refine .lz4 hheader ?_ hne hresult (by omega) (by omega) (by omega) hresult_bytes
    rw [← List.length_pos_iff]
    omega

theorem loaded_of_written (compress : Bool) (hwhole : Whole phdr) :
    loaded compress phdr <+: written compress phdr ∧
      (written compress phdr).length ≤ roundUp phdr.pMemsz.toNat 4 := by
  have hlen := hwhole.content
  have hmemsz := hwhole.memsz
  have hup := le_roundUp (n := 4) phdr.pMemsz.toNat (by omega)
  have hfile := le_roundUp (n := 4) phdr.content.length (by omega)
  have hmono := roundUp_mono (n := 4) (show phdr.content.length ≤ phdr.pMemsz.toNat by omega)
  unfold loaded written
  split_ifs with hcomp
  · refine ⟨List.prefix_rfl, ?_⟩
    rw [List.length_append, Phdr.filler, List.length_replicate]
    omega
  · rw [padded, List.append_assoc, ← List.replicate_add]
    refine ⟨(List.prefix_append_right_inj _).mpr ?_, ?_⟩
    · refine ⟨List.replicate (roundUp phdr.content.length 4 - phdr.pMemsz.toNat) 0, ?_⟩
      rw [← List.replicate_add]
      congr 1
      omega
    · rw [List.length_append, List.length_replicate]
      omega

end Segments

/-! ## The whole image -/

/-- The bytes of the file in the flash: those of an RBF have their bits in the other order. -/
def inFlash (rbf : Option RbfOption) (file : List UInt8) : List UInt8 :=
  if rbf.isSome then rbfRead file else file

/-- The program is loaded, and nothing else is changed. -/
structure Started (compress : Bool) (phlist : Phlist) (s s' : Loader) : Prop where
  eEntry : s'.eEntry = BitVec.ofInt 32 phlist.ehdr.eEntry
  segments : ∀ phdr ∈ phlist.kept, ∀ i (hi : i < (loaded compress phdr).length),
    s'.memory (BitVec.ofNat 32 (paddrOf phdr + i)) = (loaded compress phdr)[i]
  rest : ∀ a : BitVec 32, (∀ phdr ∈ phlist.kept, ∀ i < roundUp phdr.pMemsz.toNat 4,
    a ≠ BitVec.ofNat 32 (paddrOf phdr + i)) → s'.memory a = s.memory a

section Image

variable {phlist : Phlist} {compress : Bool} {image : List UInt8} {content : ℕ → UInt8} {base : ℕ}
  {s : Loader}

/-- What is written of a segment that is apart from the others stays. -/
theorem overlays_written {kept : List Phdr} {mem : BitVec 32 → UInt8}
    (htop : ∀ phdr ∈ kept, paddrOf phdr + (written compress phdr).length < 2 ^ 32)
    (hapart : kept.Pairwise (Clear compress)) {phdr : Phdr} (hmem : phdr ∈ kept) {i : ℕ}
    (hi : i < (written compress phdr).length) :
    overlays mem (kept.map (pieceOf compress)) (BitVec.ofNat 32 (paddrOf phdr + i)) =
      (written compress phdr)[i] := by
  have hroom : (written compress phdr).length ≤ 2 ^ 32 := by
    have htop := htop phdr hmem
    omega
  rw [BitVec.ofNat_add]
  refine overlays_get ?_ (List.mem_map_of_mem hmem) hi hroom
  rw [List.pairwise_map]
  refine hapart.imp_of_mem fun {p q} hp hq hpq => ?_
  have hptop := htop p hp
  have hqtop := htop q hq
  have hnat (q : Phdr) (hlt : paddrOf q < 2 ^ 32) : (pieceOf compress q).1.toNat = paddrOf q := by
    rw [pieceOf, BitVec.toNat_ofNat, Nat.mod_eq_of_lt hlt]
  refine apart_of_le ?_ ?_ ?_
  · rw [hnat p (by omega)]
    exact hptop.le
  · rw [hnat q (by omega)]
    exact hqtop.le
  · rw [hnat p (by omega), hnat q (by omega)]
    exact hpq

theorem started_of_overlays {s' : Loader} (hboot : ∀ phdr ∈ phlist.kept, Bootable phdr)
    (hapart : phlist.kept.Pairwise Disjoint)
    (hentry : s'.eEntry = BitVec.ofInt 32 phlist.ehdr.eEntry)
    (hmemory : s'.memory = overlays s.memory (phlist.kept.map (pieceOf compress))) :
    Started compress phlist s s' := by
  have hwritten (phdr : Phdr) (hmem : phdr ∈ phlist.kept) :=
    loaded_of_written compress (hboot phdr hmem).whole
  refine ⟨hentry, fun phdr hmem i hi => ?_, fun a ha => ?_⟩
  · obtain ⟨hfront, -⟩ := hwritten phdr hmem
    have hi' := Nat.lt_of_lt_of_le hi hfront.length_le
    rw [hmemory, hfront.getElem hi]
    refine overlays_written (fun p hp => ?_) (hapart.imp_of_mem fun {p q} hp hq hpq => ?_) hmem hi'
    · have htop := (hboot p hp).top
      have hle := (hwritten p hp).2
      omega
    · have hple := (hwritten p hp).2
      have hqle := (hwritten q hq).2
      exact hpq.imp (by omega) (by omega)
  · rw [hmemory]
    refine overlays_of_ne _ fun p hp i hi => ?_
    obtain ⟨phdr, hmem, rfl⟩ := List.mem_map.mp hp
    rw [pieceOf, ← BitVec.ofNat_add]
    exact ha phdr hmem i (Nat.lt_of_lt_of_le hi (hwritten phdr hmem).2)

/-- The number of the segments is in the lower half of its word. -/
theorem and_ffff {n : ℕ} (hn : n < 2 ^ 16) :
    BitVec.ofInt 32 ((n : ℤ) % 2 ^ 16 + 2 ^ 16 * 0x28) &&& 0xffff = BitVec.ofNat 32 n := by
  have hmod : (n : ℤ) % 2 ^ 16 + 2 ^ 16 * 0x28 = ((n + 2 ^ 16 * 0x28 : ℕ) : ℤ) := by omega
  rw [hmod, BitVec.ofInt_natCast]
  apply BitVec.eq_of_toNat_eq
  rw [BitVec.toNat_and, BitVec.toNat_ofNat, BitVec.toNat_ofNat,
    show (0xffff : BitVec 32).toNat = 2 ^ 16 - 1 from rfl, Nat.and_two_pow_sub_one_eq_mod]
  omega

/-- The header of the image says where its program headers are. -/
theorem laid_table {ehdr : Ehdr} {kept : List Phdr} (h : Holds content base image)
    (hlaid : Laid ehdr kept image) (hident : ehdr.eIdent.length = 4) (hnum : kept.length < 2 ^ 16) :
    TableAt content base 52 kept.length := by
  have hinside := hlaid.phdrs_inside
  have hword (k : ℕ) (v : ℤ) (hk : k < 13) (hv : (ehdrWords ehdr kept.length)[k]? = some v) :
      wordAt content (base + 4 * k) = BitVec.ofInt 32 v := by
    obtain ⟨hk', rfl⟩ := List.getElem?_eq_some_iff.mp hv
    exact h.wordAt (by omega) (hlaid.word hident hk')
  obtain ⟨a, b, c, d, hlist⟩ := List.length_eq_four.mp hident
  refine ⟨?_, ?_, ?_⟩
  · exact hword 7 0x34 (by omega) (by simp [ehdrWords, hlist])
  · rw [hword 10 (0x34 + 2 ^ 16 * 0x20) (by omega) (by simp [ehdrWords, hlist])]
    decide
  · rw [hword 11 _ (by omega) (by simp only [ehdrWords, hlist]; rfl)]
    exact and_ffff hnum

/-- The segments of the image that are written: those in words, and those that are compressed. -/
theorem boots_kept {kept : List Phdr} {ehdr : Ehdr} (h : Holds content base image)
    (hlaid : Laid ehdr (kept.map (Phdr.packed compress)) image)
    (hsize : base + image.length ≤ 2 ^ 24) (hkept : ∀ phdr ∈ kept, phdr.discard = false)
    (hfilesz : ∀ phdr ∈ kept, phdr.pFilesz ≠ 0) (hwhole : ∀ phdr ∈ kept, Whole phdr) {j : ℕ}
    (hj : j < kept.length) (hwords : InWords compress kept[j]) :
    Boots content base (base + 52 + 32 * j) (pieceOf compress kept[j]) := by
  have hmem := List.getElem_mem hj
  rw [add_assoc]
  exact boots_segment h hlaid hsize hj (hkept _ hmem) (hfilesz _ hmem) (hwhole _ hmem) hwords

theorem loader_started (hident : phlist.ehdr.eIdent.length = 4)
    (hmagic : phlist.ehdr.eIdent.head? = some elfmag)
    (hmachine : phlist.ehdr.eMachine = emAlteraNios2) (htype : phlist.ehdr.eType = 2)
    (hfilesz : ∀ phdr ∈ phlist.kept, phdr.pFilesz ≠ 0) (hboot : ∀ phdr ∈ phlist.kept, Bootable phdr)
    (hapart : phlist.kept.Pairwise Disjoint) (hne : phlist.kept ≠ [])
    (hnum : phlist.kept.length < 2 ^ 16)
    (h : Holds content base image)
    (hlaid : Laid phlist.ehdr (phlist.kept.map (Phdr.packed compress)) image)
    (hsize : base + image.length ≤ 2 ^ 24) (hs : s.sent = []) (hbase : s.elfBase = readFrom base) :
    ∃ s', Reaches (loaderStep (readBytes content)) (.checkIdent, s) (.startProgram, s') ∧
      Started compress phlist s s' := by
  have hphdrs := hlaid.phdrs_inside
  have hword (k : ℕ) (hk : k < 13) := h.wordAt (a := 4 * k) (by omega)
    (hlaid.word hident (by simpa [ehdrWords, hident] using hk))
  have htable := laid_table h hlaid hident (by rwa [List.length_map])
  rw [List.length_map] at hphdrs htable
  simp only [List.length_map] at hword
  obtain ⟨a, b, c, d, hlist⟩ := List.length_eq_four.mp hident
  rw [hlist, List.head?_cons, Option.some.injEq] at hmagic
  simp only [ehdrWords, hlist, List.take_succ_cons, List.take_zero, List.cons_append,
    List.nil_append, htype, hmachine, hmagic] at hword
  have hmagic' : wordAt content base = ELF_HEADER_LE := hword 0 (by omega)
  have htype' : wordAt content (base + 16) = typeAndMachine := hword 4 (by omega)
  have hlen : (phlist.kept.map (pieceOf compress)).length = phlist.kept.length :=
    List.length_map ..
  rw [← hlen] at htable
  have hsegments (k : ℕ) (hk : k < (phlist.kept.map (pieceOf compress)).length) :
      Boots content base (base + 52 + 32 * k) (phlist.kept.map (pieceOf compress))[k] := by
    rw [hlen] at hk
    rw [List.getElem_map]
    exact boots_kept h hlaid hsize (fun _ => discard_of_kept) hfilesz
      (fun phdr hmem => (hboot phdr hmem).whole) hk (hboot _ (List.getElem_mem hk)).inWords
  obtain ⟨s', hreach, hentry, hmemory⟩ := run_loader (by simpa using hne) hmagic' htype' htable
    hsegments (by omega) (by omega) (by omega) hs hbase
  exact ⟨s', hreach, started_of_overlays hboot hapart (hentry.trans (hword 6 (by omega))) hmemory⟩

/-- The image of segments that are whole is made. -/
theorem elfWrite_packed (hident : phlist.ehdr.eIdent.length = 4)
    (hfilesz : ∀ phdr ∈ phlist.kept, phdr.pFilesz ≠ 0) (hwhole : ∀ phdr ∈ phlist.kept, Whole phdr)
    (compress : Bool) :
    ∃ image, elfWrite (phlist.packed compress) = some image ∧
      Laid phlist.ehdr (phlist.kept.map (Phdr.packed compress)) image := by
  obtain ⟨header, hheader⟩ : ∃ header, formatEhdr phlist.ehdr
      (phlist.packed compress).kept.length = some header := by
    rw [formatEhdr, formatInts, if_neg (by omega)]
    exact ⟨_, rfl⟩
  obtain ⟨image, himage⟩ : ∃ image, elfWrite (phlist.packed compress) = some image := by
    rw [elfWrite, show (phlist.packed compress).ehdr = phlist.ehdr from rfl, hheader]
    exact ⟨_, rfl⟩
  have hlaid := elfWrite_layout himage (by
    intro phdr' hpacked
    rw [kept_packed] at hpacked
    obtain ⟨phdr, hmem, rfl⟩ := List.mem_map.mp hpacked
    obtain ⟨hsame, -⟩ | ⟨_, _, -, -, -, -, hpacked⟩ := packed_cases
      (discard_of_kept hmem) (hwhole phdr hmem).pType (hfilesz phdr hmem) compress
    · rw [hsame]
      exact (hwhole phdr hmem).content
    · rw [hpacked])
  rw [kept_packed] at hlaid
  exact ⟨image, himage, hlaid⟩

/-- **The tool and the loader.** The tool makes an image of every file that it reads, and what the
segments of the file hold is in memory when the program is started. -/
theorem flashBoot_loads {rbf : Option RbfOption} {elf dest : List UInt8} (compress : Bool)
    (hdest : destOf rbf = some dest) (hread : strippedElf elf = some phlist)
    (htype : phlist.ehdr.eType = 2) (hboot : ∀ phdr ∈ phlist.kept, Bootable phdr)
    (hapart : phlist.kept.Pairwise Disjoint) (hne : phlist.kept ≠ [])
    (hnum : phlist.kept.length < 2 ^ 16) :
    ∃ file, flashBootGen rbf elf compress = some file ∧
      ∀ (content : ℕ → UInt8) (start : ℕ) (s : Loader), Holds content start (inFlash rbf file) →
        start + file.length ≤ 2 ^ 24 → s.sent = [] → s.elfBase = readFrom (start + dest.length) →
          ∃ s', Reaches (loaderStep (readBytes content)) (.checkIdent, s) (.startProgram, s') ∧
            Started compress phlist s s' := by
  have hread' : strippedFrom bootSections elf = some phlist := hread
  obtain ⟨hident, hmagic, hmachine⟩ := strippedFrom_ehdr hread'
  have hfilesz (phdr : Phdr) (hmem : phdr ∈ phlist.kept) : phdr.pFilesz ≠ 0 :=
    kept_filesz hread' hmem (hboot phdr hmem).pType
  obtain ⟨image, himage, hlaid⟩ :=
    elfWrite_packed hident hfilesz (fun phdr hmem => (hboot phdr hmem).whole) compress
  refine ⟨if rbf.isSome then rbfWrite (dest ++ image) else dest ++ image, ?_, ?_⟩
  · rw [flashBootGen, hdest, elfNew_eq hread, himage]
    rfl
  · intro content start s hflash hsize hs hbase
    have hbytes : inFlash rbf (if rbf.isSome then rbfWrite (dest ++ image) else dest ++ image) =
        dest ++ image := by
      unfold inFlash
      split_ifs
      · exact rbfRead_rbfWrite _
      · rfl
    have hlen : (if rbf.isSome then rbfWrite (dest ++ image) else dest ++ image).length =
        dest.length + image.length := by
      split_ifs
      · rw [rbfWrite, List.length_map, List.length_append]
      · rw [List.length_append]
    rw [hbytes] at hflash
    exact loader_started hident hmagic hmachine htype hfilesz hboot hapart hne hnum
      hflash.append_right hlaid (by omega) hs hbase

/-- `.entry`, `.text`, `.rodata`, `.data`, `.bss` and `.shstrtab`. -/
def sectionNames : List UInt8 :=
  [0, 46, 101, 110, 116, 114, 121, 0, 46, 116, 101, 120, 116, 0, 46, 114, 111, 100, 97, 116, 97, 0,
    46, 100, 97, 116, 97, 0, 46, 98, 115, 115, 0, 46, 115, 104, 115, 116, 114, 116, 97, 98, 0]

/-- Contents that can be compressed. -/
def rodata : List UInt8 := (List.replicate 8 [0x61, 0x62, 0x63, 0x64]).flatten

/-- A file with three segments: the boot loader in front of the code, contents with a gap behind
them, and data with zeros behind them. -/
def threeSegments : List UInt8 :=
  leBytes 4 0x464c457f ++ [1, 1, 1, 0, 0, 0, 0, 0, 0, 0, 0, 0] ++ leBytes 2 2 ++ leBytes 2 113 ++
    [1, 0x2008, 52, 244, 0].flatMap (leBytes 4) ++ [52, 32, 3, 40, 7, 6].flatMap (leBytes 2) ++
    [1, 148, 0x2000, 0x2000, 12, 12, 5, 4, 1, 160, 0x3000, 0x3000, 32, 40, 4, 4,
      1, 192, 0x4000, 0x4000, 6, 16, 6, 4].flatMap (leBytes 4) ++
    List.replicate 8 0x90 ++ fileText ++ rodata ++ [1, 2, 3, 4, 5, 6] ++ [0, 0] ++
    sectionNames ++ [0] ++ List.replicate 40 0 ++
    [1, 1, 6, 0x2000, 148, 8, 0, 0, 4, 0, 8, 1, 6, 0x2008, 156, 4, 0, 0, 4, 0,
      14, 1, 2, 0x3000, 160, 32, 0, 0, 4, 0, 22, 1, 3, 0x4000, 192, 6, 0, 0, 4, 0,
      28, 8, 3, 0x4008, 198, 8, 0, 0, 4, 0, 33, 3, 0, 0, 200, 43, 0, 0, 1, 0].flatMap (leBytes 4)

/-- What is read of it: the first segment begins with the code. -/
def threeSegmentsRead : Phlist where
  ehdr := ⟨[0x464c457f, 0x10101, 0, 0], 2, 113, 1, 0x2008, 52, 244, 0, 52, 32, 3, 40, 7, 6⟩
  phdrs := [
    ⟨1, 148, 0x2008, 0x2008, 4, 4, 5, 4, fileText, [⟨[46, 116, 101, 120, 116], 0x2008, 4⟩], false⟩,
    ⟨1, 160, 0x3000, 0x3000, 32, 40, 4, 4, rodata,
      [⟨[46, 114, 111, 100, 97, 116, 97], 0x3000, 32⟩], false⟩,
    ⟨1, 192, 0x4000, 0x4000, 6, 16, 6, 4, [1, 2, 3, 4, 5, 6],
      [⟨[46, 100, 97, 116, 97], 0x4000, 6⟩, ⟨[46, 98, 115, 115], 0x4008, 8⟩], false⟩]

/-- An RBF in front of the ELF, which is placed at 16. -/
def shortRbf : RbfOption := ⟨[0xff, 0x6a, 0xde], some 16⟩

/-- `flashBoot_loads` of the file: the second segment is compressed. -/
theorem threeSegments_load : strippedElf threeSegments = some threeSegmentsRead ∧
    threeSegmentsRead.kept.map (fun phdr => decide (Compressed true phdr)) = [false, true, false] ∧
    ∃ file, flashBootGen (some shortRbf) threeSegments true = some file ∧
      ∀ (content : ℕ → UInt8) (start : ℕ) (s : Loader),
        Holds content start (inFlash (some shortRbf) file) → start + file.length ≤ 2 ^ 24 →
          s.sent = [] → s.elfBase = readFrom (start + 16) →
            ∃ s', Reaches (loaderStep (readBytes content)) (.checkIdent, s) (.startProgram, s') ∧
              Started true threeSegmentsRead s s' := by
  have hread : strippedElf threeSegments = some threeSegmentsRead := by decide +kernel
  have hdest : destOf (some shortRbf) = some ([0xff, 0x56, 0x7b] ++ List.replicate 13 0xff) := by
    decide +kernel
  have hboot : ∀ phdr ∈ threeSegmentsRead.kept, Bootable phdr := by
    intro phdr hmem
    simp only [Phlist.kept, threeSegmentsRead, List.filter_cons, List.filter_nil,
      Bool.false_eq_true, not_false_eq_true, decide_true, if_true, List.mem_cons, List.not_mem_nil,
      or_false] at hmem
    obtain rfl | rfl | rfl := hmem
    · exact ⟨rfl, rfl, by decide, by decide, by decide⟩
    · exact ⟨rfl, rfl, by decide, by decide, by decide⟩
    · exact ⟨rfl, rfl, by decide, by decide, by decide⟩
  have hapart : threeSegmentsRead.kept.Pairwise Disjoint := by
    unfold Disjoint
    decide
  exact ⟨hread, by decide +kernel, flashBoot_loads true hdest hread rfl hboot hapart
    (List.cons_ne_nil _ _) (by decide)⟩

end Image

end OlivePiccolo.Boot
