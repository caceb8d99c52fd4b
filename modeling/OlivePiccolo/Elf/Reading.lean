import OlivePiccolo.Elf.Format
import OlivePiccolo.Elf.Tool

/-!
# What the ELF tool reads

On a file that follows the format, the scans of `ELF_read` reach all their variables, and it reads
each program header (`readSegment`), and each section header that it can (`readSection`): there are
fewer than 2^15 of them, the section is allocated, and its name ends in front of the place at which
the string table is cut off (`elfRead_valid`). With more sections it reads none (`elfRead_unread`).
-/

namespace OlivePiccolo.Elf

open Tcl

attribute [local irreducible] toInt32 toInt16

variable {bin : List UInt8} {i j n : ℕ}

theorem slice_length {off : ℕ} (h : off + n ≤ bin.length) : (slice bin off n).length = n := by
  rw [slice, List.length_take, List.length_drop]
  omega

theorem slice_slice {off k m : ℕ} (h : k + m ≤ n) :
    slice (slice bin off n) k m = slice bin (off + k) m := by
  unfold slice
  rw [List.drop_take, List.drop_drop, List.take_take, Nat.min_eq_left (by omega)]

theorem u16_lt (bin : List UInt8) (off : ℕ) : u16 bin off < 2 ^ 16 := by
  have hlt := leNat_lt (slice bin off 2)
  have hle : (slice bin off 2).length ≤ 2 := List.length_take_le _ _
  exact hlt.trans_le (Nat.pow_le_pow_right (by decide) hle)

theorem u32_lt (bin : List UInt8) (off : ℕ) : u32 bin off < 2 ^ 32 := by
  have hlt := leNat_lt (slice bin off 4)
  have hle : (slice bin off 4).length ≤ 4 := List.length_take_le _ _
  exact hlt.trans_le (Nat.pow_le_pow_right (by decide) hle)

/-- A number of a scan that begins at `off`. -/
theorem scanInts_slice {off m k : ℕ} (hk : k < n) (hm : 4 * k + 4 ≤ m) (h : off + m ≤ bin.length) :
    (scanInts n (slice bin off m))[k]? = some (toInt32 (u32 bin (off + 4 * k))) := by
  rw [scanInts_getElem? hk (by rw [slice_length h]; exact hm)]
  show some (toInt32 (leNat (slice (slice bin off m) (4 * k) 4))) = _
  rw [slice_slice hm]
  rfl

/-! ## The header -/

/-- The header of a file, as `ELF_read` has it. -/
def readEhdr (bin : List UInt8) : Ehdr where
  eIdent := scanInts 4 (slice bin 0 52)
  eType := toInt16 (u16 bin 16)
  eMachine := toInt16 (u16 bin 18)
  eVersion := toInt32 (u32 bin 20)
  eEntry := toInt32 (u32 bin 24)
  ePhoff := toInt32 (u32 bin 28)
  eShoff := toInt32 (u32 bin 32)
  eFlags := toInt32 (u32 bin 36)
  eEhsize := toInt16 (u16 bin 40)
  ePhentsize := toInt16 (u16 bin 42)
  ePhnum := toInt16 (u16 bin 44)
  eShentsize := toInt16 (u16 bin 46)
  eShnum := toInt16 (u16 bin 48)
  eShstrndx := toInt16 (u16 bin 50)

theorem scanEhdr_eq (h : 52 ≤ bin.length) : scanEhdr bin = some (readEhdr bin) := by
  have hhead : stringRange bin 0 (0x34 - 1) = slice bin 0 52 :=
    stringRange_eq bin (a := 0) (n := 52) rfl _ rfl
  have h16 {k : ℕ} (hk : k + 2 ≤ 52) : int16 ((slice bin 0 52).drop k) = toInt16 (u16 bin k) := by
    show toInt16 (leNat (slice (slice bin 0 52) k 2)) = _
    rw [slice_slice hk, Nat.zero_add]
    rfl
  have h32 {k : ℕ} (hk : k + 4 ≤ 52) : int32 ((slice bin 0 52).drop k) = toInt32 (u32 bin k) := by
    show toInt32 (leNat (slice (slice bin 0 52) k 4)) = _
    rw [slice_slice hk, Nat.zero_add]
    rfl
  rw [scanEhdr, hhead]
  simp only [slice_length (show 0 + 52 ≤ bin.length from h), if_true]
  rw [h16 (by omega), h16 (by omega), h32 (by omega), h32 (by omega), h32 (by omega),
    h32 (by omega), h32 (by omega), h16 (by omega), h16 (by omega), h16 (by omega),
    h16 (by omega), h16 (by omega), h16 (by omega)]
  rfl

/-! ## The program headers -/

/-- A loop whose rounds add to a list, whatever the variables are. -/
theorem foldlM_range {σ α : Type*} {f : σ × List α → ℕ → Option (σ × List α)} {g : ℕ → List α}
    (h : ∀ i < n, ∀ s, ∃ v, f s i = some (v, s.2 ++ g i)) (v : σ) :
    ∃ v', (List.range n).foldlM f (v, []) = some (v', (List.range n).flatMap g) := by
  induction n with
  | zero => exact ⟨v, rfl⟩
  | succ n ih =>
    obtain ⟨v', hfront⟩ := ih fun i hi => h i (Nat.lt_succ_of_lt hi)
    obtain ⟨v'', hlast⟩ := h n n.lt_succ_self (v', (List.range n).flatMap g)
    refine ⟨v'', ?_⟩
    rw [List.range_succ, List.foldlM_append, hfront, List.flatMap_append]
    show List.foldlM f _ [n] = _
    rw [List.foldlM_cons, hlast]
    show some _ = some _
    rw [List.flatMap_singleton]

/-- A segment, as `ELF_read` has it with these sections. -/
def readSegment (bin : List UInt8) (shlist : List Shdr) (i : ℕ) : Phdr :=
  let p := segmentAt bin i
  { pType := toInt32 p.type
    pOffset := toInt32 p.offset
    pVaddr := toInt32 p.vaddr
    pPaddr := toInt32 p.paddr
    pFilesz := toInt32 p.filesz
    pMemsz := toInt32 p.memsz
    pFlags := toInt32 p.flags
    pAlign := toInt32 p.align
    content :=
      stringRange bin (toInt32 p.offset) (toInt32 p.offset + toInt32 p.filesz - 1)
    sections := shlist.filter fun shdr =>
      toInt32 p.vaddr ≤ shdr.shAddr ∧ shdr.shAddr < toInt32 p.vaddr + toInt32 p.memsz
    discard := false }

/-- The place of a table entry, as it is computed. -/
theorem table_range {size off entsize count : ℕ} (h : bin.length < 2 ^ 31) (hsize : size < 2 ^ 15)
    (hinside : off + size * count ≤ bin.length) (hent : entsize = size) (i : ℕ) :
    let tmp := toInt32 off + toInt16 entsize * i
    stringRange bin tmp (tmp + toInt16 entsize - 1) = slice bin (off + size * i) size := by
  subst hent
  have hoff : toInt32 off = off := toInt32_of_lt (by omega)
  have hentsize : toInt16 entsize = entsize := toInt16_of_lt hsize
  refine stringRange_eq bin ?_ _ ?_
  · rw [hoff, hentsize]
    push_cast
    ring
  · rw [hoff, hentsize]

theorem entry_inside {size off count : ℕ} (hinside : off + size * count ≤ bin.length)
    (hi : i < count) : off + size * i + size ≤ bin.length := by
  have hle : size * (i + 1) ≤ size * count := Nat.mul_le_mul_left _ hi
  rw [Nat.mul_succ] at hle
  omega

/-- The scan of a program header. -/
theorem scanPhdr_eq {o : ℕ} (h : o + 32 ≤ bin.length) (v : Vars) :
    v.scanPhdr (slice bin o 32) =
      { v with
        typ := some (toInt32 (u32 bin o))
        off := some (toInt32 (u32 bin (o + 4)))
        vad := some (toInt32 (u32 bin (o + 8)))
        pad := some (toInt32 (u32 bin (o + 12)))
        fsz := some (toInt32 (u32 bin (o + 16)))
        msz := some (toInt32 (u32 bin (o + 20)))
        flg := some (toInt32 (u32 bin (o + 24)))
        aln := some (toInt32 (u32 bin (o + 28))) } := by
  have hscan {k : ℕ} (hk : k < 8) := scanInts_slice (n := 8) hk (by omega) h
  simp only [Vars.scanPhdr]
  rw [hscan (k := 0) (by omega), hscan (k := 1) (by omega), hscan (k := 2) (by omega),
    hscan (k := 3) (by omega), hscan (k := 4) (by omega), hscan (k := 5) (by omega),
    hscan (k := 6) (by omega), hscan (k := 7) (by omega)]
  rfl

theorem readPhdr_eq (h : Valid bin) (hi : i < phnum bin) (shlist : List Shdr)
    (s : Vars × List Phdr) :
    ∃ v, readPhdr bin (readEhdr bin) shlist s i = some (v, s.2 ++ [readSegment bin shlist i]) := by
  have hrange := @table_range bin 32 (u32 bin 28) (u16 bin 42) (phnum bin) h.length_lt (by decide)
    h.phdrs (h.phentsize (Nat.ne_zero_of_lt hi)) i
  have hscan := scanPhdr_eq (entry_inside h.phdrs hi) s.1
  unfold phoff at hscan
  unfold readPhdr readEhdr
  dsimp only at hrange ⊢
  rw [hrange, hscan]
  exact ⟨_, rfl⟩

/-- The loop over the program headers. -/
theorem readPhdrs_eq (h : Valid bin) (hn : n ≤ phnum bin) (shlist : List Shdr) (v : Vars) :
    ∃ v', (List.range n).foldlM (readPhdr bin (readEhdr bin) shlist) (v, []) =
      some (v', (List.range n).map (readSegment bin shlist)) := by
  obtain ⟨v', hloop⟩ := foldlM_range
    (fun i hi s => readPhdr_eq h (Nat.lt_of_lt_of_le hi hn) shlist s) v
  refine ⟨v', ?_⟩
  rw [hloop, List.map_eq_flatMap]

/-! ## The section headers -/

/-- A section, as `ELF_read` has it. -/
def readSection (bin : List UInt8) (j : ℕ) : Shdr :=
  ⟨nameOf bin j, toInt32 (sectionAt bin j).addr, toInt32 (sectionAt bin j).size⟩

/-- Where the string table is cut off: its size behind the place of its header. -/
def cutOff (bin : List UInt8) : ℕ := shoff bin + 40 * shstrndx bin + (strtab bin).size

/-- `ELF_read` has the section: it is allocated, and its name ends in front of the cut. -/
def Readable (bin : List UInt8) (j : ℕ) : Prop :=
  (sectionAt bin j).flags.testBit 1 = true ∧ nameOff bin j + (nameOf bin j).length < cutOff bin

instance (bin : List UInt8) (j : ℕ) : Decidable (Readable bin j) :=
  inferInstanceAs (Decidable (_ ∧ _))

/-- The scan of a section header. -/
theorem scanShdr_eq {o : ℕ} (h : o + 40 ≤ bin.length) (v : Vars) :
    v.scanShdr (slice bin o 40) =
      { v with
        nam := some (toInt32 (u32 bin o))
        typ := some (toInt32 (u32 bin (o + 4)))
        flg := some (toInt32 (u32 bin (o + 8)))
        adr := some (toInt32 (u32 bin (o + 12)))
        ofs := some (toInt32 (u32 bin (o + 16)))
        siz := some (toInt32 (u32 bin (o + 20)))
        aln := some (toInt32 (u32 bin (o + 32))) } := by
  have hscan {k : ℕ} (hk : k < 10) := scanInts_slice (n := 10) hk (by omega) h
  simp only [Vars.scanShdr]
  rw [hscan (k := 0) (by omega), hscan (k := 1) (by omega), hscan (k := 2) (by omega),
    hscan (k := 3) (by omega), hscan (k := 4) (by omega), hscan (k := 5) (by omega),
    hscan (k := 8) (by omega)]
  rfl

theorem isAlloc_toInt32 (v : ℕ) : isAlloc (toInt32 v) = v.testBit 1 := by
  have hpattern : BitVec.ofInt 32 (toInt32 v) = BitVec.ofNat 32 v := by
    have hint : toInt32 v = (BitVec.ofNat 32 v).toInt := by
      unfold toInt32
      rw [BitVec.toInt_eq_toNat_bmod, BitVec.toNat_ofNat, Int.natCast_emod, Int.emod_bmod]
    rw [hint, BitVec.ofInt_toInt]
  have htwo : (2 : BitVec 32) = BitVec.twoPow 32 1 := rfl
  rw [isAlloc, hpattern, htwo, BitVec.and_twoPow, BitVec.getLsbD_ofNat]
  cases v.testBit 1 <;> rfl

/-- Where the first zero of a part of a list is. -/
theorem findIdx?_take {l : List UInt8} {m : ℕ} (h : (l.takeWhile (· ≠ 0)).length < l.length) :
    (l.take m).findIdx? (· == 0) =
      if (l.takeWhile (· ≠ 0)).length < m then some (l.takeWhile (· ≠ 0)).length else none := by
  induction l generalizing m with
  | nil => cases h
  | cons a l ih =>
    cases m with
    | zero => rfl
    | succ m =>
      by_cases ha : a = 0
      · subst ha
        rfl
      · rw [List.takeWhile_cons_of_pos (by simpa using ha), List.length_cons, List.length_cons] at h
        rw [List.takeWhile_cons_of_pos (by simpa using ha), List.take_succ_cons, List.findIdx?_cons,
          if_neg (by simpa using ha), ih (by omega), List.length_cons]
        by_cases hlt : (l.takeWhile (· ≠ 0)).length < m
        · rw [if_pos hlt, if_pos (by omega)]
          rfl
        · rw [if_neg hlt, if_neg (by omega)]
          rfl

/-- The string table, as `ELF_read` has it. -/
def readTable (bin : List UInt8) : List UInt8 := (bin.take (cutOff bin)).drop (strtab bin).offset

theorem Valid.name_inside (h : Valid bin) (hj : j < shnum bin) :
    nameOff bin j + (nameOf bin j).length < bin.length := by
  have := h.names j hj
  have := h.strtab_inside
  omega

theorem Valid.name_eq (h : Valid bin) (hj : j < shnum bin) :
    toInt32 (sectionAt bin j).name = (sectionAt bin j).name := by
  have hinside := h.name_inside hj
  have := h.length_lt
  unfold nameOff at hinside
  exact toInt32_of_lt (by omega)

theorem drop_readTable (bin : List UInt8) (j : ℕ) :
    (readTable bin).drop (sectionAt bin j).name =
      (bin.drop (nameOff bin j)).take (cutOff bin - nameOff bin j) := by
  unfold readTable nameOff
  rw [List.drop_drop, List.drop_take]

/-- The name of a section is found, if it ends in front of the cut. -/
theorem stringFirst_readTable (h : Valid bin) (hj : j < shnum bin) :
    stringFirst 0 (readTable bin) (toInt32 (sectionAt bin j).name) =
      if nameOff bin j + (nameOf bin j).length < cutOff bin then
        ((sectionAt bin j).name + (nameOf bin j).length : ℤ)
      else -1 := by
  have hinside := h.name_inside hj
  have hfind : ((bin.drop (nameOff bin j)).take (cutOff bin - nameOff bin j)).findIdx? (· == 0) =
      if (nameOf bin j).length < cutOff bin - nameOff bin j then some (nameOf bin j).length
      else none :=
    findIdx?_take (by rw [List.length_drop]; exact Nat.lt_sub_iff_add_lt'.mpr hinside)
  rw [stringFirst, h.name_eq hj, Int.toNat_natCast, drop_readTable, hfind]
  by_cases hcut : nameOff bin j + (nameOf bin j).length < cutOff bin
  · rw [if_pos hcut, if_pos (by omega)]
  · rw [if_neg hcut, if_neg (by omega)]

/-- What is cut out is the name. -/
theorem stringRange_readTable (h : Valid bin) (hj : j < shnum bin)
    (hcut : nameOff bin j + (nameOf bin j).length < cutOff bin) :
    stringRange (readTable bin) (toInt32 (sectionAt bin j).name)
      ((sectionAt bin j).name + (nameOf bin j).length - 1) = nameOf bin j := by
  have hname : nameOf bin j = (bin.drop (nameOff bin j)).take (nameOf bin j).length :=
    List.prefix_iff_eq_take.mp (List.takeWhile_prefix _)
  rw [stringRange_eq (readTable bin) (h.name_eq hj) _ (by rw [h.name_eq hj]), drop_readTable,
    List.take_take, Nat.min_eq_left (by omega)]
  exact hname.symm

/-- What the scan of a section header says about the section. -/
theorem scanSection_eq (h : Valid bin) (hj : j < shnum bin) (v : Vars) :
    ∃ aln, v.scanShdr (slice bin (shoff bin + 40 * j) 40) =
      { v with
        nam := some (toInt32 (sectionAt bin j).name)
        typ := some (toInt32 (sectionAt bin j).type)
        flg := some (toInt32 (sectionAt bin j).flags)
        adr := some (toInt32 (sectionAt bin j).addr)
        ofs := some (toInt32 (sectionAt bin j).offset)
        siz := some (toInt32 (sectionAt bin j).size)
        aln := aln } :=
  ⟨_, scanShdr_eq (entry_inside h.shdrs hj) v⟩

/-- The range that is scanned for a section header. -/
theorem section_range (h : Valid bin) (j : ℕ) :
    stringRange bin ((readEhdr bin).eShoff + (readEhdr bin).eShentsize * j)
      ((readEhdr bin).eShoff + (readEhdr bin).eShentsize * j + (readEhdr bin).eShentsize - 1) =
        slice bin (shoff bin + 40 * j) 40 := by
  have hrange := @table_range bin 40 (u32 bin 32) (u16 bin 46) (shnum bin) h.length_lt (by decide)
    h.shdrs h.shentsize j
  unfold readEhdr shoff
  dsimp only at hrange ⊢
  rw [hrange]

theorem readShdr_eq (h : Valid bin) (hj : j < shnum bin) (s : Vars × List Shdr) :
    ∃ v, readShdr bin (readEhdr bin) (readTable bin) s j =
      some (v, s.2 ++ if Readable bin j then [readSection bin j] else []) := by
  obtain ⟨aln, hscan⟩ := scanSection_eq h hj s.1
  unfold readShdr
  dsimp only
  rw [section_range h, hscan]
  rw [Option.bind_eq_bind, Option.bind_some, isAlloc_toInt32]
  by_cases hflag : (sectionAt bin j).flags.testBit 1 = true
  · rw [if_pos hflag, Option.bind_some, stringFirst_readTable h hj]
    by_cases hcut : nameOff bin j + (nameOf bin j).length < cutOff bin
    · rw [if_pos hcut, if_neg (by omega), stringRange_readTable h hj hcut,
        if_pos (show Readable bin j from ⟨hflag, hcut⟩)]
      exact ⟨_, rfl⟩
    · rw [if_neg hcut, if_pos (by decide), if_neg fun hread => hcut hread.2, List.append_nil]
      exact ⟨_, rfl⟩
  · rw [if_neg hflag, if_neg fun hread => hflag hread.1, List.append_nil]
    exact ⟨_, rfl⟩

/-- The sections of a file, as `ELF_read` has them. -/
def readSections (bin : List UInt8) : List Shdr :=
  ((List.range (shnum bin)).filter (Readable bin ·)).map (readSection bin)

theorem mem_readSections {shdr : Shdr} :
    shdr ∈ readSections bin ↔ ∃ j < shnum bin, Readable bin j ∧ readSection bin j = shdr := by
  unfold readSections
  rw [List.mem_map]
  refine exists_congr fun j => ?_
  rw [List.mem_filter, List.mem_range, decide_eq_true_iff, and_assoc]

/-- The loop over the section headers. -/
theorem readShdrs_eq (h : Valid bin) (v : Vars) :
    ∃ v', (List.range (shnum bin)).foldlM (readShdr bin (readEhdr bin) (readTable bin)) (v, []) =
      some (v', readSections bin) := by
  obtain ⟨v', hloop⟩ := foldlM_range (fun j hj s => readShdr_eq h hj s) v
  refine ⟨v', ?_⟩
  rw [hloop, readSections]
  generalize List.range (shnum bin) = l
  congr 2
  induction l with
  | nil => rfl
  | cons j l ih =>
    rw [List.flatMap_cons, ih, List.filter_cons]
    by_cases hread : Readable bin j
    · rw [if_pos hread, if_pos (decide_eq_true hread)]
      rfl
    · rw [if_neg hread, if_neg (by simpa using hread)]
      rfl

/-! ## ELF_read -/

theorem Valid.marks (h : Valid bin) :
    ¬ ((readEhdr bin).eIdent.head? ≠ some elfmag ∨ (readEhdr bin).eMachine ≠ emAlteraNios2) := by
  have hmagic : (readEhdr bin).eIdent.head? = some elfmag := by
    have hheader : 0 + 52 ≤ bin.length := (Nat.zero_add 52).symm ▸ h.header
    have hscan := scanInts_slice (n := 4) (k := 0) (by omega) (by omega) hheader
    rw [Nat.mul_zero, Nat.add_zero, h.magic, toInt32_of_lt (by decide)] at hscan
    rw [List.head?_eq_getElem?]
    exact hscan
  have hmachine : (readEhdr bin).eMachine = emAlteraNios2 := by
    have heq : (readEhdr bin).eMachine = toInt16 (u16 bin 18) := rfl
    rw [heq, h.machine, toInt16_of_lt (by decide)]
    rfl
  rw [hmagic, hmachine]
  simp

/-- The string table that is read, if the number of its header is not negative. -/
theorem readShstrtab_eq (h : Valid bin) (hn : shnum bin < 2 ^ 15) (v : Vars) :
    readShstrtab bin (v.scanShdr (slice bin (shoff bin + 40 * shstrndx bin) 40))
      ((readEhdr bin).eShoff + (readEhdr bin).eShentsize * shstrndx bin) =
        some (readTable bin) := by
  obtain ⟨aln, hscan⟩ := scanSection_eq h h.strndx v
  have hinside := h.strtab_inside
  have hlength := h.length_lt
  have hplace : (readEhdr bin).eShoff + (readEhdr bin).eShentsize * shstrndx bin =
      (shoff bin + 40 * shstrndx bin : ℕ) := by
    have hshoff : (readEhdr bin).eShoff = toInt32 (shoff bin) := rfl
    have hentsize : (readEhdr bin).eShentsize = toInt16 (u16 bin 46) := rfl
    have hle := h.shdrs
    rw [hshoff, hentsize, h.shentsize, toInt32_of_lt (by omega), toInt16_of_lt (by decide)]
    push_cast
    rfl
  have htype : toInt32 (strtab bin).type = shtStrtab := by
    rw [h.strtab_type, toInt32_of_lt (by decide)]
    rfl
  have htable : stringRange bin (strtab bin).offset
      ((shoff bin + 40 * shstrndx bin : ℕ) + (strtab bin).size - 1) = readTable bin := by
    unfold stringRange readTable cutOff
    rw [Int.toNat_natCast]
    congr 2
    omega
  rw [hscan, hplace]
  unfold readShstrtab
  have hstrtab : sectionAt bin (shstrndx bin) = strtab bin := rfl
  rw [Option.bind_eq_bind, Option.bind_some, hstrtab, if_pos htype, Option.bind_some,
    Option.bind_some, toInt32_of_lt (by omega), toInt32_of_lt (by omega), htable]
  rfl

theorem Valid.eShstrndx_eq (h : Valid bin) (hn : shnum bin < 2 ^ 15) :
    toInt16 (u16 bin 50) = shstrndx bin := by
  have hlt := h.strndx.trans hn
  have hsmall : u16 bin 50 ≠ 0xffff := fun heq => by
    have := h.shstrndx_large heq
    omega
  unfold shstrndx at hlt ⊢
  rw [if_neg hsmall] at hlt ⊢
  exact toInt16_of_lt hlt

theorem Valid.eShnum_eq (h : Valid bin) (hn : shnum bin < 2 ^ 15) :
    toInt16 (u16 bin 48) = shnum bin := by
  have hsmall : u16 bin 48 ≠ 0 := fun heq => by
    have := h.shnum_large heq
    omega
  unfold shnum at hn ⊢
  rw [if_neg hsmall] at hn ⊢
  exact toInt16_of_lt hn

/-- The number of the sections is not positive, if there are too many of them. -/
theorem eShnum_unread (hn : 2 ^ 15 ≤ shnum bin) :
    (toInt16 (u16 bin 48)).toNat = 0 := by
  by_cases hzero : u16 bin 48 = 0
  · rw [hzero, toInt16_of_lt (by decide)]
    rfl
  · unfold shnum at hn
    rw [if_neg hzero] at hn
    have := toInt16_of_ge hn (u16_lt bin 48)
    omega

/-- The segments that are read: all of them, or none. -/
theorem Valid.ePhnum_eq (h : Valid bin) :
    (toInt16 (u16 bin 44)).toNat = if phnum bin < 2 ^ 15 then phnum bin else 0 := by
  by_cases hlt : u16 bin 44 < 2 ^ 15
  · have hphnum : phnum bin = u16 bin 44 := if_neg (by omega)
    rw [toInt16_of_lt hlt, hphnum, if_pos hlt, Int.toNat_natCast]
  · have hneg := toInt16_of_ge (Nat.not_lt.mp hlt) (u16_lt bin 44)
    have hlarge : ¬ phnum bin < 2 ^ 15 := by
      by_cases hxnum : u16 bin 44 = 0xffff
      · have := h.phnum_large hxnum
        omega
      · have hphnum : phnum bin = u16 bin 44 := if_neg hxnum
        omega
    rw [if_neg hlarge]
    omega

theorem Valid.ePhnum_le (h : Valid bin) : (toInt16 (u16 bin 44)).toNat ≤ phnum bin := by
  rw [h.ePhnum_eq]
  split
  · exact Nat.le_refl _
  · exact Nat.zero_le _

/-- **What is read of a file** with fewer than 2^15 sections. -/
theorem elfRead_valid (h : Valid bin) (hn : shnum bin < 2 ^ 15) :
    elfRead bin = some ⟨readEhdr bin,
      (List.range (toInt16 (u16 bin 44)).toNat).map (readSegment bin (readSections bin))⟩ := by
  have hstrndx : (readEhdr bin).eShstrndx = shstrndx bin := h.eShstrndx_eq hn
  have hshnum : (readEhdr bin).eShnum.toNat = shnum bin := by
    rw [show (readEhdr bin).eShnum = toInt16 (u16 bin 48) from rfl, h.eShnum_eq hn,
      Int.toNat_natCast]
  unfold elfRead
  rw [scanEhdr_eq h.header, Option.bind_eq_bind, Option.bind_some, if_neg h.marks, hstrndx]
  dsimp only
  rw [section_range h, readShstrtab_eq h hn, Option.bind_eq_bind, Option.bind_some, hshnum]
  obtain ⟨v', hshdrs⟩ := readShdrs_eq h _
  rw [hshdrs, Option.bind_eq_bind, Option.bind_some]
  obtain ⟨v'', hphdrs⟩ := readPhdrs_eq h h.ePhnum_le (readSections bin) v'
  rw [show (readEhdr bin).ePhnum = toInt16 (u16 bin 44) from rfl, hphdrs]
  rfl

/-- With more of them it is as if there were none. -/
theorem elfRead_unread (h : Valid bin) (hn : 2 ^ 15 ≤ shnum bin) {phlist : Phlist}
    (hread : elfRead bin = some phlist) :
    phlist.phdrs = (List.range (toInt16 (u16 bin 44)).toNat).map (readSegment bin []) := by
  have hshnum : (readEhdr bin).eShnum.toNat = 0 := eShnum_unread hn
  unfold elfRead at hread
  rw [scanEhdr_eq h.header, Option.bind_eq_bind, Option.bind_some, if_neg h.marks, hshnum] at hread
  dsimp only at hread
  obtain ⟨shstrtab, -, hread⟩ := Option.bind_eq_some_iff.mp hread
  obtain ⟨⟨v, shlist⟩, hshlist, hread⟩ := Option.bind_eq_some_iff.mp hread
  cases hshlist
  obtain ⟨⟨v', phdrs⟩, hphdrs, hread⟩ := Option.bind_eq_some_iff.mp hread
  obtain ⟨v'', hloop⟩ := readPhdrs_eq h h.ePhnum_le [] _
  rw [show (readEhdr bin).ePhnum = toInt16 (u16 bin 44) from rfl, hloop] at hphdrs
  cases hphdrs
  cases hread
  rfl

end OlivePiccolo.Elf
