import OlivePiccolo.Library.Tcl

/-!
# The ELF tool

`ELF_read` cuts the headers and the contents of the segments out of a file, `ELF_remove_sections`
takes sections away from the segments that they lie in, and `ELF_strip` discards segments, and trims
the others to the sections that are left. Numbers are read with their sign. A variable that
`binary scan` does not reach keeps its value from an earlier scan; to read one that has none is an
error, as is a file without the marks of a Nios II ELF (`none`).
-/

namespace OlivePiccolo.Elf

open Tcl

/-! ## ELF_read -/

def elfmag : ℤ := 0x464c457f
def emAlteraNios2 : ℤ := 113
def shtStrtab : ℤ := 3

structure Ehdr where
  eIdent : List ℤ
  eType : ℤ
  eMachine : ℤ
  eVersion : ℤ
  eEntry : ℤ
  ePhoff : ℤ
  eShoff : ℤ
  eFlags : ℤ
  eEhsize : ℤ
  ePhentsize : ℤ
  ePhnum : ℤ
  eShentsize : ℤ
  eShnum : ℤ
  eShstrndx : ℤ
  deriving DecidableEq, Repr

/-- A section, as it is kept with a segment. -/
structure Shdr where
  name : List UInt8
  shAddr : ℤ
  shSize : ℤ
  deriving DecidableEq, Repr

structure Phdr where
  pType : ℤ
  pOffset : ℤ
  pVaddr : ℤ
  pPaddr : ℤ
  pFilesz : ℤ
  pMemsz : ℤ
  pFlags : ℤ
  pAlign : ℤ
  content : List UInt8
  sections : List Shdr
  discard : Bool
  deriving DecidableEq, Repr

structure Phlist where
  ehdr : Ehdr
  phdrs : List Phdr
  deriving DecidableEq, Repr

/-- The first scan, `i4ssiiiiissssss`. -/
def scanEhdr (bin : List UInt8) : Option Ehdr :=
  let head := stringRange bin 0 (0x34 - 1)
  if head.length = 0x34 then
    some {
      eIdent := scanInts 4 head
      eType := int16 (head.drop 16)
      eMachine := int16 (head.drop 18)
      eVersion := int32 (head.drop 20)
      eEntry := int32 (head.drop 24)
      ePhoff := int32 (head.drop 28)
      eShoff := int32 (head.drop 32)
      eFlags := int32 (head.drop 36)
      eEhsize := int16 (head.drop 40)
      ePhentsize := int16 (head.drop 42)
      ePhnum := int16 (head.drop 44)
      eShentsize := int16 (head.drop 46)
      eShnum := int16 (head.drop 48)
      eShstrndx := int16 (head.drop 50) }
  else none

/-- The variables of the scans that follow. -/
structure Vars where
  nam : Option ℤ
  typ : Option ℤ
  flg : Option ℤ
  adr : Option ℤ
  ofs : Option ℤ
  siz : Option ℤ
  off : Option ℤ
  vad : Option ℤ
  pad : Option ℤ
  fsz : Option ℤ
  msz : Option ℤ
  aln : Option ℤ

/-- The scan of a section header, `iiiiiiiiii`. -/
def Vars.scanShdr (v : Vars) (s : List UInt8) : Vars :=
  let l := scanInts 10 s
  { v with
    nam := l[0]? <|> v.nam
    typ := l[1]? <|> v.typ
    flg := l[2]? <|> v.flg
    adr := l[3]? <|> v.adr
    ofs := l[4]? <|> v.ofs
    siz := l[5]? <|> v.siz
    aln := l[8]? <|> v.aln }

/-- The scan of a program header, `iiiiiiii`. -/
def Vars.scanPhdr (v : Vars) (s : List UInt8) : Vars :=
  let l := scanInts 8 s
  { v with
    typ := l[0]? <|> v.typ
    off := l[1]? <|> v.off
    vad := l[2]? <|> v.vad
    pad := l[3]? <|> v.pad
    fsz := l[4]? <|> v.fsz
    msz := l[5]? <|> v.msz
    flg := l[6]? <|> v.flg
    aln := l[7]? <|> v.aln }

/-- The names of the sections. The range ends where the header of the string table lies in the file,
`tmp`, and not where the table does, plus its size. -/
def readShstrtab (bin : List UInt8) (v : Vars) (tmp : ℤ) : Option (List UInt8) := do
  let typ ← v.typ
  if typ = shtStrtab then
    let ofs ← v.ofs
    let siz ← v.siz
    return stringRange bin ofs (tmp + siz - 1)
  else return []

/-- `$flg & $SHF_ALLOC` -/
def isAlloc (flg : ℤ) : Bool := BitVec.ofInt 32 flg &&& 2 ≠ 0

/-- A round of the loop over the section headers. -/
def readShdr (bin : List UInt8) (ehdr : Ehdr) (shstrtab : List UInt8) (s : Vars × List Shdr)
    (i : ℕ) : Option (Vars × List Shdr) := do
  let tmp := ehdr.eShoff + ehdr.eShentsize * i
  let v := s.1.scanShdr (stringRange bin tmp (tmp + ehdr.eShentsize - 1))
  let flg ← v.flg
  if isAlloc flg then
    let nam ← v.nam
    let npos := stringFirst 0 shstrtab nam
    if npos < 0 then return (v, s.2)
    else
      let adr ← v.adr
      let siz ← v.siz
      return (v, s.2 ++ [⟨stringRange shstrtab nam (npos - 1), adr, siz⟩])
  else return (v, s.2)

/-- A round of the loop over the program headers. -/
def readPhdr (bin : List UInt8) (ehdr : Ehdr) (shlist : List Shdr) (s : Vars × List Phdr)
    (i : ℕ) : Option (Vars × List Phdr) := do
  let tmp := ehdr.ePhoff + ehdr.ePhentsize * i
  let v := s.1.scanPhdr (stringRange bin tmp (tmp + ehdr.ePhentsize - 1))
  let typ ← v.typ
  let off ← v.off
  let vad ← v.vad
  let pad ← v.pad
  let fsz ← v.fsz
  let msz ← v.msz
  let flg ← v.flg
  let aln ← v.aln
  let sec := shlist.filter fun shdr => vad ≤ shdr.shAddr ∧ shdr.shAddr < vad + msz
  let content := stringRange bin off (off + fsz - 1)
  return (v, s.2 ++ [⟨typ, off, vad, pad, fsz, msz, flg, aln, content, sec, false⟩])

/-- `ELF_read`. -/
def elfRead (bin : List UInt8) : Option Phlist := do
  let ehdr ← scanEhdr bin
  if ehdr.eIdent.head? ≠ some elfmag ∨ ehdr.eMachine ≠ emAlteraNios2 then none
  else
    let v : Vars := ⟨none, some ehdr.eType, some ehdr.eFlags, none, none, none, none, none, none,
      none, none, none⟩
    let tmp := ehdr.eShoff + ehdr.eShentsize * ehdr.eShstrndx
    let v := v.scanShdr (stringRange bin tmp (tmp + ehdr.eShentsize - 1))
    let shstrtab ← readShstrtab bin v tmp
    let (v, shlist) ← (List.range ehdr.eShnum.toNat).foldlM (readShdr bin ehdr shstrtab) (v, [])
    let (_, phdrs) ← (List.range ehdr.ePhnum.toNat).foldlM (readPhdr bin ehdr shlist) (v, [])
    return ⟨ehdr, phdrs⟩

/-! ## ELF_remove_sections -/

/-- A segment without the sections whose name, as a pattern, is found in the list. -/
def Phdr.removeSections (names : List (List UInt8)) (phdr : Phdr) : Phdr :=
  if phdr.discard then phdr
  else { phdr with sections := phdr.sections.filter fun shdr => ¬ 0 ≤ lsearch names shdr.name }

/-- `ELF_remove_sections`. -/
def elfRemoveSections (phlist : Phlist) (names : List (List UInt8)) : Phlist :=
  { phlist with phdrs := phlist.phdrs.map (Phdr.removeSections names) }

/-! ## ELF_strip -/

def ptLoad : ℤ := 1
def ptLocomp : ℤ := 0x63700000
def ptHicomp : ℤ := 0x6370ffff

/-- A round of the loop over the sections: the lowest start and the highest end so far. -/
def extendTo (v : ℤ × ℤ) (shdr : Shdr) : ℤ × ℤ :=
  (if shdr.shAddr < v.1 then shdr.shAddr else v.1,
    if shdr.shAddr + shdr.shSize > v.2 then shdr.shAddr + shdr.shSize else v.2)

/-- `vmin` and `vmax`. -/
def Phdr.extent (phdr : Phdr) : ℤ × ℤ := phdr.sections.foldl extendTo (0x7fffffff, 0)

/-- The segment from `vmin` to `vmax`. -/
def Phdr.trim (phdr : Phdr) (vmin vmax : ℤ) : Phdr :=
  let diff := vmin - phdr.pVaddr
  let size := vmax - vmin
  { phdr with
    pVaddr := phdr.pVaddr + diff
    pPaddr := phdr.pPaddr + diff
    pFilesz := size
    pMemsz := size
    content := stringRange phdr.content diff (diff + size - 1) }

/-- A round of the loop of `ELF_strip`. -/
def Phdr.strip (phdr : Phdr) : Phdr :=
  if phdr.discard then phdr
  else if ptLocomp ≤ phdr.pType ∧ phdr.pType ≤ ptHicomp then
    if phdr.pType % 0x100 ≠ ptLoad then { phdr with discard := true } else phdr
  else if phdr.pType ≠ ptLoad then { phdr with discard := true }
  else if phdr.pFilesz = 0 then { phdr with discard := true }
  else
    let (vmin, vmax) := phdr.extent
    if vmax ≤ vmin then { phdr with discard := true }
    else if phdr.pFilesz ≠ phdr.pMemsz then phdr
    else if phdr.pVaddr < vmin ∨ vmax < phdr.pVaddr + phdr.pMemsz then phdr.trim vmin vmax
    else phdr

/-- `ELF_strip`. -/
def elfStrip (phlist : Phlist) : Phlist := { phlist with phdrs := phlist.phdrs.map Phdr.strip }

end OlivePiccolo.Elf
