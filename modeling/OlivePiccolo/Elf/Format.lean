import OlivePiccolo.Library.LittleEndian

/-!
# The ELF format

What a 32-bit little-endian ELF file says: the tables of its sections and segments, with their
fields as unsigned numbers, and the names of the sections. A number that does not fit into the
header of the file is in the first section header. `Valid` lists what is used of a file that follows
the format.
-/

namespace OlivePiccolo.Elf

/-- The bytes of a file from a place on. -/
def slice (bin : List UInt8) (off n : ℕ) : List UInt8 := (bin.drop off).take n

def u16 (bin : List UInt8) (off : ℕ) : ℕ := leNat (slice bin off 2)

def u32 (bin : List UInt8) (off : ℕ) : ℕ := leNat (slice bin off 4)

/-- An entry of the section header table. -/
structure Section where
  name : ℕ
  type : ℕ
  flags : ℕ
  addr : ℕ
  offset : ℕ
  size : ℕ
  deriving DecidableEq, Repr

/-- An entry of the program header table. -/
structure Segment where
  type : ℕ
  offset : ℕ
  vaddr : ℕ
  paddr : ℕ
  filesz : ℕ
  memsz : ℕ
  flags : ℕ
  align : ℕ
  deriving DecidableEq, Repr

section File

variable (bin : List UInt8)

def phoff : ℕ := u32 bin 28
def shoff : ℕ := u32 bin 32

/-- `PN_XNUM` stands for a larger number. -/
def phnum : ℕ := if u16 bin 44 = 0xffff then u32 bin (shoff bin + 28) else u16 bin 44

def shnum : ℕ := if u16 bin 48 = 0 then u32 bin (shoff bin + 20) else u16 bin 48

/-- `SHN_XINDEX` stands for a larger number. -/
def shstrndx : ℕ := if u16 bin 50 = 0xffff then u32 bin (shoff bin + 24) else u16 bin 50

def sectionAt (j : ℕ) : Section :=
  let o := shoff bin + 40 * j
  ⟨u32 bin o, u32 bin (o + 4), u32 bin (o + 8), u32 bin (o + 12), u32 bin (o + 16),
    u32 bin (o + 20)⟩

def segmentAt (i : ℕ) : Segment :=
  let o := phoff bin + 32 * i
  ⟨u32 bin o, u32 bin (o + 4), u32 bin (o + 8), u32 bin (o + 12), u32 bin (o + 16),
    u32 bin (o + 20), u32 bin (o + 24), u32 bin (o + 28)⟩

/-- The section with the names of the sections. -/
def strtab : Section := sectionAt bin (shstrndx bin)

/-- Where the name of a section begins in the file. -/
def nameOff (j : ℕ) : ℕ := (strtab bin).offset + (sectionAt bin j).name

/-- The name of a section. -/
def nameOf (j : ℕ) : List UInt8 := (bin.drop (nameOff bin j)).takeWhile (· ≠ 0)

/-- What is used of a file that follows the format. It is one string of Tcl, and these have fewer
than 2^31 bytes. -/
structure Valid : Prop where
  length_lt : bin.length < 2 ^ 31
  header : 52 ≤ bin.length
  magic : u32 bin 0 = 0x464c457f
  machine : u16 bin 18 = 113
  phentsize : phnum bin ≠ 0 → u16 bin 42 = 32
  shentsize : u16 bin 46 = 40
  phdrs : phoff bin + 32 * phnum bin ≤ bin.length
  shdrs : shoff bin + 40 * shnum bin ≤ bin.length
  /-- The first section header has no number that fits into the header of the file. -/
  phnum_large : u16 bin 44 = 0xffff → 0xffff ≤ phnum bin
  shnum_large : u16 bin 48 = 0 → 0xff00 ≤ shnum bin
  shstrndx_large : u16 bin 50 = 0xffff → 0xff00 ≤ shstrndx bin
  strndx : shstrndx bin < shnum bin
  /-- `SHT_STRTAB` -/
  strtab_type : (strtab bin).type = 3
  strtab_inside : (strtab bin).offset + (strtab bin).size ≤ bin.length
  /-- A name ends in the string table. -/
  names : ∀ j < shnum bin,
    nameOff bin j + (nameOf bin j).length < (strtab bin).offset + (strtab bin).size
  /-- The contents of a segment that is loaded are in the file. -/
  segments : ∀ i < phnum bin, (segmentAt bin i).type = 1 →
    (segmentAt bin i).offset + (segmentAt bin i).filesz ≤ bin.length

end File

/-- `SHF_ALLOC`, with contents in the file: not `SHT_NOBITS`. -/
def Section.Loaded (s : Section) : Prop := s.flags.testBit 1 = true ∧ s.size ≠ 0 ∧ s.type ≠ 8

/-- The section lies in the segment, in memory and in the file, and the segment is a `PT_LOAD` one
without zeros behind its contents. -/
def Section.LiesIn (s : Section) (p : Segment) : Prop :=
  p.type = 1 ∧ p.filesz = p.memsz ∧ p.vaddr ≤ s.addr ∧ s.addr + s.size ≤ p.vaddr + p.memsz ∧
    s.offset + p.vaddr = p.offset + s.addr

instance (s : Section) : Decidable s.Loaded := inferInstanceAs (Decidable (_ ∧ _))

instance (s : Section) (p : Segment) : Decidable (s.LiesIn p) :=
  inferInstanceAs (Decidable (_ ∧ _))

end OlivePiccolo.Elf
