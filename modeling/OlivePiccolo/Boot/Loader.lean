import OlivePiccolo.Boot.Decompressor
import OlivePiccolo.Library.LittleEndian

/-!
# The boot loader

`peridot_spi_flash_boot.S` from the test of the ELF header on, block by block, with the decompressor
for LZ4. The place of the image is in `r_elf_base`, where a fixed offset puts it; how the variant
`AFTER_CFG` finds it behind the configuration data, and its second try one byte further, are left
out. Registers that share a number share a field of the decompressor's machine: `r14` is
`r_spim_count` and `r_lz4_15`, `r15` is `r_spim_write` and `r_lz4_255`, and `r16` is `r_p_type` and
`r_lz4_lit`.
-/

namespace OlivePiccolo.Boot

/-- `ELF_HEADER_LE`. -/
def ELF_HEADER_LE : BitVec 32 := 0x464c457f

/-- `ET_EXEC | (EM_NIOS2 << 16)`. -/
def typeAndMachine : BitVec 32 := 0x710002

/-- `PT_LOAD`. -/
def PT_LOAD : BitVec 32 := 1

/-- `PT_LOAD_LZ4`. -/
def PT_LOAD_LZ4 : BitVec 32 := 0x63700101

/-- The registers of the loader, with those of the decompressor. `r_elf_magic` is `r_e_entry`. -/
structure Loader extends Machine where
  elfBase : BitVec 32
  eEntry : BitVec 32
  ePhoff : BitVec 32
  ePhentsize : BitVec 32
  ePhnum : BitVec 32
  paddrFend : BitVec 32

namespace Machine

/-- `r_spim_write`. -/
abbrev spimWrite (s : Machine) : BitVec 32 := s.lz4_255

/-- A round of the loop of `flash_txrx_word`; `r_temp` is the byte that is received. -/
def txrxByte (flash : List UInt8 → UInt8) (s : Machine) : Machine :=
  let s := { s with lz4_255 := s.spimWrite.rotateLeft 8 }
  let s := s.flashTx ⟨s.spimWrite.setWidth 8⟩
  let temp := (s.flashRx flash).spimRead
  { s with
    received := s.received + 1
    spimRead := (s.spimRead ||| temp).rotateLeft 24
    lz4_15 := s.lz4_15 - 1 }

/-- `flash_txrx_word`. -/
def flashTxrxWord (flash : List UInt8 → UInt8) (s : Machine) : Machine :=
  let s := { s with lz4_15 := 4, spimRead := 0 }
  (((s.txrxByte flash).txrxByte flash).txrxByte flash).txrxByte flash

/-- `flash_close`. -/
def flashClose (s : Machine) : Machine := { s with sent := [] }

/-- `stw`, a byte at a time. The effect of a store that is not aligned is not defined. -/
def stw (s : Machine) (addr v : BitVec 32) : Option Machine :=
  if addr.toNat % 4 = 0 then
    some ((((s.stb addr ⟨v.setWidth 8⟩).stb (addr + 1) ⟨(v >>> 8).setWidth 8⟩).stb (addr + 2)
      ⟨(v >>> 16).setWidth 8⟩).stb (addr + 3) ⟨(v >>> 24).setWidth 8⟩)
  else none

end Machine

namespace Loader

/-- `callr r_flash_word`. -/
def word (flash : List UInt8 → UInt8) (s : Loader) : Loader :=
  { s with toMachine := s.flashTxrxWord flash }

/-- `RCALL flash_close`. -/
def close (s : Loader) : Loader := { s with toMachine := s.flashClose }

/-- `mov r_spim_write, v`. -/
def setWrite (s : Loader) (v : BitVec 32) : Loader := { s with lz4_255 := v }

end Loader

/-- The blocks of the loader. -/
inductive LoaderLabel
  /-- `/* Check ELF header (e_ident) */` -/
  | checkIdent
  /-- `/* Check e_type and e_machine */` -/
  | checkHeader
  | loadProgramHeader
  /-- `1:` of "Load uncompressed data". -/
  | loadWord
  /-- `1:` of "Fill remainder area". -/
  | fillByte
  | fillRemainderArea
  | decompress (l : Label)
  | nextProgramHeader
  | startProgram
  | halt
  deriving DecidableEq

/-- Where the loader goes on when the decompressor has done a block. -/
def LoaderLabel.after : Label → LoaderLabel
  | .nextProgramHeader => .nextProgramHeader
  | l => .decompress l

/-- `/* Read e_entry, e_phoff, e_phentsize and e_phnum */` -/
def readHeader (flash : List UInt8 → UInt8) (s : Loader) : Loader :=
  let s := (s.word flash).word flash
  let s := { s with eEntry := s.spimRead }
  let s := s.word flash
  let s := { s with ePhoff := s.elfBase + s.spimRead }
  let s := ((s.word flash).word flash).word flash
  let s := { s with ePhentsize := s.spimRead >>> 16 }
  let s := s.word flash
  { s with ePhnum := s.spimRead &&& 0xffff }.close

/-- `/* Read Elf32_phdr fields */`, up to `p_memsz`. -/
def readProgramHeader (flash : List UInt8 → UInt8) (s : Loader) : Loader :=
  let s := ((s.setWrite s.ePhoff).word flash).word flash
  let s := { s with lz4Lit := s.spimRead }
  let s := s.word flash
  let s := s.setWrite (s.elfBase + s.spimRead)
  let s := (s.word flash).word flash
  let s := { s with pPaddr := s.spimRead }
  let s := s.word flash
  let s := { s with paddrFend := s.pPaddr + s.spimRead }
  s.word flash

/-- What is done behind the last field of a program header: the data are to be read, or there are
none. -/
def enterSegment (flash : List UInt8 → UInt8) (s : Loader) : Option (LoaderLabel × Loader) :=
  if s.spimRead = 0 then some (.nextProgramHeader, s)
  else
    let s := { s with paddrMend := s.pPaddr + s.spimRead }
    if s.paddrFend = s.pPaddr then some (.fillRemainderArea, s)
    else
      let s := s.close.word flash
      if s.lz4Lit = PT_LOAD_LZ4 then some (.decompress .decompressLz4, s)
      else if s.lz4Lit ≠ PT_LOAD then some (.nextProgramHeader, s)
      else some (.loadWord, s)

/-- A block, and the jump or the fall through at its end. -/
def loaderStep (flash : List UInt8 → UInt8) :
    LoaderLabel × Loader → Option (LoaderLabel × Loader)
  | (.checkIdent, s) =>
    let s := (((s.setWrite s.elfBase).word flash).word flash).close
    let s := { s with eEntry := ELF_HEADER_LE }
    some (if s.spimRead ≠ s.eEntry then .halt else .checkHeader, s)
  | (.checkHeader, s) =>
    let s := ((s.setWrite (s.elfBase + 16)).word flash).word flash
    if s.spimRead ≠ typeAndMachine then some (.halt, s)
    else some (.loadProgramHeader, readHeader flash s)
  | (.loadProgramHeader, s) => enterSegment flash (readProgramHeader flash s)
  | (.loadWord, s) => do
    let s := s.word flash
    let m ← s.stw s.pPaddr s.spimRead
    let s := { s with toMachine := m }
    let s := { s with pPaddr := s.pPaddr + 4 }
    return (if s.pPaddr < s.paddrFend then .loadWord else .fillRemainderArea, s)
  | (.fillByte, s) =>
    let s := { s with toMachine := s.stb s.pPaddr 0 }
    some (.fillRemainderArea, { s with pPaddr := s.pPaddr + 1 })
  | (.fillRemainderArea, s) =>
    some (if s.pPaddr < s.paddrMend then .fillByte else .nextProgramHeader, s)
  | (.decompress l, s) =>
    (step flash (l, s.toMachine)).map fun (l', m) => (.after l', { s with toMachine := m })
  | (.nextProgramHeader, s) =>
    let s := s.close
    let s := { s with ePhoff := s.ePhoff + s.ePhentsize, ePhnum := s.ePhnum - 1 }
    some (if s.ePhnum ≠ 0 then .loadProgramHeader else .startProgram, s)
  | (.startProgram, _) => none
  | (.halt, _) => none

/-- A flash that answers the command `CMD_READ_BYTES`: four bytes are the command and the first
address, and with every further one a byte is received. -/
def readBytes (content : ℕ → UInt8) : List UInt8 → UInt8
  | 0x03 :: high :: middle :: low :: _ :: data =>
    content ((leNat [low, middle, high] + data.length) % 2 ^ 24)
  | _ => 0xff

end OlivePiccolo.Boot
