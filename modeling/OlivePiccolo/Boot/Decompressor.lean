import Mathlib.Computability.StateTransition
import Mathlib.Data.Nat.Notation
import Mathlib.Logic.Function.Basic

/-!
# The decompressor of the boot loader

`decompress_lz4` of `peridot_spi_flash_boot.S`, block by block. The registers have the names that
the code gives them. The flash is a function from the bytes that have been sent since its selection
to the byte that is received with the last of them.
-/

namespace OlivePiccolo.Boot

/-- An access to memory. -/
inductive MemoryAccess
  | load (addr : BitVec 32)
  | store (addr : BitVec 32) (b : UInt8)
  deriving DecidableEq

/-- The registers, the memory, and the bytes on the wire. -/
structure Machine where
  spimRead : BitVec 32
  pPaddr : BitVec 32
  paddrMend : BitVec 32
  lz4_15 : BitVec 32
  lz4_255 : BitVec 32
  lz4Lit : BitVec 32
  lz4Match : BitVec 32
  lz4Window : BitVec 32
  memory : BitVec 32 → UInt8
  /-- The bytes that have been sent since the flash was selected. -/
  sent : List UInt8
  /-- Not in the source: the number of bytes that have been taken from the flash. -/
  received : ℕ
  /-- Not in the source: the accesses to memory. -/
  accesses : List MemoryAccess

namespace Machine

/-- `stb`. -/
def stb (s : Machine) (addr : BitVec 32) (b : UInt8) : Machine :=
  { s with
    memory := Function.update s.memory addr b
    accesses := s.accesses ++ [MemoryAccess.store addr b] }

/-- `FLASH_TX`: the poll ends when the last transfer is over. -/
def flashTx (s : Machine) (b : UInt8) : Machine := { s with sent := s.sent ++ [b] }

/-- `FLASH_RX`, into `r_spim_read`. -/
def flashRx (flash : List UInt8 → UInt8) (s : Machine) : Machine :=
  { s with
    spimRead := (flash s.sent).toBitVec.setWidth 32
    received := s.received + 1 }

/-- `flash_rxtx_byte`. -/
def flashRxtxByte (flash : List UInt8 → UInt8) (s : Machine) : Machine :=
  (s.flashRx flash).flashTx 0

end Machine

/-- The blocks of the decompressor, and where it is left. -/
inductive Label
  | decompressLz4
  /-- `1:` -/
  | readToken
  /-- `2:` -/
  | moreLiteralLength
  /-- `3:` -/
  | readLiteral
  /-- `4:` -/
  | copyLiteral
  /-- `5:` -/
  | readOffset
  /-- `6:` -/
  | moreMatchLength
  /-- `7:` -/
  | adjustMatch
  /-- `8:` -/
  | copyMatch
  | nextProgramHeader
  deriving DecidableEq

/-- A block, and the jump or the fall through at its end. -/
def step (flash : List UInt8 → UInt8) : Label × Machine → Option (Label × Machine)
  | (.decompressLz4, s) =>
    some (.readToken, { s.flashTx 0 with lz4_255 := 255, lz4_15 := 15 })
  | (.readToken, s) =>
    let s := s.flashRxtxByte flash
    let s := { s with
      lz4Lit := s.spimRead >>> 4
      lz4Match := s.spimRead &&& s.lz4_15 }
    some (if s.lz4Lit ≠ s.lz4_15 then .readLiteral else .moreLiteralLength, s)
  | (.moreLiteralLength, s) =>
    let s := s.flashRxtxByte flash
    let s := { s with lz4Lit := s.lz4Lit + s.spimRead }
    some (if s.spimRead = s.lz4_255 then .moreLiteralLength else .readLiteral, s)
  | (.readLiteral, s) =>
    let s := { s with lz4Lit := s.lz4Lit + s.pPaddr }
    some (if s.pPaddr = s.lz4Lit then .readOffset else .copyLiteral, s)
  | (.copyLiteral, s) =>
    let s := s.flashRxtxByte flash
    let s := s.stb s.pPaddr ⟨s.spimRead.setWidth 8⟩
    let s := { s with pPaddr := s.pPaddr + 1 }
    some (if s.pPaddr < s.lz4Lit then .copyLiteral
      else if s.pPaddr = s.paddrMend then .nextProgramHeader
      else .readOffset, s)
  | (.readOffset, s) =>
    let s := s.flashRxtxByte flash
    let s := { s with lz4Window := s.pPaddr - s.spimRead }
    let s := s.flashRxtxByte flash
    let s := { s with spimRead := s.spimRead <<< 8 }
    let s := { s with lz4Window := s.lz4Window - s.spimRead }
    some (if s.lz4Match ≠ s.lz4_15 then .adjustMatch else .moreMatchLength, s)
  | (.moreMatchLength, s) =>
    let s := s.flashRxtxByte flash
    let s := { s with lz4Match := s.lz4Match + s.spimRead }
    some (if s.spimRead = s.lz4_255 then .moreMatchLength else .adjustMatch, s)
  | (.adjustMatch, s) =>
    let s := { s with lz4Match := s.lz4Match + 4 }
    some (.copyMatch, { s with lz4Match := s.lz4Match + s.lz4Window })
  | (.copyMatch, s) =>
    let b := s.memory s.lz4Window
    let s := { s with accesses := s.accesses ++ [MemoryAccess.load s.lz4Window] }
    let s := s.stb s.pPaddr b
    let s := { s with
      lz4Window := s.lz4Window + 1
      pPaddr := s.pPaddr + 1 }
    some (if s.lz4Window < s.lz4Match then .copyMatch else .readToken, s)
  | (.nextProgramHeader, _) => none

end OlivePiccolo.Boot
