import Mathlib.Data.List.Basic

/-!
# The Avalon-ST byte stream

The special bytes of the host stream, and what a stream says: the payload of one packet (`Packet`)
and the bytes of all channels (`Decoder`), once the prefixes are attached to the bytes they are
about and the escapes are undone.
-/

namespace OlivePiccolo

/-- `AST_SOP`: the next data byte starts a packet. -/
def astSop : UInt8 := 0x7a

/-- `AST_EOP_PREFIX`: the next data byte is the last one of its packet. -/
def astEopPrefix : UInt8 := 0x7b

/-- `AST_CHANNEL_PREFIX`: the next data byte is a channel number. -/
def astChannelPrefix : UInt8 := 0x7c

/-- `AST_ESCAPE_PREFIX`: the next data byte is sent xored with `AST_ESCAPE_XOR`. -/
def astEscapePrefix : UInt8 := 0x7d

/-- `AST_ESCAPE_XOR`. -/
def astEscapeXor : UInt8 := 0x20

/-- `AST_NEEDS_ESCAPE`. -/
def astNeedsEscape (x : UInt8) : Bool := astSop ≤ x && x ≤ astEscapePrefix

/-- A byte behind an escape prefix. -/
def unescapeIf (esc : Bool) (byte : UInt8) : UInt8 := if esc then byte ^^^ astEscapeXor else byte

/-- How a byte is sent: escaped if it looks like a special byte. -/
def astEscape (byte : UInt8) : List UInt8 :=
  if astNeedsEscape byte then [astEscapePrefix, byte ^^^ astEscapeXor] else [byte]

/-- The channel prefix with the number of a channel. -/
def channelHeader (number : UInt8) : List UInt8 := astChannelPrefix :: astEscape number

theorem xor_astEscapeXor (byte : UInt8) : byte ^^^ astEscapeXor ^^^ astEscapeXor = byte := by
  rw [UInt8.xor_assoc, UInt8.xor_self, UInt8.xor_zero]

/-- The special bytes are the ones that need an escape. -/
theorem astNeedsEscape_iff {byte : UInt8} : astNeedsEscape byte = true ↔
    byte = astSop ∨ byte = astEopPrefix ∨ byte = astChannelPrefix ∨ byte = astEscapePrefix := by
  unfold astNeedsEscape
  rw [Bool.and_eq_true, decide_eq_true_iff, decide_eq_true_iff, UInt8.le_iff_toNat_le,
    UInt8.le_iff_toNat_le]
  simp only [← UInt8.toNat_inj]
  show 122 ≤ byte.toNat ∧ byte.toNat ≤ 125 ↔
    byte.toNat = 122 ∨ byte.toNat = 123 ∨ byte.toNat = 124 ∨ byte.toNat = 125
  omega

theorem astNeedsEscape_eq_false {byte : UInt8} : astNeedsEscape byte = false ↔
    byte ≠ astSop ∧ byte ≠ astEopPrefix ∧ byte ≠ astChannelPrefix ∧ byte ≠ astEscapePrefix := by
  rw [← Bool.not_eq_true, astNeedsEscape_iff]
  push Not
  rfl

/-- The second byte of an escape is none of the special bytes. -/
theorem astNeedsEscape_xor {byte : UInt8} (h : astNeedsEscape byte = true) :
    astNeedsEscape (byte ^^^ astEscapeXor) = false := by
  rcases astNeedsEscape_iff.mp h with rfl | rfl | rfl | rfl <;> decide

/-! ## Packets -/

/-- The packet that has been received since the latest `AST_SOP`. -/
structure Packet where
  /-- An escape prefix is waiting for its byte. -/
  esc : Bool
  /-- An end mark is waiting for its byte. -/
  eop : Bool
  /-- The payload bytes so far, each with its end mark. -/
  payload : List (UInt8 × Bool)
  deriving DecidableEq, Repr

namespace Packet

/-- Nothing received. -/
def empty : Packet := ⟨false, false, []⟩

/-- One more byte of the stream. -/
def feed (p : Packet) (byte : UInt8) : Packet :=
  if byte = astSop then empty
  else if byte = astEopPrefix then { p with eop := true }
  else if byte = astEscapePrefix then { p with esc := true }
  else ⟨false, false, p.payload ++ [(unescapeIf p.esc byte, p.eop)]⟩

/-- The packet at the end of a stream. -/
def last (bytes : List UInt8) : Packet := bytes.foldl feed empty

theorem last_append (bytes : List UInt8) (byte : UInt8) :
    last (bytes ++ [byte]) = (last bytes).feed byte := by
  unfold last; rw [List.foldl_append]; rfl

end Packet

/-! ## Streams -/

/-- A data byte of a stream. -/
structure Beat where
  channel : Option UInt8
  data : UInt8
  /-- It is the first byte of a packet. -/
  start : Bool
  /-- It is the last byte of a packet. -/
  last : Bool
  deriving DecidableEq, Repr

/-- The decoder of a whole stream. -/
structure Decoder where
  /-- The current channel. -/
  channel : Option UInt8
  /-- A channel prefix is waiting for its number. -/
  pre : Bool
  /-- An escape prefix is waiting for its byte. -/
  esc : Bool
  /-- A start mark is waiting for its byte. -/
  sop : Bool
  /-- An end mark is waiting for its byte. -/
  eop : Bool
  /-- The data bytes so far. -/
  beats : List Beat
  deriving DecidableEq, Repr

namespace Decoder

/-- Nothing received. -/
def init : Decoder := ⟨none, false, false, false, false, []⟩

/-- A byte that is none of the special bytes, unescaped. -/
def data (d : Decoder) (byte : UInt8) : Decoder :=
  if d.pre then { d with channel := some byte, pre := false, esc := false }
  else
    { d with esc := false, sop := false, eop := false,
             beats := d.beats ++ [⟨d.channel, byte, d.sop, d.eop⟩] }

/-- One more byte of the stream. -/
def feed (d : Decoder) (byte : UInt8) : Decoder :=
  if byte = astSop then { d with sop := true }
  else if byte = astEopPrefix then { d with eop := true }
  else if byte = astChannelPrefix then { d with pre := true }
  else if byte = astEscapePrefix then { d with esc := true }
  else d.data (unescapeIf d.esc byte)

/-- What a stream says. -/
def run (d : Decoder) (bytes : List UInt8) : Decoder := bytes.foldl feed d

theorem run_append (d : Decoder) (l l' : List UInt8) : d.run (l ++ l') = (d.run l).run l' :=
  List.foldl_append

theorem feed_ordinary (d : Decoder) {byte : UInt8} (h : astNeedsEscape byte = false) :
    d.feed byte = d.data (unescapeIf d.esc byte) := by
  obtain ⟨h1, h2, h3, h4⟩ := astNeedsEscape_eq_false.mp h
  unfold feed
  rw [if_neg h1, if_neg h2, if_neg h3, if_neg h4]

/-- An escaped byte is read as the byte itself. -/
theorem run_astEscape (d : Decoder) (h : d.esc = false) (byte : UInt8) :
    d.run (astEscape byte) = d.data byte := by
  unfold astEscape
  split_ifs with hb
  · show ({ d with esc := true } : Decoder).feed (byte ^^^ astEscapeXor) = _
    rw [feed_ordinary _ (astNeedsEscape_xor hb), unescapeIf, if_pos rfl, xor_astEscapeXor]
    unfold data
    split_ifs <;> rfl
  · show d.feed byte = _
    rw [feed_ordinary _ (by simpa using hb), h, unescapeIf, if_neg Bool.false_ne_true]

end Decoder

end OlivePiccolo
