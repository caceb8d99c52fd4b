import Mathlib.Data.Nat.Bitwise
import OlivePiccolo.Hostbridge.Source
import OlivePiccolo.Library.LittleEndian

/-!
# The Avalon-MM channel

`avm_sink` collects the command packets of the host and answers each of them with one packet. A
read command is answered with the memory it names, if its range looks readable.

1. The packets of a stream (`Commands`) are what the sink answers, one by one, however the stream
   is cut (`avmSinks_replies`).
2. The range is checked in 32-bit arithmetic. `replies_readable_iff`: only readable bytes are sent
   if and only if no read command of the stream runs over the top of the address space.
-/

namespace OlivePiccolo.Hostbridge

/-! ## The code -/

/-- `AVM_READABLE_BASE`. -/
def avmReadableBase : ℕ := 0x10000000

/-- `AVM_READABLE_SPAN`. -/
def avmReadableSpan : ℕ := 16

/-- `AVM_READABLE_END`. -/
def avmReadableEnd : ℕ := avmReadableBase + avmReadableSpan

/-- `AVM_OFFSET_FULL`. -/
def avmOffsetFull : ℕ := 8

/-- `AVM_OFFSET_WRITE`. -/
def avmOffsetWrite : ℕ := 9

/-- `AVM_OFFSET_READ`. -/
def avmOffsetRead : ℕ := 10

/-- `AVM_OFFSET_NOTR`. -/
def avmOffsetNotr : ℕ := 11

/-- `SWAP16`. -/
def swap16 (x : UInt16) : UInt16 := x >>> 8 ||| x <<< 8

/-- `SWAP32`. -/
def swap32 (x : UInt32) : UInt32 :=
  (swap16 x.toUInt16).toUInt32 <<< 16 ||| (swap16 (x >>> 16).toUInt16).toUInt32

/-- The fields of `peridot_sw_hostbridge_gen2_avm_state_s` but for the channel. -/
structure AvmState where
  escapePrefix : Bool
  eopPrefix : Bool
  insidePacket : Bool
  offset : ℕ
  /-- `buffer.u8`. -/
  buffer : ℕ → UInt8

/-- What a reply consists of: the first two arguments of
`peridot_sw_hostbridge_gen2_source` behind the channel. -/
inductive AvmData
  /-- `"", 1`. -/
  | zero
  /-- `(const void *)addr, size`. -/
  | memory (addr : UInt32) (size : UInt16)
  /-- `&state.buffer, 4`. -/
  | header (bytes : List UInt8)
  deriving DecidableEq, Repr

/-- A call of `peridot_sw_hostbridge_gen2_source`, which asks for a packet, and maybe for a
reset. -/
structure AvmReply where
  data : AvmData
  reset : Bool
  deriving DecidableEq, Repr

namespace AvmState

/-- The zero-initialised state. -/
def init : AvmState := ⟨false, false, false, 0, fun _ => 0⟩

/-- `buffer.u16[i]`. -/
def u16 (s : AvmState) (i : ℕ) : UInt16 :=
  UInt16.ofNat (leNat [s.buffer (2 * i), s.buffer (2 * i + 1)])

/-- `buffer.u32[i]`. -/
def u32 (s : AvmState) (i : ℕ) : UInt32 :=
  UInt32.ofNat (leNat [s.buffer (4 * i), s.buffer (4 * i + 1), s.buffer (4 * i + 2),
    s.buffer (4 * i + 3)])

/-- Keep the byte, while there is room for it. -/
def store (s : AvmState) (byte : UInt8) : AvmState :=
  if s.offset < avmOffsetFull then
    { s with buffer := Function.update s.buffer s.offset byte, offset := s.offset + 1 }
  else s

/-- The offset that stands for the kind of a command. -/
def avmKind (code : UInt8) : ℕ :=
  if code = 0x00 ∨ code = 0x04 then avmOffsetWrite
  else if code = 0x10 ∨ code = 0x14 then avmOffsetRead
  else avmOffsetNotr

/-- Look at a command as soon as it is complete. -/
def classify (s : AvmState) : AvmState :=
  if s.offset = avmOffsetFull then { s with offset := avmKind (s.buffer 0) } else s

/-- `HOSTBRIDGE_GEN2_SOURCE_RESET` is set in the round that completes the command `0x7f`. -/
def wantsReset (s : AvmState) : Bool := s.offset = avmOffsetFull ∧ s.buffer 0 = 0x7f

/-- The packet is over: `buffer.u8[0] ^= 0x80` and `buffer.u8[1] = 0x00`. -/
def close (s : AvmState) : AvmState :=
  { s with eopPrefix := false, insidePacket := false,
           buffer := Function.update (Function.update s.buffer 0 (s.buffer 0 ^^^ 0x80)) 1 0 }

/-- The reply to a read command. -/
def readReply (s : AvmState) : AvmData :=
  if (swap32 (s.u32 1)).toNat < avmReadableBase ∨
      avmReadableEnd < (swap32 (s.u32 1) + (swap16 (s.u16 1)).toUInt32).toNat then .zero
  else .memory (swap32 (s.u32 1)) (swap16 (s.u16 1))

/-- `buffer.u16[1] = SWAP16(0)`. -/
def clearSize (s : AvmState) : AvmState :=
  { s with buffer := Function.update (Function.update s.buffer 2 0) 3 0 }

/-- Answer the packet that has been closed. -/
def reply (s : AvmState) (reset : Bool) : AvmState × List AvmReply :=
  if s.offset = avmOffsetRead then (s, [⟨s.readReply, reset⟩])
  else
    (s.clearSize,
      [⟨.header [s.clearSize.buffer 0, s.clearSize.buffer 1, s.clearSize.buffer 2,
        s.clearSize.buffer 3], reset⟩])

/-- A data byte, unescaped, inside a packet. -/
def packetByte (s : AvmState) (byte : UInt8) : AvmState × List AvmReply :=
  if !s.eopPrefix then ((s.store byte).classify, [])
  else (s.store byte).classify.close.reply (s.store byte).wantsReset

/-- The state in which a data byte is looked at: the escape is used up. -/
def unescaped (s : AvmState) : AvmState := { s with escapePrefix := false }

/-- One round of the loop of `avm_sink`. -/
def avmByte (s : AvmState) (byte : UInt8) : AvmState × List AvmReply :=
  if byte = astSop then ({ s with offset := 0, insidePacket := true, eopPrefix := false }, [])
  else if byte = astEopPrefix then ({ s with eopPrefix := true }, [])
  else if byte = astEscapePrefix then ({ s with escapePrefix := true }, [])
  else if s.insidePacket then s.unescaped.packetByte (unescapeIf s.escapePrefix byte)
  else (s.unescaped, [])

end AvmState

/-- `avm_sink`, with the calls it makes. It returns `len`. -/
def avmSink (s : AvmState) : List UInt8 → AvmState × List AvmReply
  | [] => (s, [])
  | byte :: rest =>
    ((avmSink (s.avmByte byte).1 rest).1, (s.avmByte byte).2 ++ (avmSink (s.avmByte byte).1 rest).2)

/-- The calls of `avm_sink` for the chunks of a stream. -/
def avmSinks (s : AvmState) : List (List UInt8) → AvmState × List AvmReply
  | [] => (s, [])
  | chunk :: rest =>
    ((avmSinks (avmSink s chunk).1 rest).1, (avmSink s chunk).2 ++ (avmSinks (avmSink s chunk).1 rest).2)

namespace AvmReply

/-- The addresses of the memory bytes that are sent, in pointer arithmetic. -/
def addresses (r : AvmReply) : List UInt32 :=
  match r.data with
  | .memory addr size => (List.range size.toNat).map fun i => addr + UInt32.ofNat i
  | _ => []

/-- The bytes that are sent. -/
def payload (mem : UInt32 → UInt8) (r : AvmReply) : List UInt8 :=
  match r.data with
  | .zero => [0]
  | .memory _ _ => r.addresses.map mem
  | .header bytes => bytes

/-- The call of `peridot_sw_hostbridge_gen2_source`, on the channel `AST_CHANNEL_AVM`. -/
def call (mem : UInt32 → UInt8) (r : AvmReply) : SourceCall where
  channel := ⟨0x00, true⟩
  payload := r.payload mem
  flags := if r.reset then sourcePacketized ||| sourceReset else sourcePacketized
  packetized_flag := by
    cases r.reset <;> decide

end AvmReply

/-! ## The commands of a stream -/

/-- The packets that have been received. -/
structure Commands where
  /-- An escape prefix is waiting for its byte; a start mark leaves it waiting. -/
  esc : Bool
  /-- An end mark is waiting for its byte. -/
  eop : Bool
  /-- A packet has been started. -/
  inside : Bool
  /-- Its bytes so far. -/
  payload : List UInt8
  /-- The complete packets. -/
  packets : List (List UInt8)
  deriving DecidableEq, Repr

namespace Commands

/-- Nothing received. -/
def init : Commands := ⟨false, false, false, [], []⟩

/-- A data byte, unescaped, inside a packet. -/
def data (d : Commands) (byte : UInt8) : Commands :=
  if d.eop then ⟨false, false, false, [], d.packets ++ [d.payload ++ [byte]]⟩
  else { d with esc := false, payload := d.payload ++ [byte] }

/-- One more byte of the stream. -/
def feed (d : Commands) (byte : UInt8) : Commands :=
  if byte = astSop then { d with inside := true, eop := false, payload := [] }
  else if byte = astEopPrefix then { d with eop := true }
  else if byte = astEscapePrefix then { d with esc := true }
  else if d.inside then d.data (unescapeIf d.esc byte)
  else { d with esc := false }

/-- What a stream says. -/
def run (d : Commands) (bytes : List UInt8) : Commands := bytes.foldl feed d

/-- The packets of a stream. -/
def ofStream (bytes : List UInt8) : List (List UInt8) := (init.run bytes).packets

end Commands

/-! ## What a command is answered with -/

namespace Command

/-- The byte at an index; no byte counts as zero. -/
def byteAt (p : List UInt8) (i : ℕ) : UInt8 := p.getD i 0

/-- It is a whole read command. -/
def IsRead (p : List UInt8) : Prop := 8 ≤ p.length ∧ (byteAt p 0 = 0x10 ∨ byteAt p 0 = 0x14)

instance (p : List UInt8) : Decidable (IsRead p) := inferInstanceAs (Decidable (_ ∧ _))

/-- The address, most significant byte first. -/
def address (p : List UInt8) : ℕ := leNat [byteAt p 7, byteAt p 6, byteAt p 5, byteAt p 4]

/-- The size, most significant byte first. -/
def size (p : List UInt8) : ℕ := leNat [byteAt p 3, byteAt p 2]

/-- A read command whose range ends at the top of the address space or above. -/
def Wraps (p : List UInt8) : Prop := IsRead p ∧ 2 ^ 32 ≤ address p + size p

instance (p : List UInt8) : Decidable (Wraps p) := inferInstanceAs (Decidable (_ ∧ _))

/-- The check of a read command: the end of its range is taken modulo `2 ^ 32`. -/
def Accepted (p : List UInt8) : Prop :=
  avmReadableBase ≤ address p ∧ (address p + size p) % 2 ^ 32 ≤ avmReadableEnd

instance (p : List UInt8) : Decidable (Accepted p) := inferInstanceAs (Decidable (_ ∧ _))

/-- What a command is answered with. -/
def data (p : List UInt8) : AvmData :=
  if IsRead p then
    if Accepted p then .memory (UInt32.ofNat (address p)) (UInt16.ofNat (size p)) else .zero
  else .header [byteAt p 0 ^^^ 0x80, 0, 0, 0]

/-- The reply to a command. Only a command of exactly eight bytes resets the bridge. -/
def reply (p : List UInt8) : AvmReply := ⟨data p, p.length = avmOffsetFull ∧ byteAt p 0 = 0x7f⟩

theorem address_lt (p : List UInt8) : address p < 2 ^ 32 := by
  unfold address
  exact leNat_lt_two_pow_32 rfl

theorem size_lt (p : List UInt8) : size p < 2 ^ 16 := by
  have h3 := (byteAt p 3).toNat_lt
  have h2 := (byteAt p 2).toNat_lt
  simp only [size, leNat]
  omega

theorem byteAt_append (p : List UInt8) (byte : UInt8) {i : ℕ} (h : i < p.length) :
    byteAt (p ++ [byte]) i = byteAt p i := List.getD_append _ _ _ _ h

theorem byteAt_length (p : List UInt8) (byte : UInt8) : byteAt (p ++ [byte]) p.length = byte := by
  unfold byteAt
  rw [List.getD_append_right _ _ _ _ (Nat.le_refl _), Nat.sub_self]
  rfl

end Command

/-! ## Byte swaps -/

theorem swap16_toNat (x : UInt16) : (swap16 x).toNat = x.toNat % 256 * 256 + x.toNat / 256 := by
  have hlt : x.toNat / 256 < 2 ^ 8 := by
    have := x.toNat_lt
    omega
  have hshift : x.toNat <<< 8 % 2 ^ 16 = (x.toNat % 256) <<< 8 := by
    rw [Nat.shiftLeft_eq, Nat.shiftLeft_eq]
    omega
  show (x >>> 8 ||| x <<< 8).toNat = _
  rw [UInt16.toNat_or, UInt16.toNat_shiftRight, UInt16.toNat_shiftLeft]
  show x.toNat >>> 8 ||| x.toNat <<< 8 % 2 ^ 16 = _
  rw [hshift, Nat.shiftRight_eq_div_pow, Nat.or_comm, ← Nat.shiftLeft_add_eq_or_of_lt hlt,
    Nat.shiftLeft_eq]

theorem swap32_toNat (x : UInt32) :
    (swap32 x).toNat =
      (swap16 x.toUInt16).toNat * 65536 + (swap16 (x >>> 16).toUInt16).toNat := by
  have hhi := (swap16 x.toUInt16).toNat_lt
  have hlo := (swap16 (x >>> 16).toUInt16).toNat_lt
  unfold swap32
  rw [UInt32.toNat_or, UInt32.toNat_shiftLeft, UInt16.toNat_toUInt32, UInt16.toNat_toUInt32]
  show (swap16 x.toUInt16).toNat <<< 16 % 2 ^ 32 ||| _ = _
  rw [Nat.mod_eq_of_lt (by rw [Nat.shiftLeft_eq]; omega), ← Nat.shiftLeft_add_eq_or_of_lt hlo,
    Nat.shiftLeft_eq]

theorem halfWord_toNat (a b : UInt8) :
    (UInt16.ofNat (leNat [a, b])).toNat = a.toNat + 256 * b.toNat := by
  have ha := a.toNat_lt
  have hb := b.toNat_lt
  rw [UInt16.toNat_ofNat', Nat.mod_eq_of_lt] <;> simp only [leNat] <;> omega

theorem word_toNat (a b c d : UInt8) :
    (UInt32.ofNat (leNat [a, b, c, d])).toNat =
      a.toNat + 256 * b.toNat + 65536 * (c.toNat + 256 * d.toNat) := by
  rw [UInt32.toNat_ofNat', Nat.mod_eq_of_lt (leNat_lt_two_pow_32 rfl)]
  simp only [leNat]
  omega

/-- The swapped half word is the big-endian number of its bytes. -/
theorem swap16_leNat (a b : UInt8) :
    swap16 (UInt16.ofNat (leNat [a, b])) = UInt16.ofNat (leNat [b, a]) := by
  have ha := a.toNat_lt
  have hb := b.toNat_lt
  apply UInt16.toNat_inj.mp
  rw [swap16_toNat, halfWord_toNat, halfWord_toNat]
  omega

/-- The swapped word is the big-endian number of its bytes. -/
theorem swap32_leNat (a b c d : UInt8) :
    swap32 (UInt32.ofNat (leNat [a, b, c, d])) = UInt32.ofNat (leNat [d, c, b, a]) := by
  have ha := a.toNat_lt
  have hb := b.toNat_lt
  have hc := c.toNat_lt
  have hd := d.toNat_lt
  have hlow : (UInt32.ofNat (leNat [a, b, c, d])).toUInt16 = UInt16.ofNat (leNat [a, b]) := by
    apply UInt16.toNat_inj.mp
    rw [UInt32.toNat_toUInt16, word_toNat, halfWord_toNat]
    omega
  have hhigh : (UInt32.ofNat (leNat [a, b, c, d]) >>> 16).toUInt16 =
      UInt16.ofNat (leNat [c, d]) := by
    apply UInt16.toNat_inj.mp
    rw [UInt32.toNat_toUInt16, UInt32.toNat_shiftRight, word_toNat, halfWord_toNat]
    show (_ >>> 16) % 2 ^ 16 = _
    rw [Nat.shiftRight_eq_div_pow]
    omega
  apply UInt32.toNat_inj.mp
  rw [swap32_toNat, hlow, hhigh, swap16_leNat, swap16_leNat, halfWord_toNat, halfWord_toNat,
    word_toNat]
  omega

/-! ## The sink answers the packets of the stream -/

/-- The offset after the bytes of a packet. -/
def Command.offset (p : List UInt8) : ℕ :=
  if p.length < avmOffsetFull then p.length else AvmState.avmKind (Command.byteAt p 0)

namespace AvmState

theorem avmKind_ge (code : UInt8) : avmOffsetFull < avmKind code := by
  unfold avmKind
  split_ifs <;> decide

theorem avmKind_eq_read {code : UInt8} :
    avmKind code = avmOffsetRead ↔ code = 0x10 ∨ code = 0x14 := by
  unfold avmKind
  split_ifs with hw hr
  · refine ⟨fun h => absurd h (by decide), fun h => ?_⟩
    rcases hw with rfl | rfl <;> exact absurd h (by decide)
  · exact ⟨fun _ => hr, fun _ => rfl⟩
  · exact ⟨fun h => absurd h (by decide), fun h => absurd h hr⟩

@[simp] theorem classify_buffer (s : AvmState) : s.classify.buffer = s.buffer := by
  unfold classify; split_ifs <;> rfl

@[simp] theorem classify_escapePrefix (s : AvmState) :
    s.classify.escapePrefix = s.escapePrefix := by
  unfold classify; split_ifs <;> rfl

@[simp] theorem classify_eopPrefix (s : AvmState) : s.classify.eopPrefix = s.eopPrefix := by
  unfold classify; split_ifs <;> rfl

@[simp] theorem classify_insidePacket (s : AvmState) :
    s.classify.insidePacket = s.insidePacket := by
  unfold classify; split_ifs <;> rfl

@[simp] theorem store_escapePrefix (s : AvmState) (byte : UInt8) :
    (s.store byte).escapePrefix = s.escapePrefix := by
  unfold store; split_ifs <;> rfl

@[simp] theorem store_eopPrefix (s : AvmState) (byte : UInt8) :
    (s.store byte).eopPrefix = s.eopPrefix := by
  unfold store; split_ifs <;> rfl

@[simp] theorem store_insidePacket (s : AvmState) (byte : UInt8) :
    (s.store byte).insidePacket = s.insidePacket := by
  unfold store; split_ifs <;> rfl

/-- The offset and the buffer stand for the packet `p`. -/
def Holds (s : AvmState) (p : List UInt8) : Prop :=
  s.offset = Command.offset p ∧
    ∀ i < p.length, i < avmOffsetFull → s.buffer i = Command.byteAt p i

/-- A byte that still fits. -/
theorem store_of_lt {s : AvmState} {p : List UInt8} (h : s.Holds p)
    (hp : p.length < avmOffsetFull) (byte : UInt8) :
    (s.store byte).offset = p.length + 1 ∧
      ∀ i < p.length + 1, (s.store byte).buffer i = Command.byteAt (p ++ [byte]) i := by
  obtain ⟨ho, hb⟩ := h
  rw [Command.offset, if_pos hp] at ho
  unfold store
  rw [if_pos (ho.symm ▸ hp), ho]
  refine ⟨rfl, fun i hi => ?_⟩
  show Function.update s.buffer p.length byte i = _
  rcases Nat.lt_succ_iff_lt_or_eq.mp hi with hlt | rfl
  · rw [Function.update_of_ne (Nat.ne_of_lt hlt), Command.byteAt_append _ _ hlt,
      hb i hlt (Nat.lt_trans hlt hp)]
  · rw [Function.update_self, Command.byteAt_length]

/-- A byte for which there is no room. -/
theorem store_of_ge {s : AvmState} {p : List UInt8} (h : s.Holds p)
    (hp : avmOffsetFull ≤ p.length) (byte : UInt8) :
    avmOffsetFull < s.offset ∧ s.store byte = s := by
  have ho := h.1
  rw [Command.offset, if_neg (Nat.not_lt.mpr hp)] at ho
  have hlt : avmOffsetFull < s.offset := ho ▸ avmKind_ge _
  refine ⟨hlt, ?_⟩
  rw [store, if_neg (Nat.not_lt.mpr hlt.le)]

/-- The buffer and the offset after one more byte of a packet. -/
theorem Holds.store_classify {s : AvmState} {p : List UInt8} (h : s.Holds p) (byte : UInt8) :
    (s.store byte).classify.Holds (p ++ [byte]) := by
  have hlen : (p ++ [byte]).length = p.length + 1 := List.length_append
  by_cases hp : p.length < avmOffsetFull
  · obtain ⟨ho, hb⟩ := store_of_lt h hp byte
    constructor
    · by_cases hfull : p.length + 1 = avmOffsetFull
      · rw [classify, if_pos (ho.trans hfull), Command.offset, hlen, hfull,
          if_neg (Nat.lt_irrefl _), ← hb 0 (Nat.succ_pos _)]
      · rw [classify, if_neg (ho ▸ hfull), Command.offset, hlen, ho, if_pos (by omega)]
    · intro i hi _
      rw [classify_buffer]
      exact hb i (hlen ▸ hi)
  · obtain ⟨hlt, hs⟩ := store_of_ge h (Nat.not_lt.mp hp) byte
    have h8 : avmOffsetFull ≤ p.length := Nat.not_lt.mp hp
    have h0 : 0 < p.length := Nat.lt_of_lt_of_le (by decide) h8
    rw [hs, classify, if_neg hlt.ne']
    constructor
    · rw [h.1, Command.offset, Command.offset, if_neg hp, hlen, if_neg (by omega),
        Command.byteAt_append _ _ h0]
    · intro i hi h8i
      have hip : i < p.length := Nat.lt_of_lt_of_le h8i h8
      rw [h.2 i hip h8i, Command.byteAt_append _ _ hip]

/-- The bridge is reset by a command that has exactly its eight bytes. -/
theorem Holds.wantsReset_eq {s : AvmState} {p : List UInt8} (h : s.Holds p) (byte : UInt8) :
    (s.store byte).wantsReset = (Command.reply (p ++ [byte])).reset := by
  have hlen : (p ++ [byte]).length = p.length + 1 := List.length_append
  unfold wantsReset Command.reply
  congr 1
  by_cases hp : p.length < avmOffsetFull
  · obtain ⟨ho, hb⟩ := store_of_lt h hp byte
    rw [ho, hb 0 (Nat.succ_pos _), hlen]
  · obtain ⟨hlt, hs⟩ := store_of_ge h (Nat.not_lt.mp hp) byte
    rw [hs, hlen]
    apply propext
    constructor <;> rintro ⟨h', -⟩ <;> omega

theorem Holds.offset_eq_read {s : AvmState} {p : List UInt8} (h : s.Holds p) :
    s.offset = avmOffsetRead ↔ Command.IsRead p := by
  rw [h.1, Command.offset, Command.IsRead]
  split_ifs with hp
  · constructor
    · intro he
      exact absurd hp (by rw [he]; decide)
    · rintro ⟨h8, -⟩
      exact absurd hp (Nat.not_lt.mpr h8)
  · rw [avmKind_eq_read]
    exact ⟨fun hc => ⟨Nat.not_lt.mp hp, hc⟩, fun hc => hc.2⟩

theorem close_buffer (s : AvmState) {i : ℕ} (h : 2 ≤ i) : s.close.buffer i = s.buffer i := by
  show Function.update (Function.update s.buffer 0 _) 1 0 i = _
  rw [Function.update_of_ne (by omega), Function.update_of_ne (by omega)]

/-- The address of a read command. -/
theorem Holds.address {s : AvmState} {p : List UInt8} (h : s.Holds p)
    (hp : avmOffsetFull ≤ p.length) :
    swap32 (s.close.u32 1) = UInt32.ofNat (Command.address p) := by
  have hb : ∀ i, 2 ≤ i → i < 8 → s.close.buffer i = Command.byteAt p i := fun i h2 h8 => by
    rw [close_buffer s h2, h.2 i (Nat.lt_of_lt_of_le h8 hp) h8]
  unfold u32
  rw [swap32_leNat, hb _ (by decide) (by decide), hb _ (by decide) (by decide),
    hb _ (by decide) (by decide), hb _ (by decide) (by decide)]
  rfl

/-- The size of a read command. -/
theorem Holds.size {s : AvmState} {p : List UInt8} (h : s.Holds p)
    (hp : avmOffsetFull ≤ p.length) :
    swap16 (s.close.u16 1) = UInt16.ofNat (Command.size p) := by
  have hb : ∀ i, 2 ≤ i → i < 8 → s.close.buffer i = Command.byteAt p i := fun i h2 h8 => by
    rw [close_buffer s h2, h.2 i (Nat.lt_of_lt_of_le h8 hp) h8]
  unfold u16
  rw [swap16_leNat, hb _ (by decide) (by decide), hb _ (by decide) (by decide)]
  rfl

/-- The range check. -/
theorem Holds.readReply {s : AvmState} {p : List UInt8} (h : s.Holds p)
    (hp : Command.IsRead p) : s.close.readReply = Command.data p := by
  have hend : (UInt32.ofNat (Command.address p) +
      (UInt16.ofNat (Command.size p)).toUInt32).toNat =
        (Command.address p + Command.size p) % 2 ^ 32 := by
    rw [UInt32.toNat_add, UInt16.toNat_toUInt32, UInt32.toNat_ofNat', UInt16.toNat_ofNat',
      Nat.mod_eq_of_lt (Command.address_lt p), Nat.mod_eq_of_lt (Command.size_lt p)]
  have hbase : (UInt32.ofNat (Command.address p)).toNat = Command.address p := by
    rw [UInt32.toNat_ofNat', Nat.mod_eq_of_lt (Command.address_lt p)]
  unfold AvmState.readReply Command.data
  rw [if_pos hp, h.address hp.1, h.size hp.1, hend, hbase]
  by_cases hacc : Command.Accepted p
  · rw [if_pos hacc, if_neg (not_or.mpr ⟨Nat.not_lt.mpr hacc.1, Nat.not_lt.mpr hacc.2⟩)]
  · rw [if_neg hacc, if_pos]
    by_contra hno
    obtain ⟨hlo, hhi⟩ := not_or.mp hno
    exact hacc ⟨Nat.not_lt.mp hlo, Nat.not_lt.mp hhi⟩

/-- A packet that is over is answered as the command it is. -/
theorem Holds.reply {s : AvmState} {p : List UInt8} (h : s.Holds p) (hp : p ≠ [])
    (reset : Bool) : (s.close.reply reset).2 = [⟨Command.data p, reset⟩] := by
  have hread : s.close.offset = avmOffsetRead ↔ Command.IsRead p := h.offset_eq_read
  unfold AvmState.reply
  by_cases hr : Command.IsRead p
  · rw [if_pos (hread.mpr hr), h.readReply hr]
  · have h0 : s.buffer 0 = Command.byteAt p 0 :=
      h.2 0 (List.length_pos_of_ne_nil hp) (by decide)
    rw [if_neg (mt hread.mp hr), Command.data, if_neg hr, ← h0]
    rfl

/-- The state `s` has read what `d` says. -/
structure Reads (s : AvmState) (d : Commands) : Prop where
  escapePrefix : s.escapePrefix = d.esc
  eopPrefix : s.eopPrefix = d.eop
  insidePacket : s.insidePacket = d.inside
  holds : d.inside = true → s.Holds d.payload

theorem reads_init : Reads init Commands.init where
  escapePrefix := rfl
  eopPrefix := rfl
  insidePacket := rfl
  holds := nofun

@[simp] theorem reply_escapePrefix (s : AvmState) (reset : Bool) :
    (s.reply reset).1.escapePrefix = s.escapePrefix := by
  unfold reply; split_ifs <;> rfl

@[simp] theorem reply_eopPrefix (s : AvmState) (reset : Bool) :
    (s.reply reset).1.eopPrefix = s.eopPrefix := by
  unfold reply; split_ifs <;> rfl

@[simp] theorem reply_insidePacket (s : AvmState) (reset : Bool) :
    (s.reply reset).1.insidePacket = s.insidePacket := by
  unfold reply; split_ifs <;> rfl

/-- A data byte inside a packet. -/
theorem Reads.packetByte {s : AvmState} {d : Commands} (h : Reads s d)
    (hd : d.inside = true) (byte : UInt8) :
    Reads (s.unescaped.packetByte byte).1 (d.data byte) ∧
      (d.data byte).packets.map Command.reply =
        d.packets.map Command.reply ++ (s.unescaped.packetByte byte).2 := by
  have hs : s.unescaped.Holds d.payload := h.holds hd
  have hnext := hs.store_classify byte
  have heop : s.unescaped.eopPrefix = d.eop := h.eopPrefix
  have hinside : s.unescaped.insidePacket = d.inside := h.insidePacket
  unfold AvmState.packetByte Commands.data
  rw [heop]
  cases he : d.eop with
  | false =>
    refine ⟨⟨?_, ?_, ?_, fun _ => hnext⟩, (List.append_nil _).symm⟩
    · simp [unescaped]
    · simpa [he] using heop
    · simpa using hinside
  | true =>
    have hne : d.payload ++ [byte] ≠ [] := List.concat_ne_nil _ _
    refine ⟨⟨?_, ?_, ?_, nofun⟩, ?_⟩
    · simp [unescaped, close]
    · simp [close]
    · simp [close]
    · show (d.packets ++ [d.payload ++ [byte]]).map Command.reply = _ ++ (reply _ _).2
      rw [hnext.reply hne, hs.wantsReset_eq byte, List.map_append]
      rfl

/-- One byte of the stream. -/
theorem Reads.avmByte {s : AvmState} {d : Commands} (h : Reads s d) (byte : UInt8) :
    Reads (s.avmByte byte).1 (d.feed byte) ∧
      (d.feed byte).packets.map Command.reply =
        d.packets.map Command.reply ++ (s.avmByte byte).2 := by
  unfold AvmState.avmByte Commands.feed
  split_ifs with hsop heop hesc hs hd hd
  · refine ⟨⟨h.escapePrefix, rfl, rfl, fun _ => ⟨rfl, ?_⟩⟩, (List.append_nil _).symm⟩
    exact fun i hi => absurd hi (Nat.not_lt_zero i)
  · exact ⟨⟨h.escapePrefix, rfl, h.insidePacket, h.holds⟩, (List.append_nil _).symm⟩
  · exact ⟨⟨rfl, h.eopPrefix, h.insidePacket, h.holds⟩, (List.append_nil _).symm⟩
  · rw [h.escapePrefix]
    exact h.packetByte hd _
  · exact absurd (h.insidePacket.symm.trans hs) hd
  · exact absurd (h.insidePacket.trans hd) hs
  · exact ⟨⟨rfl, h.eopPrefix, h.insidePacket, h.holds⟩, (List.append_nil _).symm⟩

/-- A chunk of the stream. -/
theorem Reads.avmSink {s : AvmState} {d : Commands} (h : Reads s d) (bytes : List UInt8) :
    Reads (avmSink s bytes).1 (d.run bytes) ∧
      (d.run bytes).packets.map Command.reply =
        d.packets.map Command.reply ++ (avmSink s bytes).2 := by
  induction bytes generalizing s d with
  | nil => exact ⟨h, (List.append_nil _).symm⟩
  | cons byte rest ih =>
    obtain ⟨hbyte, hpackets⟩ := h.avmByte byte
    obtain ⟨hrest, hmore⟩ := ih hbyte
    refine ⟨hrest, ?_⟩
    show ((d.feed byte).run rest).packets.map _ = _
    rw [hmore, hpackets, List.append_assoc]
    rfl

/-- The chunks of a stream. -/
theorem Reads.avmSinks {s : AvmState} {d : Commands} (h : Reads s d)
    (chunks : List (List UInt8)) :
    (d.run chunks.flatten).packets.map Command.reply =
      d.packets.map Command.reply ++ (avmSinks s chunks).2 := by
  induction chunks generalizing s d with
  | nil => exact (List.append_nil _).symm
  | cons chunk rest ih =>
    obtain ⟨hchunk, hpackets⟩ := h.avmSink chunk
    have hrun : d.run (chunk :: rest).flatten = (d.run chunk).run rest.flatten :=
      List.foldl_append
    rw [hrun, ih hchunk, hpackets, List.append_assoc]
    rfl

end AvmState

/-- The replies to a stream are the replies to its commands. -/
theorem avmSinks_replies (chunks : List (List UInt8)) :
    (avmSinks .init chunks).2 = (Commands.ofStream chunks.flatten).map Command.reply :=
  (AvmState.reads_init.avmSinks chunks).symm

/-! ## What is sent lies in the window -/

/-- All memory bytes of the reply are readable. -/
def AvmReply.Readable (r : AvmReply) : Prop :=
  ∀ a ∈ r.addresses, avmReadableBase ≤ a.toNat ∧ a.toNat < avmReadableEnd

instance (r : AvmReply) : Decidable r.Readable := inferInstanceAs (Decidable (∀ _ ∈ _, _))

/-- The addresses of a range that does not run over the top. -/
theorem mem_addresses {p : List UInt8} (hp : ¬ Command.Wraps p) (hr : Command.IsRead p)
    {reset : Bool} {a : UInt32}
    (ha : a ∈ (⟨.memory (UInt32.ofNat (Command.address p)) (UInt16.ofNat (Command.size p)),
      reset⟩ : AvmReply).addresses) :
    Command.address p ≤ a.toNat ∧ a.toNat < Command.address p + Command.size p := by
  have hend : Command.address p + Command.size p < 2 ^ 32 :=
    Nat.lt_of_not_le fun h => hp ⟨hr, h⟩
  obtain ⟨i, hi, rfl⟩ := List.mem_map.mp ha
  have hsize : (UInt16.ofNat (Command.size p)).toNat = Command.size p := by
    rw [UInt16.toNat_ofNat', Nat.mod_eq_of_lt (Command.size_lt p)]
  rw [hsize, List.mem_range] at hi
  rw [UInt32.toNat_add, UInt32.toNat_ofNat', UInt32.toNat_ofNat']
  omega

/-- **One command.** Only readable bytes are sent if and only if it does not run over the top. -/
theorem Command.readable_iff (p : List UInt8) : (reply p).Readable ↔ ¬ Wraps p := by
  constructor
  · rintro h ⟨hr, hwrap⟩
    have hsize := size_lt p
    have haddr := address_lt p
    have hacc : Accepted p := by
      constructor <;> simp only [avmReadableBase, avmReadableEnd, avmReadableSpan] <;> omega
    have hmem : UInt32.ofNat (address p) ∈ (reply p).addresses := by
      unfold reply data
      rw [if_pos hr, if_pos hacc]
      refine List.mem_map.mpr ⟨0, List.mem_range.mpr ?_, UInt32.add_zero _⟩
      rw [UInt16.toNat_ofNat', Nat.mod_eq_of_lt hsize]
      omega
    have := (h _ hmem).2
    rw [UInt32.toNat_ofNat', Nat.mod_eq_of_lt haddr] at this
    simp only [avmReadableBase, avmReadableEnd, avmReadableSpan] at this
    omega
  · intro h a ha
    by_cases hr : IsRead p
    · by_cases hacc : Accepted p
      · have hend : address p + size p < 2 ^ 32 := Nat.lt_of_not_le fun hw => h ⟨hr, hw⟩
        unfold reply data at ha
        rw [if_pos hr, if_pos hacc] at ha
        obtain ⟨hlo, hhi⟩ := mem_addresses h hr ha
        have hle := hacc.2
        rw [Nat.mod_eq_of_lt hend] at hle
        exact ⟨hacc.1.trans hlo, Nat.lt_of_lt_of_le hhi hle⟩
      · unfold reply data at ha
        rw [if_pos hr, if_neg hacc] at ha
        exact absurd ha List.not_mem_nil
    · unfold reply data at ha
      rw [if_neg hr] at ha
      exact absurd ha List.not_mem_nil

/-- **Readable window.** The memory bytes that are sent for a stream, in any chunks, all lie in
the readable window if and only if no read command of the stream runs over the top of the address
space. -/
theorem replies_readable_iff (chunks : List (List UInt8)) :
    (∀ r ∈ (avmSinks .init chunks).2, r.Readable) ↔
      ∀ p ∈ Commands.ofStream chunks.flatten, ¬ Command.Wraps p := by
  rw [avmSinks_replies, List.forall_mem_map]
  exact forall₂_congr fun p _ => Command.readable_iff p

/-- A read of 32 bytes at `0xfffffff0`, the last 16 of them at the start of the memory. -/
theorem not_replies_readable :
    ¬ ∀ chunks : List (List UInt8), ∀ r ∈ (avmSinks .init chunks).2, r.Readable := by
  intro h
  have := h [[0x7a, 0x14, 0x00, 0x00, 0x20, 0xff, 0xff, 0xff, 0x7b, 0xf0]]
    ⟨.memory 0xfffffff0 0x20, false⟩ (by decide)
  exact absurd (this 0xfffffff0 (by decide)) (by decide)

end OlivePiccolo.Hostbridge
