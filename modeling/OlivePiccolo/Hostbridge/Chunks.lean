import OlivePiccolo.Hostbridge.Source
import Mathlib.Data.Int.Order.Basic
import Mathlib.Logic.Function.Basic

/-!
# The chunk buffer of the sending side

`Hostbridge.Source` builds the buffers of a payload as lists of bytes. Here the same loops fill the
local array, byte by byte at `write_len`, with the length as the C integer that it is and a record
of the indices that are written. The array has `WRITE_BUFFER_LEN + 2` bytes and the loop looks at
the fill level once for up to three bytes; `source_chunks` says that this is enough, and that no
chunk ends in front of a byte that belongs to it.

The chunks are the buffers of the lists (`fillChunk_eq`, `sendChunks_sent`).
-/

namespace OlivePiccolo.Hostbridge

/-! ## The code -/

/-- The local `buffer` with `write_len`. -/
structure ChunkBuffer where
  buffer : ℕ → UInt8
  writeLen : ℕ
  /-- The indices that have been written since the call. -/
  indices : List ℕ

namespace ChunkBuffer

/-- `buffer[write_len++] = byte`. -/
def put (b : ChunkBuffer) (byte : UInt8) : ChunkBuffer :=
  ⟨Function.update b.buffer b.writeLen byte, b.writeLen + 1, b.indices ++ [b.writeLen]⟩

/-- What `write_to_host(buffer, write_len)` is handed. -/
def bytes (b : ChunkBuffer) : List UInt8 := (List.range b.writeLen).map b.buffer

/-- `write_len = 0`, and the start mark of a packet. -/
def start (b : ChunkBuffer) (packetize : ℤ) : ChunkBuffer :=
  if 0 < packetize then put { b with writeLen := 0 } astSop else { b with writeLen := 0 }

/-- One turn of the inner loop: the end mark if this is the last byte of a packet, and the byte. -/
def putPayload (b : ChunkBuffer) (packetize len : ℤ) (byte : UInt8) : ChunkBuffer :=
  let marked := if packetize ≠ 0 ∧ len = 1 then b.put astEopPrefix else b
  if astNeedsEscape byte then (marked.put astEscapePrefix).put (byte ^^^ astEscapeXor)
  else marked.put byte

end ChunkBuffer

/-- The inner loop over the payload at `src`: the buffer, and `src` and `len` behind it. -/
def fillChunk (mem : ℕ → UInt8) (packetize : ℤ) (b : ChunkBuffer) (src : ℕ) (len : ℤ) :
    ChunkBuffer × ℕ × ℤ :=
  if b.writeLen < writeBufferLen ∧ 0 < len then
    fillChunk mem packetize (b.putPayload packetize len (mem src)) (src + 1) (len - 1)
  else (b, src, len)
termination_by len.toNat

theorem fillChunk_len_le (mem : ℕ → UInt8) (packetize : ℤ) (b : ChunkBuffer) (src : ℕ) (len : ℤ) :
    (fillChunk mem packetize b src len).2.2 ≤ len := by
  induction b, src, len using fillChunk.induct mem packetize with
  | case1 b src len h ih =>
    rw [fillChunk, if_pos h]
    omega
  | case2 b src len h => rw [fillChunk, if_neg h]

theorem ChunkBuffer.start_writeLen (b : ChunkBuffer) (packetize : ℤ) :
    (b.start packetize).writeLen ≤ 1 := by
  unfold start
  split_ifs <;> simp [put]

/-- A chunk takes at least one byte of the payload. -/
theorem fillChunk_start_len (mem : ℕ → UInt8) (b : ChunkBuffer) (packetize packetize' : ℤ)
    (src : ℕ) {len : ℤ} (h : 0 < len) :
    (fillChunk mem packetize (b.start packetize') src len).2.2 < len := by
  have hlen := b.start_writeLen packetize'
  have hroom : (b.start packetize').writeLen < writeBufferLen := by
    unfold writeBufferLen
    omega
  rw [fillChunk, if_pos ⟨hroom, h⟩]
  have := fillChunk_len_le mem packetize
    ((b.start packetize').putPayload packetize len (mem src)) (src + 1) (len - 1)
  omega

/-- The outer loop: the chunks that are handed to `write_to_host`, and the indices written. -/
def sendChunks (mem : ℕ → UInt8) (packetize : ℤ) (b : ChunkBuffer) (src : ℕ) (len : ℤ) :
    List (List UInt8) × List ℕ :=
  if _h : 0 < len then
    let filled := fillChunk mem (afterStart packetize) (b.start packetize) src len
    let rest := sendChunks mem (afterStart packetize) filled.1 filled.2.1 filled.2.2
    (filled.1.bytes :: rest.1, rest.2)
  else ([], b.indices)
termination_by len.toNat
decreasing_by
  have := fillChunk_start_len mem b (afterStart packetize) packetize src _h
  omega

/-- The blocks of one call that `write_to_host` is handed, and the indices of the local buffer that
are written. -/
structure SourceWrites where
  /-- The channel prefix, if it is sent. -/
  header : List UInt8
  /-- The payload, where it is sent as it is. -/
  plain : List UInt8
  chunks : List (List UInt8)
  indices : List ℕ

/-- The `len` bytes at `src`; none for a negative length. -/
def bytesAt (mem : ℕ → UInt8) (src : ℕ) (len : ℤ) : List UInt8 :=
  (List.range len.toNat).map fun i => mem (src + i)

/-- `peridot_sw_hostbridge_gen2_source` with the payload at the start of `mem`; `stack` is what the
local buffer holds before it is written. -/
def sourceWrites (stack : ℕ → UInt8) (sourceChannelNumber : ℤ) (channel : SourceChannel)
    (mem : ℕ → UInt8) (len : ℤ) (flags : ℕ) : SourceWrites :=
  let header := if (channel.number.toNat : ℤ) ≠ sourceChannelNumber ∨ flags &&& sourceReset ≠ 0
    then channelHeader channel.number else []
  if channel.packetized = true ∧ initialPacketize flags = 0 then ⟨header, bytesAt mem 0 len, [], []⟩
  else
    let sent := sendChunks mem (initialPacketize flags) ⟨stack, 0, []⟩ 0 len
    ⟨header, [], sent.1, sent.2⟩

/-! ## The buffer is large enough -/

namespace ChunkBuffer

variable (b : ChunkBuffer)

/-- Every index written so far is in the buffer, and so is everything below `write_len`. -/
structure InBounds : Prop where
  writeLen : b.writeLen ≤ writeBufferLen + 2
  indices : ∀ i ∈ b.indices, i < writeBufferLen + 2

variable {b}

theorem InBounds.put (h : b.InBounds) (hroom : b.writeLen < writeBufferLen + 2) (byte : UInt8) :
    (b.put byte).InBounds := by
  refine ⟨hroom, ?_⟩
  intro i hi
  rcases List.mem_append.mp hi with hi | hi
  · exact h.indices i hi
  · rw [List.mem_singleton.mp hi]
    exact hroom

theorem InBounds.start (h : b.InBounds) (packetize : ℤ) : (b.start packetize).InBounds := by
  have hzero : ({ b with writeLen := 0 } : ChunkBuffer).InBounds := ⟨Nat.zero_le _, h.indices⟩
  unfold ChunkBuffer.start
  split_ifs
  · exact hzero.put (by unfold writeBufferLen; simp) _
  · exact hzero

/-- A turn of the inner loop writes three bytes at most, from below `WRITE_BUFFER_LEN` on. -/
theorem InBounds.putPayload (h : b.InBounds) (hroom : b.writeLen < writeBufferLen)
    (packetize len : ℤ) (byte : UInt8) : (b.putPayload packetize len byte).InBounds := by
  have hmarked : ∃ marked : ChunkBuffer, marked.InBounds ∧ marked.writeLen ≤ b.writeLen + 1 ∧
      marked = if packetize ≠ 0 ∧ len = 1 then b.put astEopPrefix else b := by
    refine ⟨_, ?_, ?_, rfl⟩
    · split_ifs
      · exact h.put (by omega) _
      · exact h
    · split_ifs
      · exact Nat.le_refl _
      · exact Nat.le_succ _
  obtain ⟨marked, hin, hlen, heq⟩ := hmarked
  unfold ChunkBuffer.putPayload
  simp only [← heq]
  split_ifs
  · exact (hin.put (by omega) _).put (by simp only [ChunkBuffer.put]; omega) _
  · exact hin.put (by omega) _

theorem lt_putPayload_writeLen (b : ChunkBuffer) (packetize len : ℤ) (byte : UInt8) :
    b.writeLen < (b.putPayload packetize len byte).writeLen := by
  unfold putPayload put
  split_ifs <;> simp only <;> omega

end ChunkBuffer

section Bounds

variable (mem : ℕ → UInt8)

theorem fillChunk_inBounds {b : ChunkBuffer} (h : b.InBounds) (packetize : ℤ) (src : ℕ) (len : ℤ) :
    (fillChunk mem packetize b src len).1.InBounds := by
  induction b, src, len using fillChunk.induct mem packetize with
  | case1 b src len hc ih =>
    rw [fillChunk, if_pos hc]
    exact ih (h.putPayload hc.1 _ _ _)
  | case2 b src len hc =>
    rw [fillChunk, if_neg hc]
    exact h

theorem fillChunk_writeLen_le (packetize : ℤ) (b : ChunkBuffer) (src : ℕ) (len : ℤ) :
    b.writeLen ≤ (fillChunk mem packetize b src len).1.writeLen := by
  induction b, src, len using fillChunk.induct mem packetize with
  | case1 b src len hc ih =>
    rw [fillChunk, if_pos hc]
    exact Nat.le_trans (Nat.le_of_lt (b.lt_putPayload_writeLen packetize len (mem src))) ih
  | case2 b src len hc =>
    refine Nat.le_of_eq ?_
    rw [fillChunk, if_neg hc]

/-- A chunk is not empty. -/
theorem fillChunk_start_writeLen (b : ChunkBuffer) (packetize packetize' : ℤ) (src : ℕ) {len : ℤ}
    (h : 0 < len) :
    0 < (fillChunk mem packetize (b.start packetize') src len).1.writeLen := by
  have hlen := b.start_writeLen packetize'
  have hroom : (b.start packetize').writeLen < writeBufferLen := by
    unfold writeBufferLen
    omega
  rw [fillChunk, if_pos ⟨hroom, h⟩]
  have hput := (b.start packetize').lt_putPayload_writeLen packetize len (mem src)
  have hrest := fillChunk_writeLen_le mem packetize
    ((b.start packetize').putPayload packetize len (mem src)) (src + 1) (len - 1)
  omega

@[simp] theorem ChunkBuffer.bytes_length (b : ChunkBuffer) : b.bytes.length = b.writeLen := by
  simp [bytes]

/-- The whole of the outer loop. -/
theorem sendChunks_inBounds {b : ChunkBuffer} (h : b.InBounds) (packetize : ℤ) (src : ℕ)
    (len : ℤ) :
    (∀ i ∈ (sendChunks mem packetize b src len).2, i < writeBufferLen + 2) ∧
      ∀ c ∈ (sendChunks mem packetize b src len).1, 1 ≤ c.length ∧
        c.length ≤ writeBufferLen + 2 := by
  induction packetize, b, src, len using sendChunks.induct mem with
  | case1 packetize b src len hlen filled ih =>
    have hfilled : filled.1.InBounds := fillChunk_inBounds mem (h.start packetize) _ _ _
    obtain ⟨hindices, hchunks⟩ := ih hfilled
    rw [sendChunks, dif_pos hlen]
    refine ⟨hindices, ?_⟩
    intro c hc
    rcases List.mem_cons.mp hc with rfl | hc
    · rw [ChunkBuffer.bytes_length]
      exact ⟨fillChunk_start_writeLen mem b _ packetize src hlen, hfilled.writeLen⟩
    · exact hchunks c hc
  | case2 packetize b src len hlen =>
    rw [sendChunks, dif_neg hlen]
    exact ⟨h.indices, fun c hc => absurd hc List.not_mem_nil⟩

end Bounds

/-! ## The chunks are the buffers of the lists -/

theorem ChunkBuffer.put_bytes (b : ChunkBuffer) (byte : UInt8) :
    (b.put byte).bytes = b.bytes ++ [byte] := by
  unfold bytes put
  simp only [List.range_succ, List.map_append, List.map_singleton, Function.update_self]
  congr 1
  apply List.map_congr_left
  intro i hi
  rw [Function.update_of_ne (Nat.ne_of_lt (List.mem_range.mp hi))]

theorem ChunkBuffer.start_bytes (b : ChunkBuffer) (packetize : ℤ) :
    (b.start packetize).bytes = startMark packetize := by
  have hzero : ({ b with writeLen := 0 } : ChunkBuffer).bytes = [] := rfl
  unfold start startMark
  split_ifs
  · rw [put_bytes, hzero, List.nil_append]
  · exact hzero

theorem ChunkBuffer.putPayload_bytes (b : ChunkBuffer) (packetize len : ℤ) (byte : UInt8)
    (rest : List UInt8) (h : rest = [] ↔ len = 1) :
    (b.putPayload packetize len byte).bytes =
      b.bytes ++ endMark packetize rest ++ astEscape byte := by
  unfold putPayload endMark astEscape
  simp only [h]
  split_ifs <;> simp [put_bytes]

theorem bytesAt_pos (mem : ℕ → UInt8) (src : ℕ) {len : ℤ} (h : 0 < len) :
    bytesAt mem src len = mem src :: bytesAt mem (src + 1) (len - 1) := by
  have hlen : len.toNat = (len - 1).toNat + 1 := by omega
  unfold bytesAt
  rw [hlen, List.range_succ_eq_map, List.map_cons, List.map_map, Nat.add_zero]
  congr 1
  apply List.map_congr_left
  intro i _
  simp [Nat.add_assoc, Nat.add_comm 1]

theorem bytesAt_eq_nil_iff {mem : ℕ → UInt8} {src : ℕ} {len : ℤ} :
    bytesAt mem src len = [] ↔ len ≤ 0 := by
  simp [bytesAt]

/-- The inner loop on the array and the one on lists. -/
theorem fillChunk_eq (mem : ℕ → UInt8) (packetize : ℤ) (b : ChunkBuffer) (src : ℕ) (len : ℤ) :
    fillBuffer packetize b.bytes (bytesAt mem src len) =
      ((fillChunk mem packetize b src len).1.bytes,
        bytesAt mem (fillChunk mem packetize b src len).2.1
          (fillChunk mem packetize b src len).2.2) := by
  induction b, src, len using fillChunk.induct mem packetize with
  | case1 b src len h ih =>
    have hrest : bytesAt mem (src + 1) (len - 1) = [] ↔ len = 1 := by
      rw [bytesAt_eq_nil_iff]
      omega
    rw [fillChunk, if_pos h, bytesAt_pos mem src h.2, fillBuffer, ChunkBuffer.bytes_length,
      if_pos h.1, ← b.putPayload_bytes packetize len (mem src) _ hrest, ih]
  | case2 b src len h =>
    rw [fillChunk, if_neg h]
    by_cases hlen : 0 < len
    · rw [bytesAt_pos mem src hlen, fillBuffer, ChunkBuffer.bytes_length,
        if_neg fun hroom => h ⟨hroom, hlen⟩]
    · rw [bytesAt_eq_nil_iff.mpr (by omega), fillBuffer]

/-- The outer loop on the array sends what the one on lists sends. -/
theorem sendChunks_sent {σ : Type*} (dev : Device σ UInt8) (s : SourceState σ) (mem : ℕ → UInt8)
    (packetize : ℤ) (b : ChunkBuffer) (src : ℕ) (len : ℤ) :
    sendLoop dev s packetize (bytesAt mem src len) =
      (sendChunks mem packetize b src len).1.foldl (writeToHost dev) s := by
  induction packetize, b, src, len using sendChunks.induct mem generalizing s with
  | case1 packetize b src len hlen filled ih =>
    have hne : bytesAt mem src len ≠ [] := by
      rw [Ne, bytesAt_eq_nil_iff]
      omega
    have hfill := fillChunk_eq mem (afterStart packetize) (b.start packetize) src len
    rw [ChunkBuffer.start_bytes] at hfill
    rw [sendLoop, if_neg hne, hfill, sendChunks, dif_pos hlen]
    exact ih _
  | case2 packetize b src len hlen =>
    rw [bytesAt_eq_nil_iff.mpr (by omega), sendLoop, if_pos rfl, sendChunks, dif_neg hlen]
    rfl

/-! ## Where a chunk ends -/

/-- No prefix is waiting for its byte. -/
structure Settled (d : Decoder) : Prop where
  pre : d.pre = false
  esc : d.esc = false
  eop : d.eop = false

namespace Settled

variable {d : Decoder}

/-- A payload byte with its end mark and its escape. -/
theorem payloadByte (h : Settled d) (packetize : ℤ) (rest : List UInt8) (byte : UInt8) :
    Settled (d.run (endMark packetize rest ++ astEscape byte)) := by
  have hmark : (d.run (endMark packetize rest)).pre = false ∧
      (d.run (endMark packetize rest)).esc = false := by
    unfold endMark
    split_ifs
    · exact ⟨h.pre, h.esc⟩
    · exact ⟨h.pre, h.esc⟩
  rw [Decoder.run_append, Decoder.run_astEscape _ hmark.2, Decoder.data, if_neg (by simp [hmark.1])]
  exact ⟨hmark.1, rfl, rfl⟩

theorem startMark (h : Settled d) (packetize : ℤ) :
    Settled (d.run (Hostbridge.startMark packetize)) := by
  unfold Hostbridge.startMark
  split_ifs
  · exact ⟨h.pre, h.esc, h.eop⟩
  · exact h

/-- The inner loop leaves nothing waiting. -/
theorem fillBuffer (packetize : ℤ) {buffer : List UInt8} (h : Settled (d.run buffer))
    (src : List UInt8) : Settled (d.run (Hostbridge.fillBuffer packetize buffer src).1) := by
  induction src generalizing buffer with
  | nil => exact h
  | cons byte rest ih =>
    rw [Hostbridge.fillBuffer]
    split_ifs
    · apply ih
      rw [List.append_assoc, Decoder.run_append]
      exact h.payloadByte packetize rest byte
    · exact h

/-- However many chunks have been sent, nothing is waiting. -/
theorem sendChunks (mem : ℕ → UInt8) (packetize : ℤ) (b : ChunkBuffer) (src : ℕ) (len : ℤ) :
    ∀ {d : Decoder}, Settled d → ∀ n,
      Settled (d.run ((Hostbridge.sendChunks mem packetize b src len).1.take n).flatten) := by
  induction packetize, b, src, len using Hostbridge.sendChunks.induct mem with
  | case1 packetize b src len hlen filled =>
    rename_i ih
    intro d h n
    have hfill := fillChunk_eq mem (afterStart packetize) (b.start packetize) src len
    rw [ChunkBuffer.start_bytes] at hfill
    have hchunk : Settled (d.run filled.1.bytes) := by
      have hbuffer := fillBuffer (afterStart packetize) (h.startMark packetize)
        (bytesAt mem src len)
      rw [hfill] at hbuffer
      exact hbuffer
    rw [Hostbridge.sendChunks, dif_pos hlen]
    cases n with
    | zero => exact h
    | succ n =>
      simp only [List.take_succ_cons, List.flatten_cons]
      rw [Decoder.run_append]
      exact ih hchunk n
  | case2 packetize b src len hlen =>
    intro d h n
    rw [Hostbridge.sendChunks, dif_neg hlen, List.take_nil]
    exact h

end Settled

theorem onChannel_settled (number : UInt8) (beats : List Beat) :
    Settled (onChannel number beats) := ⟨rfl, rfl, rfl⟩

/-! ## The whole call -/

/-- The blocks of a call are what it sends. -/
theorem sourceWrites_sent {σ : Type*} (dev : Device σ UInt8) (s : SourceState σ)
    (stack : ℕ → UInt8) (channel : SourceChannel) (mem : ℕ → UInt8) (len : ℤ) (flags : ℕ) :
    (peridotSwHostbridgeGen2Source dev s channel (bytesAt mem 0 len) flags).1.sent =
      s.sent ++ (sourceWrites stack s.sourceChannelNumber channel mem len flags).header ++
        (sourceWrites stack s.sourceChannelNumber channel mem len flags).plain ++
        (sourceWrites stack s.sourceChannelNumber channel mem len flags).chunks.flatten := by
  have hheader : (selectChannel dev s channel.number flags).sent = s.sent ++
      (if (channel.number.toNat : ℤ) ≠ s.sourceChannelNumber ∨ flags &&& sourceReset ≠ 0 then
        channelHeader channel.number else []) := by
    unfold selectChannel
    split_ifs
    · exact writeToHost_sent _ _
    · exact (List.append_nil _).symm
  have hfold : ∀ (chunks : List (List UInt8)) (s : SourceState σ),
      (chunks.foldl (writeToHost dev) s).sent = s.sent ++ chunks.flatten := by
    intro chunks
    induction chunks with
    | nil => intro s; simp
    | cons c chunks ih =>
      intro s
      rw [List.foldl_cons, ih, writeToHost_sent, List.flatten_cons, List.append_assoc]
  unfold peridotSwHostbridgeGen2Source sourceWrites
  by_cases hp : channel.packetized = true ∧ initialPacketize flags = 0
  · simp only [if_pos hp, writeToHost_sent, hheader, List.flatten_nil, List.append_nil]
  · simp only [if_neg hp, sendChunks_sent dev _ mem (initialPacketize flags) ⟨stack, 0, []⟩ 0 len,
      hfold, hheader, List.append_nil]

/-- **The chunk buffer does not overflow.** Whatever the payload, the length and the flags: every
index written is in the buffer, every chunk has a byte at least and fits, and behind each of them
the reader of the stream is not left with an escape prefix or an end mark in front of its byte. -/
theorem source_chunks (stack : ℕ → UInt8) (sourceChannelNumber : ℤ) (channel : SourceChannel)
    (mem : ℕ → UInt8) (len : ℤ) (flags : ℕ) :
    (∀ i ∈ (sourceWrites stack sourceChannelNumber channel mem len flags).indices,
        i < writeBufferLen + 2) ∧
      (∀ c ∈ (sourceWrites stack sourceChannelNumber channel mem len flags).chunks,
        1 ≤ c.length ∧ c.length ≤ writeBufferLen + 2) ∧
      ∀ beats n, Settled ((onChannel channel.number beats).run
        ((sourceWrites stack sourceChannelNumber channel mem len flags).chunks.take n).flatten) := by
  have hempty : (⟨stack, 0, []⟩ : ChunkBuffer).InBounds :=
    ⟨Nat.zero_le _, fun i hi => absurd hi List.not_mem_nil⟩
  unfold sourceWrites
  by_cases hp : channel.packetized = true ∧ initialPacketize flags = 0
  · simp only [if_pos hp, List.take_nil, List.flatten_nil]
    exact ⟨fun i hi => absurd hi List.not_mem_nil, fun c hc => absurd hc List.not_mem_nil,
      fun beats _ => onChannel_settled _ beats⟩
  · simp only [if_neg hp]
    obtain ⟨hindices, hchunks⟩ := sendChunks_inBounds mem hempty (initialPacketize flags) 0 len
    exact ⟨hindices, hchunks, fun beats n =>
      Settled.sendChunks mem _ _ _ _ (onChannel_settled _ beats) n⟩

end OlivePiccolo.Hostbridge
