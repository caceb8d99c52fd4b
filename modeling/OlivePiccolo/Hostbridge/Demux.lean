import OlivePiccolo.Hostbridge.Service

/-!
# What the service should do

`Demux` is the service without its buffer: it is fed the stream byte by byte, keeps the bytes since
the latest channel number of the read in `pend`, and takes out the special bytes of a channel that
is not packetized. Between two reads `pend` is empty.

The service does the same (`serve_view`), as long as each special byte it takes out is the last one
of its read, or a mark that is the first one and is followed by an ordinary byte
(`RegularStream`): the `memmove` of the service moves the bytes from the start of the buffer, and
the scan goes on behind the byte that follows.
-/

namespace OlivePiccolo.Hostbridge

variable {σ : Type*}

/-- Bytes for a channel. -/
def tagged (channel : Option (Channel σ)) (bytes : List UInt8) : List (UInt8 × UInt8) :=
  match channel with
  | none => []
  | some c => bytes.map (c.number, ·)

/-- The service without its buffer. -/
@[ext] structure Demux (σ : Type*) where
  channels : List (Channel σ)
  current : Option (Channel σ)
  pre : Bool
  esc : Bool
  /-- No byte of the read has been seen. -/
  fresh : Bool
  /-- The bytes of the read for the current channel. -/
  pend : List UInt8
  accepted : List (UInt8 × UInt8)

namespace Demux

/-- The current channel is not packetized. -/
def raw (d : Demux σ) : Bool := d.current.any (!·.packetized)

/-- The byte is taken out of the buffer. -/
def Special (d : Demux σ) (byte : UInt8) : Prop :=
  d.raw = true ∧ byte ≠ astChannelPrefix ∧
    (byte = astEscapePrefix ∨ d.pre = false ∧ IsMark (unescapeIf d.esc byte))

/-- The end of a read, or of a part of it: the bytes go to the current channel. -/
def flush (d : Demux σ) : Demux σ :=
  { d with fresh := true, pend := [], accepted := d.accepted ++ tagged d.current d.pend }

/-- One more byte of the stream. -/
def feed (d : Demux σ) (byte : UInt8) : Demux σ :=
  if byte = astChannelPrefix then
    { d with pre := true, fresh := false, pend := d.pend ++ [byte] }
  else if byte = astEscapePrefix then
    { d with esc := true, fresh := false, pend := if d.raw then d.pend else d.pend ++ [byte] }
  else if d.pre then
    { d with
      current := d.channels.find? (·.number = unescapeIf d.esc byte)
      pre := false
      esc := false
      fresh := false
      pend := []
      accepted := d.accepted ++ tagged d.current d.pend.dropLast }
  else if d.raw then
    { d with
      esc := false
      fresh := false
      pend := if IsMark (unescapeIf d.esc byte) then d.pend
        else d.pend ++ [unescapeIf d.esc byte] }
  else { d with esc := false, fresh := false, pend := d.pend ++ [byte] }

section Feed

variable (d : Demux σ) {byte : UInt8}

theorem feed_prefix : d.feed astChannelPrefix =
    { d with pre := true, fresh := false, pend := d.pend ++ [astChannelPrefix] } := rfl

theorem feed_escape : d.feed astEscapePrefix =
    { d with esc := true, fresh := false,
             pend := if d.raw then d.pend else d.pend ++ [astEscapePrefix] } := rfl

/-- A channel number. -/
theorem feed_number (h1 : byte ≠ astChannelPrefix) (h2 : byte ≠ astEscapePrefix)
    (hpre : d.pre = true) : d.feed byte =
      { d with
        current := d.channels.find? (·.number = unescapeIf d.esc byte)
        pre := false
        esc := false
        fresh := false
        pend := []
        accepted := d.accepted ++ tagged d.current d.pend.dropLast } := by
  unfold feed
  rw [if_neg h1, if_neg h2, if_pos hpre]

/-- Data of a packetized channel. -/
theorem feed_data (h1 : byte ≠ astChannelPrefix) (h2 : byte ≠ astEscapePrefix)
    (hpre : d.pre = false) (hraw : d.raw = false) :
    d.feed byte = { d with esc := false, fresh := false, pend := d.pend ++ [byte] } := by
  unfold feed
  rw [if_neg h1, if_neg h2, if_neg (by simp [hpre]), if_neg (by simp [hraw])]

/-- Data of a channel that is not packetized. -/
theorem feed_raw (h1 : byte ≠ astChannelPrefix) (h2 : byte ≠ astEscapePrefix)
    (hpre : d.pre = false) (hraw : d.raw = true) (hmark : ¬ IsMark (unescapeIf d.esc byte)) :
    d.feed byte =
      { d with esc := false, fresh := false, pend := d.pend ++ [unescapeIf d.esc byte] } := by
  unfold feed
  rw [if_neg h1, if_neg h2, if_neg (by simp [hpre]), if_pos hraw, if_neg hmark]

/-- A mark in the data of a channel that is not packetized. -/
theorem feed_mark (h : IsMark byte) (hpre : d.pre = false) (hesc : d.esc = false)
    (hraw : d.raw = true) : d.feed byte = { d with esc := false, fresh := false } := by
  have h1 : byte ≠ astChannelPrefix := by rcases h with rfl | rfl <;> decide
  have h2 : byte ≠ astEscapePrefix := by rcases h with rfl | rfl <;> decide
  have hm : IsMark (unescapeIf d.esc byte) := by rw [hesc]; exact h
  unfold feed
  rw [if_neg h1, if_neg h2, if_neg (by simp [hpre]), if_pos hraw, if_pos hm]

end Feed

/-- A mark that is taken out has no escape in front of it, and no channel prefix. -/
theorem Special.of_mark {d : Demux σ} {mark : UInt8} (hspec : d.Special mark)
    (hmark : IsMark mark) : d.esc = false ∧ d.pre = false := by
  obtain ⟨-, -, h⟩ := hspec
  have h2 : mark ≠ astEscapePrefix := by rcases hmark with rfl | rfl <;> decide
  obtain ⟨hpre, hm⟩ := h.resolve_left h2
  refine ⟨?_, hpre⟩
  by_contra he
  rw [unescapeIf, if_pos (by simpa using he)] at hm
  rcases hmark with rfl | rfl <;> exact absurd hm (by decide)

/-- All bytes of the stream so far that are not lost, for the channels they go to. -/
def owed (d : Demux σ) : List (UInt8 × UInt8) := d.accepted ++ tagged d.current d.pend

/-- One more byte, which may be the last one of its read. -/
def step (d : Demux σ) (b : UInt8 × Bool) : Demux σ :=
  if b.2 then (d.feed b.1).flush else d.feed b.1

/-- Within a read: only its last byte is taken out. -/
def Regular : Demux σ → List UInt8 → Prop
  | _, [] => True
  | d, byte :: rest => (d.Special byte → rest = []) ∧ Regular (d.feed byte) rest

/-- A mark that is the first byte of its read, followed by an ordinary byte. -/
def Skips (d : Demux σ) (byte : UInt8) (rest : List (UInt8 × Bool)) : Prop :=
  d.fresh = true ∧ IsMark byte ∧ ∃ next rest', rest = next :: rest' ∧ astNeedsEscape next.1 = false

/-- Each byte that is taken out is the last one of its read, or is skipped at the start of it. -/
def RegularStream : Demux σ → List (UInt8 × Bool) → Prop
  | _, [] => True
  | d, b :: rest =>
    (d.Special b.1 → b.2 = true ∨ d.Skips b.1 rest) ∧ RegularStream (d.step b) rest

end Demux

/-- The bytes of a read, the last one marked. -/
def markRead : List UInt8 → List (UInt8 × Bool)
  | [] => []
  | byte :: rest => (byte, rest.isEmpty) :: markRead rest

/-- The bytes of all reads. -/
def marked (reads : List (List UInt8)) : List (UInt8 × Bool) := reads.flatMap markRead

namespace Demux

variable {d : Demux σ}

theorem feed_fresh (d : Demux σ) (byte : UInt8) : (d.feed byte).fresh = false := by
  unfold feed
  split_ifs <;> rfl

/-- A read is fed byte by byte, and flushed. -/
theorem foldl_markRead (d : Demux σ) {read : List UInt8} (h : read ≠ []) :
    (markRead read).foldl step d = (read.foldl feed d).flush := by
  induction read generalizing d with
  | nil => exact absurd rfl h
  | cons byte rest ih =>
    rw [markRead, List.foldl_cons, List.foldl_cons]
    cases rest with
    | nil => rfl
    | cons next rest => exact ih _ (List.cons_ne_nil _ _)

/-- The rest of a regular stream is regular. -/
theorem RegularStream.append {l later : List (UInt8 × Bool)} (h : d.RegularStream (l ++ later)) :
    (l.foldl step d).RegularStream later := by
  induction l generalizing d with
  | nil => exact h
  | cons b l ih => exact ih h.2

/-- Behind its first byte, a read of a regular stream is regular. -/
theorem regular_of_stream {read : List UInt8} {later : List (UInt8 × Bool)}
    (hfresh : d.fresh = false) (h : d.RegularStream (markRead read ++ later)) :
    d.Regular read := by
  induction read generalizing d with
  | nil => trivial
  | cons byte rest ih =>
    obtain ⟨hspec, hlater⟩ := h
    refine ⟨fun hs => ?_, ?_⟩
    · rcases hspec hs with hlast | ⟨hf, -⟩
      · exact List.isEmpty_iff.mp hlast
      · rw [hfresh] at hf
        cases hf
    · cases rest with
      | nil => trivial
      | cons next rest => exact ih (feed_fresh _ _) hlater

end Demux

theorem markRead_fst (read : List UInt8) : (markRead read).map (·.1) = read := by
  induction read with
  | nil => rfl
  | cons byte rest ih => rw [markRead, List.map_cons, ih]

theorem marked_fst (reads : List (List UInt8)) : (marked reads).map (·.1) = reads.flatten := by
  induction reads with
  | nil => rfl
  | cons read reads ih =>
    unfold marked at ih ⊢
    rw [List.flatMap_cons, List.map_append, markRead_fst, ih, List.flatten_cons]

/-! ## The scan of a buffer -/

theorem writeToChannel_accepted (s : BridgeState σ) (channel : Option (Channel σ))
    (buffer : List UInt8) (start stop : ℕ) :
    (s.writeToChannel channel buffer start stop).accepted =
      s.accepted ++ tagged channel ((buffer.take stop).drop start) := by
  unfold BridgeState.writeToChannel tagged
  cases channel with
  | none => exact (List.append_nil _).symm
  | some c => simp only [Device.writeAll_taken]

theorem writeToChannel_frame (s : BridgeState σ) (channel : Option (Channel σ))
    (buffer : List UInt8) (start stop : ℕ) :
    (s.writeToChannel channel buffer start stop).channels = s.channels ∧
      (s.writeToChannel channel buffer start stop).sinkChannel = s.sinkChannel ∧
      (s.writeToChannel channel buffer start stop).channelPrefix = s.channelPrefix ∧
      (s.writeToChannel channel buffer start stop).escapePrefix = s.escapePrefix := by
  unfold BridgeState.writeToChannel
  cases channel <;> exact ⟨rfl, rfl, rfl, rfl⟩

/-- The state between two reads. -/
def BridgeState.view (s : BridgeState σ) : Demux σ :=
  ⟨s.channels, s.sinkChannel, s.channelPrefix, s.escapePrefix, true, [], s.accepted⟩

namespace Scan

/-- What has been scanned and not been handed on. -/
def pend (s : Scan σ) : List UInt8 := (s.buffer.take s.index).drop s.head

/-- What has not been scanned. -/
def todo (s : Scan σ) : List UInt8 := (s.buffer.take s.readLen).drop s.index

/-- The state within a read. -/
def view (s : Scan σ) : Demux σ :=
  ⟨s.channels, s.sinkChannel, s.channelPrefix, s.escapePrefix, decide (s.index = 0), s.pend,
    s.accepted⟩

/-- The offsets are in order. -/
structure Wf (s : Scan σ) : Prop where
  head_le : s.head ≤ s.index
  index_le : s.index ≤ s.readLen
  readLen_le : s.readLen ≤ s.buffer.length

variable {s : Scan σ} {byte : UInt8} {rest : List UInt8}

/-- The byte at `index`. -/
theorem getElem?_of_todo (h : s.todo = byte :: rest) :
    s.buffer[s.index]? = some byte ∧ s.index < s.readLen := by
  have h0 : s.todo[0]? = some byte := by rw [h]; rfl
  unfold todo at h0
  rw [List.getElem?_drop, Nat.add_zero] at h0
  have hlt : s.index < s.readLen := by
    by_contra hge
    rw [List.getElem?_take_eq_none (by omega)] at h0
    cases h0
  exact ⟨by rwa [List.getElem?_take_of_lt hlt] at h0, hlt⟩

/-- One more byte has been scanned, and perhaps been replaced. -/
theorem take_drop_next (hwf : s.Wf) (hlt : s.index < s.readLen) {buffer : List UInt8} {b : UInt8}
    (ht : buffer.take s.index = s.buffer.take s.index) (hb : buffer[s.index]? = some b) :
    (buffer.take (s.index + 1)).drop s.head = s.pend ++ [b] := by
  have hlen : s.head ≤ (s.buffer.take s.index).length := by
    have := hwf.readLen_le
    have := hwf.head_le
    rw [List.length_take]
    omega
  rw [List.take_add_one, hb, ht, List.drop_append_of_le_length hlen]
  rfl

/-- The bytes in front of a channel number, but for the last one. -/
theorem take_drop_dropLast (hwf : s.Wf) (hlt : s.index < s.readLen) :
    (s.buffer.take (s.index - 1)).drop s.head = s.pend.dropLast := by
  have hlen := hwf.readLen_le
  unfold pend
  rw [List.dropLast_eq_take, List.length_drop, List.length_take]
  rcases Nat.lt_or_ge s.head s.index with hh | hh
  · have hmin : s.head + (min s.index s.buffer.length - s.head - 1) = s.index - 1 := by omega
    rw [List.take_drop, List.take_take, hmin, Nat.min_eq_left (by omega)]
  · rw [List.drop_eq_nil_of_le (by rw [List.length_take]; omega),
      List.drop_eq_nil_of_le (by rw [List.length_take]; omega), List.take_nil]

theorem todo_next (h : s.todo = byte :: rest) :
    (s.buffer.take s.readLen).drop (s.index + 1) = rest := by
  rw [← List.drop_drop]
  have h' : (s.buffer.take s.readLen).drop s.index = byte :: rest := h
  rw [h', List.drop_one, List.tail_cons]

/-- The buffer once a pending escape has been used up. -/
def unescapedBuffer (s : Scan σ) (byte : UInt8) : List UInt8 :=
  if s.sinkIsRaw then s.buffer.set s.index (unescapeIf s.escapePrefix byte) else s.buffer

theorem useEscape_eq (hb : s.buffer[s.index]? = some byte) :
    s.useEscape (unescapeIf s.escapePrefix byte) =
      { s with buffer := s.unescapedBuffer byte, escapePrefix := false } := by
  unfold useEscape unescapedBuffer unescapeIf
  cases he : s.escapePrefix with
  | true => simp only [if_true]
  | false =>
    have hset : s.buffer.set s.index byte = s.buffer := by
      obtain ⟨hlt, hget⟩ := List.getElem?_eq_some_iff.mp hb
      rw [← hget, List.set_getElem_self]
    simp only [Bool.false_eq_true, if_false, hset, ite_self]
    rw [← he]

theorem unescapedBuffer_length (s : Scan σ) (byte : UInt8) :
    (s.unescapedBuffer byte).length = s.buffer.length := by
  unfold unescapedBuffer
  split_ifs
  · exact List.length_set
  · rfl

theorem unescapedBuffer_take (s : Scan σ) (byte : UInt8) {n : ℕ} (h : n ≤ s.index) :
    (s.unescapedBuffer byte).take n = s.buffer.take n := by
  unfold unescapedBuffer
  split_ifs
  · exact List.take_set_of_le h
  · rfl

theorem unescapedBuffer_drop (s : Scan σ) (byte : UInt8) (n : ℕ) :
    ((s.unescapedBuffer byte).take n).drop (s.index + 1) =
      (s.buffer.take n).drop (s.index + 1) := by
  unfold unescapedBuffer
  split_ifs
  · rw [List.take_set, List.drop_set_of_lt (Nat.lt_succ_self _)]
  · rfl

theorem unescapedBuffer_getElem? (hb : s.buffer[s.index]? = some byte) :
    (s.unescapedBuffer byte)[s.index]? =
      some (if s.sinkIsRaw then unescapeIf s.escapePrefix byte else byte) := by
  unfold unescapedBuffer
  split_ifs
  · rw [List.getElem?_set_self (List.getElem?_eq_some_iff.mp hb).1]
  · exact hb

/-- A round over a byte that stays in the buffer. -/
theorem round_view (hwf : s.Wf) (h : s.todo = byte :: rest) (hreg : ¬ s.view.Special byte) :
    (s.round byte).view = s.view.feed byte ∧ (s.round byte).todo = rest ∧ (s.round byte).Wf := by
  obtain ⟨hb, hlt⟩ := getElem?_of_todo h
  have hhead := hwf.head_le
  have hlen := hwf.readLen_le
  have htodo := todo_next h
  have hfresh : decide (s.index + 1 = 0) = false := decide_eq_false (Nat.succ_ne_zero _)
  have hraw : s.view.raw = s.sinkIsRaw := rfl
  unfold round Demux.feed
  by_cases h1 : byte = astChannelPrefix
  · rw [if_pos h1, if_pos h1]
    refine ⟨?_, htodo, Nat.le_succ_of_le hhead, hlt, hlen⟩
    show Demux.mk _ _ _ _ (decide (s.index + 1 = 0)) ((s.buffer.take (s.index + 1)).drop s.head) _ = _
    rw [hfresh, take_drop_next hwf hlt rfl hb]
    rfl
  rw [if_neg h1, if_neg h1]
  by_cases h2 : byte = astEscapePrefix
  · have hnot : ¬ s.sinkIsRaw = true := fun hr => hreg ⟨hr, h1, .inl h2⟩
    rw [if_pos h2, if_pos h2, if_neg hnot, hraw, if_neg hnot]
    refine ⟨?_, htodo, Nat.le_succ_of_le hhead, hlt, hlen⟩
    show Demux.mk _ _ _ _ (decide (s.index + 1 = 0)) ((s.buffer.take (s.index + 1)).drop s.head) _ = _
    rw [hfresh, take_drop_next hwf hlt rfl hb]
    rfl
  rw [if_neg h2, if_neg h2, useEscape_eq hb]
  have hbuf := unescapedBuffer_take s byte (Nat.le_refl s.index)
  have hget := unescapedBuffer_getElem? hb
  have hdrop := (unescapedBuffer_drop s byte s.readLen).trans htodo
  have hlen' : s.readLen ≤ (s.unescapedBuffer byte).length := by
    rw [unescapedBuffer_length]
    exact hlen
  by_cases h3 : s.channelPrefix = true
  · rw [if_pos h3, if_pos (show s.view.pre = true from h3)]
    obtain ⟨hc, hs, hp, he⟩ := writeToChannel_frame
      { s.toBridgeState with escapePrefix := false } s.sinkChannel (s.unescapedBuffer byte) s.head
      (s.index - 1)
    refine ⟨?_, hdrop, Nat.le_refl _, hlt, hlen'⟩
    apply Demux.ext
    · exact hc
    · rfl
    · rfl
    · exact he
    · exact hfresh
    · exact List.drop_eq_nil_of_le (List.length_take_le _ _)
    · show (BridgeState.writeToChannel _ _ _ _ _).accepted = _
      rw [writeToChannel_accepted, unescapedBuffer_take s byte (Nat.sub_le _ _),
        take_drop_dropLast hwf hlt]
      rfl
  rw [if_neg h3, if_neg (show ¬ s.view.pre = true from h3)]
  have hpre : s.channelPrefix = false := by simpa using h3
  have hmark : ¬ (s.sinkIsRaw = true ∧ IsMark (unescapeIf s.escapePrefix byte)) := by
    rintro ⟨hr, hm⟩
    exact hreg ⟨hr, h1, .inr ⟨hpre, hm⟩⟩
  rw [if_neg hmark, hraw]
  refine ⟨?_, hdrop, Nat.le_succ_of_le hhead, hlt, hlen'⟩
  show Demux.mk _ _ _ _ (decide (s.index + 1 = 0))
    (((s.unescapedBuffer byte).take (s.index + 1)).drop s.head) _ = _
  rw [hfresh, take_drop_next hwf hlt hbuf hget]
  by_cases hr : s.sinkIsRaw = true
  · have hnot : ¬ IsMark (unescapeIf s.view.esc byte) := fun hm => hmark ⟨hr, hm⟩
    rw [if_pos hr, if_pos hr, if_neg hnot]
    rfl
  · rw [if_neg hr, if_neg hr]
    rfl

theorem memmoveDown_zero (buffer : List UInt8) : memmoveDown buffer 0 = buffer := rfl

theorem finish_view (s : Scan σ) :
    s.finish.view =
      { s.view with fresh := true, pend := [],
                    accepted := s.accepted ++
                      tagged s.sinkChannel ((s.buffer.take s.readLen).drop s.head) } := by
  obtain ⟨hc, hs, hp, he⟩ :=
    writeToChannel_frame s.toBridgeState s.sinkChannel s.buffer s.head s.readLen
  apply Demux.ext
  · exact hc
  · exact hs
  · exact hp
  · exact he
  · rfl
  · rfl
  · exact writeToChannel_accepted _ _ _ _ _

/-- At the end of the buffer. -/
theorem finish_view_of_todo_nil (hwf : s.Wf) (h : s.todo = []) :
    s.finish.view = s.view.flush := by
  have hend : s.index = s.readLen := by
    have hlen : s.todo.length = 0 := by rw [h]; rfl
    have := hwf.readLen_le
    have := hwf.index_le
    unfold todo at hlen
    rw [List.length_drop, List.length_take] at hlen
    omega
  rw [finish_view, ← hend]
  rfl

/-- The last byte of the buffer is taken out: nothing has to be moved. -/
theorem round_last (hwf : s.Wf) (h : s.todo = [byte]) (hspec : s.view.Special byte) :
    (s.round byte).readLen ≤ (s.round byte).index ∧
      (s.round byte).finish.view = (s.view.feed byte).flush := by
  obtain ⟨hb, hlt⟩ := getElem?_of_todo h
  have hlen := hwf.readLen_le
  have hlast : s.readLen = s.index + 1 := by
    have hone : s.todo.length = 1 := by rw [h]; rfl
    unfold todo at hone
    rw [List.length_drop, List.length_take] at hone
    omega
  have hzero : s.readLen - 1 - s.index = 0 := by omega
  have hend : s.readLen - 1 = s.index := by omega
  obtain ⟨hraw, hc, hm⟩ := hspec
  have hraw' : s.sinkIsRaw = true := hraw
  unfold round Demux.feed
  rw [if_neg hc, if_neg hc]
  by_cases h2 : byte = astEscapePrefix
  · rw [if_pos h2, if_pos h2, if_pos hraw', if_pos hraw]
    refine ⟨?_, ?_⟩
    · show s.readLen - 1 ≤ s.index + 1
      omega
    · rw [finish_view]
      show Demux.mk _ _ _ _ _ _ (_ ++ tagged _ ((List.take (s.readLen - 1)
        (memmoveDown s.buffer (s.readLen - 1 - s.index))).drop s.head)) = _
      rw [hzero, hend, memmoveDown_zero]
      rfl
  · obtain ⟨hpre, hmark⟩ := hm.resolve_left h2
    have hpre' : ¬ s.channelPrefix = true := by
      have hpre'' : s.channelPrefix = false := hpre
      simp [hpre'']
    rw [if_neg h2, if_neg h2, if_neg hpre', if_neg (show ¬ s.view.pre = true from hpre'),
      if_pos ⟨hraw', hmark⟩, if_pos hraw, if_pos hmark, useEscape_eq hb]
    refine ⟨?_, ?_⟩
    · show s.readLen - 1 ≤ s.index + 1
      omega
    · rw [finish_view]
      show Demux.mk _ _ _ _ _ _ (_ ++ tagged _ ((List.take (s.readLen - 1)
        (memmoveDown (s.unescapedBuffer byte) (s.readLen - 1 - s.index))).drop s.head)) = _
      rw [hzero, hend, memmoveDown_zero, unescapedBuffer_take s byte (Nat.le_refl _)]
      rfl

/-- The loop over a regular rest of a read. -/
theorem loop_view {fuel : ℕ} (hfuel : s.todo.length ≤ fuel) (hwf : s.Wf)
    (hreg : s.view.Regular s.todo) :
    (s.loop fuel).finish.view = (s.todo.foldl Demux.feed s.view).flush := by
  induction fuel generalizing s with
  | zero =>
    have hnil : s.todo = [] := List.length_eq_zero_iff.mp (Nat.le_zero.mp hfuel)
    rw [loop, finish_view_of_todo_nil hwf hnil, hnil]
    rfl
  | succ fuel ih =>
    cases htodo : s.todo with
    | nil =>
      have hend : ¬ s.index < s.readLen := by
        intro hlt
        have hnil := congrArg List.length htodo
        have := hwf.readLen_le
        unfold todo at hnil
        rw [List.length_drop, List.length_take] at hnil
        simp only [List.length_nil] at hnil
        omega
      rw [loop, if_neg hend, finish_view_of_todo_nil hwf htodo]
      rfl
    | cons byte rest =>
      obtain ⟨hb, hlt⟩ := getElem?_of_todo htodo
      rw [htodo] at hreg hfuel
      obtain ⟨hspec, hreg⟩ := hreg
      rw [loop, if_pos hlt, hb]
      show ((s.round byte).loop fuel).finish.view = (rest.foldl Demux.feed (s.view.feed byte)).flush
      by_cases hs : s.view.Special byte
      · obtain rfl := hspec hs
        obtain ⟨hend, hfin⟩ := round_last hwf htodo hs
        have hstop : (s.round byte).loop fuel = s.round byte := by
          cases fuel with
          | zero => rfl
          | succ fuel => rw [loop, if_neg (by omega)]
        rw [hstop, hfin]
        rfl
      · obtain ⟨hview, htodo', hwf'⟩ := round_view hwf htodo hs
        rw [← hview, ← htodo']
        refine ih ?_ hwf' ?_
        · rw [htodo']
          exact Nat.le_of_succ_le_succ hfuel
        · rw [htodo', hview]
          exact hreg

/-- A mark at the start of the buffer: everything moves to its place, and the byte behind the mark
is passed over. -/
theorem round_skip {mark next : UInt8} (hbuf : s.buffer = mark :: next :: rest)
    (hidx : s.index = 0) (hhead : s.head = 0) (hlen : s.readLen = rest.length + 2)
    (hspec : s.view.Special mark) (hmark : IsMark mark) (hnext : astNeedsEscape next = false) :
    (s.round mark).view = (s.view.feed mark).feed next ∧ (s.round mark).todo = rest ∧
      (s.round mark).Wf := by
  obtain ⟨he, hp⟩ := hspec.of_mark hmark
  have he' : s.escapePrefix = false := he
  have hp' : s.channelPrefix = false := hp
  obtain ⟨hraw, hc, -⟩ := hspec
  have hraw' : s.sinkIsRaw = true := hraw
  have h2 : mark ≠ astEscapePrefix := by rcases hmark with rfl | rfl <;> decide
  obtain ⟨n1, n2, n3, n4⟩ := astNeedsEscape_eq_false.mp hnext
  have hmove : memmoveDown s.buffer (s.readLen - 1 - s.index) =
      next :: (rest ++ (mark :: next :: rest).drop (rest.length + 1)) := by
    rw [hbuf, hidx, hlen, memmoveDown]
    have hn : rest.length + 2 - 1 - 0 = (next :: rest).length := rfl
    rw [hn, List.drop_one, List.tail_cons, List.take_length]
    rfl
  have hround : s.round mark = { s with
      buffer := next :: (rest ++ (mark :: next :: rest).drop (rest.length + 1))
      index := 1
      readLen := rest.length + 1 } := by
    unfold round useEscape
    rw [if_neg hc, if_neg h2, if_neg (by simp [hp']), unescapeIf, he', if_neg Bool.false_ne_true,
      if_pos ⟨hraw', hmark⟩, if_neg Bool.false_ne_true]
    unfold dropSpecial Scan.next
    rw [hmove, hidx, hlen]
    rfl
  have hpend : s.pend = [] := by
    unfold pend
    rw [hidx, List.take_zero, List.drop_nil]
  refine ⟨?_, ?_, ?_⟩
  · have hfeed := Demux.feed_mark s.view hmark hp he hraw
    have hfeed' := Demux.feed_raw { s.view with esc := false, fresh := false } n3 n4 hp hraw
      (show ¬ IsMark next from fun h => h.elim n1 n2)
    rw [hfeed, hfeed', hround]
    apply Demux.ext
    · rfl
    · rfl
    · rfl
    · exact he
    · rfl
    · show (List.take 1 (next :: _)).drop s.head = s.pend ++ [next]
      rw [hhead, hpend]
      rfl
    · rfl
  · rw [hround]
    show ((next :: (rest ++ _)).take (rest.length + 1)).drop 1 = rest
    rw [List.take_succ_cons, List.take_left, List.drop_one, List.tail_cons]
  · rw [hround]
    refine ⟨?_, ?_, ?_⟩
    · show s.head ≤ 1
      omega
    · show 1 ≤ rest.length + 1
      omega
    · show rest.length + 1 ≤ (next :: (rest ++ _)).length
      rw [List.length_cons, List.length_append]
      omega

end Scan

/-! ## Reads -/

theorem tagged_nil (channel : Option (Channel σ)) : tagged channel [] = [] := by
  cases channel <;> rfl

namespace BridgeState

variable {s : BridgeState σ}

theorem startScan_view (s : BridgeState σ) (read : List UInt8) :
    (s.startScan read).view = s.view := by
  apply Demux.ext <;> rfl

theorem startScan_todo (s : BridgeState σ) (read : List UInt8) : (s.startScan read).todo = read := by
  show (read.take read.length).drop 0 = read
  rw [List.take_length, List.drop_zero]

theorem startScan_wf (s : BridgeState σ) (read : List UInt8) : (s.startScan read).Wf :=
  ⟨Nat.le_refl _, Nat.zero_le _, Nat.le_refl _⟩

/-- A regular read, or one that is regular behind the mark it starts with. -/
theorem service_view {read : List UInt8}
    (hreg : s.view.Regular read ∨ ∃ mark next rest, read = mark :: next :: rest ∧
      s.view.Special mark ∧ IsMark mark ∧ astNeedsEscape next = false ∧
      ((s.view.feed mark).feed next).Regular rest) :
    (s.peridotSwHostbridgeGen2Service read).view = (read.foldl Demux.feed s.view).flush := by
  unfold peridotSwHostbridgeGen2Service
  split_ifs with hlen
  · obtain rfl := List.length_eq_zero_iff.mp hlen
    show _ = Demux.mk _ _ _ _ _ _ _
    rw [List.foldl_nil]
    show _ = Demux.mk _ _ _ _ _ _ (_ ++ tagged _ [])
    rw [tagged_nil, List.append_nil]
    rfl
  · rcases hreg with hreg | ⟨mark, next, rest, rfl, hspec, hmark, hnext, hreg⟩
    · have htodo := startScan_todo s read
      rw [Scan.loop_view (Nat.le_of_eq (congrArg _ htodo)) (startScan_wf s read)
        (by rw [startScan_view, htodo]; exact hreg), startScan_view, htodo]
    · have hview := startScan_view s (mark :: next :: rest)
      rw [← hview] at hspec hreg ⊢
      obtain ⟨hv, ht, hwf⟩ := Scan.round_skip (s := s.startScan (mark :: next :: rest)) rfl rfl rfl
        rfl hspec hmark hnext
      have hloop : (s.startScan (mark :: next :: rest)).loop (mark :: next :: rest).length =
          ((s.startScan (mark :: next :: rest)).round mark).loop (rest.length + 1) := rfl
      rw [hloop, Scan.loop_view (by rw [ht]; exact Nat.le_succ _) hwf (by rw [hv, ht]; exact hreg),
        hv, ht]
      rfl

/-- A read that is part of a regular stream. -/
theorem service_view_of_stream {read : List UInt8} {later : List (UInt8 × Bool)}
    (h : s.view.RegularStream (markRead read ++ later)) :
    (s.peridotSwHostbridgeGen2Service read).view = (markRead read).foldl Demux.step s.view := by
  cases read with
  | nil => rfl
  | cons byte rest =>
    rw [Demux.foldl_markRead _ (List.cons_ne_nil _ _)]
    apply service_view
    obtain ⟨hspec, hlater⟩ := h
    have hrest : rest ≠ [] → s.view.step (byte, rest.isEmpty) = s.view.feed byte := by
      intro hne
      exact if_neg (by simpa using hne)
    by_cases hskip : s.view.Special byte ∧ rest ≠ []
    · -- only the start of the read can be a special byte that is not the last one
      obtain ⟨hs, hne⟩ := hskip
      rw [hrest hne] at hlater
      obtain ⟨next, rest', rfl⟩ := List.exists_cons_of_ne_nil hne
      obtain ⟨-, hmark, next', later', heq, hnext⟩ := (hspec hs).resolve_left (by simp)
      obtain ⟨rfl, -⟩ := List.cons.inj heq
      refine .inr ⟨byte, next, rest', rfl, hs, hmark, hnext, ?_⟩
      cases rest' with
      | nil => trivial
      | cons _ _ => exact Demux.regular_of_stream (Demux.feed_fresh _ _) hlater.2
    · refine .inl ⟨fun hs => ?_, ?_⟩
      · by_contra hne
        exact hskip ⟨hs, hne⟩
      · cases rest with
        | nil => trivial
        | cons _ _ => exact Demux.regular_of_stream (Demux.feed_fresh _ _) hlater

/-- **Service.** On a regular stream, the service does what it should, however the stream is cut
into reads. -/
theorem serve_view (reads : List (List UInt8)) (h : s.view.RegularStream (marked reads)) :
    (s.serve reads).view = (marked reads).foldl Demux.step s.view := by
  induction reads generalizing s with
  | nil => rfl
  | cons read reads ih =>
    have hcons : marked (read :: reads) = markRead read ++ marked reads := List.flatMap_cons
    rw [hcons] at h ⊢
    have hread := service_view_of_stream h
    rw [List.foldl_append, ← hread]
    apply ih
    rw [hread]
    exact h.append

end BridgeState

end OlivePiccolo.Hostbridge
