import OlivePiccolo.Hostbridge.Ast
import OlivePiccolo.Library.PartialWrite

/-!
# The sending side

`peridot_sw_hostbridge_gen2_source` sends a payload on a channel: the channel prefix when the
channel has changed, then the payload in buffers of `WRITE_BUFFER_LEN` bytes, escaped and, for a
packet, with its start and end marks. `source_round_trip`: the stream of any calls, decoded, has
the payloads of the calls.

The buffers do not matter, since a stream is decoded byte by byte: `sendLoop` writes
`body packetize payload`, however it is cut (`sendLoop_sent`). Each call leaves the decoder where it
was, with the channel of the call (`AtChannel`).
-/

namespace OlivePiccolo.Hostbridge

/-! ## The code -/

/-- `WRITE_BUFFER_LEN`. -/
def writeBufferLen : ℕ := 128

/-- `HOSTBRIDGE_GEN2_SOURCE_PACKETIZED`. -/
def sourcePacketized : ℕ := 1 <<< 0

/-- `HOSTBRIDGE_GEN2_SOURCE_RESET`. -/
def sourceReset : ℕ := 1 <<< 1

/-- The fields of the state the sending side works on, and what the host has been sent. -/
structure SourceState (σ : Type*) where
  /-- `source_channel_number`, -1 before the first call. -/
  sourceChannelNumber : ℤ
  /-- The state of the host device. -/
  host : σ
  sent : List UInt8

/-- The fields of `hostbridge_channel` that the sending side reads. -/
structure SourceChannel where
  number : UInt8
  packetized : Bool
  deriving DecidableEq, Repr

section Code

variable {σ : Type*} (dev : Device σ UInt8)

/-- The state after `peridot_sw_hostbridge_gen2_init`. -/
def SourceState.init (host : σ) : SourceState σ := ⟨-1, host, []⟩

/-- `write_to_host`. -/
def writeToHost (s : SourceState σ) (bytes : List UInt8) : SourceState σ :=
  { s with host := (dev.writeAll s.host bytes).1, sent := s.sent ++ (dev.writeAll s.host bytes).2 }

/-- Send the channel prefix, if the channel has changed or a reset is asked for. -/
def selectChannel (s : SourceState σ) (number : UInt8) (flags : ℕ) : SourceState σ :=
  if (number.toNat : ℤ) ≠ s.sourceChannelNumber ∨ flags &&& sourceReset ≠ 0 then
    { writeToHost dev s (channelHeader number) with sourceChannelNumber := number.toNat }
  else s

/-- The end mark, in front of the last byte of a packet. -/
def endMark (packetize : ℤ) (rest : List UInt8) : List UInt8 :=
  if packetize ≠ 0 ∧ rest = [] then [astEopPrefix] else []

/-- The inner loop: fill the buffer while it has less than `WRITE_BUFFER_LEN` bytes. The buffer
and the bytes that are left over are returned. -/
def fillBuffer (packetize : ℤ) : List UInt8 → List UInt8 → List UInt8 × List UInt8
  | buffer, [] => (buffer, [])
  | buffer, byte :: rest =>
    if buffer.length < writeBufferLen then
      fillBuffer packetize (buffer ++ endMark packetize rest ++ astEscape byte) rest
    else (buffer, byte :: rest)

/-- The first bytes of a buffer: the start mark, for the first buffer of a packet. -/
def startMark (packetize : ℤ) : List UInt8 := if 0 < packetize then [astSop] else []

/-- `packetize`, once the start mark has been sent. -/
def afterStart (packetize : ℤ) : ℤ := if 0 < packetize then -1 else packetize

theorem fillBuffer_length (packetize : ℤ) (buffer src : List UInt8) :
    (fillBuffer packetize buffer src).2.length ≤ src.length := by
  induction src generalizing buffer with
  | nil => exact Nat.le_refl _
  | cons byte rest ih =>
    rw [fillBuffer]
    split_ifs
    · exact Nat.le_trans (ih _) (Nat.le_succ _)
    · exact Nat.le_refl _

/-- A buffer takes at least one byte. -/
theorem fillBuffer_startMark_length (packetize : ℤ) {src : List UInt8} (h : src ≠ []) :
    (fillBuffer (afterStart packetize) (startMark packetize) src).2.length < src.length := by
  obtain ⟨byte, rest, rfl⟩ := List.exists_cons_of_ne_nil h
  have hlen : (startMark packetize).length < writeBufferLen := by
    unfold startMark
    split_ifs <;> decide
  rw [fillBuffer, if_pos hlen, List.length_cons]
  exact Nat.lt_succ_of_le (fillBuffer_length _ _ _)

/-- The last byte of a packet, which looks like a start mark. -/
example : fillBuffer (-1) [astSop] [0x7a] = ([0x7a, 0x7b, 0x7d, 0x5a], []) := by decide

/-- The outer loop: one buffer after the other. -/
def sendLoop (s : SourceState σ) (packetize : ℤ) (src : List UInt8) : SourceState σ :=
  if src = [] then s
  else
    sendLoop
      (writeToHost dev s (fillBuffer (afterStart packetize) (startMark packetize) src).1)
      (afterStart packetize) (fillBuffer (afterStart packetize) (startMark packetize) src).2
termination_by src.length
decreasing_by exact fillBuffer_startMark_length packetize ‹_›

/-- The initial value of `packetize`. -/
def initialPacketize (flags : ℕ) : ℤ := if flags &&& sourcePacketized ≠ 0 then 1 else 0

/-- `peridot_sw_hostbridge_gen2_source`, with the lock held all along. It always returns 0. -/
def peridotSwHostbridgeGen2Source (s : SourceState σ) (channel : SourceChannel)
    (payload : List UInt8) (flags : ℕ) : SourceState σ × ℤ :=
  if channel.packetized = true ∧ initialPacketize flags = 0 then
    (writeToHost dev (selectChannel dev s channel.number flags) payload, 0)
  else
    (sendLoop dev (selectChannel dev s channel.number flags) (initialPacketize flags) payload, 0)

end Code

/-! ## Calls and what they mean -/

/-- A call of `peridot_sw_hostbridge_gen2_source`: a packetized channel asks for packets. -/
structure SourceCall where
  channel : SourceChannel
  payload : List UInt8
  flags : ℕ
  packetized_flag : channel.packetized = true → flags &&& sourcePacketized ≠ 0

namespace SourceCall

/-- The call sends a packet. -/
def isPacket (c : SourceCall) : Bool := c.flags &&& sourcePacketized ≠ 0

/-- The data bytes of a packet, or of plain data, behind its first byte. -/
def tailBeats (number : UInt8) (packet : Bool) : List UInt8 → List Beat
  | [] => []
  | byte :: rest => ⟨some number, byte, false, packet && rest.isEmpty⟩ :: tailBeats number packet rest

/-- What a call stands for: its payload, as one packet if it is one. -/
def beats (c : SourceCall) : List Beat :=
  match c.payload with
  | [] => []
  | byte :: rest =>
    ⟨some c.channel.number, byte, c.isPacket, c.isPacket && rest.isEmpty⟩ ::
      tailBeats c.channel.number c.isPacket rest

/-- Make the calls one after the other. -/
def runAll {σ : Type*} (dev : Device σ UInt8) (s : SourceState σ) (calls : List SourceCall) :
    SourceState σ :=
  calls.foldl (fun s c => (peridotSwHostbridgeGen2Source dev s c.channel c.payload c.flags).1) s

end SourceCall

/-! ## What is sent -/

section Sent

variable {σ : Type*} {dev : Device σ UInt8}

@[simp] theorem writeToHost_sent (s : SourceState σ) (bytes : List UInt8) :
    (writeToHost dev s bytes).sent = s.sent ++ bytes := by
  unfold writeToHost; rw [Device.writeAll_taken]

/-- The payload as it is sent, behind the start mark. -/
def body (packetize : ℤ) : List UInt8 → List UInt8
  | [] => []
  | byte :: rest => endMark packetize rest ++ astEscape byte ++ body packetize rest

/-- What is in the buffer and what is left over make up the whole. -/
theorem fillBuffer_body (packetize : ℤ) (buffer src : List UInt8) :
    (fillBuffer packetize buffer src).1 ++ body packetize (fillBuffer packetize buffer src).2 =
      buffer ++ body packetize src := by
  induction src generalizing buffer with
  | nil => rfl
  | cons byte rest ih =>
    rw [fillBuffer]
    split_ifs
    · rw [ih, body]
      simp only [List.append_assoc]
    · rfl

/-- The buffers together: the start mark of a packet, and the payload. -/
theorem sendLoop_sent (s : SourceState σ) (packetize : ℤ) {src : List UInt8} (h : src ≠ []) :
    (sendLoop dev s packetize src).sent =
      s.sent ++ (startMark packetize ++ body (afterStart packetize) src) := by
  induction s, packetize, src using sendLoop.induct dev with
  | case1 => exact absurd rfl h
  | case2 s packetize src _ ih =>
    have hfill := fillBuffer_body (afterStart packetize) (startMark packetize) src
    rw [sendLoop, if_neg h, ← hfill]
    have hstart : startMark (afterStart packetize) = [] := by
      unfold startMark afterStart
      split_ifs <;> first | rfl | omega
    have hafter : afterStart (afterStart packetize) = afterStart packetize := by
      unfold afterStart
      split_ifs <;> rfl
    by_cases hrest : (fillBuffer (afterStart packetize) (startMark packetize) src).2 = []
    · rw [sendLoop, if_pos hrest, writeToHost_sent, hrest, body, List.append_nil]
    · rw [ih hrest, writeToHost_sent, hstart, hafter, List.nil_append, List.append_assoc]

theorem sendLoop_sourceChannelNumber (s : SourceState σ) (packetize : ℤ) (src : List UInt8) :
    (sendLoop dev s packetize src).sourceChannelNumber = s.sourceChannelNumber := by
  induction s, packetize, src using sendLoop.induct dev with
  | case1 => rw [sendLoop, if_pos rfl]
  | case2 s packetize src h ih => rw [sendLoop, if_neg h, ih]; rfl

end Sent

/-! ## Decoding it -/

/-- The decoder is between two data bytes, on the channel that the sending side remembers. -/
structure AtChannel (d : Decoder) (number : ℤ) : Prop where
  pre : d.pre = false
  esc : d.esc = false
  sop : d.sop = false
  eop : d.eop = false
  channel : 0 ≤ number → ∃ n : UInt8, d.channel = some n ∧ (n.toNat : ℤ) = number

section Decoding

variable {d : Decoder} {number : UInt8}

/-- The decoder on a channel, between two data bytes. -/
def onChannel (number : UInt8) (beats : List Beat) : Decoder :=
  ⟨some number, false, false, false, false, beats⟩

theorem run_endMark (packetize : ℤ) (sop : Bool) (beats : List Beat) (rest : List UInt8) :
    Decoder.run ⟨some number, false, false, sop, false, beats⟩ (endMark packetize rest) =
      ⟨some number, false, false, sop, decide (packetize ≠ 0) && rest.isEmpty, beats⟩ := by
  unfold endMark
  split_ifs with h
  · obtain ⟨hp, rfl⟩ := h
    rw [decide_eq_true hp]
    rfl
  · have hand : (decide (packetize ≠ 0) && rest.isEmpty) = false := by
      rw [Bool.and_eq_false_iff]
      by_cases hp : packetize = 0
      · exact .inl (by rw [decide_eq_false]; exact not_not.mpr hp)
      · exact .inr (by simpa using fun hr => h ⟨hp, hr⟩)
    rw [hand]
    rfl

/-- One data byte, with its end mark. -/
theorem run_byte (packetize : ℤ) (sop : Bool) (beats : List Beat) (byte : UInt8)
    (rest : List UInt8) :
    Decoder.run ⟨some number, false, false, sop, false, beats⟩
        (endMark packetize rest ++ astEscape byte) =
      onChannel number
        (beats ++ [⟨some number, byte, sop, decide (packetize ≠ 0) && rest.isEmpty⟩]) := by
  rw [Decoder.run_append, run_endMark, Decoder.run_astEscape _ rfl]
  rfl

/-- The payload behind its first byte. -/
theorem run_body (packetize : ℤ) (beats : List Beat) (src : List UInt8) :
    (onChannel number beats).run (body packetize src) =
      onChannel number
        (beats ++ SourceCall.tailBeats number (decide (packetize ≠ 0)) src) := by
  induction src generalizing beats with
  | nil => rw [SourceCall.tailBeats, List.append_nil]; rfl
  | cons byte rest ih =>
    rw [body, Decoder.run_append]
    show Decoder.run (Decoder.run ⟨_, _, _, _, _, _⟩ _) _ = _
    rw [run_byte, ih, SourceCall.tailBeats, List.append_assoc, List.singleton_append]

/-- The channel prefix with its number. -/
theorem run_channelHeader {z : ℤ} (h : AtChannel d z) (number : UInt8) :
    d.run (channelHeader number) = onChannel number d.beats := by
  show ({ d with pre := true } : Decoder).run (astEscape number) = _
  rw [Decoder.run_astEscape { d with pre := true } h.esc, Decoder.data, if_pos rfl, onChannel,
    h.sop, h.eop]

/-- Where no channel prefix is needed, the decoder is on the channel already. -/
theorem AtChannel.eq_onChannel (h : AtChannel d number.toNat) : d = onChannel number d.beats := by
  obtain ⟨n, hn, hnum⟩ := h.channel (Int.natCast_nonneg _)
  have heq : n = number := UInt8.toNat_inj.mp (Int.ofNat_inj.mp hnum)
  subst heq
  obtain ⟨pre, esc, sop, eop, -⟩ := h
  cases d
  simp_all [onChannel]

theorem atChannel_onChannel (number : UInt8) (beats : List Beat) :
    AtChannel (onChannel number beats) number.toNat :=
  ⟨rfl, rfl, rfl, rfl, fun _ => ⟨number, rfl, rfl⟩⟩

end Decoding

section Calls

variable {σ : Type*} {dev : Device σ UInt8}

/-- The channel prefix, if it is sent, and if it is not. -/
theorem selectChannel_sent (dev : Device σ UInt8) {d : Decoder} {s : SourceState σ}
    (h : AtChannel d s.sourceChannelNumber) (number : UInt8) (flags : ℕ) :
    ∃ bytes, (selectChannel dev s number flags).sent = s.sent ++ bytes ∧
      d.run bytes = onChannel number d.beats ∧
      (selectChannel dev s number flags).sourceChannelNumber = number.toNat := by
  unfold selectChannel
  split_ifs with hc
  · exact ⟨channelHeader number, writeToHost_sent _ _, run_channelHeader h number, rfl⟩
  · have hnum : (number.toNat : ℤ) = s.sourceChannelNumber := by
      by_contra hne
      exact hc (.inl hne)
    rw [← hnum] at h
    exact ⟨[], (List.append_nil _).symm, h.eq_onChannel, hnum.symm⟩

/-- A packet, or plain data, from its first byte on. -/
theorem run_payload (c : SourceCall) (hne : c.payload ≠ []) (beats : List Beat) :
    (onChannel c.channel.number beats).run (startMark (initialPacketize c.flags) ++
        body (afterStart (initialPacketize c.flags)) c.payload) =
      onChannel c.channel.number (beats ++ c.beats) := by
  obtain ⟨byte, rest, hpay⟩ := List.exists_cons_of_ne_nil hne
  have hstart : (onChannel c.channel.number beats).run (startMark (initialPacketize c.flags)) =
      ⟨some c.channel.number, false, false, c.isPacket, false, beats⟩ := by
    unfold SourceCall.isPacket initialPacketize
    by_cases hf : c.flags &&& sourcePacketized ≠ 0
    · rw [if_pos hf, decide_eq_true hf]
      rfl
    · rw [if_neg hf, decide_eq_false hf]
      rfl
  have hflag : decide (afterStart (initialPacketize c.flags) ≠ 0) = c.isPacket := by
    unfold SourceCall.isPacket initialPacketize
    by_cases hf : c.flags &&& sourcePacketized ≠ 0
    · rw [if_pos hf, decide_eq_true hf]
      rfl
    · rw [if_neg hf, decide_eq_false hf]
      rfl
  rw [Decoder.run_append, hstart, hpay, body, Decoder.run_append, run_byte, run_body, hflag,
    SourceCall.beats, hpay, List.append_assoc, List.singleton_append]

/-- One call: what it sends stands for its payload. -/
theorem source_sent (dev : Device σ UInt8) {d : Decoder} {s : SourceState σ}
    (h : AtChannel d s.sourceChannelNumber) (c : SourceCall) : ∃ bytes,
      (peridotSwHostbridgeGen2Source dev s c.channel c.payload c.flags).1.sent = s.sent ++ bytes ∧
      d.run bytes = onChannel c.channel.number (d.beats ++ c.beats) ∧
      (peridotSwHostbridgeGen2Source dev s c.channel c.payload c.flags).1.sourceChannelNumber =
        c.channel.number.toNat := by
  obtain ⟨header, hsent, hrun, hnum⟩ :=
    selectChannel_sent dev h c.channel.number c.flags
  have hnot : ¬ (c.channel.packetized = true ∧ initialPacketize c.flags = 0) := by
    rintro ⟨hp, h0⟩
    rw [initialPacketize, if_pos (c.packetized_flag hp)] at h0
    cases h0
  unfold peridotSwHostbridgeGen2Source
  rw [if_neg hnot]
  by_cases hpay : c.payload = []
  · refine ⟨header, ?_, ?_, ?_⟩
    · rw [hpay, sendLoop, if_pos rfl, hsent]
    · rw [hrun, SourceCall.beats, hpay, List.append_nil]
    · rw [sendLoop_sourceChannelNumber, hnum]
  · refine ⟨header ++ (startMark (initialPacketize c.flags) ++
      body (afterStart (initialPacketize c.flags)) c.payload), ?_, ?_, ?_⟩
    · rw [sendLoop_sent _ _ hpay, hsent, List.append_assoc]
    · rw [Decoder.run_append, hrun, run_payload c hpay]
    · rw [sendLoop_sourceChannelNumber, hnum]

/-- A run of calls. -/
theorem runAll_sent (dev : Device σ UInt8) {d : Decoder} {s : SourceState σ}
    (h : AtChannel d s.sourceChannelNumber) (calls : List SourceCall) :
    ∃ bytes, (SourceCall.runAll dev s calls).sent = s.sent ++ bytes ∧
      (d.run bytes).beats = d.beats ++ calls.flatMap SourceCall.beats := by
  induction calls generalizing d s with
  | nil => exact ⟨[], (List.append_nil _).symm, (List.append_nil _).symm⟩
  | cons c calls ih =>
    obtain ⟨bytes, hsent, hrun, hnum⟩ := source_sent dev h c
    have hat : AtChannel (d.run bytes)
        (peridotSwHostbridgeGen2Source dev s c.channel c.payload c.flags).1.sourceChannelNumber := by
      rw [hrun, hnum]
      exact atChannel_onChannel _ _
    obtain ⟨bytes', hsent', hrun'⟩ := ih hat
    refine ⟨bytes ++ bytes', ?_, ?_⟩
    · rw [← List.append_assoc, ← hsent]
      exact hsent'
    · rw [Decoder.run_append, hrun', hrun, List.flatMap_cons, ← List.append_assoc]
      rfl

end Calls

/-! ## The round trip -/

/-- The data bytes of a channel. -/
def dataOf (number : UInt8) (beats : List Beat) : List UInt8 :=
  (beats.filter (·.channel = some number)).map (·.data)

/-- The data of the calls on a channel. -/
def payloadOf (number : UInt8) (calls : List SourceCall) : List UInt8 :=
  (calls.filter (·.channel.number = number)).flatMap (·.payload)

theorem tailBeats_data (number : UInt8) (packet : Bool) (payload : List UInt8) :
    (SourceCall.tailBeats number packet payload).map (·.data) = payload := by
  induction payload with
  | nil => rfl
  | cons byte rest ih => rw [SourceCall.tailBeats, List.map_cons, ih]

theorem SourceCall.beats_data (c : SourceCall) : c.beats.map (·.data) = c.payload := by
  unfold SourceCall.beats
  cases c.payload with
  | nil => rfl
  | cons byte rest => rw [List.map_cons, tailBeats_data]

theorem tailBeats_channel (number : UInt8) (packet : Bool) (payload : List UInt8) :
    ∀ b ∈ SourceCall.tailBeats number packet payload, b.channel = some number := by
  induction payload with
  | nil => intro b hb; cases hb
  | cons byte rest ih =>
    intro b hb
    rcases List.mem_cons.mp hb with rfl | hb
    · rfl
    · exact ih b hb

theorem SourceCall.beats_channel (c : SourceCall) :
    ∀ b ∈ c.beats, b.channel = some c.channel.number := by
  unfold SourceCall.beats
  cases c.payload with
  | nil => intro b hb; cases hb
  | cons byte rest =>
    intro b hb
    rcases List.mem_cons.mp hb with rfl | hb
    · rfl
    · exact tailBeats_channel _ _ _ b hb

/-- Channel by channel, the calls stand for their payloads. -/
theorem dataOf_beats (number : UInt8) (calls : List SourceCall) :
    dataOf number (calls.flatMap SourceCall.beats) = payloadOf number calls := by
  induction calls with
  | nil => rfl
  | cons c calls ih =>
    unfold dataOf payloadOf at ih ⊢
    rw [List.flatMap_cons, List.filter_append, List.map_append, ih, List.filter_cons]
    by_cases hn : c.channel.number = number
    · have hall : c.beats.filter (·.channel = some number) = c.beats := by
        rw [List.filter_eq_self]
        intro b hb
        rw [c.beats_channel b hb, hn, decide_eq_true rfl]
      rw [hall, c.beats_data, if_pos (decide_eq_true hn), List.flatMap_cons]
    · have hnone : c.beats.filter (·.channel = some number) = [] := by
        rw [List.filter_eq_nil_iff]
        intro b hb
        rw [c.beats_channel b hb]
        simpa using hn
      rw [hnone, if_neg (by simpa using hn)]
      rfl

/-- **Round trip.** Whatever the calls, and whatever parts the host takes, the stream decodes to
the payloads of the calls: all of them in order, each packet with its marks, and so channel by
channel. -/
theorem source_round_trip {σ : Type*} (dev : Device σ UInt8) (host : σ)
    (calls : List SourceCall) :
    (Decoder.init.run (SourceCall.runAll dev (.init host) calls).sent).beats =
        calls.flatMap SourceCall.beats ∧
      ∀ number, dataOf number
        (Decoder.init.run (SourceCall.runAll dev (.init host) calls).sent).beats =
          payloadOf number calls := by
  have hinit : AtChannel Decoder.init (-1) :=
    ⟨rfl, rfl, rfl, rfl, fun h => absurd h (by decide)⟩
  obtain ⟨bytes, hsent, hrun⟩ :=
    runAll_sent dev (s := .init host) hinit calls
  have hbeats : (Decoder.init.run (SourceCall.runAll dev (.init host) calls).sent).beats =
      calls.flatMap SourceCall.beats := by
    rw [hsent]
    exact hrun
  refine ⟨hbeats, fun number => ?_⟩
  rw [hbeats, dataOf_beats]

end OlivePiccolo.Hostbridge
