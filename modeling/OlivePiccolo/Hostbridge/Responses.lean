import OlivePiccolo.Hostbridge.Avm

/-!
# The answers that reach the host

A packet without payload bytes is never sent: `peridot_sw_hostbridge_gen2_source` writes its marks
together with the bytes. So a read of no byte is not answered.

`responses_exact_iff`: each command of a stream gets the one response it asks for, and nothing else
is sent, unless there is a read of no byte within the window, or one that runs over the top of the
address space, among the commands.
-/

namespace OlivePiccolo.Hostbridge

/-! ## Packets at the host -/

/-- The packet in progress after one more data byte. Data outside a packet is none. -/
def growPacket (current : Option (List UInt8)) (b : Beat) : Option (List UInt8) :=
  if b.start then some [b.data] else current.map (· ++ [b.data])

/-- The complete packets of a channel; `current` is in progress. -/
def packetsOf (current : Option (List UInt8)) : List Beat → List (List UInt8)
  | [] => []
  | b :: rest =>
    if b.last then (growPacket current b).toList ++ packetsOf none rest
    else packetsOf (growPacket current b) rest

/-- A packet goes on to its last byte. -/
theorem packetsOf_tailBeats (number : UInt8) (current : List UInt8) {tail : List UInt8}
    (h : tail ≠ []) (later : List Beat) :
    packetsOf (some current) (SourceCall.tailBeats number true tail ++ later) =
      (current ++ tail) :: packetsOf none later := by
  induction tail generalizing current with
  | nil => exact absurd rfl h
  | cons byte rest ih =>
    rw [SourceCall.tailBeats, List.cons_append, packetsOf]
    cases rest with
    | nil => rfl
    | cons next rest =>
      have hrest := ih (current ++ [byte]) (List.cons_ne_nil _ _)
      rw [List.append_assoc] at hrest
      exact hrest

/-- A call sends one packet, if it has any bytes. -/
theorem packetsOf_beats {c : SourceCall} (hpacket : c.isPacket = true) (later : List Beat) :
    packetsOf none (c.beats ++ later) =
      if c.payload = [] then packetsOf none later else c.payload :: packetsOf none later := by
  unfold SourceCall.beats
  rw [hpacket]
  split
  · next hpay => rw [if_pos hpay]; rfl
  · next byte rest hpay =>
    rw [if_neg (by rw [hpay]; exact List.cons_ne_nil _ _), hpay, List.cons_append, packetsOf]
    cases rest with
    | nil => rfl
    | cons next rest =>
      exact packetsOf_tailBeats c.channel.number [byte] (List.cons_ne_nil next rest) later

/-- The packets of some calls. -/
theorem packetsOf_calls {calls : List SourceCall} (h : ∀ c ∈ calls, c.isPacket = true) :
    packetsOf none (calls.flatMap SourceCall.beats) =
      (calls.map (·.payload)).filter (· ≠ []) := by
  induction calls with
  | nil => rfl
  | cons c calls ih =>
    have hrest := ih fun c' hc' => h c' (List.mem_cons_of_mem _ hc')
    rw [List.flatMap_cons, packetsOf_beats (h c List.mem_cons_self), List.map_cons,
      List.filter_cons, hrest]
    by_cases hpay : c.payload = []
    · rw [if_pos hpay, if_neg (by simp [hpay])]
    · rw [if_neg hpay, if_pos (by simpa using hpay)]

/-! ## The responses -/

section Responses

variable {σ : Type*} (dev : Device σ UInt8) (host : σ) (mem : UInt32 → UInt8)

/-- What has been sent to the host once the sink has been handed the chunks. -/
def hostStream (chunks : List (List UInt8)) : List UInt8 :=
  (SourceCall.runAll dev (.init host) ((avmSinks .init chunks).2.map (AvmReply.call mem))).sent

/-- The packets that the host finds there on the channel `AST_CHANNEL_AVM`. -/
def responses (chunks : List (List UInt8)) : List (List UInt8) :=
  packetsOf none ((Decoder.init.run (hostStream dev host mem chunks)).beats.filter
    (·.channel = some 0x00))

/-- The packets with a payload, of those the sink has sent. -/
theorem responses_eq (chunks : List (List UInt8)) :
    responses dev host mem chunks =
      ((avmSinks .init chunks).2.map (AvmReply.payload mem)).filter (· ≠ []) := by
  have hall : ∀ b ∈ ((avmSinks .init chunks).2.map (AvmReply.call mem)).flatMap SourceCall.beats,
      decide (b.channel = some 0x00) = true := by
    intro b hb
    obtain ⟨c, hc, hbc⟩ := List.mem_flatMap.mp hb
    obtain ⟨r, -, rfl⟩ := List.mem_map.mp hc
    exact decide_eq_true (SourceCall.beats_channel _ b hbc)
  have hpacket : ∀ c ∈ (avmSinks .init chunks).2.map (AvmReply.call mem), c.isPacket = true := by
    intro c hc
    obtain ⟨r, -, rfl⟩ := List.mem_map.mp hc
    exact decide_eq_true ((AvmReply.call mem r).packetized_flag rfl)
  unfold responses hostStream
  rw [(source_round_trip dev host _).1, List.filter_eq_self.mpr hall, packetsOf_calls hpacket,
    List.map_map]
  rfl

end Responses

/-! ## What a command asks for -/

namespace Command

/-- The range lies in the readable window. -/
def InRange (p : List UInt8) : Prop :=
  avmReadableBase ≤ address p ∧ address p + size p ≤ avmReadableEnd

instance (p : List UInt8) : Decidable (InRange p) := inferInstanceAs (Decidable (_ ∧ _))

/-- What a command is to be answered with. -/
def response (mem : UInt32 → UInt8) (p : List UInt8) : List UInt8 :=
  if IsRead p then
    if InRange p then (List.range (size p)).map fun i => mem (UInt32.ofNat (address p + i))
    else [0]
  else [byteAt p 0 ^^^ 0x80, 0, 0, 0]

/-- It is no read of no byte within the window. If it is a read that runs over the top of the
address space, it is one of the topmost byte, which happens to be zero. -/
def Answerable (mem : UInt32 → UInt8) (p : List UInt8) : Prop :=
  ¬ (IsRead p ∧ InRange p ∧ size p = 0) ∧
    (Wraps p → size p = 1 ∧ mem (UInt32.ofNat (address p)) = 0)

instance (mem : UInt32 → UInt8) (p : List UInt8) : Decidable (Answerable mem p) :=
  inferInstanceAs (Decidable (_ ∧ _))

/-- The memory that a range names. -/
theorem payload_memory (mem : UInt32 → UInt8) (p : List UInt8) (reset : Bool) :
    AvmReply.payload mem ⟨.memory (UInt32.ofNat (address p)) (UInt16.ofNat (size p)), reset⟩ =
      (List.range (size p)).map fun i => mem (UInt32.ofNat (address p + i)) := by
  show ((List.range (UInt16.ofNat (size p)).toNat).map _).map mem = _
  rw [UInt16.toNat_ofNat', Nat.mod_eq_of_lt (size_lt p), List.map_map]
  refine List.map_congr_left fun i _ => ?_
  rw [UInt32.ofNat_add]
  rfl

/-- A range that does not run over the top is checked as it should be. -/
theorem accepted_iff {p : List UInt8} (h : address p + size p < 2 ^ 32) :
    Accepted p ↔ InRange p := by
  unfold Accepted InRange
  rw [Nat.mod_eq_of_lt h]

/-- One that does passes the check. -/
theorem Wraps.accepted {p : List UInt8} (h : Wraps p) : Accepted p ∧ ¬ InRange p := by
  have hsize := size_lt p
  have haddr := address_lt p
  have hover := h.2
  unfold Accepted InRange
  simp only [avmReadableBase, avmReadableEnd, avmReadableSpan]
  omega

/-- **One command.** It is answered with a response of at least one byte, and the right one, if and
only if it is answerable. -/
theorem answered_iff (mem : UInt32 → UInt8) (p : List UInt8) :
    (reply p).payload mem = response mem p ∧ response mem p ≠ [] ↔ Answerable mem p := by
  unfold reply data response
  by_cases hr : IsRead p
  · rw [if_pos hr, if_pos hr]
    by_cases hw : Wraps p
    · obtain ⟨hacc, hin⟩ := hw.accepted
      rw [if_pos hacc, if_neg hin, payload_memory]
      unfold Answerable
      rw [and_iff_left (List.cons_ne_nil _ _), and_iff_right fun h => hin h.2.1]
      constructor
      · intro heq _
        have hsize : size p = 1 := by
          have hlen := congrArg List.length heq
          rwa [List.length_map, List.length_range] at hlen
        rw [hsize] at heq
        exact ⟨hsize, (List.cons.inj heq).1⟩
      · intro h
        obtain ⟨hsize, hzero⟩ := h hw
        rw [hsize]
        show [mem (UInt32.ofNat (address p + 0))] = [0]
        rw [Nat.add_zero, hzero]
    · have hlt : address p + size p < 2 ^ 32 := Nat.lt_of_not_le fun h => hw ⟨hr, h⟩
      unfold Answerable
      rw [and_iff_left fun h => absurd h hw]
      by_cases hin : InRange p
      · rw [if_pos ((accepted_iff hlt).mpr hin), if_pos hin, payload_memory, and_iff_right rfl]
        simp only [hr, hin, true_and, ne_eq, List.map_eq_nil_iff, List.range_eq_nil]
      · rw [if_neg (mt (accepted_iff hlt).mp hin), if_neg hin]
        exact iff_of_true ⟨rfl, List.cons_ne_nil _ _⟩ fun h => hin h.2.1
  · rw [if_neg hr, if_neg hr]
    exact iff_of_true ⟨rfl, List.cons_ne_nil _ _⟩ ⟨fun h => hr h.1, fun h => absurd h.1 hr⟩

/-- The responses to some commands: all of them are right if and only if each one is. -/
theorem all_answered_iff (mem : UInt32 → UInt8) (ps : List (List UInt8)) :
    ((ps.map fun p => (reply p).payload mem).filter (· ≠ [])) = ps.map (response mem) ↔
      ∀ p ∈ ps, Answerable mem p := by
  constructor
  · intro heq
    have hlen : ((ps.map fun p => (reply p).payload mem).filter (· ≠ [])).length =
        (ps.map fun p => (reply p).payload mem).length := by
      rw [heq, List.length_map, List.length_map]
    have hne := List.length_filter_eq_length_iff.mp hlen
    rw [List.filter_eq_self.mpr hne, List.map_inj_left] at heq
    intro p hp
    refine (answered_iff mem p).mp ⟨heq p hp, ?_⟩
    rw [← heq p hp]
    simpa using hne _ (List.mem_map_of_mem hp)
  · intro h
    have hall : ∀ p ∈ ps, (reply p).payload mem = response mem p ∧ response mem p ≠ [] :=
      fun p hp => (answered_iff mem p).mpr (h p hp)
    rw [List.map_congr_left fun p hp => (hall p hp).1, List.filter_eq_self]
    intro l hl
    obtain ⟨p, hp, rfl⟩ := List.mem_map.mp hl
    exact decide_eq_true (hall p hp).2

end Command

/-! ## The commands of a stream -/

namespace Commands

/-- The packets that have been completed stay. -/
theorem feed_packets (d : Commands) (byte : UInt8) : d.packets <+: (d.feed byte).packets := by
  unfold feed data
  split_ifs
  all_goals first | exact List.prefix_rfl | exact List.prefix_append _ _

theorem run_packets (d : Commands) (bytes : List UInt8) : d.packets <+: (d.run bytes).packets := by
  induction bytes generalizing d with
  | nil => exact List.prefix_rfl
  | cons byte rest ih => exact (feed_packets d byte).trans (ih (d.feed byte))

/-- A part of a stream has a part of the commands. -/
theorem ofStream_prefix {bytes stream : List UInt8} (h : bytes <+: stream) :
    ofStream bytes <+: ofStream stream := by
  obtain ⟨later, rfl⟩ := h
  have hrun : init.run (bytes ++ later) = (init.run bytes).run later := List.foldl_append
  unfold ofStream
  rw [hrun]
  exact run_packets _ _

end Commands

/-- The responses to a stream are those of its commands. -/
theorem responses_ofStream {σ : Type*} (dev : Device σ UInt8) (host : σ) (mem : UInt32 → UInt8)
    (chunks : List (List UInt8)) :
    responses dev host mem chunks =
      ((Commands.ofStream chunks.flatten).map fun p => (Command.reply p).payload mem).filter
        (· ≠ []) := by
  rw [responses_eq, avmSinks_replies, List.map_map]
  rfl

/-- Nothing is sent while no command is completed. -/
theorem hostStream_of_ofStream {σ : Type*} (dev : Device σ UInt8) (host : σ)
    (mem : UInt32 → UInt8) {chunks chunks' : List (List UInt8)}
    (h : Commands.ofStream chunks'.flatten = Commands.ofStream chunks.flatten) :
    hostStream dev host mem chunks' = hostStream dev host mem chunks := by
  unfold hostStream
  rw [avmSinks_replies, avmSinks_replies, h]

/-- At every point of a stream, however it is cut, the host has received just the responses to the
commands that are complete. Nothing is sent in between. -/
def AnswersAll {σ : Type*} (dev : Device σ UInt8) (host : σ) (mem : UInt32 → UInt8)
    (stream : List UInt8) : Prop :=
  ∀ chunks : List (List UInt8), chunks.flatten <+: stream →
    responses dev host mem chunks =
        (Commands.ofStream chunks.flatten).map (Command.response mem) ∧
      ∀ later : List UInt8,
        Commands.ofStream (chunks ++ [later]).flatten = Commands.ofStream chunks.flatten →
          hostStream dev host mem (chunks ++ [later]) = hostStream dev host mem chunks

/-- **Every command is answered exactly once**, if and only if each command of the stream is
answerable. -/
theorem responses_exact_iff {σ : Type*} (dev : Device σ UInt8) (host : σ) (mem : UInt32 → UInt8)
    (stream : List UInt8) :
    AnswersAll dev host mem stream ↔
      ∀ p ∈ Commands.ofStream stream, Command.Answerable mem p := by
  constructor
  · intro h
    have hflat : [stream].flatten = stream := List.flatten_singleton
    have hall := (h [stream] (hflat.symm ▸ List.prefix_refl stream)).1
    rw [responses_ofStream, hflat] at hall
    exact (Command.all_answered_iff mem _).mp hall
  · intro h chunks hchunks
    refine ⟨?_, fun later hlater => hostStream_of_ofStream dev host mem hlater⟩
    rw [responses_ofStream]
    exact (Command.all_answered_iff mem _).mpr fun p hp =>
      h p ((Commands.ofStream_prefix hchunks).subset hp)

/-- A read of no byte at the start of the window is not answered. -/
theorem not_responses_exact : ¬ ∀ stream : List UInt8,
    AnswersAll Device.greedy () (fun _ => 0) stream := by
  intro h
  have hall := (h [0x7a, 0x14, 0, 0, 0, 0x10, 0, 0, 0x7b, 0]
    [[0x7a, 0x14, 0, 0, 0, 0x10, 0, 0, 0x7b, 0]] (by decide)).1
  rw [responses_ofStream] at hall
  exact absurd hall (by decide)

end OlivePiccolo.Hostbridge
