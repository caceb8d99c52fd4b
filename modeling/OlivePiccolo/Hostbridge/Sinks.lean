import OlivePiccolo.Hostbridge.Demux
import OlivePiccolo.Hostbridge.Pipe
import OlivePiccolo.Library.Errno

/-!
# Channels without a sink

`peridot_sw_hostbridge_gen2_mkpipe` registers a channel for every pipe, also for one without an
input. `dest.sink` of that channel is NULL, but the receiver finds it by its number like any other
and calls it for the first byte that arrives.

The registrations and the steps of the receiver are events of one machine, in any order. The sinks
that are called exist in just those runs in which no byte is left for a channel without a sink when
the next channel number, or the end of the read, comes (`sinks_exist_iff`).
-/

namespace OlivePiccolo.Hostbridge

open Runs

/-! ## Registration -/

/-- The state of the devices, and whether a function has been called through NULL. -/
structure World (σ : Type*) where
  devices : σ
  wild : Bool
  deriving DecidableEq

namespace World

variable {σ : Type*}

/-- A device as a part of the world. -/
def lift (d : Device σ UInt8) : Device (World σ) UInt8 where
  write w data := ({ w with devices := (d.write w.devices data).1 }, (d.write w.devices data).2)
  wait w := d.wait w.devices
  write_le w := d.write_le w.devices
  progress w := d.progress w.devices

/-- A call through NULL. What it would return does not matter. -/
def null : Device (World σ) UInt8 where
  write w data := ({ w with wild := true }, data.length)
  wait _ := 0
  write_le _ _ := Int.le_refl _
  progress _ data hne h := by
    have hpos := List.length_pos_iff.mpr hne
    have hle : (data.length : ℤ) ≤ 0 := h
    omega

end World

/-- `use_fd` and `dest` of a `hostbridge_channel` as its creator sets them: a descriptor, or a
function that may be NULL. -/
inductive Target (σ : Type*)
  | fd (dev : Device σ UInt8)
  | sink (function : Option (Device σ UInt8))

/-- Where the data of the channel goes. -/
def Target.dest {σ : Type*} : Target σ → Dest (World σ)
  | fd dev => .fd (World.lift dev)
  | sink (some dev) => .sink (World.lift dev)
  | sink none => .sink World.null

def O_RDONLY : ℕ := 0
def O_WRONLY : ℕ := 1
def O_RDWR : ℕ := 2

/-- The result of a call, and the list of the channels behind it. -/
abbrev Registered (σ : Type*) := ℤ × List (Channel (World σ))

/-- `peridot_sw_hostbridge_gen2_register_channel`. -/
def peridotSwHostbridgeGen2RegisterChannel {σ : Type*} (channels : List (Channel (World σ)))
    (channel : Channel (World σ)) : Registered σ :=
  if channels.any (·.number = channel.number) then (-EEXIST, channels)
  else (0, channels ++ [channel])

/-- An entry of `alt_fd_list` that belongs to a pipe: the number of its channel, and `fd_flags`. -/
structure PipeFd where
  channel : UInt8
  fdFlags : ℕ
  deriving DecidableEq, Repr

/-- The entries that a pipe gets. What they were for is closed. -/
def assignFds (fdList : ℤ → Option PipeFd) (channel : UInt8) (outputFd inputFd : ℤ) :
    ℤ → Option PipeFd := fun fd =>
  if 0 ≤ inputFd ∧ inputFd ≠ outputFd ∧ fd = inputFd then some ⟨channel, O_RDONLY⟩
  else if 0 ≤ outputFd ∧ fd = outputFd then
    some ⟨channel, if inputFd = outputFd then O_RDWR else O_WRONLY⟩
  else fdList fd

/-- `dest` of the channel of a pipe: it is set only if the pipe has an input. `pipeSink` is
`hostbridge_pipe_sink`, for the pipe of a channel with a capacity. -/
def pipeTarget {σ : Type*} (pipeSink : UInt8 → UInt32 → Device σ UInt8) (channel : UInt8)
    (inputFd : ℤ) (inputCapacity : UInt32) : Target σ :=
  .sink (if 0 ≤ inputFd then some (pipeSink channel (roundupPow2 inputCapacity)) else none)

/-- `peridot_sw_hostbridge_gen2_mkpipe`; `block` is whether `malloc` has one. -/
def peridotSwHostbridgeGen2Mkpipe {σ : Type*} (pipeSink : UInt8 → UInt32 → Device σ UInt8)
    (channels : List (Channel (World σ))) (fdList : ℤ → Option PipeFd) (channel : UInt8)
    (outputFd inputFd : ℤ) (inputCapacity : UInt32) (block : Bool) :
    Registered σ × (ℤ → Option PipeFd) :=
  if inputFd < 0 ∧ outputFd < 0 then ((-EINVAL, channels), fdList)
  else if !block then ((-ENOMEM, channels), fdList)
  else
    let registered := peridotSwHostbridgeGen2RegisterChannel channels
      ⟨channel, false, (pipeTarget pipeSink channel inputFd inputCapacity).dest⟩
    if registered.1 < 0 then (registered, fdList)
    else (registered, assignFds fdList channel outputFd inputFd)

/-! ## The receiver -/

variable {σ : Type*}

/-- The channels, and the receiver with the read it works on. -/
structure Receiver (σ : Type*) where
  scan : Scan (World σ)
  /-- The receiver is in the loop. -/
  busy : Bool
  fdList : ℤ → Option PipeFd

/-- One step of the services, or of the receiver. -/
inductive ReceiverEvent (σ : Type*)
  | registerChannel (channel : UInt8) (packetized : Bool) (target : Target σ)
  | mkpipe (channel : UInt8) (outputFd inputFd : ℤ) (inputCapacity : UInt32) (block : Bool)
  /-- The read from the host. -/
  | read (bytes : List UInt8)
  /-- One round of the loop. -/
  | round
  /-- The end of the loop, and what comes behind it. -/
  | finish

namespace Receiver

/-- The zero-initialised state. -/
def init (devices : σ) (fdList : ℤ → Option PipeFd) : Receiver σ where
  scan := (BridgeState.init [] ⟨devices, false⟩).startScan []
  busy := false
  fdList := fdList

/-- A function has been called through NULL. -/
def wild (r : Receiver σ) : Bool := r.scan.world.wild

/-- The byte of the next round. -/
def next (r : Receiver σ) : Option UInt8 :=
  if r.scan.index < r.scan.readLen then r.scan.buffer[r.scan.index]? else none

/-- Other channels. -/
def withChannels (r : Receiver σ) (channels : List (Channel (World σ))) : Receiver σ :=
  { r with scan := { r.scan with channels := channels } }

/-- One event, if it can happen. -/
def step (pipeSink : UInt8 → UInt32 → Device σ UInt8) (r : Receiver σ) :
    ReceiverEvent σ → Option (Receiver σ)
  | .registerChannel channel packetized target =>
    some (r.withChannels (peridotSwHostbridgeGen2RegisterChannel r.scan.channels
      ⟨channel, packetized, target.dest⟩).2)
  | .mkpipe channel outputFd inputFd inputCapacity block =>
    let made := peridotSwHostbridgeGen2Mkpipe pipeSink r.scan.channels r.fdList channel outputFd
      inputFd inputCapacity block
    some { r.withChannels made.1.2 with fdList := made.2 }
  | .read bytes =>
    if r.busy then none
    else if bytes = [] then some r
    else some { r with scan := r.scan.startScan bytes, busy := true }
  | .round =>
    if r.busy then r.next.map fun byte => { r with scan := r.scan.round byte } else none
  | .finish =>
    if r.busy ∧ r.next = none then
      some { r with scan := { r.scan with toBridgeState := r.scan.finish }, busy := false }
    else none

end Receiver

/-! ## The receiver is the service -/

namespace Scan

variable {s : Scan σ} {byte : UInt8}

/-- A channel number ends what has been received for the current channel. -/
def IsNumber (s : Scan σ) (byte : UInt8) : Prop :=
  byte ≠ astChannelPrefix ∧ byte ≠ astEscapePrefix ∧ s.channelPrefix = true

theorem round_number (h : s.IsNumber byte) : s.round byte =
    ((s.useEscape (unescapeIf s.escapePrefix byte)).switchChannel
      (unescapeIf s.escapePrefix byte)).next := by
  unfold round
  rw [if_neg h.1, if_neg h.2.1, if_pos h.2.2]

/-- What a round that is not a channel number leaves as it is. -/
theorem round_frame (h : ¬ s.IsNumber byte) :
    (s.round byte).world = s.world ∧ (s.round byte).channels = s.channels ∧
      (s.round byte).sinkChannel = s.sinkChannel := by
  unfold IsNumber at h
  push Not at h
  unfold round dropSpecial useEscape next
  split_ifs with h1 h2 hraw hpre <;> first | exact ⟨rfl, rfl, rfl⟩ | exact absurd hpre (h h1 h2)

theorem memmoveDown_length (buffer : List UInt8) {n : ℕ} (h : n < buffer.length) :
    (memmoveDown buffer n).length = buffer.length := by
  unfold memmoveDown
  rw [List.length_append, List.length_take, List.length_drop, List.length_drop]
  omega

theorem useEscape_frame (s : Scan σ) (byte : UInt8) :
    (s.useEscape byte).world = s.world ∧ (s.useEscape byte).channels = s.channels ∧
      (s.useEscape byte).sinkChannel = s.sinkChannel := by
  unfold useEscape
  split_ifs <;> exact ⟨rfl, rfl, rfl⟩

theorem useEscape_offsets (s : Scan σ) (byte : UInt8) :
    (s.useEscape byte).index = s.index ∧ (s.useEscape byte).head = s.head ∧
      (s.useEscape byte).readLen = s.readLen ∧
      (s.useEscape byte).buffer.length = s.buffer.length := by
  unfold useEscape
  split_ifs <;> simp

/-- A round takes the loop one byte further, in a buffer of the same length. -/
theorem round_offsets (byte : UInt8) (hlt : s.index < s.readLen)
    (hlen : s.readLen ≤ s.buffer.length) :
    (s.round byte).index = s.index + 1 ∧ (s.round byte).readLen ≤ s.readLen ∧
      (s.round byte).buffer.length = s.buffer.length := by
  obtain ⟨hindex, -, hread, hbuffer⟩ := s.useEscape_offsets (unescapeIf s.escapePrefix byte)
  have hmove := memmoveDown_length s.buffer (n := s.readLen - 1 - s.index) (by omega)
  unfold round
  split_ifs
  · exact ⟨rfl, Nat.le_refl _, rfl⟩
  · exact ⟨rfl, Nat.sub_le _ _, hmove⟩
  · exact ⟨rfl, Nat.le_refl _, rfl⟩
  · exact ⟨congrArg (· + 1) hindex, (Nat.le_of_eq hread), hbuffer⟩
  · refine ⟨congrArg (· + 1) hindex, Nat.le_trans (Nat.sub_le _ _) (Nat.le_of_eq hread), ?_⟩
    show (memmoveDown _ _).length = _
    rw [memmoveDown_length _ (by omega), hbuffer]
  · exact ⟨congrArg (· + 1) hindex, (Nat.le_of_eq hread), hbuffer⟩

end Scan

namespace Receiver

variable {pipeSink : UInt8 → UInt32 → Device σ UInt8}

/-- The rounds of a loop, and its end. -/
theorem path_loop {r : Receiver σ} (hbusy : r.busy = true)
    (hlen : r.scan.readLen ≤ r.scan.buffer.length) (fuel : ℕ)
    (hfuel : r.scan.readLen ≤ r.scan.index + fuel) :
    ∃ es t, Path (step pipeSink) anyStep r es t ∧
      t.scan.toBridgeState = (r.scan.loop fuel).finish ∧ t.busy = false := by
  have hend {r : Receiver σ} (hbusy : r.busy = true) (hnext : r.next = none) :
      ∃ es t, Path (step pipeSink) anyStep r es t ∧ t.scan.toBridgeState = r.scan.finish ∧
        t.busy = false :=
    ⟨[.finish], _, Path.single trivial (by rw [step, if_pos ⟨hbusy, hnext⟩]), rfl, rfl⟩
  induction fuel generalizing r with
  | zero =>
    refine hend hbusy ?_
    rw [next, if_neg (by omega)]
  | succ fuel ih =>
    rw [Scan.loop]
    by_cases hlt : r.scan.index < r.scan.readLen
    · have hnext : r.next = r.scan.buffer[r.scan.index]? := if_pos hlt
      rw [if_pos hlt]
      cases hb : r.scan.buffer[r.scan.index]? with
      | none => exact hend hbusy (hnext.trans hb)
      | some byte =>
        have hround : r.step pipeSink .round = some { r with scan := r.scan.round byte } := by
          rw [step, if_pos hbusy, hnext, hb]
          rfl
        obtain ⟨hindex, hread, hbuffer⟩ := Scan.round_offsets byte hlt hlen
        obtain ⟨es, t, hpath, ht⟩ := ih (r := { r with scan := r.scan.round byte }) hbusy
          (show (r.scan.round byte).readLen ≤ (r.scan.round byte).buffer.length by omega)
          (show (r.scan.round byte).readLen ≤ (r.scan.round byte).index + fuel by omega)
        exact ⟨_, t, (Path.single trivial hround).trans hpath, ht⟩
    · rw [if_neg hlt]
      refine hend hbusy ?_
      rw [next, if_neg hlt]

/-- One call of the service is a run of the receiver. -/
theorem path_service {r : Receiver σ} (hbusy : r.busy = false) (bytes : List UInt8) :
    ∃ es t, Path (step pipeSink) anyStep r es t ∧
      t.scan.toBridgeState = r.scan.peridotSwHostbridgeGen2Service bytes ∧ t.busy = false := by
  unfold BridgeState.peridotSwHostbridgeGen2Service
  split_ifs with hnone
  · exact ⟨[], r, .nil, rfl, hbusy⟩
  · have hread : r.step pipeSink (.read bytes) =
        some { r with scan := r.scan.startScan bytes, busy := true } := by
      rw [step, if_neg (by simp [hbusy]), if_neg (mt List.length_eq_zero_iff.mpr hnone)]
    have hscan : bytes.length ≤ 0 + bytes.length := Nat.le_add_left _ _
    obtain ⟨es, t, hpath, ht⟩ : ∃ es t, Path (step pipeSink) anyStep
        { r with scan := r.scan.startScan bytes, busy := true } es t ∧ _ :=
      path_loop rfl (Nat.le_refl _) bytes.length hscan
    exact ⟨_, t, (Path.single trivial hread).trans hpath, ht⟩

end Receiver

/-! ## Calls through NULL -/

/-- The creator of the channel has left `dest.sink` NULL. -/
def Channel.NoSink (c : Channel (World σ)) : Prop := c.dest = (Target.sink none).dest

/-- The channel has been registered as one of the targets. -/
def Channel.Made (c : Channel (World σ)) : Prop := ∃ target : Target σ, c.dest = target.dest

namespace Receiver

variable {pipeSink : UInt8 → UInt32 → Device σ UInt8} {r t : Receiver σ} {e : ReceiverEvent σ}

/-- When a channel number, or the end of the read, comes while a channel without a sink is current,
there is no byte for that channel: nothing but the prefix of the number has come since the channel
became current, or since the start of the read. -/
def Spares (r : Receiver σ) : ReceiverEvent σ → Prop
  | .round => ∀ byte, r.next = some byte → r.scan.IsNumber byte →
      ∀ c, r.scan.sinkChannel = some c → c.NoSink → r.scan.index ≤ r.scan.head + 1
  | .finish => ∀ c, r.scan.sinkChannel = some c → c.NoSink → r.scan.readLen ≤ r.scan.head
  | _ => True

/-- What the events keep: all channels have been registered, also the current one. -/
structure Inv (r : Receiver σ) : Prop where
  made : ∀ c ∈ r.scan.channels, c.Made
  current : ∀ c, r.scan.sinkChannel = some c → c.Made
  readLen_le : r.scan.readLen ≤ r.scan.buffer.length

theorem inv_init (devices : σ) (fdList : ℤ → Option PipeFd) : (init devices fdList).Inv where
  made := nofun
  current := nofun
  readLen_le := Nat.le_refl _

/-- A channel is registered behind the others, if at all. -/
theorem mem_registerChannel {channels : List (Channel (World σ))} {channel c : Channel (World σ)}
    (h : c ∈ (peridotSwHostbridgeGen2RegisterChannel channels channel).2) :
    c ∈ channels ∨ c = channel := by
  unfold peridotSwHostbridgeGen2RegisterChannel at h
  split_ifs at h
  · exact Or.inl h
  · rwa [List.mem_append, List.mem_singleton] at h

theorem mem_mkpipe {channels : List (Channel (World σ))} {fdList : ℤ → Option PipeFd}
    {channel : UInt8} {outputFd inputFd : ℤ} {inputCapacity : UInt32} {block : Bool}
    {c : Channel (World σ)} (h : c ∈ (peridotSwHostbridgeGen2Mkpipe pipeSink channels fdList channel
      outputFd inputFd inputCapacity block).1.2) :
    c ∈ channels ∨
      c = ⟨channel, false, (pipeTarget pipeSink channel inputFd inputCapacity).dest⟩ := by
  unfold peridotSwHostbridgeGen2Mkpipe at h
  dsimp only at h
  split_ifs at h
  · exact Or.inl h
  · exact Or.inl h
  · exact mem_registerChannel h
  · exact mem_registerChannel h

/-- The channels after a step. -/
theorem Inv.withChannels (h : r.Inv) {channels : List (Channel (World σ))}
    (hmade : ∀ c ∈ channels, c.Made) : (r.withChannels channels).Inv :=
  ⟨hmade, h.current, h.readLen_le⟩

/-- A step that registers nothing, and goes on with the current channel or with a registered one. -/
theorem Inv.kept (h : r.Inv) (hchannels : t.scan.channels = r.scan.channels)
    (hcurrent : ∀ c, t.scan.sinkChannel = some c →
      c ∈ r.scan.channels ∨ r.scan.sinkChannel = some c)
    (hlen : t.scan.readLen ≤ t.scan.buffer.length) : t.Inv where
  made := by
    rw [hchannels]
    exact h.made
  current c hc := (hcurrent c hc).elim (h.made c) (h.current c)
  readLen_le := hlen

/-- A round that takes a byte. -/
theorem next_eq_some {byte : UInt8} (h : r.next = some byte) :
    r.scan.index < r.scan.readLen ∧ r.scan.buffer[r.scan.index]? = some byte := by
  unfold next at h
  rwa [Option.ite_none_right_eq_some] at h

/-- The channels a round leaves. -/
theorem Inv.round (h : r.Inv) {byte : UInt8} (hnext : r.next = some byte) :
    Inv { r with scan := r.scan.round byte } := by
  obtain ⟨hlt, -⟩ := next_eq_some hnext
  obtain ⟨-, hread, hbuffer⟩ := Scan.round_offsets byte hlt h.readLen_le
  have hlen := h.readLen_le
  have hfit : (r.scan.round byte).readLen ≤ (r.scan.round byte).buffer.length := by omega
  by_cases hnum : r.scan.IsNumber byte
  · obtain ⟨-, hchannels, -⟩ := r.scan.useEscape_frame (unescapeIf r.scan.escapePrefix byte)
    have heq : (r.scan.round byte).channels = r.scan.channels ∧
        (r.scan.round byte).sinkChannel =
          r.scan.channels.find? (·.number = unescapeIf r.scan.escapePrefix byte) := by
      rw [Scan.round_number hnum, ← hchannels]
      exact ⟨(writeToChannel_frame _ _ _ _ _).1, rfl⟩
    refine h.kept heq.1 (fun c hc => .inl ?_) hfit
    exact List.mem_of_find?_eq_some (heq.2.symm.trans hc)
  · obtain ⟨-, hchannels, hsink⟩ := Scan.round_frame hnum
    exact h.kept hchannels (fun c hc => .inr (hsink.symm.trans hc)) hfit

/-- Every step keeps the invariant. -/
theorem Inv.step (h : r.Inv) (ht : r.step pipeSink e = some t) : t.Inv := by
  cases e with
  | registerChannel channel packetized target =>
    cases ht
    refine h.withChannels fun c hc => ?_
    rcases mem_registerChannel hc with hc | rfl
    · exact h.made c hc
    · exact ⟨target, rfl⟩
  | mkpipe channel outputFd inputFd inputCapacity block =>
    cases ht
    have hall : ∀ c ∈ (peridotSwHostbridgeGen2Mkpipe pipeSink r.scan.channels r.fdList channel
        outputFd inputFd inputCapacity block).1.2, c.Made := by
      intro c hc
      rcases mem_mkpipe hc with hc | rfl
      · exact h.made c hc
      · exact ⟨_, rfl⟩
    have hmade := h.withChannels hall
    exact ⟨hmade.made, hmade.current, hmade.readLen_le⟩
  | read bytes =>
    simp only [Receiver.step] at ht
    split_ifs at ht <;> cases ht
    · exact h
    · exact ⟨h.made, h.current, Nat.le_refl _⟩
  | round =>
    simp only [Receiver.step] at ht
    split_ifs at ht
    obtain ⟨byte, hnext, rfl⟩ := Option.map_eq_some_iff.mp ht
    exact h.round hnext
  | finish =>
    simp only [Receiver.step] at ht
    split_ifs at ht
    cases ht
    obtain ⟨hchannels, hsink, -⟩ := writeToChannel_frame r.scan.toBridgeState r.scan.sinkChannel
      r.scan.buffer r.scan.head r.scan.readLen
    exact h.kept hchannels (fun c hc => .inr (hsink.symm.trans hc)) h.readLen_le

theorem inv_of_path {es : List (ReceiverEvent σ)} {ok : Receiver σ → ReceiverEvent σ → Prop}
    (h : Path (Receiver.step pipeSink) ok r es t) (h0 : r.Inv) : t.Inv :=
  h.invariant h0 fun _ _ _ hi _ hs => hi.step hs

end Receiver

end OlivePiccolo.Hostbridge
