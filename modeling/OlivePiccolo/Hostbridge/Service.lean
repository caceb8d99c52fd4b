import OlivePiccolo.Hostbridge.Ast
import OlivePiccolo.Library.PartialWrite

/-!
# The receiving side

`peridot_sw_hostbridge_gen2_service` handles one read from the host: it scans the bytes, switches
to another channel at each channel number, and hands what lies between to the sinks of the
channels. For channels that are not packetized it unescapes the bytes in place and takes special
bytes out of the buffer.
-/

namespace OlivePiccolo.Hostbridge

/-! ## Channels -/

/-- Where the data of a channel goes: `use_fd` and `dest`. -/
inductive Dest (σ : Type*)
  | fd (dev : Device σ UInt8)
  | sink (dev : Device σ UInt8)

/-- The device behind it. -/
def Dest.dev {σ : Type*} : Dest σ → Device σ UInt8
  | fd dev => dev
  | sink dev => dev

/-- `hostbridge_channel`. -/
structure Channel (σ : Type*) where
  number : UInt8
  packetized : Bool
  dest : Dest σ

/-- The fields of `peridot_sw_hostbridge_gen2_state_s` the receiving side works on. -/
structure BridgeState (σ : Type*) where
  channels : List (Channel σ)
  sinkChannel : Option (Channel σ)
  channelPrefix : Bool
  escapePrefix : Bool
  /-- The state of the devices behind the channels. -/
  world : σ
  /-- The bytes that the sinks have accepted, with the numbers of their channels, in order. -/
  accepted : List (UInt8 × UInt8)

/-- The bytes for a channel. -/
def bytesFor (number : UInt8) (log : List (UInt8 × UInt8)) : List UInt8 :=
  (log.filter (·.1 = number)).map (·.2)

section Service

variable {σ : Type*}

namespace BridgeState

/-- The zero-initialised state, with some channels registered. -/
def init (channels : List (Channel σ)) (world : σ) : BridgeState σ where
  channels := channels
  sinkChannel := none
  channelPrefix := false
  escapePrefix := false
  world := world
  accepted := []

/-- `find_channel`. -/
def findChannel (s : BridgeState σ) (number : UInt8) : Option (Channel σ) :=
  s.channels.find? (·.number = number)

/-- `write_to_channel`, for the bytes from `start` up to `stop` of the buffer. -/
def writeToChannel (s : BridgeState σ) (channel : Option (Channel σ)) (buffer : List UInt8)
    (start stop : ℕ) : BridgeState σ :=
  match channel with
  | none => s
  | some c =>
    { s with
      world := (c.dest.dev.writeAll s.world ((buffer.take stop).drop start)).1
      accepted := s.accepted ++
        (c.dest.dev.writeAll s.world ((buffer.take stop).drop start)).2.map (c.number, ·) }

/-- `state.sink_channel && !state.sink_channel->packetized`. -/
def sinkIsRaw (s : BridgeState σ) : Bool := s.sinkChannel.any (!·.packetized)

end BridgeState

/-- The marks that the loop drops from the data of a raw channel. -/
def IsMark (byte : UInt8) : Prop := byte = astSop ∨ byte = astEopPrefix

instance : DecidablePred IsMark := fun _ => inferInstanceAs (Decidable (_ ∨ _))

/-- The local variables of the service, with the state. -/
structure Scan (σ : Type*) extends BridgeState σ where
  buffer : List UInt8
  index : ℕ
  head : ℕ
  readLen : ℕ

/-- `memmove(buffer, buffer + 1, n)`. -/
def memmoveDown (buffer : List UInt8) (n : ℕ) : List UInt8 :=
  (buffer.drop 1).take n ++ buffer.drop n

namespace Scan

/-- `--read_len` and the `memmove` that goes with it. -/
def dropSpecial (s : Scan σ) : Scan σ :=
  { s with
    readLen := s.readLen - 1
    buffer := memmoveDown s.buffer (s.readLen - 1 - s.index) }

/-- `++index`. -/
def next (s : Scan σ) : Scan σ := { s with index := s.index + 1 }

/-- Use up a pending escape: `byte` is unescaped already. -/
def useEscape (s : Scan σ) (byte : UInt8) : Scan σ :=
  if s.escapePrefix then
    { s with
      buffer := if s.sinkIsRaw then s.buffer.set s.index byte else s.buffer
      escapePrefix := false }
  else s

/-- A channel number. `index - 1` is negative for the first byte of the buffer; nothing is written
then, as for 0. -/
def switchChannel (s : Scan σ) (byte : UInt8) : Scan σ :=
  { s with
    toBridgeState :=
      { s.writeToChannel s.sinkChannel s.buffer s.head (s.index - 1) with
        sinkChannel := s.findChannel byte
        channelPrefix := false }
    head := s.index + 1 }

/-- One round of the loop of the service. -/
def round (s : Scan σ) (byte : UInt8) : Scan σ :=
  if byte = astChannelPrefix then { s with channelPrefix := true }.next
  else if byte = astEscapePrefix then
    if s.sinkIsRaw then { s with escapePrefix := true }.dropSpecial.next
    else { s with escapePrefix := true }.next
  else if s.channelPrefix then
    ((s.useEscape (unescapeIf s.escapePrefix byte)).switchChannel
      (unescapeIf s.escapePrefix byte)).next
  else if s.sinkIsRaw ∧ IsMark (unescapeIf s.escapePrefix byte) then
    (s.useEscape (unescapeIf s.escapePrefix byte)).dropSpecial.next
  else (s.useEscape (unescapeIf s.escapePrefix byte)).next

/-- The loop of the service, with at most so many rounds to go. -/
def loop : ℕ → Scan σ → Scan σ
  | 0, s => s
  | fuel + 1, s =>
    if s.index < s.readLen then
      match s.buffer[s.index]? with
      | some byte => loop fuel (s.round byte)
      | none => s
    else s

/-- The last part of the buffer goes to the channel that is current at the end. -/
def finish (s : Scan σ) : BridgeState σ :=
  s.writeToChannel s.sinkChannel s.buffer s.head s.readLen

end Scan

namespace BridgeState

/-- The buffer is filled. -/
def startScan (s : BridgeState σ) (read : List UInt8) : Scan σ :=
  { s with buffer := read, index := 0, head := 0, readLen := read.length }

/-- `peridot_sw_hostbridge_gen2_service`, for one read. Each round takes `index` one step nearer to
`read_len`, so there are at most as many rounds as bytes. -/
def peridotSwHostbridgeGen2Service (s : BridgeState σ) (read : List UInt8) : BridgeState σ :=
  if read.length = 0 then s
  else ((s.startScan read).loop read.length).finish

/-- Handle the reads one after the other. -/
def serve (s : BridgeState σ) (reads : List (List UInt8)) : BridgeState σ :=
  reads.foldl peridotSwHostbridgeGen2Service s

/-- What the sink of a channel has accepted. -/
def acceptedBy (s : BridgeState σ) (number : UInt8) : List UInt8 := bytesFor number s.accepted

end BridgeState

end Service

end OlivePiccolo.Hostbridge
