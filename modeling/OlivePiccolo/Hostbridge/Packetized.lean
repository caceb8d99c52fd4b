import OlivePiccolo.Hostbridge.Demux

/-!
# Packetized channels

The host stream is a list of segments, each with the number of its channel in front. The service
should hand the bytes of each segment to its channel and nothing else.

It goes wrong in two ways. The bytes in front of a channel number go to the channel before it but
for the last one, which is taken for the channel prefix: when the number is escaped, or the read
ends behind the prefix, the prefix is handed to that channel (`HeadersIntact`). And an escape
prefix at the end of a segment changes the number of the next one, unless that is escaped itself
(`readAs`). `packetized_exact_iff`: nothing else goes wrong.
-/

namespace OlivePiccolo.Hostbridge

/-! ## Segments -/

/-- Bytes for a channel, none of which is the channel prefix. -/
structure Segment where
  number : UInt8
  bytes : List UInt8
  no_prefix : astChannelPrefix ∉ bytes

/-- The number that is read for a channel, when an escape prefix may be left over. -/
def readNumber (esc : Bool) (number : UInt8) : UInt8 :=
  if astNeedsEscape number then number else unescapeIf esc number

namespace Segment

def encode (s : Segment) : List UInt8 := channelHeader s.number ++ s.bytes

/-- An escape prefix is left over at the end. -/
def dangling (s : Segment) : Bool := s.bytes.getLast? == some astEscapePrefix

end Segment

/-- The bytes of the segments of a channel. -/
def sentTo (number : UInt8) (segs : List Segment) : List UInt8 :=
  (segs.filter (·.number = number)).flatMap (·.bytes)

/-- The bytes of the segments whose number is read as the channel's. -/
def readAs (number : UInt8) : Bool → List Segment → List UInt8
  | _, [] => []
  | esc, s :: segs =>
    (if readNumber esc s.number = number then s.bytes else []) ++ readAs number s.dangling segs

/-- The number is not escaped, and the prefix is not the last byte of its read. -/
def HeaderIntact (number : UInt8) (stream : List (UInt8 × Bool)) : Prop :=
  astNeedsEscape number = false ∧ stream.head?.map (·.2) = some false

instance (number : UInt8) (stream : List (UInt8 × Bool)) :
    Decidable (HeaderIntact number stream) := inferInstanceAs (Decidable (_ ∧ _))

/-- Each header behind a segment that is read for a registered channel is intact. -/
def HeadersIntact (registered : UInt8 → Bool) :
    Bool → Bool → List Segment → List (UInt8 × Bool) → Prop
  | _, _, [], _ => True
  | current, esc, s :: segs, stream =>
    (current = true → HeaderIntact s.number stream) ∧
      HeadersIntact registered (registered (readNumber esc s.number)) s.dangling segs
        (stream.drop s.encode.length)

/-! ## What is accepted by a channel -/

theorem bytesFor_append (number : UInt8) (log log' : List (UInt8 × UInt8)) :
    bytesFor number (log ++ log') = bytesFor number log ++ bytesFor number log' := by
  unfold bytesFor
  rw [List.filter_append, List.map_append]

section

variable {σ : Type*}

theorem tagged_append (channel : Option (Channel σ)) (l l' : List UInt8) :
    tagged channel (l ++ l') = tagged channel l ++ tagged channel l' := by
  cases channel with
  | none => rfl
  | some c => exact List.map_append

theorem bytesFor_tagged_some (c : Channel σ) (l : List UInt8) :
    bytesFor c.number (tagged (some c) l) = l := by
  unfold bytesFor tagged
  induction l with
  | nil => rfl
  | cons b l ih =>
    show (((c.number, b) :: l.map (c.number, ·)).filter _).map _ = _
    rw [List.filter_cons_of_pos (by simp), List.map_cons]
    exact congrArg _ ih

/-- Bytes for a registered channel, tagged by its number. -/
theorem bytesFor_tagged_find {channels : List (Channel σ)} {c : Channel σ} (hc : c ∈ channels)
    (number : UInt8) (l : List UInt8) :
    bytesFor c.number (tagged (channels.find? (·.number = number)) l) =
      if number = c.number then l else [] := by
  cases hf : channels.find? (·.number = number) with
  | none =>
    have hne : ¬ c.number = number := by simpa using List.find?_eq_none.mp hf c hc
    rw [if_neg fun h => hne h.symm]
    rfl
  | some c' =>
    have hn : c'.number = number := by simpa using List.find?_some hf
    split_ifs with h
    · have hcc : c.number = c'.number := h.symm.trans hn.symm
      rw [hcc, bytesFor_tagged_some]
    · unfold bytesFor tagged
      rw [List.map_eq_nil_iff, List.filter_eq_nil_iff]
      intro x hx
      obtain ⟨b, -, rfl⟩ := List.mem_map.mp hx
      simpa [hn] using h

/-! ## Headers and data -/

namespace Demux

variable {d : Demux σ}

theorem flush_owed (d : Demux σ) : d.flush.owed = d.owed := by
  unfold owed
  show d.accepted ++ tagged d.current d.pend ++ tagged d.current [] = _
  rw [tagged_nil, List.append_nil]

/-- The fields that a flush does not change. -/
theorem step_eq (d : Demux σ) (b : UInt8 × Bool) :
    (d.step b).owed = (d.feed b.1).owed ∧ (d.step b).pre = (d.feed b.1).pre ∧
      (d.step b).esc = (d.feed b.1).esc ∧ (d.step b).current = (d.feed b.1).current ∧
      (d.step b).channels = (d.feed b.1).channels := by
  unfold step
  split_ifs
  · exact ⟨flush_owed _, rfl, rfl, rfl, rfl⟩
  · exact ⟨rfl, rfl, rfl, rfl, rfl⟩

/-- Behind the header of a segment. -/
structure AfterHeader (d d' : Demux σ) (number : UInt8) (leak : List UInt8) : Prop where
  owed : d'.owed = d.owed ++ tagged d.current leak
  pre : d'.pre = false
  esc : d'.esc = false
  current : d'.current = d.channels.find? (·.number = readNumber d.esc number)
  channels : d'.channels = d.channels

/-- The number at the end of a header. -/
theorem number_run {d : Demux σ} (hpre : d.pre = true) {byte : UInt8}
    (hb : astNeedsEscape byte = false) (last : Bool) :
    (d.step (byte, last)).owed = d.accepted ++ tagged d.current d.pend.dropLast ∧
      (d.step (byte, last)).pre = false ∧ (d.step (byte, last)).esc = false ∧
      (d.step (byte, last)).current = d.channels.find? (·.number = unescapeIf d.esc byte) ∧
      (d.step (byte, last)).channels = d.channels := by
  obtain ⟨-, -, h1, h2⟩ := astNeedsEscape_eq_false.mp hb
  obtain ⟨howed, hp, he, hc, hch⟩ := d.step_eq (byte, last)
  rw [howed, hp, he, hc, hch, feed_number d h1 h2 hpre]
  refine ⟨?_, rfl, rfl, rfl, rfl⟩
  show _ ++ tagged _ [] = _
  rw [tagged_nil, List.append_nil]

/-- A header whose number is not escaped. -/
theorem header_run_plain {number : UInt8} (hn : astNeedsEscape number = false) (f0 f1 : Bool) :
    AfterHeader d ([(astChannelPrefix, f0), (number, f1)].foldl step d) number
      (if f0 then [astChannelPrefix] else []) := by
  have hread : readNumber d.esc number = unescapeIf d.esc number := by
    rw [readNumber, hn, if_neg Bool.false_ne_true]
  obtain ⟨howed, hp, he, hc, hch⟩ := number_run (d := d.step (astChannelPrefix, f0))
    (by cases f0 <;> rfl) hn f1
  refine ⟨howed.trans ?_, hp, he, hc.trans ?_, hch.trans ?_⟩
  · cases f0 with
    | false =>
      show d.accepted ++ tagged d.current (d.pend ++ [astChannelPrefix]).dropLast =
        d.accepted ++ tagged d.current d.pend ++ tagged d.current []
      rw [List.dropLast_concat, tagged_nil, List.append_nil]
    | true =>
      show d.accepted ++ tagged d.current (d.pend ++ [astChannelPrefix]) ++ tagged d.current [] =
        d.accepted ++ tagged d.current d.pend ++ tagged d.current [astChannelPrefix]
      rw [tagged_append, tagged_nil, List.append_nil, List.append_assoc]
  · rw [hread]
    cases f0 <;> rfl
  · cases f0 <;> rfl

/-- A header whose number is escaped, in front of data that is not unescaped. -/
theorem header_run_escaped (hraw : d.raw = false) {number : UInt8}
    (hn : astNeedsEscape number = true) (f0 f1 f2 : Bool) :
    AfterHeader d ([(astChannelPrefix, f0), (astEscapePrefix, f1),
        (number ^^^ astEscapeXor, f2)].foldl step d) number
      (if f1 then [astChannelPrefix, astEscapePrefix] else [astChannelPrefix]) := by
  have hread : readNumber d.esc number = unescapeIf true (number ^^^ astEscapeXor) := by
    rw [readNumber, if_pos hn, unescapeIf, if_pos rfl, xor_astEscapeXor]
  have howed1 : (d.step (astChannelPrefix, f0)).owed =
      d.owed ++ tagged d.current [astChannelPrefix] := by
    rw [(d.step_eq _).1, feed_prefix]
    show _ ++ tagged _ (_ ++ _) = _ ++ _ ++ _
    rw [tagged_append, List.append_assoc]
  have hcur1 : (d.step (astChannelPrefix, f0)).current = d.current := by cases f0 <;> rfl
  have hch1 : (d.step (astChannelPrefix, f0)).channels = d.channels := by cases f0 <;> rfl
  have hpre1 : (d.step (astChannelPrefix, f0)).pre = true := by cases f0 <;> rfl
  have hraw1 : (d.step (astChannelPrefix, f0)).raw = false := by cases f0 <;> exact hraw
  rw [List.foldl_cons]
  generalize d.step (astChannelPrefix, f0) = d1 at howed1 hcur1 hch1 hpre1 hraw1
  have hfeed : d1.feed astEscapePrefix =
      { d1 with esc := true, fresh := false, pend := d1.pend ++ [astEscapePrefix] } := by
    rw [feed_escape, hraw1, if_neg Bool.false_ne_true]
  obtain ⟨howed, hp, he, hc, hch⟩ := number_run (d := d1.step (astEscapePrefix, f1))
    (by cases f1 <;> exact hpre1) (astNeedsEscape_xor hn) f2
  refine ⟨howed.trans ?_, hp, he, hc.trans ?_, hch.trans ?_⟩
  · cases f1 with
    | false =>
      rw [step, if_neg Bool.false_ne_true, hfeed]
      show d1.accepted ++ tagged d1.current (d1.pend ++ [astEscapePrefix]).dropLast = _
      rw [List.dropLast_concat, if_neg Bool.false_ne_true]
      exact howed1
    | true =>
      rw [step, if_pos rfl, hfeed]
      show d1.accepted ++ tagged d1.current (d1.pend ++ [astEscapePrefix]) ++ tagged _ [] =
        _ ++ tagged _ ([astChannelPrefix] ++ [astEscapePrefix])
      rw [tagged_nil, List.append_nil, tagged_append, tagged_append, ← List.append_assoc,
        ← List.append_assoc, ← howed1, ← hcur1]
      rfl
  · rw [hread, ← hch1]
    cases f1 <;> rfl
  · rw [← hch1]
    cases f1 <;> rfl

/-- A header hands the channel before it nothing if it is intact, and the channel prefix if not. -/
theorem header_run {number : UInt8} (hraw : d.raw = true → astNeedsEscape number = false)
    {l : List (UInt8 × Bool)} (hl : l.map (·.1) = channelHeader number) :
    ∃ leak, AfterHeader d (l.foldl step d) number leak ∧ (HeaderIntact number l → leak = []) ∧
      (¬ HeaderIntact number l → astChannelPrefix ∈ leak) := by
  unfold channelHeader astEscape at hl
  obtain ⟨⟨b0, f0⟩, l1, rfl, rfl, hl1⟩ := List.map_eq_cons_iff.mp hl
  by_cases hn : astNeedsEscape number = true
  · rw [if_pos hn] at hl1
    obtain ⟨⟨b1, f1⟩, l2, rfl, rfl, hl2⟩ := List.map_eq_cons_iff.mp hl1
    obtain ⟨⟨b2, f2⟩, l3, rfl, rfl, hl3⟩ := List.map_eq_cons_iff.mp hl2
    obtain rfl := List.map_eq_nil_iff.mp hl3
    have hraw' : d.raw = false := by
      by_contra h
      rw [hraw (by simpa using h)] at hn
      cases hn
    refine ⟨_, header_run_escaped hraw' hn f0 f1 f2, fun h => ?_, fun _ => ?_⟩
    · rw [h.1] at hn
      cases hn
    · split_ifs <;> exact List.mem_cons_self
  · rw [if_neg hn] at hl1
    obtain ⟨⟨b1, f1⟩, l2, rfl, rfl, hl2⟩ := List.map_eq_cons_iff.mp hl1
    obtain rfl := List.map_eq_nil_iff.mp hl2
    have hn' : astNeedsEscape b1 = false := by simpa using hn
    refine ⟨_, header_run_plain hn' f0 f1, fun h => ?_, fun h => ?_⟩
    · have hf : f0 = false := Option.some.inj h.2
      rw [hf, if_neg Bool.false_ne_true]
    · cases f0 with
      | false => exact absurd ⟨hn', rfl⟩ h
      | true => exact List.mem_cons_self

/-- All channels are packetized. -/
structure Packetized (d : Demux σ) : Prop where
  channels : ∀ c ∈ d.channels, c.packetized = true
  current : ∀ c, d.current = some c → c ∈ d.channels

theorem Packetized.raw (h : d.Packetized) : d.raw = false := by
  unfold Demux.raw
  cases hc : d.current with
  | none => rfl
  | some c =>
    have hp := h.channels c (h.current c hc)
    rw [Option.any_some, hp]
    rfl

/-- Data that is not unescaped goes to the current channel. -/
theorem data_run (hraw : d.raw = false) (hpre : d.pre = false) {l : List (UInt8 × Bool)}
    (hl : astChannelPrefix ∉ l.map (·.1)) :
    (l.foldl step d).owed = d.owed ++ tagged d.current (l.map (·.1)) ∧
      (l.foldl step d).pre = false ∧
      (l.foldl step d).esc = (l.map (·.1)).getLast?.elim d.esc (· == astEscapePrefix) ∧
      (l.foldl step d).current = d.current ∧ (l.foldl step d).channels = d.channels := by
  induction l generalizing d with
  | nil => exact ⟨by rw [List.map_nil, tagged_nil, List.append_nil]; rfl, hpre, rfl, rfl, rfl⟩
  | cons b l ih =>
    obtain ⟨hb, hl⟩ := List.ne_and_not_mem_of_not_mem_cons hl
    obtain ⟨howed, hpre', hesc, hcur, hch⟩ := d.step_eq b
    have hfeed : (d.feed b.1).owed = d.owed ++ tagged d.current [b.1] ∧ (d.feed b.1).pre = false ∧
        (d.feed b.1).esc = (b.1 == astEscapePrefix) ∧ (d.feed b.1).current = d.current ∧
        (d.feed b.1).channels = d.channels := by
      by_cases h2 : b.1 = astEscapePrefix
      · rw [h2, feed_escape, hraw]
        refine ⟨?_, hpre, rfl, rfl, rfl⟩
        show _ ++ tagged _ (_ ++ [astEscapePrefix]) = _
        rw [tagged_append, ← List.append_assoc]
        rfl
      · rw [feed_data d (Ne.symm hb) h2 hpre hraw]
        refine ⟨?_, hpre, (beq_eq_false_iff_ne.mpr h2).symm, rfl, rfl⟩
        show _ ++ tagged _ (_ ++ [b.1]) = _
        rw [tagged_append, ← List.append_assoc]
        rfl
    obtain ⟨ho, hp', he, hc, hch'⟩ := hfeed
    rw [ho] at howed
    rw [hp'] at hpre'
    rw [he] at hesc
    rw [hc] at hcur
    rw [hch'] at hch
    have hraw' : (d.step b).raw = false := by
      unfold raw
      rw [hcur]
      exact hraw
    obtain ⟨io, ip, ie, ic, ich⟩ := ih hraw' hpre' hl
    refine ⟨?_, ip, ?_, ic.trans hcur, ich.trans hch⟩
    · rw [List.foldl_cons, io, howed, hcur, List.append_assoc, ← tagged_append]
      rfl
    · rw [List.foldl_cons, ie, hesc, List.map_cons]
      cases l with
      | nil => rfl
      | cons x l =>
        rw [List.map_cons, List.getLast?_cons_cons]
        obtain ⟨y, hy⟩ := Option.ne_none_iff_exists'.mp
          (mt List.getLast?_eq_none_iff.mp (List.cons_ne_nil x.1 (l.map (·.1))))
        rw [hy]
        rfl

/-- Behind a segment: its channel is owed its bytes, the one before it perhaps the channel prefix. -/
theorem segment_run (hp : d.Packetized) (s : Segment)
    {l : List (UInt8 × Bool)} (hl : l.map (·.1) = s.encode) :
    ∃ leak, (l.foldl step d).owed = d.owed ++ tagged d.current leak ++
          tagged (d.channels.find? (·.number = readNumber d.esc s.number)) s.bytes ∧
      (HeaderIntact s.number l → leak = []) ∧
      (¬ HeaderIntact s.number l → astChannelPrefix ∈ leak) ∧
      (l.foldl step d).Packetized ∧ (l.foldl step d).esc = s.dangling ∧
      (l.foldl step d).current = d.channels.find? (·.number = readNumber d.esc s.number) ∧
      (l.foldl step d).channels = d.channels := by
  obtain ⟨l1, l2, rfl, hl1, hl2⟩ := List.map_eq_append_iff.mp hl
  have hhead : HeaderIntact s.number (l1 ++ l2) ↔ HeaderIntact s.number l1 := by
    cases l1 with
    | nil => cases hl1
    | cons x l1 => exact Iff.rfl
  have hraw : d.raw = true → astNeedsEscape s.number = false := by
    intro h
    rw [hp.raw] at h
    cases h
  obtain ⟨leak, hafter, hintact, hleak⟩ := header_run hraw hl1
  rw [List.foldl_append]
  generalize hd' : l1.foldl step d = d' at hafter
  have hp' : d'.Packetized := by
    refine ⟨by rw [hafter.channels]; exact hp.channels, fun c hc => ?_⟩
    rw [hafter.channels]
    rw [hafter.current] at hc
    exact List.mem_of_find?_eq_some hc
  obtain ⟨ho, -, he, hc, hch⟩ := data_run hp'.raw hafter.pre (by rw [hl2]; exact s.no_prefix)
  refine ⟨leak, ?_, fun h => hintact (hhead.mp h), fun h => hleak fun h' => h (hhead.mpr h'), ?_,
    ?_, hc.trans hafter.current, hch.trans hafter.channels⟩
  · rw [ho, hafter.owed, hafter.current, hl2]
  · exact ⟨by rw [hch]; exact hp'.channels, by rw [hch, hc]; exact hp'.current⟩
  · rw [he, hl2, hafter.esc, Segment.dangling]
    cases s.bytes.getLast? <;> rfl

/-- Some channel with the number is registered. -/
def registered (channels : List (Channel σ)) (number : UInt8) : Bool :=
  (channels.find? (·.number = number)).isSome

/-- A run over segments: what is owed only grows; with intact headers, each registered channel is
owed the bytes that are read as its own; without, some channel is owed a channel prefix. -/
theorem segments_run (hp : d.Packetized) {segs : List Segment}
    {l : List (UInt8 × Bool)} (hl : l.map (·.1) = segs.flatMap Segment.encode) :
    (∃ more, (l.foldl step d).owed = d.owed ++ more) ∧
      (HeadersIntact (registered d.channels) d.current.isSome d.esc segs l →
        ∀ c ∈ d.channels, bytesFor c.number (l.foldl step d).owed =
          bytesFor c.number d.owed ++ readAs c.number d.esc segs) ∧
      (¬ HeadersIntact (registered d.channels) d.current.isSome d.esc segs l →
        ∃ c ∈ d.channels, astChannelPrefix ∈ bytesFor c.number (l.foldl step d).owed) := by
  induction segs generalizing d l with
  | nil =>
    obtain rfl := List.map_eq_nil_iff.mp hl
    refine ⟨⟨[], (List.append_nil _).symm⟩, fun _ c _ => (List.append_nil _).symm, fun h => ?_⟩
    exact absurd trivial h
  | cons s segs ih =>
    obtain ⟨l1, l2, rfl, hl1, hl2⟩ := List.map_eq_append_iff.mp hl
    have hlen : (l1 ++ l2).drop s.encode.length = l2 := by
      rw [← hl1, List.length_map, List.drop_left]
    have hhead : HeaderIntact s.number (l1 ++ l2) ↔ HeaderIntact s.number l1 := by
      cases l1 with
      | nil => cases hl1
      | cons x l1 => exact Iff.rfl
    obtain ⟨leak, ho, hintact, hleak, hp', he, hc, hch⟩ := segment_run hp s hl1
    rw [List.foldl_append, HeadersIntact, hlen, hhead]
    generalize l1.foldl step d = d' at ho hp' he hc hch
    obtain ⟨⟨more, hmore⟩, hin, hout⟩ := ih hp' hl2
    have hreg : d'.current.isSome = registered d.channels (readNumber d.esc s.number) := by
      rw [hc]
      rfl
    rw [hch, hreg, he] at hin hout
    refine ⟨⟨_, by rw [hmore, ho, List.append_assoc, List.append_assoc]⟩, ?_, ?_⟩
    · rintro ⟨hcur, hrest⟩ c hmem
      have hno : tagged d.current leak = [] := by
        cases hd : d.current with
        | none => rfl
        | some c' =>
          rw [hintact (hcur (by rw [hd]; rfl))]
          rfl
      rw [hin hrest c hmem, ho, hno, List.append_nil, bytesFor_append,
        bytesFor_tagged_find hmem, List.append_assoc]
      rfl
    · intro hnot
      by_cases hrest : HeadersIntact (registered d.channels)
          (registered d.channels (readNumber d.esc s.number)) s.dangling segs l2
      · have hcur : d.current.isSome = true ∧ ¬ HeaderIntact s.number l1 := by
          rw [← Classical.not_imp]
          exact fun h => hnot ⟨h, hrest⟩
        obtain ⟨hsome, hbad⟩ := hcur
        obtain ⟨c, hd⟩ := Option.isSome_iff_exists.mp hsome
        refine ⟨c, hp.current c hd, ?_⟩
        rw [hmore, ho, hd, bytesFor_append, bytesFor_append, bytesFor_append, bytesFor_tagged_some]
        simp [hleak hbad]
      · exact hout hrest

/-! ## The service -/

theorem Packetized.step (hp : d.Packetized) (b : UInt8 × Bool) : (d.step b).Packetized := by
  have hfeed : (d.feed b.1).Packetized := by
    unfold feed
    split_ifs
    all_goals
      first
      | exact ⟨hp.channels, hp.current⟩
      | exact ⟨hp.channels, fun c hc => List.mem_of_find?_eq_some hc⟩
  unfold Demux.step
  split_ifs
  · exact ⟨hfeed.channels, hfeed.current⟩
  · exact hfeed

/-- No byte has to be taken out for packetized channels. -/
theorem Packetized.regularStream (hp : d.Packetized) (l : List (UInt8 × Bool)) :
    d.RegularStream l := by
  induction l generalizing d with
  | nil => trivial
  | cons b l ih =>
    refine ⟨fun hs => ?_, ih (hp.step b)⟩
    have hraw := hs.1
    rw [hp.raw] at hraw
    cases hraw

end Demux

/-- Between two reads, everything owed has been accepted. -/
theorem BridgeState.view_owed (s : BridgeState σ) : s.view.owed = s.accepted := by
  show s.accepted ++ tagged _ [] = _
  rw [tagged_nil, List.append_nil]

/-- **Packetized channels.** For every stream of segments, cut into reads in any way, and any
packetized channels: every channel's sink accepts exactly the bytes of its segments if and only if
each header behind the data of a registered channel is intact, and left-over escape prefixes move
no bytes from or to a registered channel. -/
theorem packetized_exact_iff (channels : List (Channel σ)) (world : σ)
    (hpack : ∀ c ∈ channels, c.packetized = true) (segs : List Segment)
    (reads : List (List UInt8)) (hreads : reads.flatten = segs.flatMap Segment.encode) :
    (∀ c ∈ channels, ((BridgeState.init channels world).serve reads).acceptedBy c.number =
        sentTo c.number segs) ↔
      HeadersIntact (Demux.registered channels) false false segs (marked reads) ∧
        ∀ c ∈ channels, readAs c.number false segs = sentTo c.number segs := by
  have hp : (BridgeState.init channels world).view.Packetized :=
    ⟨hpack, fun c hc => by cases hc⟩
  have hserve := BridgeState.serve_view reads (hp.regularStream (marked reads))
  obtain ⟨-, hin, hout⟩ := Demux.segments_run hp ((marked_fst reads).trans hreads)
  rw [← hserve, BridgeState.view_owed] at hin hout
  have hclean (c : Channel σ) : astChannelPrefix ∉ sentTo c.number segs := by
    intro h
    obtain ⟨s, -, hs⟩ := List.mem_flatMap.mp h
    exact s.no_prefix hs
  refine ⟨fun hexact => ?_, fun ⟨hheaders, hsame⟩ c hc => ?_⟩
  · have hheaders : HeadersIntact (Demux.registered channels) false false segs (marked reads) := by
      by_contra hnot
      obtain ⟨c, hc, hleak⟩ := hout hnot
      exact hclean c (hexact c hc ▸ hleak)
    exact ⟨hheaders, fun c hc => (hin hheaders c hc).symm.trans (hexact c hc)⟩
  · exact (hin hheaders c hc).trans (hsame c hc)

/-- Two segments, the first one cut behind an escape prefix. -/
theorem packetized_exact_iff_two :
    ((BridgeState.init [⟨1, true, .sink .greedy⟩] ()).serve
      [[0x7c, 1, 0x7a, 0x7d], [0x5c, 0x7c, 1], [0x41]]).acceptedBy 1 =
        [0x7a, 0x7d, 0x5c, 0x41] := by
  refine (packetized_exact_iff [⟨1, true, .sink .greedy⟩] () (by simp)
    [⟨1, [0x7a, 0x7d, 0x5c], by decide⟩, ⟨1, [0x41], by decide⟩]
    [[0x7c, 1, 0x7a, 0x7d], [0x5c, 0x7c, 1], [0x41]] (by decide)).mpr ⟨?_, ?_⟩ _ List.mem_cons_self
  · exact ⟨(nomatch ·), fun _ => ⟨by decide, by decide⟩, trivial⟩
  · intro c hc
    rw [List.mem_singleton.mp hc]
    decide

/-- A read that ends behind a channel prefix: it is handed to the channel before it. -/
theorem not_packetized_exact : ¬ ∀ (channels : List (Channel Unit)) (segs : List Segment)
    (reads : List (List UInt8)), (∀ c ∈ channels, c.packetized = true) →
    (∀ read ∈ reads, 1 ≤ read.length ∧ read.length ≤ 128) →
    reads.flatten = segs.flatMap Segment.encode →
    ∀ c ∈ channels, ((BridgeState.init channels ()).serve reads).acceptedBy c.number =
      sentTo c.number segs := by
  intro h
  have hp : (BridgeState.init [⟨1, true, .sink .greedy⟩] ()).view.Packetized :=
    ⟨by simp [BridgeState.init, BridgeState.view], fun c hc => by cases hc⟩
  have hserve := congrArg Demux.accepted
    (BridgeState.serve_view [[0x7c, 1, 0x41, 0x7c], [2]] (hp.regularStream _))
  have hbad := h [⟨1, true, .sink .greedy⟩]
    [⟨1, [0x41], by decide⟩, ⟨2, [], by decide⟩] [[0x7c, 1, 0x41, 0x7c], [2]]
    (by simp) (by decide) (by decide) _ List.mem_cons_self
  have haccepted : ((BridgeState.init [⟨1, true, .sink .greedy⟩] ()).serve
      [[0x7c, 1, 0x41, 0x7c], [2]]).accepted = [(1, 0x41), (1, 0x7c)] := hserve
  rw [BridgeState.acceptedBy, haccepted] at hbad
  exact absurd hbad (by decide)

end

end OlivePiccolo.Hostbridge
