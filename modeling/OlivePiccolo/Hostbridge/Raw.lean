import OlivePiccolo.Hostbridge.Packetized

/-!
# Raw channels

For a channel that is not packetized the service undoes the escapes and drops the start and end
marks, in place. It takes a byte out by a `memmove` that starts at the beginning of the buffer
instead of the byte, and goes on behind the byte that has moved up, so it is right only for the
last byte of a read, or for a mark at the start of a read whose next byte is ordinary. It also
drops a payload byte that is a mark once its escape is undone.

`raw_exact`: where none of this happens (`Placed`), each sink accepts the payload of its segments.
-/

namespace OlivePiccolo.Hostbridge

/-! ## Segments of raw channels -/

/-- A payload byte, or a start or end mark among them. -/
inductive RawItem
  | data (byte : UInt8)
  | sop
  | eop
  deriving DecidableEq, Repr

namespace RawItem

/-- How it is sent. -/
def encode : RawItem → List UInt8
  | data byte => astEscape byte
  | sop => [astSop]
  | eop => [astEopPrefix]

/-- The payload it is. -/
def payload : RawItem → List UInt8
  | data byte => [byte]
  | sop => []
  | eop => []

/-- A byte that is sent as it is. -/
def ordinary : RawItem → Bool
  | data byte => !astNeedsEscape byte
  | sop => false
  | eop => false

end RawItem

theorem astEscape_ne_nil (byte : UInt8) : astEscape byte ≠ [] := by
  unfold astEscape
  split_ifs <;> exact List.cons_ne_nil _ _

/-- The last byte of an escaped byte is none of the special bytes. -/
theorem astEscape_getLast (byte : UInt8) :
    ∃ front last, astEscape byte = front ++ [last] ∧ astNeedsEscape last = false := by
  unfold astEscape
  split_ifs with h
  · exact ⟨[astEscapePrefix], _, rfl, astNeedsEscape_xor h⟩
  · exact ⟨[], byte, rfl, by simpa using h⟩

theorem astChannelPrefix_notMem_astEscape (byte : UInt8) :
    astChannelPrefix ∉ astEscape byte := by
  unfold astEscape
  split_ifs with h
  · have hx := (astNeedsEscape_eq_false.mp (astNeedsEscape_xor h)).2.2.1
    simpa [show astChannelPrefix ≠ astEscapePrefix by decide] using hx.symm
  · have hb := (astNeedsEscape_eq_false.mp (by simpa using h)).2.2.1
    simpa using hb.symm

namespace RawItem

theorem encode_ne_nil (item : RawItem) : item.encode ≠ [] := by
  cases item with
  | data b => exact astEscape_ne_nil b
  | sop => exact List.cons_ne_nil _ _
  | eop => exact List.cons_ne_nil _ _

theorem encode_no_prefix (items : List RawItem) :
    astChannelPrefix ∉ items.flatMap RawItem.encode := by
  intro h
  obtain ⟨item, -, hi⟩ := List.mem_flatMap.mp h
  cases item with
  | data b => exact astChannelPrefix_notMem_astEscape b hi
  | sop => exact absurd hi (by decide)
  | eop => exact absurd hi (by decide)

/-- No escape prefix is left over behind items. -/
theorem encode_getLast (items : List RawItem) :
    (items.flatMap RawItem.encode).getLast?.elim false (· == astEscapePrefix) = false := by
  rcases List.eq_nil_or_concat' items with rfl | ⟨items, item, rfl⟩
  · rfl
  · obtain ⟨front, last, hlast, hne⟩ : ∃ front last, item.encode = front ++ [last] ∧
        last ≠ astEscapePrefix := by
      cases item with
      | data b =>
        obtain ⟨front, last, heq, hl⟩ := astEscape_getLast b
        exact ⟨front, last, heq, (astNeedsEscape_eq_false.mp hl).2.2.2⟩
      | sop => exact ⟨[], astSop, rfl, by decide⟩
      | eop => exact ⟨[], astEopPrefix, rfl, by decide⟩
    rw [List.flatMap_append, List.flatMap_singleton, hlast, ← List.append_assoc,
      List.getLast?_concat]
    exact beq_eq_false_iff_ne.mpr hne

end RawItem

/-- Payload bytes and marks for a channel. -/
structure RawSegment where
  number : UInt8
  items : List RawItem

namespace RawSegment

def encode (s : RawSegment) : List UInt8 := channelHeader s.number ++ s.items.flatMap RawItem.encode

def payload (s : RawSegment) : List UInt8 := s.items.flatMap RawItem.payload

end RawSegment

/-- The payload of the segments of a channel. -/
def rawSentTo (number : UInt8) (segs : List RawSegment) : List UInt8 :=
  (segs.filter (·.number = number)).flatMap RawSegment.payload

/-- The byte in front is the last one of its read. -/
def freshAfter (stream : List (UInt8 × Bool)) : Bool := stream.getLast?.any (·.2)

/-- Escape prefixes are the last bytes of their reads, and so are marks, unless they are the first
byte of a read and followed by an ordinary byte; no payload byte is a mark. -/
def ItemsPlaced : Bool → List RawItem → List (UInt8 × Bool) → Prop
  | _, [], _ => True
  | fresh, item :: items, stream =>
    (match item with
      | .data byte => astNeedsEscape byte = true →
          ¬ IsMark byte ∧ stream.head?.any (·.2) = true
      | _ => stream.head?.any (·.2) = true ∨ fresh = true ∧ items.head?.any (·.ordinary) = true) ∧
    ItemsPlaced (freshAfter (stream.take item.encode.length)) items
      (stream.drop item.encode.length)

/-- The data of registered channels is placed well, and each header behind it is intact. -/
def Placed (registered : UInt8 → Bool) : Bool → List RawSegment → List (UInt8 × Bool) → Prop
  | _, [], _ => True
  | current, s :: segs, stream =>
    (current = true → HeaderIntact s.number stream) ∧
      (registered s.number = true →
        ItemsPlaced (freshAfter (stream.take (channelHeader s.number).length)) s.items
          ((stream.take s.encode.length).drop (channelHeader s.number).length)) ∧
      Placed registered (registered s.number) segs (stream.drop s.encode.length)

section

variable {σ : Type*}

namespace Demux

variable {d : Demux σ}

/-- A regular stream behind another one. -/
theorem RegularStream.concat {l l' : List (UInt8 × Bool)} (h : d.RegularStream l)
    (h' : (l.foldl step d).RegularStream l') : d.RegularStream (l ++ l') := by
  induction l generalizing d with
  | nil => exact h'
  | cons b l ih =>
    obtain ⟨hspec, hl⟩ := h
    refine ⟨fun hs => ?_, ih hl h'⟩
    rcases hspec hs with hlast | ⟨hf, hm, next, rest, rfl, hn⟩
    · exact .inl hlast
    · exact .inr ⟨hf, hm, next, rest ++ l', rfl, hn⟩

theorem step_fresh (d : Demux σ) (b : UInt8 × Bool) : (d.step b).fresh = b.2 := by
  unfold step
  split_ifs with h
  · rw [h]
    rfl
  · rw [feed_fresh]
    exact (Bool.eq_false_iff.mpr h).symm

/-- Nothing is taken out of the data of no channel, or a packetized one. -/
theorem not_special (h : d.raw = false) (byte : UInt8) : ¬ d.Special byte := by
  rintro ⟨hraw, -⟩
  rw [h] at hraw
  cases hraw

/-- Data that is not unescaped is regular. -/
theorem data_regular (hraw : d.raw = false) (hpre : d.pre = false) {l : List (UInt8 × Bool)}
    (hl : astChannelPrefix ∉ l.map (·.1)) : d.RegularStream l := by
  induction l generalizing d with
  | nil => trivial
  | cons b l ih =>
    refine ⟨fun hs => absurd hs (not_special hraw b.1), ?_⟩
    obtain ⟨hb, hl⟩ := List.ne_and_not_mem_of_not_mem_cons hl
    have hb' : astChannelPrefix ∉ [b].map (·.1) := by simpa using hb
    obtain ⟨-, hp, -, hc, -⟩ := data_run hraw hpre hb'
    refine ih ?_ hp hl
    show Option.any _ (d.step b).current = false
    rw [show (d.step b).current = d.current from hc]
    exact hraw

/-- A header is regular. -/
theorem header_regular {number : UInt8} (hraw : d.raw = true → astNeedsEscape number = false)
    {l : List (UInt8 × Bool)} (hl : l.map (·.1) = channelHeader number) : d.RegularStream l := by
  unfold channelHeader astEscape at hl
  obtain ⟨⟨b0, f0⟩, l1, rfl, rfl, hl1⟩ := List.map_eq_cons_iff.mp hl
  refine ⟨fun hs => absurd rfl hs.2.1, ?_⟩
  have hraw0 : (d.step (astChannelPrefix, f0)).raw = d.raw := by cases f0 <;> rfl
  have hpre0 : (d.step (astChannelPrefix, f0)).pre = true := by cases f0 <;> rfl
  by_cases hn : astNeedsEscape number = true
  · rw [if_pos hn] at hl1
    obtain ⟨⟨b1, f1⟩, l2, rfl, rfl, hl2⟩ := List.map_eq_cons_iff.mp hl1
    obtain ⟨⟨b2, f2⟩, l3, rfl, rfl, hl3⟩ := List.map_eq_cons_iff.mp hl2
    obtain rfl := List.map_eq_nil_iff.mp hl3
    have hraw' : d.raw = false := by
      by_contra h
      rw [hraw (by simpa using h)] at hn
      cases hn
    have hraw1 : ((d.step (astChannelPrefix, f0)).step (astEscapePrefix, f1)).raw = false := by
      rw [← hraw', ← hraw0]
      cases f1 <;> rfl
    exact ⟨fun hs => absurd hs (not_special (hraw0.trans hraw') _),
      fun hs => absurd hs (not_special hraw1 _), trivial⟩
  · rw [if_neg hn] at hl1
    obtain ⟨⟨b1, f1⟩, l2, rfl, rfl, hl2⟩ := List.map_eq_cons_iff.mp hl1
    obtain rfl := List.map_eq_nil_iff.mp hl2
    have hn' : astNeedsEscape b1 = false := by simpa using hn
    refine ⟨?_, trivial⟩
    rintro ⟨-, -, h | ⟨h, -⟩⟩
    · exact absurd h (astNeedsEscape_eq_false.mp hn').2.2.2
    · rw [hpre0] at h
      cases h

/-- Between two items of a raw channel. -/
structure RawIdle (d : Demux σ) : Prop where
  pre : d.pre = false
  esc : d.esc = false
  raw : d.raw = true

/-- An ordinary payload byte. -/
theorem raw_run_plain (h : d.RawIdle) {byte : UInt8} (hb : astNeedsEscape byte = false)
    (last : Bool) : ¬ d.Special byte ∧ (d.step (byte, last)).RawIdle ∧
      (d.step (byte, last)).owed = d.owed ++ tagged d.current [byte] ∧
      (d.step (byte, last)).current = d.current ∧ (d.step (byte, last)).channels = d.channels := by
  obtain ⟨h1, h2, h3, h4⟩ := astNeedsEscape_eq_false.mp hb
  have hbyte : unescapeIf d.esc byte = byte := by rw [h.esc, unescapeIf, if_neg Bool.false_ne_true]
  have hmark : ¬ IsMark (unescapeIf d.esc byte) := by
    rw [hbyte]
    exact fun hm => hm.elim h1 h2
  have hfeed := d.feed_raw h3 h4 h.pre h.raw hmark
  obtain ⟨howed, hp, he, hc, hch⟩ := d.step_eq (byte, last)
  rw [hfeed, hbyte] at howed hp he hc hch
  refine ⟨fun hs => ?_, ⟨hp.trans h.pre, he, ?_⟩, howed.trans ?_, hc, hch⟩
  · rcases hs.2.2 with h' | ⟨-, h'⟩
    · exact h4 h'
    · exact hmark h'
  · unfold raw
    rw [hc]
    exact h.raw
  · show _ ++ tagged _ (_ ++ _) = _ ++ _ ++ _
    rw [tagged_append, List.append_assoc]

/-- An escaped payload byte, whose escape prefix is the last byte of a read. -/
theorem raw_run_escaped (h : d.RawIdle) {byte : UInt8} (hb : astNeedsEscape byte = true)
    (hm : ¬ IsMark byte) (last : Bool) :
    d.RegularStream [(astEscapePrefix, true), (byte ^^^ astEscapeXor, last)] ∧
      ([(astEscapePrefix, true), (byte ^^^ astEscapeXor, last)].foldl step d).RawIdle ∧
      ([(astEscapePrefix, true), (byte ^^^ astEscapeXor, last)].foldl step d).owed =
        d.owed ++ tagged d.current [byte] ∧
      ([(astEscapePrefix, true), (byte ^^^ astEscapeXor, last)].foldl step d).current = d.current ∧
      ([(astEscapePrefix, true), (byte ^^^ astEscapeXor, last)].foldl step d).channels =
        d.channels := by
  obtain ⟨-, -, h3, h4⟩ := astNeedsEscape_eq_false.mp (astNeedsEscape_xor hb)
  have hstep : d.step (astEscapePrefix, true) = { d.flush with esc := true } := by
    rw [step, if_pos rfl, feed_escape, h.raw, if_pos rfl]
    rfl
  have hbyte : unescapeIf true (byte ^^^ astEscapeXor) = byte := by
    rw [unescapeIf, if_pos rfl, xor_astEscapeXor]
  have hfeed := ({ d.flush with esc := true } : Demux σ).feed_raw h3 h4 h.pre h.raw
    (by rw [hbyte]; exact hm)
  obtain ⟨howed, hp, he, hc, hch⟩ :=
    ({ d.flush with esc := true } : Demux σ).step_eq (byte ^^^ astEscapeXor, last)
  rw [hfeed, hbyte] at howed hp he hc hch
  rw [List.foldl_cons, List.foldl_cons, List.foldl_nil, hstep]
  refine ⟨⟨fun _ => .inl rfl, fun hs => ?_, trivial⟩, ⟨hp.trans h.pre, he, ?_⟩, howed.trans ?_, hc,
    hch⟩
  · rw [hstep] at hs
    rcases hs.2.2 with h' | ⟨-, h'⟩
    · exact absurd h' h4
    · have hm' : IsMark (unescapeIf true (byte ^^^ astEscapeXor)) := h'
      rw [hbyte] at hm'
      exact absurd hm' hm
  · unfold raw
    rw [hc]
    exact h.raw
  · show _ ++ tagged _ ([] ++ [byte]) = _
    rw [List.nil_append]
    rfl

/-- A mark. -/
theorem raw_run_mark (h : d.RawIdle) {byte : UInt8} (hm : IsMark byte) (last : Bool) :
    (d.step (byte, last)).RawIdle ∧ (d.step (byte, last)).owed = d.owed ∧
      (d.step (byte, last)).current = d.current ∧ (d.step (byte, last)).channels = d.channels := by
  obtain ⟨howed, hp, he, hc, hch⟩ := d.step_eq (byte, last)
  rw [d.feed_mark hm h.pre h.esc h.raw] at howed hp he hc hch
  refine ⟨⟨hp.trans h.pre, he, ?_⟩, howed, hc, hch⟩
  unfold raw
  rw [hc]
  exact h.raw

theorem foldl_fresh (d : Demux σ) {l : List (UInt8 × Bool)} (h : l ≠ []) :
    (l.foldl step d).fresh = freshAfter l := by
  obtain ⟨l', b, rfl⟩ := (List.eq_nil_or_concat' l).resolve_left h
  rw [List.foldl_append, freshAfter, List.getLast?_concat]
  exact step_fresh _ b

/-- One item of a raw channel, placed well, in front of others. -/
theorem item_run (h : d.RawIdle) {item : RawItem} {items : List RawItem}
    {l l' : List (UInt8 × Bool)} (hl : l.map (·.1) = item.encode)
    (hl' : l'.map (·.1) = items.flatMap RawItem.encode)
    (hplaced : ItemsPlaced d.fresh (item :: items) (l ++ l')) :
    ((l.foldl step d).RegularStream l' → d.RegularStream (l ++ l')) ∧ (l.foldl step d).RawIdle ∧
      (l.foldl step d).owed = d.owed ++ tagged d.current item.payload ∧
      (l.foldl step d).current = d.current ∧ (l.foldl step d).channels = d.channels := by
  obtain ⟨hitem, -⟩ := hplaced
  have hmark {m : UInt8} (hm : IsMark m) {last : Bool} (hlast : last = true ∨ d.fresh = true ∧
      items.head?.any (·.ordinary) = true) : d.Special m → last = true ∨ d.Skips m l' := by
    intro _
    refine hlast.imp id ?_
    rintro ⟨hf, hnext⟩
    refine ⟨hf, hm, ?_⟩
    obtain _ | ⟨next, items⟩ := items
    · cases hnext
    · cases next with
      | data b =>
        have hb : astNeedsEscape b = false := by simpa [RawItem.ordinary] using hnext
        rw [List.flatMap_cons, RawItem.encode, astEscape, if_neg (by simp [hb])] at hl'
        obtain ⟨x, rest, rfl, rfl, -⟩ := List.map_eq_cons_iff.mp hl'
        exact ⟨x, rest, rfl, hb⟩
      | sop => cases hnext
      | eop => cases hnext
  cases item with
  | data b =>
    by_cases hb : astNeedsEscape b = true
    · obtain ⟨hm, hlast⟩ := hitem hb
      rw [RawItem.encode, astEscape, if_pos hb] at hl
      obtain ⟨⟨b0, f0⟩, l1, rfl, rfl, hl1⟩ := List.map_eq_cons_iff.mp hl
      obtain ⟨⟨b1, f1⟩, l2, rfl, rfl, hl2⟩ := List.map_eq_cons_iff.mp hl1
      obtain rfl := List.map_eq_nil_iff.mp hl2
      obtain rfl : f0 = true := hlast
      obtain ⟨hreg, hrun⟩ := raw_run_escaped h hb hm f1
      exact ⟨hreg.concat, hrun⟩
    · have hb' : astNeedsEscape b = false := by simpa using hb
      rw [RawItem.encode, astEscape, if_neg hb] at hl
      obtain ⟨⟨b0, f0⟩, l1, rfl, rfl, hl1⟩ := List.map_eq_cons_iff.mp hl
      obtain rfl := List.map_eq_nil_iff.mp hl1
      obtain ⟨hnot, hrun⟩ := raw_run_plain h hb' f0
      exact ⟨fun hreg => ⟨fun hs => absurd hs hnot, hreg⟩, hrun⟩
  | sop =>
    obtain ⟨⟨b0, f0⟩, l1, rfl, rfl, hl1⟩ := List.map_eq_cons_iff.mp hl
    obtain rfl := List.map_eq_nil_iff.mp hl1
    obtain ⟨hidle, howed, hrun⟩ := raw_run_mark h (.inl rfl) f0
    refine ⟨fun hreg => ⟨hmark (.inl rfl) hitem, hreg⟩, hidle, howed.trans ?_, hrun⟩
    rw [RawItem.payload, tagged_nil, List.append_nil]
  | eop =>
    obtain ⟨⟨b0, f0⟩, l1, rfl, rfl, hl1⟩ := List.map_eq_cons_iff.mp hl
    obtain rfl := List.map_eq_nil_iff.mp hl1
    obtain ⟨hidle, howed, hrun⟩ := raw_run_mark h (.inr rfl) f0
    refine ⟨fun hreg => ⟨hmark (.inr rfl) hitem, hreg⟩, hidle, howed.trans ?_, hrun⟩
    rw [RawItem.payload, tagged_nil, List.append_nil]

/-- Items of a raw channel, placed well: regular, and the channel is owed their payload. -/
theorem items_run (h : d.RawIdle) {items : List RawItem} {l : List (UInt8 × Bool)}
    (hl : l.map (·.1) = items.flatMap RawItem.encode) (hplaced : ItemsPlaced d.fresh items l) :
    d.RegularStream l ∧ (l.foldl step d).RawIdle ∧
      (l.foldl step d).owed = d.owed ++ tagged d.current (items.flatMap RawItem.payload) ∧
      (l.foldl step d).current = d.current ∧ (l.foldl step d).channels = d.channels := by
  induction items generalizing d l with
  | nil =>
    obtain rfl := List.map_eq_nil_iff.mp hl
    exact ⟨trivial, h, by rw [List.flatMap_nil, tagged_nil, List.append_nil]; rfl, rfl, rfl⟩
  | cons item items ih =>
    obtain ⟨l1, l2, rfl, hl1, hl2⟩ := List.map_eq_append_iff.mp hl
    obtain ⟨hreg1, hidle, howed, hcur, hch⟩ := item_run h hl1 hl2 hplaced
    have hlen : l1.length = item.encode.length := by rw [← hl1, List.length_map]
    have hne : l1 ≠ [] := by
      rintro rfl
      exact RawItem.encode_ne_nil item hl1.symm
    have hplaced' : ItemsPlaced (l1.foldl step d).fresh items l2 := by
      have hp := hplaced.2
      rwa [← hlen, List.take_left, List.drop_left, ← foldl_fresh d hne] at hp
    obtain ⟨hreg2, hidle', howed', hcur', hch'⟩ := ih hidle hl2 hplaced'
    rw [List.foldl_append]
    refine ⟨hreg1 hreg2, hidle', ?_, hcur'.trans hcur, hch'.trans hch⟩
    rw [howed', howed, hcur, List.flatMap_cons, tagged_append, List.append_assoc]

/-- A segment for no channel, or for a raw one with its items placed well: regular, and the channel is
owed its payload. -/
theorem raw_segment_run (hesc : d.esc = false) {s : RawSegment} {lh li : List (UInt8 × Bool)}
    (hlh : lh.map (·.1) = channelHeader s.number)
    (hli : li.map (·.1) = s.items.flatMap RawItem.encode)
    (hraw : ∀ c, d.channels.find? (·.number = s.number) = some c → c.packetized = false)
    (hhead : d.current.isSome = true → HeaderIntact s.number lh)
    (hitems : registered d.channels s.number = true → ItemsPlaced (freshAfter lh) s.items li) :
    d.RegularStream (lh ++ li) ∧
      ((lh ++ li).foldl step d).owed =
        d.owed ++ tagged (d.channels.find? (·.number = s.number)) s.payload ∧
      ((lh ++ li).foldl step d).esc = false ∧
      ((lh ++ li).foldl step d).current = d.channels.find? (·.number = s.number) ∧
      ((lh ++ li).foldl step d).channels = d.channels := by
  have hplain : d.raw = true → astNeedsEscape s.number = false := by
    intro h
    refine (hhead ?_).1
    cases hc : d.current with
    | none =>
      rw [raw, hc] at h
      cases h
    | some c => rfl
  have hne : lh ≠ [] := by
    rintro rfl
    cases hlh
  obtain ⟨leak, hafter, hintact, -⟩ := header_run hplain hlh
  have hno : tagged d.current leak = [] := by
    cases hc : d.current with
    | none => rfl
    | some c =>
      rw [hintact (hhead (by rw [hc]; rfl))]
      rfl
  have hnum : readNumber d.esc s.number = s.number := by
    rw [hesc, readNumber, unescapeIf, if_neg Bool.false_ne_true, ite_self]
  have howed := hafter.owed
  have hcur := hafter.current
  rw [hno, List.append_nil] at howed
  rw [hnum] at hcur
  have hheader : d.RegularStream lh := header_regular hplain hlh
  rw [List.foldl_append]
  cases hf : d.channels.find? (·.number = s.number) with
  | none =>
    have hraw0 : (lh.foldl step d).raw = false := by
      rw [raw, hcur, hf]
      rfl
    have hnp : astChannelPrefix ∉ li.map (·.1) := by
      rw [hli]
      exact RawItem.encode_no_prefix s.items
    obtain ⟨ho, -, he, hc, hch⟩ := data_run hraw0 hafter.pre hnp
    rw [hcur, hf] at ho
    refine ⟨hheader.concat (data_regular hraw0 hafter.pre hnp), ho.trans ?_, he.trans ?_,
      hc.trans (hcur.trans hf), hch.trans hafter.channels⟩
    · rw [howed]
      rfl
    · rw [hli, hafter.esc]
      exact RawItem.encode_getLast s.items
  | some c =>
    have hidle : (lh.foldl step d).RawIdle := by
      refine ⟨hafter.pre, hafter.esc, ?_⟩
      rw [raw, hcur, hf, Option.any_some, hraw c hf]
      rfl
    have hplaced : ItemsPlaced (lh.foldl step d).fresh s.items li := by
      rw [foldl_fresh d hne]
      exact hitems (by rw [registered, hf]; rfl)
    obtain ⟨hreg, hidle', ho, hc, hch⟩ := items_run hidle hli hplaced
    rw [hcur, hf, howed] at ho
    exact ⟨hheader.concat hreg, ho, hidle'.esc, hc.trans (hcur.trans hf),
      hch.trans hafter.channels⟩

/-- Segments of raw channels, placed well: regular, and each raw channel is owed its payload. -/
theorem raw_segments_run (hesc : d.esc = false) {segs : List RawSegment}
    {l : List (UInt8 × Bool)}
    (hl : l.map (·.1) = segs.flatMap RawSegment.encode)
    (hraw : ∀ s ∈ segs, ∀ c, d.channels.find? (·.number = s.number) = some c →
      c.packetized = false)
    (hplaced : Placed (registered d.channels) d.current.isSome segs l) :
    d.RegularStream l ∧ ∀ c ∈ d.channels, bytesFor c.number (l.foldl step d).owed =
      bytesFor c.number d.owed ++ rawSentTo c.number segs := by
  induction segs generalizing d l with
  | nil =>
    obtain rfl := List.map_eq_nil_iff.mp hl
    exact ⟨trivial, fun c _ => (List.append_nil _).symm⟩
  | cons s segs ih =>
    obtain ⟨l1, l2, rfl, hl1, hl2⟩ := List.map_eq_append_iff.mp hl
    obtain ⟨lh, li, rfl, hlh, hli⟩ := List.map_eq_append_iff.mp hl1
    obtain ⟨hhead, hitems, hrest⟩ := hplaced
    have hlen : (lh ++ li).length = s.encode.length := by rw [← hl1, List.length_map]
    have hlen' : lh.length = (channelHeader s.number).length := by rw [← hlh, List.length_map]
    have hne : lh ≠ [] := by
      rintro rfl
      cases hlh
    have hhead' : d.current.isSome = true → HeaderIntact s.number lh := by
      intro h
      obtain ⟨x, lh, rfl⟩ := List.exists_cons_of_ne_nil hne
      exact hhead h
    rw [← hlen, List.take_left, ← hlen', List.append_assoc, List.take_left, List.drop_left]
      at hitems
    rw [← hlen, List.drop_left] at hrest
    obtain ⟨hreg, ho, he, hc, hch⟩ := raw_segment_run hesc hlh hli
      (hraw s List.mem_cons_self) hhead' hitems
    rw [List.foldl_append]
    generalize hd' : (lh ++ li).foldl step d = d' at ho he hc hch
    have hrest' : Placed (registered d'.channels) d'.current.isSome segs l2 := by
      rw [hch, hc]
      exact hrest
    obtain ⟨hreg', hbytes⟩ := ih he hl2
      (fun s' hs' c => by rw [hch]; exact hraw s' (List.mem_cons_of_mem _ hs') c) hrest'
    refine ⟨hreg.concat ?_, fun c hmem => ?_⟩
    · rw [hd']
      exact hreg'
    · rw [hbytes c (by rw [hch]; exact hmem), ho, bytesFor_append, bytesFor_tagged_find hmem,
        List.append_assoc]
      unfold rawSentTo
      rw [List.filter_cons]
      by_cases hn : s.number = c.number
      · rw [if_pos hn, if_pos (decide_eq_true hn), List.flatMap_cons]
      · rw [if_neg hn, if_neg (by simpa using hn), List.nil_append]

end Demux

/-- **Raw channels.** For every stream of segments for channels that are not packetized, cut into
reads in any way: where the data of registered channels is placed well, each channel's sink accepts
exactly the payload of its segments. -/
theorem raw_exact (channels : List (Channel σ)) (world : σ) (segs : List RawSegment)
    (hraw : ∀ s ∈ segs, ∀ c, channels.find? (·.number = s.number) = some c → c.packetized = false)
    (reads : List (List UInt8)) (hreads : reads.flatten = segs.flatMap RawSegment.encode)
    (hplaced : Placed (Demux.registered channels) false segs (marked reads)) :
    ∀ c ∈ channels, ((BridgeState.init channels world).serve reads).acceptedBy c.number =
      rawSentTo c.number segs := by
  intro c hc
  obtain ⟨hreg, hbytes⟩ := Demux.raw_segments_run (d := (BridgeState.init channels world).view) rfl
    ((marked_fst reads).trans hreads) hraw hplaced
  have hall := hbytes c hc
  rw [← BridgeState.serve_view reads hreg, BridgeState.view_owed] at hall
  exact hall

/-- Escape prefixes and marks at the ends of reads, and a mark at the start of one. -/
theorem raw_exact_split :
    ((BridgeState.init [⟨1, false, .sink .greedy⟩] ()).serve
      [[0x7c, 1, 0x41, 0x7d], [0x5d, 0x7a], [0x7b, 0x42, 0x43]]).acceptedBy 1 =
        [0x41, 0x7d, 0x42, 0x43] := by
  refine raw_exact [⟨1, false, .sink .greedy⟩] ()
    [⟨1, [.data 0x41, .data 0x7d, .sop, .eop, .data 0x42, .data 0x43]⟩] ?_
    [[0x7c, 1, 0x41, 0x7d], [0x5d, 0x7a], [0x7b, 0x42, 0x43]] (by decide) ?_ _
    List.mem_cons_self
  · intro s _ c hc
    rw [List.mem_singleton.mp (List.mem_of_find?_eq_some hc)]
  · refine ⟨(nomatch ·), fun _ => ?_, trivial⟩
    have hplain {b : UInt8} {P : Prop} (hb : astNeedsEscape b = false) :
        astNeedsEscape b = true → P := fun h => absurd (hb.symm.trans h) Bool.false_ne_true
    exact ⟨hplain rfl, fun _ => ⟨by decide, rfl⟩, .inl rfl, .inr ⟨rfl, rfl⟩, hplain rfl,
      hplain rfl, trivial⟩

/-- An escape in the middle of a read: the escape prefix stays, and the last byte is lost. -/
theorem not_raw_exact : ¬ ∀ (channels : List (Channel Unit)) (segs : List RawSegment)
    (reads : List (List UInt8)), (∀ c ∈ channels, c.packetized = false) →
    (∀ read ∈ reads, 1 ≤ read.length ∧ read.length ≤ 128) →
    reads.flatten = segs.flatMap RawSegment.encode →
    ∀ c ∈ channels, ((BridgeState.init channels ()).serve reads).acceptedBy c.number =
      rawSentTo c.number segs := by
  intro h
  have hbad := h [⟨1, false, .sink .greedy⟩] [⟨1, [.data 0x7c, .data 0x41]⟩]
    [[0x7c, 1, 0x7d, 0x5c, 0x41]] (by simp) (by decide) (by decide) _ List.mem_cons_self
  have haccepted : ((BridgeState.init [⟨1, false, .sink .greedy⟩] ()).serve
      [[0x7c, 1, 0x7d, 0x5c, 0x41]]).accepted = [(1, 0x7d), (1, 0x7c)] := by
    show (((BridgeState.init [⟨1, false, .sink .greedy⟩] ()).startScan
      [0x7c, 1, 0x7d, 0x5c, 0x41]).loop 5).finish.accepted = _
    rw [Scan.finish, writeToChannel_accepted]
    rfl
  rw [BridgeState.acceptedBy, haccepted] at hbad
  exact absurd hbad (by decide)

end

end OlivePiccolo.Hostbridge
