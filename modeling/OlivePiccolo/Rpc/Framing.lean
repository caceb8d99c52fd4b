import Mathlib.Tactic.IntervalCases
import OlivePiccolo.Rpc.Sink

/-!
# Whole packets

A job that the sink passes on should hold one packet: the unescaped bytes between the latest
`AST_SOP` and the byte marked by `AST_EOP_PREFIX`, all of them stored since that `AST_SOP`, with
a length field that says how many they are (`WholePacket`).

`AST_SOP` resets neither `escape_prefix` nor `incoming_job`. So an escape prefix in front of it
changes the first byte of the packet, and the job of a truncated packet is taken for the job of
the next one, when that one ends inside its length field or is too long to be allocated for
(`not_delivers_whole`). `delivers_whole`: in every run without these steps (`Separate`), only
whole packets are passed on.
-/

namespace OlivePiccolo.Rpc

open Runs

/-! ## What has been received and stored -/

/-- The bytes received, in order. -/
def received : List Entry → List UInt8
  | [] => []
  | .byte b :: older => received older ++ [b]
  | .act _ :: older => received older

/-- What has happened since the latest `AST_SOP`. -/
def sinceSop (log : List Entry) : List Entry := log.takeWhile (· ≠ .byte astSop)

/-- The byte that was stored last at an index of a job's data. -/
def stored (job : JobId) (i : ℕ) : List Entry → Option UInt8
  | [] => none
  | .act (.storeLength job' v) :: older =>
    if job' = job ∧ i < 4 then (leBytes 4 v)[i]? else stored job i older
  | .act (.storeByte job' offset b) :: older =>
    if job' = job ∧ offset = i then some b else stored job i older
  | _ :: older => stored job i older

/-- The job holds the packet `p`, which has been received since the latest `AST_SOP` and ends with
its marked byte. -/
structure WholePacket (job : JobId) (log : List Entry) (p : List UInt8) : Prop where
  sop : .byte astSop ∈ log
  marked : ∃ front last, p = front ++ [last] ∧
    (Packet.last (received log)).payload = front.map (·, false) ++ [(last, true)]
  length_field : 4 ≤ p.length ∧ leNat (p.take 4) = p.length
  stored : ∀ i < p.length, stored job i (sinceSop log) = p[i]?

theorem received_logged (acts : List Action) (log : List Entry) :
    received (logged acts log) = received log := by
  induction acts generalizing log with
  | nil => rfl
  | cons a acts ih => rw [logged_cons, ih]; rfl

/-- Every job stored into `pending_job` held a whole packet then. -/
def DeliversWhole (log : List Entry) : Prop :=
  ∀ job older, .act (.setPending (some job)) :: older <:+ log → ∃ p, WholePacket job older p

/-- The condition on a step: `AST_SOP` finds no pending escape, and no packet takes over the job of
an earlier one, by ending inside its length field at its very length or by being too long. -/
def Separate (r : Receiver) : Event → Prop
  | .byte b =>
    (b = astSop → r.sink.escapePrefix = false) ∧
    (SinkState.IsData b ∧ r.sink.insidePacket = true ∧ r.sink.offset = 3 ∧
        maxRequestLength < toInt32 (r.sink.withLength b).lengthValue → r.sink.incomingJob = none) ∧
    (SinkState.IsData b ∧ r.sink.insidePacket = true ∧ r.sink.offset < 3 ∧
        r.sink.eopPrefix = true ∧ r.sink.offset + 1 = (r.sink.withLength b).lengthValue →
      r.sink.incomingJob = none)
  | .take => True

instance (r : Receiver) : ∀ e, Decidable (Separate r e)
  | .byte _ => inferInstanceAs (Decidable ((_ → _) ∧ (_ ∧ _ → _) ∧ (_ ∧ _ → _)))
  | .take => inferInstanceAs (Decidable True)

/-! ## The invariant -/

/-- The length field is filled from the payload `q` received so far. -/
structure Field (s : SinkState) (q : List UInt8) : Prop where
  short : s.offset < 4 → s.offset = q.length
  field : ∀ i < 4, i < s.offset → q[i]? = some (s.length i)
  full : 4 ≤ s.offset → 4 ≤ q.length

/-- How the state of the sink stands for the payload `q` received so far. -/
structure Holding (s : SinkState) (log : List Entry) (q : List UInt8) : Prop extends Field s q where
  /-- A job, once the length field is read, has the payload stored. -/
  job : ∀ job, 4 ≤ s.offset → s.incomingJob = some job →
    s.offset = q.length ∧ ∀ i < q.length, stored job i (sinceSop log) = q[i]?

/-- Inside a packet, the flags are those of the packet, and its payload is held. -/
structure FramingInv (s : SinkState) (log : List Entry) : Prop where
  delivers : DeliversWhole log
  inside : s.insidePacket = true → .byte astSop ∈ log ∧ ∃ q : List UInt8,
    Packet.last (received log) = ⟨s.escapePrefix, s.eopPrefix, q.map (·, false)⟩ ∧ Holding s log q

section

variable {s : SinkState} {log : List Entry} {q : List UInt8} {d : UInt8}

theorem Field.lengthValue_eq (h : Field s q) (h4 : 4 ≤ s.offset) :
    s.lengthValue = leNat (q.take 4) := by
  have hlen := h.full h4
  have hq : q.take 4 = [s.length 0, s.length 1, s.length 2, s.length 3] := by
    apply List.ext_getElem?
    intro i
    rcases Nat.lt_or_ge i 4 with hi | hi
    · rw [List.getElem?_take_of_lt hi, h.field i hi (by omega)]
      interval_cases i <;> rfl
    · rw [List.getElem?_eq_none (by rw [List.length_take]; omega),
        List.getElem?_eq_none (by simpa using hi)]
  rw [hq]
  rfl

theorem sinceSop_act (a : Action) : sinceSop (.act a :: log) = .act a :: sinceSop log := by
  unfold sinceSop; rw [List.takeWhile_cons, if_pos (by simp)]

theorem sinceSop_byte {b : UInt8} (hb : b ≠ astSop) :
    sinceSop (.byte b :: log) = .byte b :: sinceSop log := by
  unfold sinceSop; rw [List.takeWhile_cons, if_pos (by simpa using hb)]

theorem Holding.byte (h : Holding s log q) {b : UInt8} (hb : b ≠ astSop) :
    Holding s (.byte b :: log) q :=
  ⟨h.toField, fun job h4 hj => by rw [sinceSop_byte hb]; exact h.job job h4 hj⟩

theorem Field.congr (h : Field s q) {s' : SinkState} (ho : s'.offset = s.offset)
    (hl : s'.length = s.length) : Field s' q :=
  ⟨by rw [ho]; exact h.short, by rw [ho, hl]; exact h.field, by rw [ho]; exact h.full⟩

theorem Holding.congr (h : Holding s log q) {s' : SinkState} (ho : s'.offset = s.offset)
    (hl : s'.length = s.length) (hj : s'.incomingJob = s.incomingJob) : Holding s' log q :=
  ⟨h.toField.congr ho hl, by rw [ho, hj]; exact h.job⟩

theorem Field.no_job (h : Field s q) (hj : s.incomingJob = none) : Holding s log q :=
  ⟨h, fun job _ hjob => by rw [hj] at hjob; cases hjob⟩

/-- One more payload byte does not change a complete length field. -/
theorem Field.snoc (h : Field s q) (h4 : 4 ≤ s.offset) : Field s (q ++ [d]) :=
  ⟨fun hlt => absurd hlt (by omega),
    fun i hi ho => by
      rw [List.getElem?_append_left (by have := h.full h4; omega)]; exact h.field i hi ho,
    fun _ => by rw [List.length_append]; have := h.full h4; omega⟩

theorem Field.withLength (h : Field s q) (h4 : s.offset < 4) (b : UInt8) :
    Field (s.withLength b) (q ++ [unescapeIf s.escapePrefix b]) := by
  have hlen := h.short h4
  have hoff : (s.withLength b).offset = s.offset + 1 := rfl
  refine ⟨fun _ => ?_, fun i hi ho => ?_, fun hfull => ?_⟩
  · rw [hoff, List.length_append, List.length_singleton, hlen]
  · show _ = some (Function.update s.length s.offset _ i)
    rcases Nat.lt_or_ge i q.length with hlt | hge
    · rw [List.getElem?_append_left hlt, Function.update_of_ne (by omega)]
      exact h.field i hi (by omega)
    · obtain rfl : i = q.length := by omega
      rw [List.getElem?_concat_length, hlen, Function.update_self]
  · rw [List.length_append, List.length_singleton]
    omega

theorem deliversWhole_nil : DeliversWhole [] := by
  intro job older h
  have := List.suffix_nil.mp h
  cases this

theorem DeliversWhole.cons (h : DeliversWhole log) {e : Entry}
    (he : ∀ job, e ≠ .act (.setPending (some job))) : DeliversWhole (e :: log) := by
  intro job older hs
  rcases List.suffix_cons_iff.mp hs with heq | hs
  · exact absurd (List.cons.inj heq).1.symm (he job)
  · exact h job older hs

theorem DeliversWhole.pass (h : DeliversWhole log) {job : JobId} {p : List UInt8}
    (hp : WholePacket job log p) : DeliversWhole (.act (.setPending (some job)) :: log) := by
  intro job' older hs
  rcases List.suffix_cons_iff.mp hs with heq | hs
  · cases heq
    exact ⟨p, hp⟩
  · exact h job' older hs

theorem FramingInv.outside (h : DeliversWhole log) (hi : s.insidePacket = false) :
    FramingInv s log :=
  ⟨h, fun hin => by rw [hi] at hin; cases hin⟩

/-- The end of a round, after the data byte `d` has been held. -/
theorem FramingInv.endOfByte (hd : DeliversWhole log) (hsop : .byte astSop ∈ log)
    (hp : Packet.last (received log) = ⟨false, false, q.map (·, false) ++ [(d, s.eopPrefix)]⟩)
    (he : s.escapePrefix = false) (hh : Holding s log (q ++ [d]))
    (hpass : s.eopPrefix = true → s.offset < 4 → s.offset = s.lengthValue →
      s.incomingJob = none) :
    FramingInv s.endOfByte.1 (logged s.endOfByte.2 log) := by
  refine SinkState.endOfByte_elim
    (P := fun r => FramingInv r.1 (logged r.2 log)) s (fun heop => ?_)
    (fun _ _ => ?_) (fun heop hlen => ?_)
  · refine ⟨hd, fun _ => ⟨hsop, q ++ [d], ?_, hh⟩⟩
    show Packet.last (received log) = _
    rw [hp, he, heop, List.map_append, List.map_singleton]
  · exact .outside (hd.cons (by simp)) rfl
  · refine .outside ?_ rfl
    show DeliversWhole (.act .semPost :: .act (.setPending s.incomingJob) :: log)
    refine DeliversWhole.cons ?_ (by simp)
    rcases hj : s.incomingJob with _ | job
    · exact hd.cons (by simp)
    · have h4 : 4 ≤ s.offset := by
        by_contra hlt
        rw [hpass heop (by omega) hlen] at hj
        cases hj
      obtain ⟨hoff, hst⟩ := hh.job job h4 hj
      refine hd.pass (p := q ++ [d]) ⟨hsop, ⟨q, d, rfl, ?_⟩, ⟨hh.full h4, ?_⟩, hst⟩
      · rw [hp, heop]
      · rw [← hh.lengthValue_eq h4, ← hlen, hoff]

/-- The length field is complete: a job is allocated and holds it, or there is none. -/
theorem Field.allocate (h : Field s q) (h4 : s.offset = 4) (hq : q.length = 4)
    (ok : ℕ → Bool)
    (hlarge : maxRequestLength < toInt32 s.lengthValue → s.incomingJob = none) :
    Holding (s.allocate ok).1 (logged (s.allocate ok).2 log) q := by
  unfold SinkState.allocate
  split_ifs with hle hok
  · refine ⟨h.congr rfl rfl, fun job _ hjob => ⟨by rw [hq]; exact h4, fun i hi => ?_⟩⟩
    have hjob' : s.mallocs = job := by simpa using hjob
    have hbytes : leBytes 4 s.lengthValue = q := by
      rw [h.lengthValue_eq (by omega), List.take_of_length_le (by omega)]
      conv_lhs => rw [← hq]
      exact leBytes_leNat q
    show stored job i (sinceSop (.act (.storeLength s.mallocs s.lengthValue) :: _)) = _
    rw [sinceSop_act]
    show (if s.mallocs = job ∧ i < 4 then (leBytes 4 s.lengthValue)[i]? else _) = _
    rw [if_pos ⟨hjob', by omega⟩, hbytes]
  · exact Field.no_job (h.congr rfl rfl) rfl
  · exact h.no_job (hlarge (by omega))

theorem DeliversWhole.logged (h : DeliversWhole log) (acts : List Action)
    (ha : ∀ a ∈ acts, ∀ job, a ≠ .setPending (some job)) : DeliversWhole (logged acts log) := by
  induction acts generalizing log with
  | nil => exact h
  | cons a acts ih =>
    rw [logged_cons]
    apply ih
    · refine h.cons fun job heq => ?_
      exact ha a List.mem_cons_self job (Entry.act.inj heq)
    · intro a' ha'
      exact ha a' (List.mem_cons_of_mem _ ha')

theorem SinkState.allocate_ne_setPending (ok : ℕ → Bool) :
    ∀ a ∈ (s.allocate ok).2, ∀ job, a ≠ .setPending (some job) := by
  intro a ha job heq
  subst heq
  unfold SinkState.allocate at ha
  split_ifs at ha <;> simp at ha

theorem Holding.storeByte {job : JobId} (h : Holding s log q) (h4 : 4 ≤ s.offset)
    (hjob : s.incomingJob = some job) :
    Holding { s.unescaped with offset := s.offset + 1 }
      (.act (.storeByte job s.offset d) :: log) (q ++ [d]) := by
  obtain ⟨hoff, hst⟩ := h.job job h4 hjob
  have hlast : (q ++ [d])[q.length]? = some d := List.getElem?_concat_length
  have hfield := h.toField.snoc (d := d) h4
  refine ⟨⟨fun hlt => absurd hlt (by show ¬ s.offset + 1 < 4; omega),
    fun i hi _ => hfield.field i hi (by omega), fun _ => hfield.full h4⟩, fun job' _ hjob' => ?_⟩
  have hjj : job = job' := by
    have hj : s.incomingJob = some job' := hjob'
    rw [hjob] at hj
    exact Option.some.inj hj
  subst hjj
  refine ⟨by rw [List.length_append, ← hoff]; rfl, fun i hi => ?_⟩
  rw [sinceSop_act]
  show (if job = job ∧ s.offset = i then some _ else stored job i (sinceSop _)) = _
  by_cases hio : s.offset = i
  · rw [if_pos ⟨rfl, hio⟩, ← hio, hoff, hlast]
  · rw [List.length_append, List.length_singleton] at hi
    rw [if_neg fun h => hio h.2, hst i (by omega), List.getElem?_append_left (by omega)]

theorem FramingInv.sinkByte (h : FramingInv s log) (ok : ℕ → Bool) {b : UInt8}
    (hsep : Separate ⟨s, log⟩ (.byte b)) :
    FramingInv (s.sinkByte ok b).1 (logged (s.sinkByte ok b).2 (.byte b :: log)) := by
  have hdel : DeliversWhole (.byte b :: log) := h.delivers.cons (by simp)
  obtain ⟨hesc, hlarge, hshort⟩ := hsep
  -- a data byte inside a packet: what it does to the packet received
  have hdata : SinkState.IsData b → s.insidePacket = true → .byte astSop ∈ .byte b :: log ∧
      ∃ q : List UInt8, Holding s (.byte b :: log) q ∧ Packet.last (received (.byte b :: log)) =
        ⟨false, false, q.map (·, false) ++ [(unescapeIf s.escapePrefix b, s.eopPrefix)]⟩ := by
    rintro ⟨h1, h2, h3⟩ hi
    obtain ⟨hsop, q, hp, hh⟩ := h.inside hi
    refine ⟨List.mem_cons_of_mem _ hsop, q, hh.byte h1, ?_⟩
    rw [received, Packet.last_append, hp, Packet.feed, if_neg h1, if_neg h2, if_neg h3]
  refine SinkState.sinkByte_elim
    (P := fun r => FramingInv r.1 (logged r.2 (.byte b :: log))) ok s b
    (fun hb => ?_) (fun hb => ?_) (fun hb => ?_) (fun _ hi => ?_) (fun hd hi h3 => ?_)
    (fun hd hi h3 => ?_) (fun _ _ _ _ => ?_) (fun job hd hi h4 hlt hjob => ?_)
    (fun hd hi h4 _ hjob => ?_)
  · refine ⟨hdel, fun _ => ⟨by rw [hb]; exact List.mem_cons_self, [], ?_, ?_⟩⟩
    · show Packet.last (received log ++ [b]) = _
      rw [Packet.last_append, Packet.feed, if_pos hb, hesc hb]
      rfl
    · exact ⟨⟨fun _ => rfl, fun i _ hi => absurd hi (Nat.not_lt_zero i),
        fun h4 => absurd h4 (by simp)⟩, fun _ h4 => absurd h4 (by simp)⟩
  · refine ⟨hdel, fun hi => ?_⟩
    obtain ⟨hsop, q, hp, hh⟩ := h.inside hi
    refine ⟨List.mem_cons_of_mem _ hsop, q, ?_, (hh.byte (by rw [hb]; decide)).congr rfl rfl rfl⟩
    show Packet.last (received log ++ [b]) = _
    rw [Packet.last_append, hp, Packet.feed, if_neg (by rw [hb]; decide), if_pos hb]
  · refine ⟨hdel, fun hi => ?_⟩
    obtain ⟨hsop, q, hp, hh⟩ := h.inside hi
    refine ⟨List.mem_cons_of_mem _ hsop, q, ?_, (hh.byte (by rw [hb]; decide)).congr rfl rfl rfl⟩
    show Packet.last (received log ++ [b]) = _
    rw [Packet.last_append, hp, Packet.feed, if_neg (by rw [hb]; decide),
      if_neg (by rw [hb]; decide), if_pos hb]
  · exact .outside hdel hi
  · obtain ⟨hsop, q, hh, hp⟩ := hdata hd hi
    have hfield := hh.toField.withLength (by omega) b
    refine .endOfByte hdel hsop hp rfl ⟨hfield, fun job h4 => ?_⟩ fun heop _ hlen => ?_
    · exact absurd h4 (by show ¬ 4 ≤ s.offset + 1; omega)
    · exact hshort ⟨hd, hi, h3, heop, hlen⟩
  · obtain ⟨hsop, q, hh, hp⟩ := hdata hd hi
    have hfield := hh.toField.withLength (by omega) b
    have hq : (q ++ [unescapeIf s.escapePrefix b]).length = 4 := by
      rw [List.length_append, List.length_singleton, ← hh.short (by omega)]
      omega
    have hoff : (s.withLength b).offset = 4 := by show s.offset + 1 = 4; omega
    have hhold : Holding _ (logged _ (.byte b :: log)) _ :=
      hfield.allocate hoff hq ok fun hgt => hlarge ⟨hd, hi, h3, hgt⟩
    show FramingInv (SinkState.andThen _ _).1 _
    rw [logged_andThen, SinkState.andThen_fst]
    have heop : ((s.withLength b).allocate ok).1.eopPrefix = s.eopPrefix :=
      SinkState.allocate_eopPrefix ok _
    have hesc : ((s.withLength b).allocate ok).1.escapePrefix = false :=
      (SinkState.allocate_escapePrefix ok _).trans rfl
    have hoff' : ((s.withLength b).allocate ok).1.offset = 4 := by
      rw [SinkState.allocate_offset, hoff]
    have hdel' := hdel.logged _ (SinkState.allocate_ne_setPending (s := s.withLength b) ok)
    have hp' : Packet.last (received (logged ((s.withLength b).allocate ok).2 (.byte b :: log))) =
        ⟨false, false, q.map (·, false) ++
          [(unescapeIf s.escapePrefix b, ((s.withLength b).allocate ok).1.eopPrefix)]⟩ := by
      rw [received_logged, heop]
      exact hp
    have hpass : ((s.withLength b).allocate ok).1.eopPrefix = true →
        ((s.withLength b).allocate ok).1.offset < 4 →
        ((s.withLength b).allocate ok).1.offset =
          ((s.withLength b).allocate ok).1.lengthValue →
        ((s.withLength b).allocate ok).1.incomingJob = none := by
      intro _ hlt
      exact absurd hlt (by rw [hoff']; decide)
    exact FramingInv.endOfByte hdel' (mem_logged _ hsop) hp' hesc hhold hpass
  · exact .outside (hdel.cons (by simp)) rfl
  · obtain ⟨hsop, q, hh, hp⟩ := hdata hd hi
    rw [logged_andThen]
    exact .endOfByte (hdel.cons (by simp)) (mem_logged _ hsop) hp rfl (hh.storeByte h4 hjob)
      fun _ hlt => absurd hlt (by show ¬ s.offset + 1 < 4; omega)
  · obtain ⟨hsop, q, hh, hp⟩ := hdata hd hi
    exact .endOfByte hdel hsop hp rfl (Field.no_job ((hh.toField.snoc h4).congr rfl rfl) hjob)
      fun _ hlt => absurd hlt (by show ¬ s.offset < 4; omega)

end

/-- **Whole packets.** In every run in which no packet uses what an earlier one has left behind,
each job passed on holds exactly the packet since the latest `AST_SOP`. -/
theorem delivers_whole (ok : ℕ → Bool) (es : List Event) (r : Receiver)
    (h : Path (Receiver.step ok) Separate .init es r) : DeliversWhole r.log := by
  have hinv : FramingInv r.sink r.log := by
    refine h.invariant (I := fun r => FramingInv r.sink r.log)
      (.outside deliversWhole_nil rfl) ?_
    intro s e t hI hok hst
    cases e with
    | byte b =>
      simp only [Receiver.step, Option.ite_none_right_eq_some, Option.some.injEq] at hst
      obtain ⟨-, rfl⟩ := hst
      exact hI.sinkByte ok hok
    | take =>
      simp only [Receiver.step, Option.ite_none_left_eq_some, Option.some.injEq] at hst
      obtain ⟨-, rfl⟩ := hst
      exact ⟨hI.delivers, fun hi => by
        obtain ⟨hsop, q, hp, hh⟩ := hI.inside hi
        exact ⟨hsop, q, hp, hh.congr rfl rfl rfl⟩⟩
  exact hinv.delivers

/-- Two requests of five bytes, the second one sent twice because it was cut off first. -/
theorem delivers_whole_two : ∃ r : Receiver, DeliversWhole r.log ∧ r.sink.pendingJob = some 2 := by
  have hrun : (exec (Receiver.step fun _ => true) Separate .init
      ([0x7a, 5, 0, 0, 0, 0x7b, 0].map Event.byte ++ [.take] ++
        [0x7a, 5, 0, 0, 0, 0x7a, 5, 0, 0, 0, 0x7b, 0].map Event.byte)).isSome = true := by decide
  exact ⟨_, delivers_whole _ _ _ (path_get hrun), rfl⟩

/-- A packet that is cut off after its length, and one whose only byte 1 makes the length field say
1: the job of the first is passed on for the second. -/
theorem not_delivers_whole : ¬ ∀ (ok : ℕ → Bool) (es : List Event) (r : Receiver),
    Path (Receiver.step ok) anyStep .init es r → DeliversWhole r.log := by
  intro h
  have hrun : (exec (Receiver.step fun _ => true) anyStep .init
      ([0x7a, 5, 0, 0, 0, 0x7a, 0x7b, 1].map Event.byte)).isSome = true := by decide
  obtain ⟨p, hp⟩ := h _ _ _ (path_get hrun) 0 _ (List.suffix_cons _ _)
  obtain ⟨front, last, rfl, hm⟩ := hp.marked
  have hlen := congrArg List.length hm
  have hfour := hp.length_field.1
  rw [List.length_append, List.length_map] at hlen
  rw [List.length_append] at hfour
  have hone : 1 = front.length + 1 := hlen
  have hfour' : 4 ≤ front.length + 1 := hfour
  omega

end OlivePiccolo.Rpc
