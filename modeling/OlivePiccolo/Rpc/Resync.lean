import OlivePiccolo.Hostbridge.Source
import OlivePiccolo.Rpc.Framing

/-!
# Resynchronisation at a start of packet

A request is sent as `packet d`: the start mark, the escaped bytes, and the end mark in front of
the last one. `AST_SOP` clears all of the state of the sink that matters for the request, but for
`escape_prefix`: a dangling escape prefix changes the first byte of the request, unless this byte
is sent with an escape prefix of its own.

`delivered_iff`: the request is delivered from exactly the other states. The length field of a
changed request is never its length (`Doomed`).
-/

namespace OlivePiccolo.Rpc

open Hostbridge

/-- The packet that `peridot_sw_hostbridge_gen2_source` sends behind the channel header. -/
def packet (d : List UInt8) : List UInt8 := startMark 1 ++ body (afterStart 1) d

/-- It is what the loop of `peridot_sw_hostbridge_gen2_source` writes for a packet. -/
theorem sendLoop_packet {σ : Type*} {dev : Device σ UInt8} (s : SourceState σ) {d : List UInt8}
    (hd : d ≠ []) : (sendLoop dev s 1 d).sent = s.sent ++ packet d :=
  sendLoop_sent s 1 hd

namespace SinkState

/-! ## Chunks -/

/-- The state of the sink and the actions so far, after one more chunk. -/
def consume (ok : ℕ → Bool) (p : SinkState × List Action) (chunk : List UInt8) :
    SinkState × List Action :=
  ((p.1.peridotRpcServerSink ok chunk).1, p.2 ++ (p.1.peridotRpcServerSink ok chunk).2.1)

section Consume

variable {ok : ℕ → Bool} {p : SinkState × List Action} {s t : SinkState} {acts more : List Action}

theorem consume_nil : consume ok p [] = p := by
  unfold consume peridotRpcServerSink
  rw [List.append_nil]

theorem consume_pending (h : p.1.pendingJob ≠ none) (chunk : List UInt8) :
    consume ok p chunk = p := by
  cases chunk with
  | nil => exact consume_nil
  | cons byte rest =>
    unfold consume peridotRpcServerSink
    rw [if_pos (Option.isSome_iff_ne_none.mpr h), List.append_nil]

theorem consume_cons (hp : s.pendingJob = none) {byte : UInt8}
    (hs : s.sinkByte ok byte = (t, more)) (rest : List UInt8) :
    consume ok (s, acts) (byte :: rest) = consume ok (t, acts ++ more) rest := by
  have hno : ¬ s.pendingJob.isSome = true := by rw [hp]; decide
  unfold consume
  rw [peridotRpcServerSink, if_neg hno, hs, List.append_assoc]

theorem consume_append (l l' : List UInt8) :
    consume ok p (l ++ l') = consume ok (consume ok p l) l' := by
  induction l generalizing p with
  | nil => rw [List.nil_append, consume_nil]
  | cons byte rest ih =>
    obtain ⟨s, acts⟩ := p
    by_cases h : s.pendingJob = none
    · rw [List.cons_append, consume_cons h rfl, consume_cons h rfl, ih]
    · rw [consume_pending (p := (s, acts)) h, consume_pending (p := (s, acts)) h,
        consume_pending (p := (s, acts)) h]

/-- How the bytes are cut into chunks makes no difference. -/
theorem foldl_consume (chunks : List (List UInt8)) :
    chunks.foldl (consume ok) p = consume ok p chunks.flatten := by
  induction chunks generalizing p with
  | nil => exact consume_nil.symm
  | cons chunk rest ih => rw [List.foldl_cons, ih, List.flatten_cons, consume_append]

end Consume

/-! ## One byte of a packet -/

section Byte

variable {ok : ℕ → Bool} {s : SinkState} {acts : List Action}

/-- The byte that is received for `byte`: a dangling escape prefix is used up by it, unless it has
one of its own. -/
def receivedByte (s : SinkState) (byte : UInt8) : UInt8 :=
  unescapeIf (s.escapePrefix && !astNeedsEscape byte) byte

theorem sinkByte_data {byte : UInt8} (h : astNeedsEscape byte = false)
    (hin : s.insidePacket = true) :
    s.sinkByte ok byte = s.unescaped.packetByte ok (unescapeIf s.escapePrefix byte) := by
  obtain ⟨hsop, heop, -, hesc⟩ := astNeedsEscape_eq_false.mp h
  unfold sinkByte
  rw [if_neg hsop, if_neg heop, if_neg hesc, if_pos hin]

theorem consume_astEscape {t : SinkState} {more : List Action} (hp : s.pendingJob = none)
    (hin : s.insidePacket = true) {byte : UInt8}
    (hs : s.unescaped.packetByte ok (s.receivedByte byte) = (t, more)) (rest : List UInt8) :
    consume ok (s, acts) (astEscape byte ++ rest) = consume ok (t, acts ++ more) rest := by
  unfold astEscape
  split_ifs with hb
  · have hmark : s.sinkByte ok astEscapePrefix = ({ s with escapePrefix := true }, []) := by
      unfold sinkByte
      rw [if_neg (by decide), if_neg (by decide), if_pos rfl]
    have hbyte : s.receivedByte byte = byte := by
      unfold receivedByte
      rw [hb, Bool.not_true, Bool.and_false]
      rfl
    have hnext : SinkState.sinkByte ok { s with escapePrefix := true } (byte ^^^ astEscapeXor) =
        (t, more) := by
      rw [sinkByte_data (s := { s with escapePrefix := true }) (astNeedsEscape_xor hb) hin, ← hs,
        hbyte, unescapeIf, if_pos rfl, xor_astEscapeXor]
      rfl
    rw [List.cons_append, List.singleton_append, consume_cons hp hmark, List.append_nil,
      consume_cons (s := { s with escapePrefix := true }) hp hnext]
  · have hb' : astNeedsEscape byte = false := by simpa using hb
    have hbyte : s.receivedByte byte = unescapeIf s.escapePrefix byte := by
      unfold receivedByte
      rw [hb', Bool.not_false, Bool.and_true]
    have hnext : s.sinkByte ok byte = (t, more) := by
      rw [sinkByte_data hb' hin, ← hs, hbyte]
    rw [List.singleton_append, consume_cons hp hnext]

theorem consume_eop (hp : s.pendingJob = none) (rest : List UInt8) :
    consume ok (s, acts) (astEopPrefix :: rest) =
      consume ok ({ s with eopPrefix := true }, acts) rest := by
  have hmark : s.sinkByte ok astEopPrefix = ({ s with eopPrefix := true }, []) := by
    unfold sinkByte
    rw [if_neg (by decide), if_pos rfl]
  rw [consume_cons hp hmark, List.append_nil]

theorem consume_sop (hp : s.pendingJob = none) (rest : List UInt8) :
    consume ok (s, acts) (astSop :: rest) =
      consume ok ({ s with offset := 0, insidePacket := true, eopPrefix := false }, acts) rest := by
  have hmark : s.sinkByte ok astSop =
      ({ s with offset := 0, insidePacket := true, eopPrefix := false }, []) := by
    unfold sinkByte
    rw [if_pos rfl]
  rw [consume_cons hp hmark, List.append_nil]

theorem packetByte_field (h : s.offset < 3) (heop : s.eopPrefix = false) (byte : UInt8) :
    s.packetByte ok byte = (s.putLength byte, []) := by
  have h4 : s.offset < 4 := by omega
  have hno : ¬ s.offset + 1 = 4 := by omega
  have heop' : (s.putLength byte).eopPrefix = false := heop
  unfold packetByte
  rw [if_pos h4, if_neg hno]
  unfold endOfByte
  rw [heop', Bool.not_false, if_pos rfl]

theorem endOfByte_more (h : s.eopPrefix = false) : s.endOfByte = (s, []) := by
  unfold endOfByte
  rw [h, Bool.not_false, if_pos rfl]

theorem andThen_endOfByte {r : SinkState × List Action} (h : r.1.eopPrefix = false) :
    andThen r endOfByte = r := by
  unfold andThen
  rw [endOfByte_more h, List.append_nil]

theorem packetByte_length (h : s.offset = 3) (heop : s.eopPrefix = false) (byte : UInt8) :
    s.packetByte ok byte = (s.putLength byte).allocate ok := by
  have h4 : s.offset < 4 := by omega
  have hlast : s.offset + 1 = 4 := by omega
  have heop' : ((s.putLength byte).allocate ok).1.eopPrefix = false := by
    rw [allocate_eopPrefix]
    exact heop
  unfold packetByte
  rw [if_pos h4, if_pos hlast, andThen_endOfByte heop']

theorem packetByte_store {job : JobId} (h4 : 4 ≤ s.offset) (hlt : s.offset < s.lengthValue)
    (hjob : s.incomingJob = some job) (byte : UInt8) {t : SinkState} {more : List Action}
    (hend : SinkState.endOfByte { s with offset := s.offset + 1 } = (t, more)) :
    s.packetByte ok byte = (t, .storeByte job s.offset byte :: more) := by
  unfold packetByte
  rw [hjob] at hend
  rw [if_neg (by omega), if_neg (by omega), hjob]
  simp only [andThen]
  rw [hend, List.singleton_append]

theorem packetByte_skip (h4 : 4 ≤ s.offset) (hlt : s.offset < s.lengthValue)
    (hjob : s.incomingJob = none) (byte : UInt8) : s.packetByte ok byte = s.endOfByte := by
  unfold packetByte
  rw [if_neg (by omega), if_neg (by omega), hjob]

theorem packetByte_drop (h4 : 4 ≤ s.offset) (hge : s.lengthValue ≤ s.offset) (byte : UInt8) :
    s.packetByte ok byte = s.dropPacket := by
  unfold packetByte
  rw [if_neg (by omega), if_pos hge]

theorem endOfByte_pass (h : s.eopPrefix = true) (hlen : s.offset = s.lengthValue) :
    s.endOfByte =
      ({ s with pendingJob := s.incomingJob }.nextPacket,
        [.setPending s.incomingJob, .semPost]) := by
  unfold endOfByte
  rw [h, Bool.not_true, if_neg Bool.false_ne_true, if_neg (not_not.mpr hlen)]

theorem endOfByte_drop (h : s.eopPrefix = true) (hlen : s.offset ≠ s.lengthValue) :
    s.endOfByte = s.dropPacket := by
  unfold endOfByte
  rw [h, Bool.not_true, if_neg Bool.false_ne_true, if_pos hlen]

end Byte

/-! ## The length field -/

/-- The state behind the length field `b₀ b₁ b₂ b₃`, in front of the allocation. -/
def lengthRead (s : SinkState) (b₀ b₁ b₂ b₃ : UInt8) : SinkState :=
  { s with escapePrefix := false, eopPrefix := false, insidePacket := true, offset := 4,
           length := Function.update (Function.update (Function.update
             (Function.update s.length 0 b₀) 1 b₁) 2 b₂) 3 b₃ }

theorem lengthRead_lengthValue (s : SinkState) (b₀ b₁ b₂ b₃ : UInt8) :
    (s.lengthRead b₀ b₁ b₂ b₃).lengthValue = leNat [b₀, b₁, b₂, b₃] := rfl

theorem consume_field {ok : ℕ → Bool} {s : SinkState} {acts : List Action}
    (hp : s.pendingJob = none) (hin : s.insidePacket = true) (h3 : s.offset < 3)
    (heop : s.eopPrefix = false) {byte b : UInt8} (hb : s.receivedByte byte = b)
    (rest : List UInt8) :
    consume ok (s, acts) (astEscape byte ++ rest) =
      consume ok (s.unescaped.putLength b, acts) rest := by
  rw [consume_astEscape hp hin (packetByte_field (s := s.unescaped) h3 heop _), List.append_nil,
    hb]

theorem receivedByte_of_plain {s : SinkState} (h : s.escapePrefix = false) (byte : UInt8) :
    s.receivedByte byte = byte := by
  unfold receivedByte
  rw [h, Bool.false_and]
  rfl

/-- The start mark and the length field of a request. -/
theorem consume_lengthField (ok : ℕ → Bool) {s : SinkState} (hp : s.pendingJob = none)
    (d₀ d₁ d₂ d₃ : UInt8) {rest : List UInt8} (hrest : rest ≠ []) :
    consume ok (s, []) (packet (d₀ :: d₁ :: d₂ :: d₃ :: rest)) =
      consume ok ((s.lengthRead (s.receivedByte d₀) d₁ d₂ d₃).allocate ok) (body (-1) rest) := by
  have hpacket : packet (d₀ :: d₁ :: d₂ :: d₃ :: rest) =
      astSop :: (astEscape d₀ ++ (astEscape d₁ ++ (astEscape d₂ ++
        (astEscape d₃ ++ body (-1) rest)))) := by
    show astSop :: body (-1) _ = _
    simp only [body, endMark, hrest, List.cons_ne_nil, and_false, if_false, List.nil_append]
  -- the states in front of the four bytes
  let s₀ : SinkState := { s with offset := 0, insidePacket := true, eopPrefix := false }
  let s₁ : SinkState := s₀.unescaped.putLength (s.receivedByte d₀)
  let s₂ : SinkState := s₁.unescaped.putLength d₁
  let s₃ : SinkState := s₂.unescaped.putLength d₂
  have hlast : s₃.unescaped.packetByte ok (s₃.receivedByte d₃) =
      (s.lengthRead (s.receivedByte d₀) d₁ d₂ d₃).allocate ok := by
    rw [packetByte_length (s := s₃.unescaped) rfl rfl, receivedByte_of_plain (s := s₃) rfl]
    rfl
  have hend : consume ok (s₃, []) (astEscape d₃ ++ body (-1) rest) =
      consume ok ((s.lengthRead (s.receivedByte d₀) d₁ d₂ d₃).allocate ok) (body (-1) rest) := by
    generalize (s.lengthRead (s.receivedByte d₀) d₁ d₂ d₃).allocate ok = r at hlast ⊢
    obtain ⟨t, more⟩ := r
    exact consume_astEscape (s := s₃) hp rfl hlast _
  calc consume ok (s, []) (packet (d₀ :: d₁ :: d₂ :: d₃ :: rest))
      = consume ok (s₀, []) (astEscape d₀ ++ (astEscape d₁ ++ (astEscape d₂ ++
          (astEscape d₃ ++ body (-1) rest)))) := by rw [hpacket, consume_sop hp]
    _ = consume ok (s₁, []) (astEscape d₁ ++ (astEscape d₂ ++ (astEscape d₃ ++ body (-1) rest))) :=
        consume_field (s := s₀) hp rfl (Nat.zero_lt_succ 2) rfl rfl _
    _ = consume ok (s₂, []) (astEscape d₂ ++ (astEscape d₃ ++ body (-1) rest)) :=
        consume_field (s := s₁) hp rfl (by show 0 + 1 < 3; omega) rfl
          (receivedByte_of_plain rfl _) _
    _ = consume ok (s₃, []) (astEscape d₃ ++ body (-1) rest) :=
        consume_field (s := s₂) hp rfl (by show 0 + 1 + 1 < 3; omega) rfl
          (receivedByte_of_plain rfl _) _
    _ = _ := hend

/-! ## The bytes behind it, for a request that fits -/

/-- The stores of the bytes of a request, from an index on. -/
def stores (job : JobId) : ℕ → List UInt8 → List Action
  | _, [] => []
  | k, b :: rest => .storeByte job k b :: stores job (k + 1) rest

/-- The sink is inside a request of `n` bytes that it has a job for. -/
structure Receiving (s : SinkState) (job : JobId) (n : ℕ) : Prop where
  pending : s.pendingJob = none
  inside : s.insidePacket = true
  esc : s.escapePrefix = false
  eop : s.eopPrefix = false
  incoming : s.incomingJob = some job
  length : s.lengthValue = n
  offset : 4 ≤ s.offset

section Body

variable {ok : ℕ → Bool} {s : SinkState} {acts : List Action}

theorem body_last (b : UInt8) : body (-1) [b] = astEopPrefix :: (astEscape b ++ []) := rfl

theorem body_more (b c : UInt8) (rest : List UInt8) :
    body (-1) (b :: c :: rest) = astEscape b ++ body (-1) (c :: rest) := rfl

theorem Receiving.byte {job : JobId} {n : ℕ} (h : Receiving s job n) (hlt : s.offset < n)
    (ok : ℕ → Bool) (acts : List Action) (b : UInt8) (rest : List UInt8) :
    consume ok (s, acts) (astEscape b ++ rest) =
        consume ok ({ s.unescaped with offset := s.offset + 1 }, acts ++ [.storeByte job s.offset b])
          rest ∧
      Receiving { s.unescaped with offset := s.offset + 1 } job n := by
  have hs : s.unescaped.packetByte ok (s.receivedByte b) =
      ({ s.unescaped with offset := s.offset + 1 }, [.storeByte job s.offset b]) := by
    rw [receivedByte_of_plain h.esc]
    exact packetByte_store (s := s.unescaped) h.offset (h.length.symm ▸ hlt) h.incoming b
      (endOfByte_more h.eop)
  refine ⟨consume_astEscape h.pending h.inside hs rest, ?_⟩
  exact ⟨h.pending, h.inside, rfl, h.eop, h.incoming, h.length, Nat.le_succ_of_le h.offset⟩

theorem Receiving.last {job : JobId} {n : ℕ} (h : Receiving s job n) (hn : s.offset + 1 = n)
    (b : UInt8) :
    ∃ t : SinkState, t.pendingJob = some job ∧
      consume ok (s, acts) (body (-1) [b]) =
        (t, acts ++ [.storeByte job s.offset b, .setPending (some job), .semPost]) := by
  let s' : SinkState := { s with eopPrefix := true }
  have hlt : s.offset < s.lengthValue := by
    rw [h.length]
    omega
  have hlen : s.offset + 1 = s.lengthValue := hn.trans h.length.symm
  let t : SinkState := { s'.unescaped with offset := s.offset + 1, pendingJob := s.incomingJob }
  have hs : s'.unescaped.packetByte ok (s'.receivedByte b) =
      (t.nextPacket, [.storeByte job s.offset b, .setPending s.incomingJob, .semPost]) := by
    rw [receivedByte_of_plain (s := s') h.esc]
    exact packetByte_store (s := s'.unescaped) h.offset hlt h.incoming b
      (endOfByte_pass rfl hlen)
  refine ⟨t.nextPacket, h.incoming, ?_⟩
  rw [body_last, consume_eop h.pending, consume_astEscape (s := s') h.pending h.inside hs,
    consume_nil, h.incoming]

theorem Receiving.body {job : JobId} {n : ℕ} {rest : List UInt8} (h : Receiving s job n)
    (ok : ℕ → Bool) (acts : List Action) (hn : s.offset + rest.length = n) (hrest : rest ≠ []) :
    ∃ t : SinkState, t.pendingJob = some job ∧
      consume ok (s, acts) (body (-1) rest) =
        (t, acts ++ (stores job s.offset rest ++ [.setPending (some job), .semPost])) := by
  induction rest generalizing s acts with
  | nil => exact absurd rfl hrest
  | cons b rest ih =>
    rw [List.length_cons] at hn
    cases rest with
    | nil => exact h.last hn b
    | cons c rest =>
      obtain ⟨heq, hnext⟩ := h.byte (by omega) ok acts b (Hostbridge.body (-1) (c :: rest))
      obtain ⟨t, ht, hall⟩ := ih hnext _ (by show s.offset + 1 + _ = n; omega)
        (List.cons_ne_nil _ _)
      refine ⟨t, ht, ?_⟩
      rw [body_more, heq, hall, List.append_assoc]
      rfl

end Body

/-! ## The bytes behind it, for a request that does not fit -/

/-- `m` bytes before the end of the request, it is clear that its declared length is wrong. -/
structure Doomed (s : SinkState) (m : ℕ) : Prop where
  pending : s.pendingJob = none
  inside : s.insidePacket = true
  esc : s.escapePrefix = false
  offset : 4 ≤ s.offset
  wrong : s.incomingJob ≠ none → s.offset + m ≠ s.lengthValue

section Doomed

variable {ok : ℕ → Bool} {s : SinkState} {acts : List Action}

/-- Behind a packet that was dropped, nothing happens until the next start mark. -/
theorem consume_outside (hp : s.pendingJob = none) (hout : s.insidePacket = false)
    {bytes : List UInt8} (hsop : astSop ∉ bytes) :
    (consume ok (s, acts) bytes).1.pendingJob = none := by
  induction bytes generalizing s acts with
  | nil => rw [consume_nil]; exact hp
  | cons byte rest ih =>
    obtain ⟨hne, hrest⟩ := not_or.mp (mt List.mem_cons.mpr hsop)
    have hkeeps : (s.sinkByte ok byte).1.pendingJob = none ∧
        (s.sinkByte ok byte).1.insidePacket = false := by
      unfold sinkByte
      rw [if_neg (Ne.symm hne)]
      split_ifs with heop hesc hin
      · exact ⟨hp, hout⟩
      · exact ⟨hp, hout⟩
      · rw [hout] at hin
        cases hin
      · exact ⟨hp, hout⟩
    rw [consume_cons hp Prod.mk.eta.symm]
    exact ih hkeeps.1 hkeeps.2 hrest

theorem astSop_notMem_astEscape (byte : UInt8) : astSop ∉ astEscape byte := by
  unfold astEscape
  split_ifs with h
  · have hne := (astNeedsEscape_eq_false.mp (astNeedsEscape_xor h)).1
    simp [hne.symm, show astSop ≠ astEscapePrefix by decide]
  · have hne := (astNeedsEscape_eq_false.mp (by simpa using h)).1
    simp [hne.symm]

theorem astSop_notMem_body (rest : List UInt8) : astSop ∉ body (-1) rest := by
  induction rest with
  | nil => exact List.not_mem_nil
  | cons b rest ih =>
    have hmark : astSop ∉ endMark (-1) rest := by
      unfold endMark
      split_ifs <;> decide
    simp only [body, List.mem_append]
    exact not_or.mpr ⟨not_or.mpr ⟨hmark, astSop_notMem_astEscape b⟩, ih⟩

theorem Doomed.last (h : Doomed s 1) (heop : s.eopPrefix = true) (ok : ℕ → Bool) (b : UInt8) :
    (s.unescaped.packetByte ok b).1.pendingJob = none := by
  have hdrop : ∀ t : SinkState, t.pendingJob = none → t.dropPacket.1.pendingJob = none :=
    fun _ ht => ht
  have hwrong := h.wrong
  by_cases hlt : s.offset < s.lengthValue
  · cases hjob : s.incomingJob with
    | none =>
      rw [packetByte_skip (s := s.unescaped) h.offset hlt hjob,
        endOfByte_drop (s := s.unescaped) heop (Nat.ne_of_lt hlt)]
      exact hdrop _ h.pending
    | some job =>
      have hne : s.offset + 1 ≠ s.lengthValue := hwrong (by rw [hjob]; exact Option.some_ne_none _)
      rw [packetByte_store (s := s.unescaped) h.offset hlt hjob b (endOfByte_drop heop hne)]
      exact hdrop _ h.pending
  · rw [packetByte_drop (s := s.unescaped) h.offset (Nat.not_lt.mp hlt)]
    exact hdrop _ h.pending

/-- Any other byte either has the packet dropped or brings the end nearer. -/
theorem Doomed.byte {m : ℕ} (h : Doomed s (m + 1)) (heop : s.eopPrefix = false)
    (ok : ℕ → Bool) (b : UInt8) :
    ((s.unescaped.packetByte ok b).1.pendingJob = none ∧
        (s.unescaped.packetByte ok b).1.insidePacket = false) ∨
      (Doomed (s.unescaped.packetByte ok b).1 m ∧
        (s.unescaped.packetByte ok b).1.eopPrefix = false) := by
  have hwrong := h.wrong
  by_cases hlt : s.offset < s.lengthValue
  · refine Or.inr ?_
    cases hjob : s.incomingJob with
    | none =>
      rw [packetByte_skip (s := s.unescaped) h.offset hlt hjob,
        endOfByte_more (s := s.unescaped) heop]
      exact ⟨⟨h.pending, h.inside, rfl, h.offset, fun hj => absurd hjob hj⟩, heop⟩
    | some job =>
      rw [packetByte_store (s := s.unescaped) h.offset hlt hjob b (endOfByte_more heop)]
      refine ⟨⟨h.pending, h.inside, rfl, Nat.le_succ_of_le h.offset, fun _ => ?_⟩, heop⟩
      have hne := hwrong (by rw [hjob]; exact Option.some_ne_none _)
      rw [← Nat.add_assoc, Nat.add_right_comm] at hne
      exact hne
  · refine Or.inl ?_
    rw [packetByte_drop (s := s.unescaped) h.offset (Nat.not_lt.mp hlt)]
    exact ⟨h.pending, rfl⟩

theorem Doomed.body {rest : List UInt8} (h : Doomed s rest.length) (heop : s.eopPrefix = false)
    (hrest : rest ≠ []) : (consume ok (s, acts) (body (-1) rest)).1.pendingJob = none := by
  induction rest generalizing s acts with
  | nil => exact absurd rfl hrest
  | cons b rest ih =>
    cases rest with
    | nil =>
      have hlast : Doomed { s with eopPrefix := true } 1 :=
        ⟨h.pending, h.inside, h.esc, h.offset, h.wrong⟩
      have hnone := hlast.last rfl ok
        (receivedByte { s with eopPrefix := true } b)
      rw [body_last, consume_eop h.pending,
        consume_astEscape (s := { s with eopPrefix := true }) h.pending h.inside rfl, consume_nil]
      exact hnone
    | cons c rest =>
      rw [body_more, consume_astEscape h.pending h.inside rfl]
      rcases h.byte heop ok (s.receivedByte b) with ⟨hp, hout⟩ | ⟨hnext, heop'⟩
      · exact consume_outside hp hout (astSop_notMem_body _)
      · exact ih hnext heop' (List.cons_ne_nil _ _)

end Doomed

/-! ## What is stored -/

theorem stored_stores_below {job : JobId} {i k : ℕ} (h : i < k) (rest : List UInt8)
    (log : List Entry) :
    stored job i (logged (stores job k rest) log) = stored job i log := by
  induction rest generalizing k log with
  | nil => rfl
  | cons b rest ih =>
    rw [stores, logged_cons, ih (Nat.lt_succ_of_lt h)]
    show (if job = job ∧ k = i then some b else stored job i log) = _
    rw [if_neg fun hki => absurd hki.2 h.ne']

theorem stored_stores {job : JobId} {i k : ℕ} {rest : List UInt8} (hk : k ≤ i)
    (hi : i < k + rest.length) (log : List Entry) :
    stored job i (logged (stores job k rest) log) = rest[i - k]? := by
  induction rest generalizing k log with
  | nil => exact absurd hi (Nat.not_lt.mpr hk)
  | cons b rest ih =>
    rw [List.length_cons] at hi
    rw [stores, logged_cons]
    rcases Nat.eq_or_lt_of_le hk with rfl | hlt
    · rw [stored_stores_below (Nat.lt_succ_self k), Nat.sub_self]
      show (if job = job ∧ k = k then some b else stored job k log) = _
      rw [if_pos ⟨rfl, rfl⟩, List.getElem?_cons_zero]
    · rw [ih hlt (by omega), show i - k = i - (k + 1) + 1 by omega, List.getElem?_cons_succ]

end SinkState

/-! ## Requests -/

/-- A document that is short enough and has its own length in front. -/
structure IsRequest (d : List UInt8) : Prop where
  five_le : 5 ≤ d.length
  le_max : d.length ≤ maxRequestLength
  prefix_eq : leNat (d.take 4) = d.length

/-- The pending job was allocated for the request and holds exactly its bytes. -/
structure Delivered (p : SinkState × List Action) (job : JobId) (d : List UInt8) : Prop where
  pending : p.1.pendingJob = some job
  malloc : .malloc job (sizeofJob + d.length) ∈ p.2
  stored : ∀ i < d.length, stored job i (logged p.2 []) = d[i]?

open SinkState

variable {ok : ℕ → Bool} {s : SinkState}

theorem IsRequest.split {d : List UInt8} (h : IsRequest d) :
    ∃ d₀ d₁ d₂ d₃ rest, d = d₀ :: d₁ :: d₂ :: d₃ :: rest ∧ rest ≠ [] ∧
      leNat [d₀, d₁, d₂, d₃] = d.length := by
  have h5 := h.five_le
  have hpre := h.prefix_eq
  rcases d with _ | ⟨d₀, _ | ⟨d₁, _ | ⟨d₂, _ | ⟨d₃, _ | ⟨d₄, rest⟩⟩⟩⟩⟩
  case cons.cons.cons.cons.cons =>
    exact ⟨d₀, d₁, d₂, d₃, d₄ :: rest, rfl, List.cons_ne_nil _ _, hpre⟩
  all_goals
    simp only [List.length_cons, List.length_nil] at h5
    omega

theorem allocate_request {n : ℕ} (hlen : s.lengthValue = n) (hn : n ≤ maxRequestLength)
    (hok : ok s.mallocs = true) :
    s.allocate ok =
      ({ s with incomingJob := some s.mallocs, mallocs := s.mallocs + 1 },
        [.malloc s.mallocs (sizeofJob + n), .storeLength s.mallocs n]) := by
  have hmax : n ≤ 65536 := hn
  have hsigned : toInt32 s.lengthValue ≤ (maxRequestLength : ℤ) := by
    rw [hlen, toInt32_of_lt (by omega)]
    exact Int.ofNat_le.mpr hn
  have hsize : s.jobSize = sizeofJob + n := by
    unfold jobSize sizeofJob
    rw [hlen, Nat.mod_eq_of_lt (by omega)]
  unfold allocate
  rw [if_pos hsigned, if_pos hok, hsize, hlen]

/-- A request whose length field is received as it was sent is delivered. -/
theorem IsRequest.delivered {d₀ d₁ d₂ d₃ : UInt8} {rest : List UInt8}
    (h : IsRequest (d₀ :: d₁ :: d₂ :: d₃ :: rest)) (hrest : rest ≠ []) (hp : s.pendingJob = none)
    (hok : ok s.mallocs = true) (hd : s.receivedByte d₀ = d₀) :
    Delivered (consume ok (s, []) (packet (d₀ :: d₁ :: d₂ :: d₃ :: rest))) s.mallocs
      (d₀ :: d₁ :: d₂ :: d₃ :: rest) := by
  let n := (d₀ :: d₁ :: d₂ :: d₃ :: rest).length
  have hlen : (s.lengthRead d₀ d₁ d₂ d₃).lengthValue = n := h.prefix_eq
  have hrec : Receiving { s.lengthRead d₀ d₁ d₂ d₃ with
      incomingJob := some s.mallocs, mallocs := s.mallocs + 1 } s.mallocs n :=
    ⟨hp, rfl, rfl, rfl, rfl, hlen, Nat.le_refl 4⟩
  obtain ⟨t, ht, hall⟩ := hrec.body ok
    [.malloc s.mallocs (sizeofJob + n), .storeLength s.mallocs n] (Nat.add_comm 4 _) hrest
  have hconsume : consume ok (s, []) (packet (d₀ :: d₁ :: d₂ :: d₃ :: rest)) =
      (t, [.malloc s.mallocs (sizeofJob + n), .storeLength s.mallocs n] ++
        (stores s.mallocs 4 rest ++ [.setPending (some s.mallocs), .semPost])) := by
    rw [consume_lengthField ok hp _ _ _ _ hrest, hd,
      allocate_request (s := s.lengthRead d₀ d₁ d₂ d₃) hlen h.le_max hok]
    exact hall
  rw [hconsume]
  refine ⟨ht, List.mem_append_left _ List.mem_cons_self, fun i hi => ?_⟩
  have hlog : stored s.mallocs i
      (logged ([.malloc s.mallocs (sizeofJob + n), .storeLength s.mallocs n] ++
        (stores s.mallocs 4 rest ++ [.setPending (some s.mallocs), .semPost])) []) =
      stored s.mallocs i (logged (stores s.mallocs 4 rest)
        [.act (.storeLength s.mallocs n), .act (.malloc s.mallocs (sizeofJob + n))]) := by
    unfold logged
    simp [stored]
  have hbytes : leBytes 4 n = [d₀, d₁, d₂, d₃] := by
    rw [← hlen, lengthRead_lengthValue]
    exact leBytes_leNat [d₀, d₁, d₂, d₃]
  show stored s.mallocs i (logged _ []) = _
  rw [hlog]
  by_cases h4 : i < 4
  · rw [stored_stores_below h4]
    show (if s.mallocs = s.mallocs ∧ i < 4 then (leBytes 4 n)[i]? else _) = _
    rw [if_pos ⟨rfl, h4⟩, hbytes]
    have hleft : ([d₀, d₁, d₂, d₃] ++ rest)[i]? = [d₀, d₁, d₂, d₃][i]? :=
      List.getElem?_append_left h4
    exact hleft.symm
  · have hi' : i < 4 + rest.length := Nat.add_comm 4 _ ▸ hi
    rw [stored_stores (Nat.not_lt.mp h4) hi']
    have hright : ([d₀, d₁, d₂, d₃] ++ rest)[i]? = rest[i - 4]? :=
      List.getElem?_append_right (Nat.not_lt.mp h4)
    exact hright.symm

/-- The request is doomed behind a wrong length field. -/
theorem allocate_doomed (ok : ℕ → Bool) {m : ℕ} (hp : s.pendingJob = none) (hin : s.insidePacket = true)
    (hesc : s.escapePrefix = false ∧ s.eopPrefix = false) (h4 : s.offset = 4)
    (hlen : 4 + m ≠ s.lengthValue) :
    Doomed (s.allocate ok).1 m ∧ (s.allocate ok).1.eopPrefix = false := by
  have hwrong : s.offset + m ≠ s.lengthValue := by
    rw [h4]
    exact hlen
  unfold allocate
  split_ifs <;> exact ⟨⟨hp, hin, hesc.1, h4.ge, fun _ => hwrong⟩, hesc.2⟩

/-- A request whose length field is received otherwise is not delivered. -/
theorem IsRequest.not_delivered {d₀ d₁ d₂ d₃ : UInt8} {rest : List UInt8}
    (h : IsRequest (d₀ :: d₁ :: d₂ :: d₃ :: rest)) (hrest : rest ≠ []) (hp : s.pendingJob = none)
    (hd : s.receivedByte d₀ ≠ d₀) :
    (consume ok (s, []) (packet (d₀ :: d₁ :: d₂ :: d₃ :: rest))).1.pendingJob = none := by
  have hlen : (s.lengthRead (s.receivedByte d₀) d₁ d₂ d₃).lengthValue ≠ 4 + rest.length := by
    have hpre : leNat [d₀, d₁, d₂, d₃] = (d₀ :: d₁ :: d₂ :: d₃ :: rest).length := h.prefix_eq
    have hne : (s.receivedByte d₀).toNat ≠ d₀.toNat := mt UInt8.toNat_inj.mp hd
    rw [lengthRead_lengthValue]
    simp only [leNat, List.length_cons] at hpre ⊢
    omega
  have hdoomed := allocate_doomed (s := s.lengthRead (s.receivedByte d₀) d₁ d₂ d₃) ok
    hp rfl ⟨rfl, rfl⟩ rfl hlen.symm
  rw [consume_lengthField ok hp _ _ _ _ hrest]
  generalize (s.lengthRead (s.receivedByte d₀) d₁ d₂ d₃).allocate ok = r at hdoomed ⊢
  obtain ⟨t, acts⟩ := r
  exact hdoomed.1.body hdoomed.2 hrest

theorem receivedByte_eq_iff {b : UInt8} :
    s.receivedByte b = b ↔ s.escapePrefix = false ∨ astNeedsEscape b = true := by
  have hne : b ^^^ astEscapeXor ≠ b := by
    intro h
    have hzero : astEscapeXor = 0 := by
      rw [← UInt8.zero_xor (a := astEscapeXor), ← UInt8.xor_self (a := b), UInt8.xor_assoc, h,
        UInt8.xor_self]
    exact absurd hzero (by decide)
  unfold receivedByte unescapeIf
  cases s.escapePrefix <;> cases astNeedsEscape b <;> simp [hne]

/-- **Resynchronisation.** In a state with no job pending, a request is delivered, however it is cut
into chunks, if and only if no escape prefix is dangling or its first byte is sent with one of its
own. -/
theorem delivered_iff (hp : s.pendingJob = none) (hok : ok s.mallocs = true) {d : List UInt8}
    (hd : IsRequest d) {chunks : List (List UInt8)} (hc : chunks.flatten = packet d) :
    (∃ job, Delivered (chunks.foldl (consume ok) (s, [])) job d) ↔
      s.escapePrefix = false ∨ astNeedsEscape (d.headD 0) = true := by
  obtain ⟨d₀, d₁, d₂, d₃, rest, rfl, hrest, -⟩ := hd.split
  rw [foldl_consume, hc, List.headD_cons, ← receivedByte_eq_iff]
  constructor
  · rintro ⟨job, hjob⟩
    by_contra hne
    have hpending := hjob.pending
    rw [hd.not_delivered hrest hp hne] at hpending
    cases hpending
  · exact fun h => ⟨_, hd.delivered hrest hp hok h⟩

/-- Two bytes in front of a packet, and the beginning of one whose job has been allocated. -/
def interrupted : SinkState :=
  (consume (fun _ => true) (.init, []) [0x41, 0x42, 0x7a, 9, 0, 0, 0, 0x10]).1

/-- The request `{id: 0x7d}` behind it, in chunks that part the escaped byte. -/
theorem delivered_iff_interrupted : ∃ job, Delivered
    ([[0x7a, 13, 0, 0, 0, 0x10, 0x69], [0x64, 0, 0x7d], [0x5d, 0, 0, 0, 0x7b, 0]].foldl
      (consume fun _ => true) (interrupted, []))
    job [13, 0, 0, 0, 0x10, 0x69, 0x64, 0, 0x7d, 0, 0, 0, 0] :=
  (delivered_iff (by decide) rfl ⟨by decide, by decide, by decide⟩ (by decide)).mpr
    (.inl (by decide))

/-- Behind a dangling escape prefix, the length 5 is received as 37. -/
theorem not_delivered :
    ¬ ∀ (ok : ℕ → Bool) (es : List Event) (r : Receiver) (d : List UInt8)
      (chunks : List (List UInt8)), Runs.Path (Receiver.step ok) Runs.anyStep .init es r →
        r.sink.pendingJob = none → ok r.sink.mallocs = true → IsRequest d →
        chunks.flatten = packet d →
          ∃ job, Delivered (chunks.foldl (consume ok) (r.sink, [])) job d := by
  intro h
  have hrun : Runs.Path (Receiver.step fun _ => true) Runs.anyStep .init [.byte 0x7d]
      ⟨{ SinkState.init with escapePrefix := true }, [.byte 0x7d]⟩ := Runs.Path.single trivial rfl
  obtain ⟨job, hjob⟩ := h _ _ _ [5, 0, 0, 0, 0] [[0x7a, 5, 0, 0, 0, 0x7b, 0]] hrun rfl rfl
    ⟨by decide, by decide, by decide⟩ (by decide)
  cases hjob.pending

end OlivePiccolo.Rpc
