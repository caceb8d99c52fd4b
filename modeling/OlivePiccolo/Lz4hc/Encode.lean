import OlivePiccolo.Lz4hc.Format
import OlivePiccolo.Lz4hc.Heap

/-!
# The output of the compressor

`LZ4HC_encodeSequence_nl` writes the literals since the anchor and a match. What the procedures leave
in `LZ4_ho8` is stated by `Wrote`: these bytes from a place on, and in front of it what was there
before.
-/

namespace OlivePiccolo.Lz4hc

/-! ## The code -/

/-- `LZ4_write8`. The element is kept as the byte that `binary format c` makes of it. -/
def lz4Write8 (ho8 : TclArray UInt8) (ptr val : ℤ) : TclArray UInt8 :=
  Function.update ho8 ptr (some (UInt8.ofInt val))

/-- `LZ4_writeLE16`. -/
def lz4WriteLE16 (ho8 : TclArray UInt8) (ptr val : ℤ) : TclArray UInt8 :=
  lz4Write8 (lz4Write8 ho8 ptr val) (ptr + 1) (val >>> (8 : ℕ))

/-- What `LZ4_memmove` does behind its loop. -/
def memmoveRest (src : Mem) (ho8 : TclArray UInt8) (pdest psrc n : ℤ) :
    Access (TclArray UInt8) :=
  if 0 < n then do
    let v ← lz4Read32 src psrc
    let ho8 := lz4Write8 ho8 pdest (v >>> 24 &&& 0xff : ℕ)
    if n = 1 then return ho8
    let ho8 := lz4Write8 ho8 (pdest + 1) (v >>> 16 &&& 0xff : ℕ)
    if n = 2 then return ho8
    return lz4Write8 ho8 (pdest + 2) (v >>> 8 &&& 0xff : ℕ)
  else some ho8

/-- Where `LZ4_memmove` stands. -/
structure Moving where
  ho8 : TclArray UInt8
  pdest : ℤ
  psrc : ℤ
  n : ℤ

/-- A round of the loop of `LZ4_memmove`, the last one with what is behind the loop. -/
def memmoveRound (src : Mem) (s : Moving) : Access (Round Moving (TclArray UInt8)) :=
  if 4 ≤ s.n then do
    let v ← lz4Read32 src s.psrc
    let ho8 := lz4Write8 s.ho8 s.pdest (v >>> 24 &&& 0xff : ℕ)
    let ho8 := lz4Write8 ho8 (s.pdest + 1) (v >>> 16 &&& 0xff : ℕ)
    let ho8 := lz4Write8 ho8 (s.pdest + 2) (v >>> 8 &&& 0xff : ℕ)
    let ho8 := lz4Write8 ho8 (s.pdest + 3) (v &&& 0xff : ℕ)
    return .again ⟨ho8, s.pdest + 4, s.psrc + 4, s.n - 4⟩
  else (memmoveRest src s.ho8 s.pdest s.psrc s.n).map .done

/-- `LZ4_memmove`. -/
def lz4Memmove (src : Mem) (ho8 : TclArray UInt8) (pdest psrc n : ℤ) : Access (TclArray UInt8) :=
  loop (memmoveRound src) (n.toNat + 1) ⟨ho8, pdest, psrc, n⟩

/-- Where a length is written, and what is left of it. -/
structure Lengthening where
  ho8 : TclArray UInt8
  pop : ℤ
  len : ℤ

/-- A round of the loop that writes the number of literals; the rest is written behind the loop. -/
def literalLengthRound (s : Lengthening) : Access (Round Lengthening (ℤ × TclArray UInt8)) :=
  if 254 < s.len then some (.again ⟨lz4Write8 s.ho8 s.pop 255, s.pop + 1, s.len - 255⟩)
  else some (.done (s.pop + 1, lz4Write8 s.ho8 s.pop s.len))

/-- The number of literals, from 15 on. -/
def writeLiteralLength (ho8 : TclArray UInt8) (pop len : ℤ) : Access (ℤ × TclArray UInt8) :=
  loop literalLengthRound (len.toNat + 1) ⟨ho8, pop, len⟩

/-- A round of the loop that writes the length of a match, two bytes at a time; the rest is written
behind the loop. -/
def matchLengthRound (s : Lengthening) : Access (Round Lengthening (ℤ × TclArray UInt8)) :=
  if 509 < s.len then
    some (.again ⟨lz4Write8 (lz4Write8 s.ho8 s.pop 255) (s.pop + 1) 255, s.pop + 2, s.len - 510⟩)
  else if 254 < s.len then
    some (.done (s.pop + 2, lz4Write8 (lz4Write8 s.ho8 s.pop 255) (s.pop + 1) (s.len - 255)))
  else some (.done (s.pop + 1, lz4Write8 s.ho8 s.pop s.len))

/-- The length of a match, from 15 on. -/
def writeMatchLength (ho8 : TclArray UInt8) (pop len : ℤ) : Access (ℤ × TclArray UInt8) :=
  loop matchLengthRound (len.toNat + 1) ⟨ho8, pop, len⟩

/-- `Pop`, `Panchor` and `LZ4_ho8`. -/
structure Output where
  op : ℤ
  anchor : ℤ
  ho8 : TclArray UInt8
  /-- Not in the source: the offset and the length of each match that has been emitted. -/
  emitted : List (ℤ × ℤ)

/-- `Encode Literal Length`: the token so far, and where to go on. -/
def encodeLiteralLength (ho8 : TclArray UInt8) (op length : ℤ) :
    Access (ℤ × ℤ × TclArray UInt8) :=
  if 15 ≤ length then (writeLiteralLength ho8 op (length - 15)).map fun r => (0xf0, r)
  else some (length <<< (4 : ℕ), op, ho8)

/-- `Encode MatchLength`. -/
def encodeMatchLength (ho8 : TclArray UInt8) (ptoken token op length : ℤ) :
    Access (ℤ × TclArray UInt8) :=
  if 15 ≤ length then writeMatchLength (lz4Write8 ho8 ptoken (token + 15)) op (length - 15)
  else some (op, lz4Write8 ho8 ptoken (token + length))

/-- `LZ4HC_encodeSequence_nl`, with the new value of `Pip`. -/
def lz4hcEncodeSequence (src : Mem) (out : Output) (ip matchLength pmatch : ℤ) :
    Access (ℤ × Output) := do
  let length := ip - out.anchor
  let ptoken := out.op
  let (token, op, ho8) ← encodeLiteralLength out.ho8 (out.op + 1) length
  let ho8 ← lz4Memmove src ho8 op out.anchor length
  let op := op + length
  let ho8 := lz4WriteLE16 ho8 op (ip - pmatch)
  let op := op + 2
  let (op, ho8) ← encodeMatchLength ho8 ptoken token op (matchLength - 4)
  let emitted := out.emitted ++ [(ip - pmatch, matchLength)]
  let ip := ip + matchLength
  return (ip, ⟨op, ip, ho8, emitted⟩)

/-- The number of the last literals. -/
def encodeLastRun (ho8 : TclArray UInt8) (op lastRun : ℤ) : Access (ℤ × TclArray UInt8) :=
  if 15 ≤ lastRun then writeLiteralLength (lz4Write8 ho8 op 0xf0) (op + 1) (lastRun - 15)
  else some (op + 1, lz4Write8 ho8 op (lastRun <<< (4 : ℕ)))

/-- `Encode Last Literals`. -/
def encodeLastLiterals (src : Mem) (out : Output) (iend : ℤ) : Access Output := do
  let (op, ho8) ← encodeLastRun out.ho8 out.op (iend - out.anchor)
  let ho8 ← lz4Memmove src ho8 op out.anchor (iend - out.anchor)
  return { out with op := op + (iend - out.anchor), ho8 := ho8 }

/-! ## What has been written -/

/-- From `p` on there are these bytes, in front of it what was there before. -/
structure Wrote (m m' : TclArray UInt8) (p : ℤ) (l : List UInt8) : Prop where
  bytes : ∀ i : ℕ, i < l.length → m' (p + i) = l[i]?
  before : ∀ i < p, m' i = m i

/-- The bytes are being written from `p` on; the next place is `p'`, and `rest` is left. -/
def Writing (m : TclArray UInt8) (p : ℤ) (l : List UInt8) (m' : TclArray UInt8) (p' : ℤ)
    (rest : List UInt8) : Prop :=
  ∃ front, l = front ++ rest ∧ p' = p + front.length ∧ Wrote m m' p front

section Wrote

variable {m m' m'' : TclArray UInt8} {p p' i v : ℤ} {l l' rest : List UInt8} {b : UInt8}

theorem Wrote.nil (m : TclArray UInt8) (p : ℤ) : Wrote m m p [] :=
  ⟨fun _ hi => absurd hi (Nat.not_lt_zero _), fun _ _ => rfl⟩

theorem Wrote.append (h : Wrote m m' p l) (h' : Wrote m' m'' (p + l.length) l') :
    Wrote m m'' p (l ++ l') := by
  constructor
  · intro i hi
    by_cases hil : i < l.length
    · rw [h'.before (p + i) (by omega), h.bytes i hil, List.getElem?_append_left hil]
    · rw [List.length_append] at hi
      have hbyte := h'.bytes (i - l.length) (by omega)
      rw [List.getElem?_append_right (Nat.le_of_not_lt hil), ← hbyte]
      congr 1
      omega
  · intro i hi
    rw [h'.before i (by omega), h.before i hi]

theorem Wrote.store (m : TclArray UInt8) (p : ℤ) (b : UInt8) :
    Wrote m (Function.update m p (some b)) p [b] := by
  constructor
  · intro i hi
    obtain rfl : i = 0 := Nat.lt_one_iff.mp hi
    rw [Int.natCast_zero, add_zero]
    exact Function.update_self _ _ _
  · intro i hi
    exact Function.update_of_ne hi.ne _ _

/-- A byte in front is written later. -/
theorem Wrote.store_before (h : Wrote m m' p l) (hi : i < p) (b : UInt8) :
    Wrote (Function.update m i (some b)) (Function.update m' i (some b)) p l := by
  constructor
  · intro n hn
    rw [Function.update_of_ne (by omega)]
    exact h.bytes n hn
  · intro n hn
    by_cases hni : n = i
    · subst hni
      rw [Function.update_self, Function.update_self]
    · rw [Function.update_of_ne hni, Function.update_of_ne hni, h.before n hn]

theorem Writing.start (m : TclArray UInt8) (p : ℤ) (l : List UInt8) : Writing m p l m p l :=
  ⟨[], rfl, (add_zero p).symm, .nil m p⟩

theorem Writing.write8 (h : Writing m p l m' p' (b :: rest)) (hb : UInt8.ofInt v = b) :
    Writing m p l (lz4Write8 m' p' v) (p' + 1) rest := by
  obtain ⟨front, rfl, rfl, hw⟩ := h
  subst hb
  refine ⟨front ++ [UInt8.ofInt v], ?_, ?_, hw.append (.store _ _ _)⟩
  · rw [List.append_assoc, List.singleton_append]
  · rw [List.length_append, List.length_singleton, Int.natCast_add, Int.natCast_one, add_assoc]

theorem Writing.wrote (h : Writing m p l m' p' []) : p' = p + l.length ∧ Wrote m m' p l := by
  obtain ⟨front, rfl, rfl, hw⟩ := h
  rw [List.append_nil]
  exact ⟨rfl, hw⟩

end Wrote

/-! ## The lengths -/

section Lengths

variable {m : TclArray UInt8} {pop : ℤ} {n : ℕ}

theorem ofInt_natCast (n : ℕ) : UInt8.ofInt n = UInt8.ofNat n := by
  apply UInt8.toNat_inj.mp
  rw [UInt8.ofInt, UInt8.toNat_ofNat', UInt8.toNat_ofNat']
  omega

/-- Where the number of literals or the length of a match is written. -/
def LengthWriting (m : TclArray UInt8) (pop : ℤ) (n : ℕ) (s : Lengthening) : Prop :=
  ∃ k : ℕ, 15 ≤ k ∧ s.len = k - 15 ∧ Writing m pop (lengthBytes n) s.ho8 s.pop (lengthBytes k)

theorem LengthWriting.start (h : 15 ≤ n) : LengthWriting m pop n ⟨m, pop, n - 15⟩ :=
  ⟨n, h, rfl, .start m pop _⟩

theorem LengthWriting.step {s : Lengthening} (h : LengthWriting m pop n s) (hlen : 254 < s.len) :
    LengthWriting m pop n ⟨lz4Write8 s.ho8 s.pop 255, s.pop + 1, s.len - 255⟩ := by
  obtain ⟨k, hk, hlen', hw⟩ := h
  rw [lengthBytes_step (n := k) (by omega)] at hw
  exact ⟨k - 255, by omega, by show s.len - 255 = _; omega, hw.write8 rfl⟩

theorem LengthWriting.last {s : Lengthening} (h : LengthWriting m pop n s) (hlen : s.len ≤ 254) :
    s.pop + 1 = pop + (lengthBytes n).length ∧
      Wrote m (lz4Write8 s.ho8 s.pop s.len) pop (lengthBytes n) := by
  obtain ⟨k, hk, hlen', hw⟩ := h
  rw [lengthBytes_last hk (by omega)] at hw
  refine (hw.write8 ?_).wrote
  rw [hlen', ← ofInt_natCast, Int.ofNat_sub hk]
  rfl

theorem writeLiteralLength_spec (h : 15 ≤ n) :
    Ensures (writeLiteralLength m pop (n - 15)) fun r =>
      r.1 = pop + (lengthBytes n).length ∧ Wrote m r.2 pop (lengthBytes n) := by
  refine Ensures.loop (I := LengthWriting m pop n) (m := fun s => s.len.toNat) (fun s hs => ?_)
    (.start h) (Nat.lt_succ_self _)
  refine .ite (fun hlen => .pure ⟨hs.step hlen, ?_⟩) fun hlen => .pure (hs.last (by omega))
  show (s.len - 255).toNat < s.len.toNat
  omega

theorem writeMatchLength_spec (h : 15 ≤ n) :
    Ensures (writeMatchLength m pop (n - 15)) fun r =>
      r.1 = pop + (lengthBytes n).length ∧ Wrote m r.2 pop (lengthBytes n) := by
  refine Ensures.loop (I := LengthWriting m pop n) (m := fun s => s.len.toNat) (fun s hs => ?_)
    (.start h) (Nat.lt_succ_self _)
  refine .ite (fun hlen => .pure ⟨?_, ?_⟩) fun hlen =>
    .ite (fun hlen' => .pure ?_) fun hlen' => .pure (hs.last (by omega))
  · have hstep := (hs.step (by omega)).step (by show 254 < s.len - 255; omega)
    rwa [show s.len - 255 - 255 = s.len - 510 by omega, add_assoc] at hstep
  · show (s.len - 510).toNat < s.len.toNat
    omega
  · have hlast := (hs.step hlen').last (by show s.len - 255 ≤ 254; omega)
    rwa [add_assoc] at hlast

end Lengths

/-! ## The literals -/

section Move

variable {src : Mem} {m : TclArray UInt8} {pdest psrc p : ℤ} {l : List UInt8}

theorem read32_four {b₀ b₁ b₂ b₃ : UInt8} (h : src.HasAt p (b₀ :: b₁ :: b₂ :: b₃ :: l)) :
    lz4Read32 src p = some (bigEndian [b₀, b₁, b₂, b₃]) := by
  have hsplit : src.HasAt p ([b₀, b₁, b₂, b₃] ++ l) := h
  have hfour : Mem.HasAt (src ++ [0, 0, 0]) p [b₀, b₁, b₂, b₃] := hsplit.left.append _
  rw [lz4Read32, show (4 : ℤ) = ([b₀, b₁, b₂, b₃] : List UInt8).length from rfl, hfour.readBytes]
  rfl

theorem read32_short {b₀ : UInt8} (h : src.HasAt p (b₀ :: l)) : ∃ c₁ c₂ c₃,
    lz4Read32 src p = some (bigEndian [b₀, c₁, c₂, c₃]) ∧ ∀ b₁ l₁, l = b₁ :: l₁ →
      c₁ = b₁ ∧ ∀ b₂ l₂, l₁ = b₂ :: l₂ → c₂ = b₂ := by
  obtain ⟨hp, hlt⟩ := Mem.peek_isSome.mp (Option.isSome_iff_exists.mpr ⟨b₀, h.peek⟩)
  obtain ⟨c₀, c₁, c₂, c₃, hread, h₀, h₁, h₂, -⟩ := exists_read32 hp hlt
  obtain rfl := Option.some.inj (h.peek.symm.trans h₀)
  refine ⟨c₁, c₂, c₃, hread, ?_⟩
  rintro b₁ l₁ rfl
  have hb₁ := h.tail.peek
  have hlt₁ := (Mem.peek_isSome.mp (Option.isSome_iff_exists.mpr ⟨b₁, hb₁⟩)).2
  refine ⟨Option.some.inj ((h₁ hlt₁).symm.trans hb₁), ?_⟩
  rintro b₂ l₂ rfl
  have hb₂ := h.tail.tail.peek
  rw [add_assoc] at hb₂
  have hlt₂ := (Mem.peek_isSome.mp (Option.isSome_iff_exists.mpr ⟨b₂, hb₂⟩)).2
  exact Option.some.inj ((h₂ hlt₂).symm.trans hb₂)

theorem ofInt_bigEndian (b₀ b₁ b₂ b₃ : UInt8) :
    UInt8.ofInt (bigEndian [b₀, b₁, b₂, b₃] >>> 24 &&& 0xff : ℕ) = b₀ ∧
      UInt8.ofInt (bigEndian [b₀, b₁, b₂, b₃] >>> 16 &&& 0xff : ℕ) = b₁ ∧
        UInt8.ofInt (bigEndian [b₀, b₁, b₂, b₃] >>> 8 &&& 0xff : ℕ) = b₂ ∧
          UInt8.ofInt (bigEndian [b₀, b₁, b₂, b₃] &&& 0xff : ℕ) = b₃ := by
  have hmod : ∀ v : ℕ, v &&& 0xff = v % 256 := fun v => Nat.and_two_pow_sub_one_eq_mod v 8
  obtain ⟨h₀, h₁, h₂, h₃⟩ := bigEndian_byte b₀ b₁ b₂ b₃
  rw [Nat.shiftRight_zero] at h₃
  simp only [ofInt_natCast, hmod, h₀, h₁, h₂, h₃, UInt8.ofNat_toNat, and_self]

/-- Where `LZ4_memmove` stands. -/
def MovingAt (src : Mem) (m : TclArray UInt8) (pdest : ℤ) (l : List UInt8) (s : Moving) : Prop :=
  ∃ rest, s.n = rest.length ∧ src.HasAt s.psrc rest ∧ Writing m pdest l s.ho8 s.pdest rest

/-- What is left behind the loop is less than four bytes. -/
theorem memmoveRest_spec {m' : TclArray UInt8} {p' : ℤ} {rest : List UInt8} (hlen : rest.length < 4)
    (hat : src.HasAt p rest) (hw : Writing m pdest l m' p' rest) :
    Ensures (memmoveRest src m' p' p rest.length) fun m'' => Wrote m m'' pdest l := by
  match rest, hlen, hat, hw with
  | [], _, _, hw => exact .pure hw.wrote.2
  | [b₀], _, hat, hw =>
    obtain ⟨c₁, c₂, c₃, hread, -⟩ := read32_short hat
    obtain ⟨h₀, -⟩ := ofInt_bigEndian b₀ c₁ c₂ c₃
    exact .bind_of_eq hread (.pure (hw.write8 h₀).wrote.2)
  | [b₀, b₁], _, hat, hw =>
    obtain ⟨c₁, c₂, c₃, hread, hbytes⟩ := read32_short hat
    obtain ⟨rfl, -⟩ := hbytes b₁ [] rfl
    obtain ⟨h₀, h₁, -⟩ := ofInt_bigEndian b₀ c₁ c₂ c₃
    exact .bind_of_eq hread (.pure ((hw.write8 h₀).write8 h₁).wrote.2)
  | [b₀, b₁, b₂], _, hat, hw =>
    obtain ⟨c₁, c₂, c₃, hread, hbytes⟩ := read32_short hat
    obtain ⟨rfl, hlast⟩ := hbytes b₁ [b₂] rfl
    obtain rfl := hlast b₂ [] rfl
    obtain ⟨h₀, h₁, h₂, -⟩ := ofInt_bigEndian b₀ c₁ c₂ c₃
    have hthree := ((hw.write8 h₀).write8 h₁).write8 h₂
    rw [add_assoc] at hthree
    exact .bind_of_eq hread (.pure hthree.wrote.2)

theorem MovingAt.round {s : Moving} (h : MovingAt src m pdest l s) :
    Ensures (memmoveRound src s) (Ensures.AfterRound (MovingAt src m pdest l)
      (fun s => s.n.toNat) (fun m' => Wrote m m' pdest l) s) := by
  obtain ⟨rest, hlen, hat, hw⟩ := h
  refine .ite (fun hn => ?_) fun hn => ?_
  · match rest, hlen, hat, hw with
    | [], hlen, _, _ | [_], hlen, _, _ | [_, _], hlen, _, _ | [_, _, _], hlen, _, _ =>
      simp only [List.length_cons, List.length_nil] at hlen
      omega
    | b₀ :: b₁ :: b₂ :: b₃ :: rest, hlen, hat, hw =>
      obtain ⟨h₀, h₁, h₂, h₃⟩ := ofInt_bigEndian b₀ b₁ b₂ b₃
      have hfour := (((hw.write8 h₀).write8 h₁).write8 h₂).write8 h₃
      simp only [add_assoc, Int.reduceAdd] at hfour
      have hrest := hat.tail.tail.tail.tail
      simp only [add_assoc, Int.reduceAdd] at hrest
      simp only [List.length_cons] at hlen
      refine .bind_of_eq (read32_four hat) (.pure ⟨⟨rest, ?_, hrest, hfour⟩, ?_⟩)
      · show s.n - 4 = rest.length
        omega
      · show (s.n - 4).toNat < s.n.toNat
        omega
  · rw [hlen]
    exact .map (memmoveRest_spec (by omega) hat hw)

/-- **`LZ4_memmove`** copies bytes of the input. -/
theorem lz4Memmove_spec (h : src.HasAt psrc l) :
    Ensures (lz4Memmove src m pdest psrc l.length) fun m' => Wrote m m' pdest l :=
  Ensures.loop (I := MovingAt src m pdest l) (m := fun s => s.n.toNat) (fun _ hs => hs.round)
    ⟨l, rfl, h, .start m pdest l⟩ (Nat.lt_succ_self _)

end Move

/-! ## Sequences -/

section Sequences

variable {src : Mem} {m m' : TclArray UInt8} {p : ℤ} {out : Output} {n : ℕ}

/-- What is written behind the token for the number of literals, and for the token itself. -/
def WroteLength (m : TclArray UInt8) (p : ℤ) (n : ℕ) (r : ℤ × ℤ × TclArray UInt8) : Prop :=
  r.1 = (min n 15 : ℕ) * 16 ∧ r.2.1 = p + (lengthBytes n).length ∧ Wrote m r.2.2 p (lengthBytes n)

theorem wrote_short (m : TclArray UInt8) (p : ℤ) (hn : n < 15) :
    p = p + (lengthBytes n).length ∧ Wrote m m p (lengthBytes n) := by
  rw [show lengthBytes n = [] from if_pos hn]
  exact ⟨(add_zero p).symm, .nil m p⟩

theorem shiftLeft_four (hn : n < 15) : (n : ℤ) <<< (4 : ℕ) = (min n 15 : ℕ) * 16 := by
  rw [Nat.min_eq_left hn.le, Int.shiftLeft_eq]
  rfl

theorem encodeLiteralLength_spec (m : TclArray UInt8) (p : ℤ) (n : ℕ) :
    Ensures (encodeLiteralLength m p n) (WroteLength m p n) := by
  refine .ite (fun hn => .map ?_) fun hn =>
    .pure ⟨shiftLeft_four (by omega), wrote_short m p (by omega)⟩
  refine (writeLiteralLength_spec (by omega)).mono fun r hr => ⟨?_, hr⟩
  rw [Nat.min_eq_right (by omega)]
  rfl

theorem ofInt_token (literals copied : ℕ) :
    UInt8.ofInt ((min literals 15 : ℕ) * 16 + (min copied 15 : ℕ)) = token literals copied := by
  rw [token, ← ofInt_natCast, Int.natCast_add, Int.natCast_mul]
  rfl

theorem encodeMatchLength_spec (m : TclArray UInt8) (ptoken p : ℤ) (literals copied : ℕ) :
    Ensures (encodeMatchLength m ptoken ((min literals 15 : ℕ) * 16) p copied) fun r =>
      r.1 = p + (lengthBytes copied).length ∧ Wrote
        (Function.update m ptoken (some (token literals copied))) r.2 p (lengthBytes copied) := by
  have htoken := ofInt_token literals copied
  refine .ite (fun hn => ?_) fun hn => .pure ?_
  · rw [Nat.min_eq_right (show 15 ≤ copied by omega)] at htoken
    rw [lz4Write8, ← htoken]
    exact writeMatchLength_spec (by omega)
  · rw [Nat.min_eq_left (show copied ≤ 15 by omega)] at htoken
    rw [lz4Write8, ← htoken]
    exact wrote_short _ p (by omega)

theorem Wrote.writeLE16 (m : TclArray UInt8) (p : ℤ) (offset : ℕ) :
    Wrote m (lz4WriteLE16 m p offset) p (leBytes 2 offset) := by
  have hhigh : UInt8.ofInt ((offset : ℤ) >>> (8 : ℕ)) = UInt8.ofNat (offset / 256) := by
    rw [← ofInt_natCast, Int.shiftRight_eq_div_pow]
    rfl
  have hbytes : leBytes 2 offset =
      [UInt8.ofInt offset] ++ [UInt8.ofInt ((offset : ℤ) >>> (8 : ℕ))] := by
    rw [hhigh, ofInt_natCast]
    rfl
  rw [hbytes]
  exact (Wrote.store m p _).append (.store _ _ _)

/-- What an encoded sequence leaves behind. -/
structure Encoded (out : Output) (s : Lz77.Sequence UInt8) (ip : ℤ) (r : ℤ × Output) : Prop where
  ip_eq : r.1 = ip + s.length
  anchor_eq : r.2.anchor = ip + s.length
  op_eq : r.2.op = out.op + (sequenceBytes s).length
  wrote : Wrote out.ho8 r.2.ho8 out.op (sequenceBytes s)
  emitted_eq : r.2.emitted = out.emitted ++ [((s.offset : ℤ), (s.length : ℤ))]

/-- **`LZ4HC_encodeSequence_nl`** writes the bytes of a sequence. -/
theorem lz4hcEncodeSequence_spec {s : Lz77.Sequence UInt8} (hat : src.HasAt out.anchor s.literals)
    (hs : Encodable s) {ip pmatch : ℤ} (hip : ip = out.anchor + s.literals.length)
    (hoffset : ip - pmatch = s.offset) :
    Ensures (lz4hcEncodeSequence src out ip s.length pmatch) (Encoded out s ip) := by
  have hlength : ip - out.anchor = s.literals.length := by omega
  have hcopied : (s.length : ℤ) - 4 = (s.length - 4 : ℕ) := by
    have := hs.length_ge
    omega
  rw [lz4hcEncodeSequence]
  simp only [hlength, hoffset, hcopied]
  refine (encodeLiteralLength_spec out.ho8 (out.op + 1) s.literals.length).bind fun r hr => ?_
  obtain ⟨tok, op, ho8⟩ := r
  obtain ⟨rfl, rfl, hlit⟩ : tok = (min s.literals.length 15 : ℕ) * 16 ∧
    op = out.op + 1 + (lengthBytes s.literals.length).length ∧
      Wrote out.ho8 ho8 (out.op + 1) (lengthBytes s.literals.length) := hr
  refine (lz4Memmove_spec hat).bind fun ho8' hmoved => ?_
  refine (encodeMatchLength_spec _ out.op _ s.literals.length (s.length - 4)).bind fun r hr => ?_
  obtain ⟨op', ho8''⟩ := r
  obtain ⟨rfl, hmatch⟩ := hr
  -- the token is written behind the literals and the offset, in front of them
  have hlits := hlit.append hmoved
  rw [show out.op + 1 + ((lengthBytes s.literals.length).length : ℤ) + s.literals.length =
    out.op + 1 + (lengthBytes s.literals.length ++ s.literals).length by
      rw [List.length_append, Int.natCast_add, add_assoc]] at hmatch ⊢
  have hoff := (hlits.append (.writeLE16 ho8' _ s.offset)).store_before (lt_add_one out.op)
    (token s.literals.length (s.length - 4))
  have hall : Wrote out.ho8 ho8'' out.op (sequenceBytes s) := by
    refine (Wrote.store out.ho8 out.op _).append (hoff.append ?_)
    rw [@List.length_append _ _ (leBytes 2 s.offset), leBytes_length, Int.natCast_add, ← add_assoc]
    exact hmatch
  refine .pure ⟨rfl, rfl, ?_, hall, rfl⟩
  simp only [sequenceBytes, List.length_cons, List.length_append, leBytes_length]
  push_cast
  ring

theorem encodeLastRun_spec (m : TclArray UInt8) (p : ℤ) (n : ℕ) : Ensures (encodeLastRun m p n)
    fun r => r.1 = p + (token n 0 :: lengthBytes n).length ∧
      Wrote m r.2 p (token n 0 :: lengthBytes n) := by
  have htoken := ofInt_token n 0
  rw [Nat.zero_min, Int.natCast_zero, add_zero] at htoken
  have hfirst (v : ℤ) (hv : v = (min n 15 : ℕ) * 16) : Wrote m (lz4Write8 m p v) p [token n 0] := by
    rw [hv, lz4Write8, htoken]
    exact .store m p _
  have hpos : (((token n 0 :: lengthBytes n).length : ℕ) : ℤ) = 1 + (lengthBytes n).length := by
    rw [List.length_cons]
    omega
  rw [hpos, ← add_assoc]
  refine .ite (fun hn => ?_) fun hn => .pure ?_
  · have hv : (0xf0 : ℤ) = (min n 15 : ℕ) * 16 := by
      rw [Nat.min_eq_right (show 15 ≤ n by omega)]
      rfl
    exact (writeLiteralLength_spec (by omega)).mono fun r hr =>
      ⟨hr.1, (hfirst _ hv).append hr.2⟩
  · obtain ⟨hop, hw⟩ := wrote_short (lz4Write8 m p ((n : ℤ) <<< (4 : ℕ))) (p + 1) (show n < 15 by omega)
    exact ⟨hop, (hfirst _ (shiftLeft_four (by omega))).append hw⟩

theorem encodeLastLiterals_spec {literals : List UInt8} (hat : src.HasAt out.anchor literals)
    {iend : ℤ} (hiend : iend = out.anchor + literals.length) :
    Ensures (encodeLastLiterals src out iend) fun out' =>
      out'.op = out.op + (lastBytes literals).length ∧ out'.emitted = out.emitted ∧
        Wrote out.ho8 out'.ho8 out.op (lastBytes literals) := by
  have hlength : iend - out.anchor = literals.length := by omega
  rw [encodeLastLiterals]
  simp only [hlength]
  refine (encodeLastRun_spec out.ho8 out.op literals.length).bind fun r hr => ?_
  obtain ⟨op, ho8⟩ := r
  obtain ⟨rfl, hrun⟩ := hr
  refine (lz4Memmove_spec hat).bind fun ho8' hmoved => .pure ⟨?_, rfl, hrun.append hmoved⟩
  simp only [lastBytes, List.length_cons, List.length_append]
  push_cast
  ring

end Sequences

end OlivePiccolo.Lz4hc
