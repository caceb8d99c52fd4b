import OlivePiccolo.Lz4hc.Encode
import OlivePiccolo.Lz4hc.Finder

/-!
# The parser of the compressor

`LZ4HC_compress_generic_g_nl` looks for a match, then for a wider one behind it, and for a third one,
and shortens or shifts them until they can be encoded one after the other. Its three loops are the
modes of one loop here, whose state holds the matches (`Parser`). All of them are matches of the input
at any time, what has been written never goes beyond the first one, and the end of the last one grows
(`Progress`): so the loops end.
-/

namespace OlivePiccolo.Lz4hc

/-! ## The code -/

/-- The loop that is next: the main one, `_Search2` or `_Search3`. -/
inductive Mode
  | main
  | search2
  | search3
  deriving DecidableEq, Repr

/-- The variables of `LZ4HC_compress_generic_g_nl`. -/
structure Parser where
  mode : Mode
  /-- `Pip`, `Pref` and `ml`. -/
  first : Triple
  /-- `Pstart2`, `Pref2` and `ml2`. -/
  second : Triple
  /-- `Pstart3`, `Pref3` and `ml3`. -/
  third : Triple
  /-- `Pstart0`, `Pref0` and `ml0`. -/
  saved : Triple
  tables : Tables
  out : Output

/-- `Pmflimit`. -/
def mflimit (src : Mem) : ℤ := src.length - 12

/-- `Pmatchlimit`. -/
def matchlimit (src : Mem) : ℤ := src.length - 5

/-- `maxNbAttempts`. -/
def maxNbAttempts (compressionLevel : ℤ) : ℕ :=
  let level := if 16 < compressionLevel then 16 else compressionLevel
  let level := if level < 1 then 9 else level
  1 <<< (level - 1).toNat

/-- The start of the main loop. Lengths, and what is saved, have no value yet. -/
def Parser.init : Parser where
  mode := .main
  first := ⟨1, 0, 0⟩
  second := ⟨0, 0, 0⟩
  third := ⟨0, 0, 0⟩
  saved := ⟨0, 0, 0⟩
  tables := lz4hcInit
  out := ⟨0, 0, fun _ => none, []⟩

/-- `incr Pstart2 $correction; incr Pref2 $correction; incr ml2 -$correction`. -/
def Triple.shift (t : Triple) (correction : ℤ) : Triple :=
  ⟨t.start + correction, t.ref + correction, t.ml - correction⟩

/-- The length of the first match that leaves four bytes to the second one, 18 at most. -/
def newMl (first second : Triple) : ℤ :=
  let ml := if 18 < first.ml then 18 else first.ml
  if second.start + second.ml - 4 < first.start + ml then
    second.start - first.start + second.ml - 4
  else ml

/-- The second match starts behind this length of the first one. -/
def correct (first second : Triple) (ml : ℤ) : Triple :=
  let correction := ml - (second.start - first.start)
  if 0 < correction then second.shift correction else second

namespace Parser

/-- `LZ4HC_encodeSequence_nl` for the first match. -/
def encodeFirst (src : Mem) (p : Parser) : Access Parser := do
  let (ip, out) ← lz4hcEncodeSequence src p.out p.first.start p.first.ml p.first.ref
  return { p with first := { p.first with start := ip }, out := out }

/-- A round of the main loop. -/
def mainRound (src : Mem) (attempts : ℕ) (p : Parser) : Access Parser := do
  let (tables, ml, ref) ←
    lz4hcInsertAndFindBestMatch src p.tables p.first.start (matchlimit src) p.first.ref attempts
  return if ml = 0 then { p with tables := tables, first := ⟨p.first.start + 1, ref, ml⟩ }
  else { p with
    mode := .search2
    tables := tables
    first := ⟨p.first.start, ref, ml⟩
    saved := ⟨p.first.start, ref, ml⟩ }

/-- The search for `ml2`. -/
def findSecond (src : Mem) (attempts : ℕ) (p : Parser) : Access Parser :=
  let best := { p.second with ml := p.first.ml }
  if p.first.start + p.first.ml < mflimit src then do
    let (tables, second) ← lz4hcInsertAndGetWiderMatch src p.tables
      (p.first.start + p.first.ml - 2) p.first.start (matchlimit src) best attempts
    return { p with tables := tables, second := second }
  else some { p with second := best }

/-- The first match is replaced by the saved one, if the second one starts early. -/
def restore (p : Parser) : Parser :=
  if p.saved.start < p.first.start ∧ p.second.start < p.first.start + p.saved.ml then
    { p with first := p.saved }
  else p

/-- A round of `_Search2`. -/
def search2Round (src : Mem) (attempts : ℕ) (p : Parser) : Access Parser := do
  let p ← p.findSecond src attempts
  if p.second.ml = p.first.ml then
    let p ← p.encodeFirst src
    return { p with mode := .main }
  else
    let p := p.restore
    return if p.second.start - p.first.start < 3 then { p with first := p.second }
    else { p with mode := .search3 }

/-- The search for `ml3`. -/
def findThird (src : Mem) (attempts : ℕ) (p : Parser) : Access Parser :=
  let best := { p.third with ml := p.second.ml }
  if p.second.start + p.second.ml < mflimit src then do
    let (tables, third) ← lz4hcInsertAndGetWiderMatch src p.tables
      (p.second.start + p.second.ml - 3) p.second.start (matchlimit src) best attempts
    return { p with tables := tables, third := third }
  else some { p with third := best }

/-- The start of a round of `_Search3`. -/
def correctSecond (p : Parser) : Parser :=
  if p.second.start - p.first.start < 18 then
    { p with second := correct p.first p.second (newMl p.first p.second) }
  else p

/-- No better match: two sequences to encode. -/
def encodeTwo (src : Mem) (p : Parser) : Access Parser := do
  let p := if p.second.start < p.first.start + p.first.ml then
    { p with first := { p.first with ml := p.second.start - p.first.start } } else p
  let p ← p.encodeFirst src
  let (ip, out) ← lz4hcEncodeSequence src p.out p.second.start p.second.ml p.second.ref
  return { p with mode := .main, first := { p.first with start := ip }, out := out }

/-- The first match is written, the second one removed: the third one becomes the first. -/
def removeSecond (src : Mem) (p : Parser) : Access Parser := do
  let p := if p.second.start < p.first.start + p.first.ml then
    let second := p.second.shift (p.first.start + p.first.ml - p.second.start)
    { p with second := if second.ml < 4 then p.third else second } else p
  let p ← p.encodeFirst src
  return { p with mode := .search2, first := p.third, saved := p.second }

/-- Three ascending matches: the first one is written. -/
def encodeOfThree (src : Mem) (p : Parser) : Access Parser := do
  let p := if p.second.start < p.first.start + p.first.ml then
    if p.second.start - p.first.start < 15 then
      let ml := newMl p.first p.second
      { p with first := { p.first with ml := ml }, second := correct p.first p.second ml }
    else { p with first := { p.first with ml := p.second.start - p.first.start } } else p
  let p ← p.encodeFirst src
  return { p with first := p.second, second := p.third }

/-- A round of `_Search3`. -/
def search3Round (src : Mem) (attempts : ℕ) (p : Parser) : Access Parser := do
  let p ← p.correctSecond.findThird src attempts
  if p.third.ml = p.second.ml then p.encodeTwo src
  else if p.third.start < p.first.start + p.first.ml + 3 then
    if p.first.start + p.first.ml ≤ p.third.start then p.removeSecond src
    else return { p with second := p.third }
  else p.encodeOfThree src

/-- A round of the loop that is next. -/
def round (src : Mem) (attempts : ℕ) (p : Parser) : Access (Round Parser Parser) :=
  match p.mode with
  | .main =>
    if p.first.start < mflimit src then (p.mainRound src attempts).map .again else some (.done p)
  | .search2 => (p.search2Round src attempts).map .again
  | .search3 => (p.search3Round src attempts).map .again

end Parser

/-- `LZ4HC_compress_generic_g_nl`. -/
def lz4hcCompressGeneric (src : Mem) (compressionLevel : ℤ) : Access Output := do
  let p ← loop (Parser.round src (maxNbAttempts compressionLevel)) (2 * src.length + 2) Parser.init
  encodeLastLiterals src p.out src.length

/-! ## Matches that are shortened and shifted -/

/-- A match of the input that is long enough. -/
structure Usable (src : Mem) (t : Triple) : Prop extends IsMatch src (matchlimit src) t where
  ml_ge : 4 ≤ t.ml

section Triples

variable {src : Mem} {first second t : Triple} {c ml : ℤ}

theorem Usable.shift (h : Usable src t) (h0 : 0 ≤ c) (hml : 4 ≤ t.ml - c) :
    Usable src (t.shift c) := by
  have href := h.ref_nonneg
  have hlt := h.ref_lt
  have hnear := h.near
  have hends := h.ends
  refine ⟨⟨?_, ?_, ?_, ?_, h.same.drop h0⟩, hml⟩
  · show 0 ≤ t.ref + c
    omega
  · show t.ref + c < t.start + c
    omega
  · show t.start + c - (t.ref + c) ≤ 65535
    omega
  · show t.start + c + (t.ml - c) ≤ matchlimit src
    omega

theorem Usable.shorten (h : Usable src t) (hml : 4 ≤ ml) (hle : ml ≤ t.ml) :
    Usable src { t with ml := ml } := by
  have hends := h.ends
  exact ⟨⟨h.ref_nonneg, h.ref_lt, h.near, by show t.start + ml ≤ matchlimit src; omega,
    h.same.mono hle⟩, hml⟩

theorem Usable.end_le (h : Usable src t) : t.start + t.ml ≤ src.length - 5 := h.ends

theorem newMl_spec (hfirst : 4 ≤ first.ml) (hroom : 8 ≤ second.start - first.start + second.ml) :
    4 ≤ newMl first second ∧ newMl first second ≤ first.ml ∧ newMl first second ≤ 18 ∧
      newMl first second ≤ second.start - first.start + second.ml - 4 := by
  simp only [newMl]
  split_ifs <;> omega

theorem correct_start (first second : Triple) (ml : ℤ) :
    (correct first second ml).start = max second.start (first.start + ml) ∧
      (correct first second ml).start + (correct first second ml).ml = second.start + second.ml := by
  simp only [correct]
  split_ifs
  · refine ⟨?_, ?_⟩
    · show second.start + (ml - (second.start - first.start)) = _
      omega
    · show second.start + (ml - (second.start - first.start)) +
        (second.ml - (ml - (second.start - first.start))) = _
      omega
  · exact ⟨by omega, rfl⟩

theorem Usable.correct (h : Usable src second)
    (hml : ml ≤ second.start - first.start + second.ml - 4) :
    Usable src (correct first second ml) := by
  simp only [Lz4hc.correct]
  split_ifs
  · exact h.shift (by omega) (by omega)
  · exact h

end Triples

/-! ## What has been written -/

/-- The sequences that have been written are the input up to the anchor. -/
structure Written (src : Mem) (out : Output) (l : List (Lz77.Sequence UInt8)) : Prop where
  anchor_nonneg : 0 ≤ out.anchor
  anchor_le : out.anchor = 0 ∨ out.anchor + 5 ≤ src.length
  parse : Lz77.Parse src l out.anchor.toNat
  encodable : ∀ s ∈ l, Encodable s
  op_eq : out.op = (l.flatMap sequenceBytes).length
  wrote : Wrote (fun _ => none) out.ho8 0 (l.flatMap sequenceBytes)
  emitted_eq : out.emitted = l.map fun s => ((s.offset : ℤ), (s.length : ℤ))

section Written

variable {src : Mem} {out : Output} {l : List (Lz77.Sequence UInt8)} {t : Triple}

theorem hasAt_between (src : Mem) {a b : ℤ} (ha : 0 ≤ a) (hab : a ≤ b) (hb : b ≤ src.length) :
    src.HasAt a ((src.drop a.toNat).take (b.toNat - a.toNat)) ∧
      (((src.drop a.toNat).take (b.toNat - a.toNat)).length : ℤ) = b - a := by
  constructor
  · refine ⟨src.take a.toNat, src.drop b.toNat, ?_, ?_⟩
    · have hdrop : src.drop b.toNat = (src.drop a.toNat).drop (b.toNat - a.toNat) := by
        rw [List.drop_drop, Nat.add_sub_cancel' (Int.toNat_le_toNat hab)]
      rw [hdrop, List.append_assoc, List.take_append_drop, List.take_append_drop]
    · rw [List.length_take]
      omega
  · rw [List.length_take, List.length_drop]
    omega

theorem Usable.isMatch (h : Usable src t) :
    Lz77.IsMatch src t.start.toNat (t.start - t.ref).toNat t.ml.toNat := by
  have href := h.ref_nonneg
  have hlt := h.ref_lt
  have hends := h.end_le
  have hml := h.ml_ge
  refine ⟨by omega, by omega, by omega, fun i hi => ?_⟩
  have hsame := h.same i (by omega) (by omega)
  rw [Mem.peek, Mem.peek, if_pos (by omega), if_pos (by omega)] at hsame
  rwa [show t.start.toNat - (t.start - t.ref).toNat + i = (t.ref + i).toNat by omega,
    show t.start.toNat + i = (t.start + i).toNat by omega]

/-- The sequence of a match, with the literals since the anchor. -/
def Triple.sequence (src : Mem) (anchor : ℤ) (t : Triple) : Lz77.Sequence UInt8 :=
  ⟨(src.drop anchor.toNat).take (t.start.toNat - anchor.toNat), (t.start - t.ref).toNat,
    t.ml.toNat⟩

/-- **A match is encoded**, behind what has been written. -/
theorem Written.encode (h : Written src out l) (ht : Usable src t) (hle : out.anchor ≤ t.start) :
    Ensures (lz4hcEncodeSequence src out t.start t.ml t.ref) fun r =>
      r.1 = t.start + t.ml ∧ r.2.anchor = t.start + t.ml ∧ ∃ l, Written src r.2 l := by
  have h0 := h.anchor_nonneg
  have href := ht.ref_nonneg
  have hlt := ht.ref_lt
  have hnear := ht.near
  have hends := ht.end_le
  have hml := ht.ml_ge
  obtain ⟨hat, hlen⟩ := hasAt_between src h0 hle (by omega)
  have hs : Encodable (t.sequence src out.anchor) :=
    ⟨by show 1 ≤ (t.start - t.ref).toNat; omega, by show (t.start - t.ref).toNat ≤ 65535; omega,
      by show 4 ≤ t.ml.toNat; omega⟩
  have hlength : ((t.sequence src out.anchor).length : ℤ) = t.ml := by
    show (t.ml.toNat : ℤ) = t.ml
    omega
  have hencode : Ensures (lz4hcEncodeSequence src out t.start (t.sequence src out.anchor).length
      t.ref) (Encoded out (t.sequence src out.anchor) t.start) :=
    lz4hcEncodeSequence_spec hat hs (by
      show t.start = out.anchor + ((src.drop out.anchor.toNat).take _).length
      omega) (by show t.start - t.ref = ((t.start - t.ref).toNat : ℤ); omega)
  rw [hlength] at hencode
  refine hencode.mono fun r hr => ?_
  have hanchor := hr.anchor_eq
  have hip := hr.ip_eq
  rw [hlength] at hanchor hip
  refine ⟨hip, hanchor, l ++ [t.sequence src out.anchor], ?_, ?_, ?_, ?_, ?_, ?_, ?_⟩
  · omega
  · omega
  · have hparse := h.parse.snoc (Int.toNat_le_toNat hle) ht.isMatch
    rwa [show t.start.toNat + t.ml.toNat = r.2.anchor.toNat by omega] at hparse
  · intro s' hs'
    rcases List.mem_append.mp hs' with hold | hnew
    · exact h.encodable s' hold
    · rw [List.mem_singleton.mp hnew]
      exact hs
  · rw [hr.op_eq, h.op_eq, List.flatMap_append, List.length_append, List.flatMap_singleton,
      Int.natCast_add]
  · rw [List.flatMap_append, List.flatMap_singleton]
    refine h.wrote.append ?_
    rw [zero_add, ← h.op_eq]
    exact hr.wrote
  · rw [hr.emitted_eq, h.emitted_eq, List.map_append, List.map_singleton]

end Written

/-! ## The invariant -/

/-- What holds in the main loop. -/
structure MainInv (src : Mem) (p : Parser) : Prop where
  written : ∃ l, Written src p.out l
  anchor_le : p.out.anchor ≤ p.first.start
  inserted : ∃ q, p.tables.Inserted q ∧ q ≤ p.first.start

/-- What holds at `_Search2`. -/
structure Search2Inv (src : Mem) (p : Parser) : Prop where
  written : ∃ l, Written src p.out l
  anchor_le : p.out.anchor ≤ p.saved.start
  saved_le : p.saved.start ≤ p.first.start
  near : p.first.start ≤ p.saved.start + 2
  first : Usable src p.first
  saved : Usable src p.saved
  inserted : ∃ q, p.tables.Inserted q ∧ q ≤ p.first.start + p.first.ml - 2

/-- What holds at `_Search3`. -/
structure Search3Inv (src : Mem) (p : Parser) : Prop where
  written : ∃ l, Written src p.out l
  anchor_le : p.out.anchor ≤ p.first.start
  first : Usable src p.first
  second : Usable src p.second
  first_le : p.first.start ≤ p.second.start
  /-- There is room for two matches. -/
  room : 8 ≤ p.second.start - p.first.start + p.second.ml
  /-- One byte may be between the matches, if the second one is longer than the shortest ones. -/
  gap : p.second.start ≤ p.first.start + p.first.ml + 1
  gap_ml : p.second.start = p.first.start + p.first.ml + 1 → 5 ≤ p.second.ml
  inserted : ∃ q, p.tables.Inserted q ∧ q ≤ p.second.start + p.second.ml - 3

namespace Parser

def Inv (src : Mem) (p : Parser) : Prop :=
  match p.mode with
  | .main => MainInv src p
  | .search2 => Search2Inv src p
  | .search3 => Search3Inv src p

/-- The end of the last match. -/
def reach (p : Parser) : ℤ :=
  match p.mode with
  | .main => p.first.start
  | .search2 => p.first.start + p.first.ml
  | .search3 => p.second.start + p.second.ml

/-- What is left for the loops. -/
def left (src : Mem) (p : Parser) : ℕ :=
  (2 * (src.length - p.reach) + if p.mode = .main then 0 else 1).toNat

/-- A round keeps the invariant, and there is less left. -/
def Progress (src : Mem) (p p' : Parser) : Prop := p'.Inv src ∧ p'.left src < p.left src

section Rounds

variable {src : Mem} {p p' : Parser} {attempts : ℕ}

theorem left_lt_of_reach_lt (hlt : p.reach < p'.reach) (hle : p'.reach ≤ src.length) :
    p'.left src < p.left src := by
  rw [left, left]
  split_ifs <;> omega

theorem left_lt_of_main (hp : p.mode ≠ .main) (hp' : p'.mode = .main) (heq : p'.reach = p.reach)
    (hle : p.reach ≤ src.length) : p'.left src < p.left src := by
  rw [left, left, if_neg hp, if_pos hp', heq]
  omega

theorem encodeFirst_spec (hwritten : ∃ l, Written src p.out l) (hfirst : Usable src p.first)
    (hle : p.out.anchor ≤ p.first.start) :
    Ensures (p.encodeFirst src) fun p' => ∃ out, (∃ l, Written src out l) ∧
      out.anchor = p.first.start + p.first.ml ∧
        p' = { p with first := { p.first with start := p.first.start + p.first.ml }, out := out } := by
  obtain ⟨l, hl⟩ := hwritten
  refine (hl.encode hfirst hle).bind fun r hr => .pure ?_
  obtain ⟨ip, out⟩ := r
  obtain ⟨rfl, hanchor, hwritten⟩ := hr
  exact ⟨out, hwritten, hanchor, rfl⟩

/-- **A round of the main loop.** -/
theorem mainRound_spec (hmode : p.mode = .main) (h : MainInv src p)
    (hlt : p.first.start < mflimit src) :
    Ensures (p.mainRound src attempts) (Progress src p) := by
  obtain ⟨l, hl⟩ := h.written
  have hanchor := hl.anchor_nonneg
  have hle := h.anchor_le
  have hlt : p.first.start < src.length - 12 := hlt
  obtain ⟨q, hq, hqle⟩ := h.inserted
  refine (lz4hcInsertAndFindBestMatch_spec (hanchor.trans hle)
    (by show p.first.start + 4 ≤ src.length - 5; omega)
    (by show (src.length - 5 : ℤ) < src.length; omega) hq hqle p.first.ref attempts).bind
    fun r hr => .pure ?_
  obtain ⟨tables, ml, ref⟩ := r
  obtain ⟨htables, hfound⟩ := hr
  have hreach : p.reach = p.first.start := by rw [reach, hmode]
  by_cases hml : ml = 0
  · -- no match: one byte on
    rw [if_pos hml]
    refine ⟨?_, left_lt_of_reach_lt ?_ ?_⟩
    · rw [Inv, hmode]
      exact ⟨⟨l, hl⟩, by show p.out.anchor ≤ p.first.start + 1; omega,
        p.first.start, htables, by show p.first.start ≤ p.first.start + 1; omega⟩
    · rw [hreach, reach, hmode]
      show p.first.start < p.first.start + 1
      omega
    · rw [reach, hmode]
      show p.first.start + 1 ≤ src.length
      omega
  · rw [if_neg hml]
    obtain ⟨hge, hmatch⟩ := hfound.resolve_left hml
    have hge : 4 ≤ ml := hge
    have husable : Usable src ⟨p.first.start, ref, ml⟩ := ⟨hmatch, hge⟩
    have hends := husable.end_le
    refine ⟨⟨⟨l, hl⟩, hle, le_rfl, by show p.first.start ≤ p.first.start + 2; omega, husable,
      husable, p.first.start, htables, ?_⟩, left_lt_of_reach_lt ?_ ?_⟩
    · show p.first.start ≤ p.first.start + ml - 2
      omega
    · rw [hreach]
      show p.first.start < p.first.start + ml
      omega
    · show p.first.start + ml ≤ src.length
      have hends : p.first.start + ml ≤ src.length - 5 := hends
      omega

/-- What the search behind a match finds: nothing, or a longer match that starts inside. -/
def FoundBehind (src : Mem) (t best : Triple) (back : ℤ) : Prop :=
  best.ml = t.ml ∨ (t.ml < best.ml ∧ t.start ≤ best.start ∧ best.start ≤ t.start + t.ml - back ∧
    Usable src best)

theorem findBehind {t : Triple} (best : Triple) {tables : Tables} {back q : ℤ}
    (ht : Usable src t) (h0 : 0 ≤ t.start) (hlt : t.start + t.ml < mflimit src)
    (hback : 2 ≤ back) (hback' : back ≤ 4) (hbest : best.ml = t.ml) (hq : tables.Inserted q)
    (hqle : q ≤ t.start + t.ml - back) :
    Ensures (lz4hcInsertAndGetWiderMatch src tables (t.start + t.ml - back) t.start
      (matchlimit src) best attempts) fun r =>
        (∃ q, r.1.Inserted q ∧ q ≤ t.start + t.ml - back) ∧ FoundBehind src t r.2 back := by
  have hlt : t.start + t.ml < src.length - 12 := hlt
  have hml := ht.ml_ge
  refine (lz4hcInsertAndGetWiderMatch_spec h0 (by omega)
    (by show t.start + t.ml - back + 4 ≤ src.length - 5; omega)
    (by show (src.length - 5 : ℤ) < src.length; omega) (by omega) (by omega) hq hqle
    attempts).mono fun r hr => ⟨⟨_, hr.1, le_rfl⟩, ?_⟩
  rcases hr.2 with heq | ⟨hlonger, hstart, hstart', hmatch⟩
  · exact .inl (by rw [heq, hbest])
  · rw [hbest] at hlonger
    exact .inr ⟨hlonger, hstart, hstart', hmatch, by omega⟩

theorem findSecond_spec (h : Search2Inv src p) :
    Ensures (p.findSecond src attempts) fun p' => ∃ tables second,
      (∃ q, tables.Inserted q ∧ q ≤ p.first.start + p.first.ml - 2) ∧
        FoundBehind src p.first second 2 ∧
          p' = { p with tables := tables, second := second } := by
  obtain ⟨l, hl⟩ := h.written
  have h0 : 0 ≤ p.first.start :=
    hl.anchor_nonneg.trans (h.anchor_le.trans h.saved_le)
  obtain ⟨q, hq, hqle⟩ := h.inserted
  refine .ite (fun hlt => ?_) fun _ => .pure
    ⟨p.tables, { p.second with ml := p.first.ml }, ⟨q, hq, hqle⟩, .inl rfl, rfl⟩
  refine (findBehind { p.second with ml := p.first.ml } h.first h0 hlt le_rfl (by omega) rfl hq
    hqle).bind fun r hr => ?_
  obtain ⟨tables, second⟩ := r
  exact .pure ⟨tables, second, hr.1, hr.2, rfl⟩

/-- The first match after `restore`, with a second one behind it. -/
theorem restore_spec (tables : Tables) {second : Triple} (h : Search2Inv src p)
    (hstart : p.first.start ≤ second.start) (hstart' : second.start ≤ p.first.start + p.first.ml - 2) :
    ∃ first, restore { p with tables := tables, second := second } =
        { p with tables := tables, second := second, first := first } ∧ Usable src first ∧
      p.saved.start ≤ first.start ∧ first.start ≤ second.start ∧
        second.start ≤ first.start + first.ml + 1 ∧
          (second.start - first.start < 3 → second.start ≤ p.saved.start + 2) := by
  have hsaved := h.saved_le
  have hnear := h.near
  have hml := h.saved.ml_ge
  rw [restore]
  split_ifs with hearly
  · have hearly : p.saved.start < p.first.start ∧ second.start < p.first.start + p.saved.ml := hearly
    refine ⟨p.saved, rfl, h.saved, le_rfl, ?_, ?_, ?_⟩ <;> omega
  · have hearly : ¬ (p.saved.start < p.first.start ∧ second.start < p.first.start + p.saved.ml) :=
      hearly
    refine ⟨p.first, rfl, h.first, hsaved, hstart, ?_, ?_⟩ <;> omega

/-- **A round of `_Search2`.** -/
theorem search2Round_spec (hmode : p.mode = .search2) (h : Search2Inv src p) :
    Ensures (p.search2Round src attempts) (Progress src p) := by
  have hreach : p.reach = p.first.start + p.first.ml := by rw [reach, hmode]
  have hends := h.first.end_le
  have hml := h.first.ml_ge
  have hanchor := h.anchor_le
  have hsaved := h.saved_le
  refine (findSecond_spec h).bind ?_
  rintro _ ⟨tables, second, ⟨q, hq, hqle⟩, hfound, rfl⟩
  refine .ite (fun _ => ?_) fun hne => .pure ?_
  · -- no better match
    refine (encodeFirst_spec (p := { p with tables := tables, second := second }) h.written h.first
      (hanchor.trans hsaved)).bind ?_
    rintro _ ⟨out, hwritten, hout, rfl⟩
    have hout : out.anchor = p.first.start + p.first.ml := hout
    refine .pure ⟨⟨hwritten, hout.le, q, hq, ?_⟩, left_lt_of_main (by rw [hmode]; nofun) rfl
      hreach.symm (by omega)⟩
    show q ≤ p.first.start + p.first.ml
    omega
  · obtain ⟨hlonger, hstart, hstart', hsecond⟩ := hfound.resolve_left hne
    obtain ⟨first, hrestore, hfirst, hle, hle', hgap, hnear⟩ := restore_spec tables h hstart
      hstart'
    have hends' := hsecond.end_le
    rw [hrestore]
    dsimp only
    split_ifs with hsmall
    · -- the first match is removed
      refine ⟨?_, left_lt_of_reach_lt ?_ ?_⟩
      · rw [Inv, hmode]
        exact ⟨h.written, hanchor, hle.trans hle', hnear hsmall, hsecond, h.saved, q, hq,
          by show q ≤ second.start + second.ml - 2; omega⟩
      · rw [hreach, reach, hmode]
        show p.first.start + p.first.ml < second.start + second.ml
        omega
      · rw [reach, hmode]
        show second.start + second.ml ≤ src.length
        omega
    · refine ⟨⟨h.written, hanchor.trans hle, hfirst, hsecond, hle', ?_, hgap, fun _ => ?_, q, hq, ?_⟩,
        left_lt_of_reach_lt ?_ ?_⟩
      · show 8 ≤ second.start - first.start + second.ml
        omega
      · show 5 ≤ second.ml
        omega
      · show q ≤ second.start + second.ml - 3
        omega
      · rw [hreach]
        show p.first.start + p.first.ml < second.start + second.ml
        omega
      · show second.start + second.ml ≤ src.length
        omega

/-- The start of a round of `_Search3`: the first match has at least four bytes in front of the
second one. -/
theorem correctSecond_spec (hmode : p.mode = .search3) (h : Search3Inv src p) :
    Search3Inv src p.correctSecond ∧ p.correctSecond.mode = .search3 ∧
      p.correctSecond.reach = p.reach ∧
        p.correctSecond.first.start + 4 ≤ p.correctSecond.second.start := by
  have hml := h.first.ml_ge
  have hgap := h.gap
  have hfirst := h.first_le
  have hroom := h.room
  rw [correctSecond]
  split_ifs with hnear
  · obtain ⟨hge, hle, hle18, hroom'⟩ := newMl_spec hml hroom
    obtain ⟨hstart, hend⟩ := correct_start p.first p.second (newMl p.first p.second)
    have hcorrect := h.second.correct hroom'
    have hcorrect_ml := hcorrect.ml_ge
    have hreach : reach { p with second := correct p.first p.second (newMl p.first p.second) } =
        p.reach := by
      rw [reach, reach, hmode]
      exact hend
    obtain ⟨q, hq, hqle⟩ := h.inserted
    refine ⟨⟨h.written, h.anchor_le, h.first, hcorrect, ?_, ?_, ?_, ?_, q, hq, ?_⟩, hmode, hreach, ?_⟩
    · show p.first.start ≤ (correct _ _ _).start
      omega
    · show 8 ≤ (correct _ _ _).start - p.first.start + (correct _ _ _).ml
      omega
    · show (correct _ _ _).start ≤ p.first.start + p.first.ml + 1
      omega
    · show (correct _ _ _).start = p.first.start + p.first.ml + 1 → 5 ≤ (correct _ _ _).ml
      have := h.gap_ml
      omega
    · show q ≤ (correct _ _ _).start + (correct _ _ _).ml - 3
      omega
    · show p.first.start + 4 ≤ (correct _ _ _).start
      omega
  · exact ⟨h, hmode, rfl, by omega⟩

theorem findThird_spec (h : Search3Inv src p) :
    Ensures (p.findThird src attempts) fun p' => ∃ tables third,
      (∃ q, tables.Inserted q ∧ q ≤ p.second.start + p.second.ml - 3) ∧
        FoundBehind src p.second third 3 ∧ p' = { p with tables := tables, third := third } := by
  obtain ⟨l, hl⟩ := h.written
  have h0 : 0 ≤ p.second.start := hl.anchor_nonneg.trans (h.anchor_le.trans h.first_le)
  obtain ⟨q, hq, hqle⟩ := h.inserted
  refine .ite (fun hlt => ?_) fun _ => .pure
    ⟨p.tables, { p.third with ml := p.second.ml }, ⟨q, hq, hqle⟩, .inl rfl, rfl⟩
  refine (findBehind { p.third with ml := p.second.ml } h.second h0 hlt (by omega) (by omega) rfl
    hq hqle).bind fun r hr => ?_
  obtain ⟨tables, third⟩ := r
  exact .pure ⟨tables, third, hr.1, hr.2, rfl⟩

/-- The state of `_Search3` behind its search, in front of what it does with the matches. -/
structure Search3Found (src : Mem) (p : Parser) : Prop extends Search3Inv src p where
  mode : p.mode = .search3
  apart : p.first.start + 4 ≤ p.second.start

variable (h : Search3Found src p)
include h

theorem Search3Found.reach_eq : p.reach = p.second.start + p.second.ml := by rw [reach, h.mode]

theorem encodeTwo_spec : Ensures (p.encodeTwo src) (Progress src p) := by
  have hml := h.first.ml_ge
  have happart := h.apart
  -- the first match ends in front of the second one
  have hcut : ∃ first, (if p.second.start < p.first.start + p.first.ml then
      { p with first := { p.first with ml := p.second.start - p.first.start } } else p) =
        { p with first := first } ∧ Usable src first ∧ first.start = p.first.start ∧
          first.start + first.ml ≤ p.second.start := by
    split_ifs with hover
    · exact ⟨_, rfl, h.first.shorten (by omega) (by omega), rfl,
        by show p.first.start + (p.second.start - p.first.start) ≤ p.second.start; omega⟩
    · exact ⟨p.first, rfl, h.first, rfl, by omega⟩
  obtain ⟨first, heq, hfirst, hstart, hend⟩ := hcut
  rw [encodeTwo, heq]
  refine (encodeFirst_spec (p := { p with first := first }) h.written hfirst (by
    show p.out.anchor ≤ first.start
    rw [hstart]
    exact h.anchor_le)).bind ?_
  rintro _ ⟨out, ⟨l, hl⟩, hanchor, rfl⟩
  have hanchor : out.anchor = first.start + first.ml := hanchor
  refine (hl.encode h.second (by omega)).bind fun r hr => ?_
  obtain ⟨ip, out'⟩ := r
  obtain ⟨rfl, hanchor', hwritten⟩ := hr
  have hanchor' : out'.anchor = p.second.start + p.second.ml := hanchor'
  obtain ⟨q, hq, hqle⟩ := h.inserted
  have hends := h.second.end_le
  refine .pure ⟨⟨hwritten, hanchor'.le, q, hq, ?_⟩, left_lt_of_main (by rw [h.mode]; nofun) rfl
    h.reach_eq.symm (by rw [h.reach_eq]; omega)⟩
  show q ≤ p.second.start + p.second.ml
  omega

variable (hlonger : p.second.ml < p.third.ml) (hstart : p.second.start ≤ p.third.start)
  (hthird : Usable src p.third)
include hlonger hstart hthird

theorem removeSecond_spec (hclose : p.third.start < p.first.start + p.first.ml + 3)
    (hbehind : p.first.start + p.first.ml ≤ p.third.start) :
    Ensures (p.removeSecond src) (Progress src p) := by
  have hends := hthird.end_le
  have hfirst := h.first.ml_ge
  -- what is saved starts behind the first match
  have hsave : ∃ second, (if p.second.start < p.first.start + p.first.ml then
      let second := p.second.shift (p.first.start + p.first.ml - p.second.start)
      { p with second := if second.ml < 4 then p.third else second } else p) =
        { p with second := second } ∧ Usable src second ∧
          p.first.start + p.first.ml ≤ second.start ∧ second.start ≤ p.third.start := by
    split_ifs with hover
    · have hshift : (p.second.shift (p.first.start + p.first.ml - p.second.start)).start =
          p.first.start + p.first.ml := by
        show p.second.start + (p.first.start + p.first.ml - p.second.start) = _
        omega
      refine ⟨_, rfl, ?_⟩
      split_ifs with hshort
      · exact ⟨hthird, hbehind, le_rfl⟩
      · exact ⟨h.second.shift (by omega) (Int.not_lt.mp hshort), hshift.ge, hshift.le.trans hbehind⟩
    · exact ⟨p.second, rfl, h.second, by omega, hstart⟩
  obtain ⟨second, heq, hsecond, hle, hle'⟩ := hsave
  rw [removeSecond, heq]
  refine (encodeFirst_spec (p := { p with second := second }) h.written h.first h.anchor_le).bind ?_
  rintro _ ⟨out, hwritten, hanchor, rfl⟩
  have hanchor : out.anchor = p.first.start + p.first.ml := hanchor
  obtain ⟨q, hq, hqle⟩ := h.inserted
  refine .pure ⟨⟨hwritten, ?_, hle', ?_, hthird, hsecond, q, hq, ?_⟩, left_lt_of_reach_lt ?_ ?_⟩
  · show out.anchor ≤ second.start
    omega
  · show p.third.start ≤ second.start + 2
    omega
  · show q ≤ p.third.start + p.third.ml - 2
    omega
  · rw [h.reach_eq]
    show p.second.start + p.second.ml < p.third.start + p.third.ml
    omega
  · show p.third.start + p.third.ml ≤ src.length
    omega

theorem replaceSecond_spec (hinside : p.third.start < p.first.start + p.first.ml) :
    Progress src p { p with second := p.third } := by
  have hends := hthird.end_le
  have hml := h.second.ml_ge
  have happart := h.apart
  obtain ⟨q, hq, hqle⟩ := h.inserted
  refine ⟨?_, left_lt_of_reach_lt ?_ ?_⟩
  · rw [Inv, h.mode]
    refine ⟨h.written, h.anchor_le, h.first, hthird, h.first_le.trans hstart, ?_, ?_, ?_, q, hq, ?_⟩
    · show 8 ≤ p.third.start - p.first.start + p.third.ml
      omega
    · show p.third.start ≤ p.first.start + p.first.ml + 1
      omega
    · show p.third.start = p.first.start + p.first.ml + 1 → 5 ≤ p.third.ml
      omega
    · show q ≤ p.third.start + p.third.ml - 3
      omega
  · rw [h.reach_eq, reach, h.mode]
    show p.second.start + p.second.ml < p.third.start + p.third.ml
    omega
  · rw [reach, h.mode]
    show p.third.start + p.third.ml ≤ src.length
    omega

omit hthird in
/-- The first match ends in front of the second one, which keeps its end. -/
theorem encodeOfThree_cut (hfar : p.first.start + p.first.ml + 3 ≤ p.third.start) :
    ∃ first second, (if p.second.start < p.first.start + p.first.ml then
      if p.second.start - p.first.start < 15 then
        let ml := newMl p.first p.second
        { p with first := { p.first with ml := ml }, second := correct p.first p.second ml }
      else { p with first := { p.first with ml := p.second.start - p.first.start } } else p) =
        { p with first := first, second := second } ∧ Usable src first ∧ Usable src second ∧
          first.start = p.first.start ∧ first.start + first.ml ≤ second.start ∧
            second.start + second.ml = p.second.start + p.second.ml ∧
              second.start ≤ p.third.start ∧ 8 ≤ p.third.start - second.start + p.third.ml := by
  have hml := h.first.ml_ge
  have hml' := h.second.ml_ge
  have happart := h.apart
  have hgap := h.gap
  have hgap_ml := h.gap_ml
  have hroom := h.room
  split_ifs with hover hnear
  · obtain ⟨hge, hle, -, hroom'⟩ := newMl_spec hml hroom
    obtain ⟨hcstart, hcend⟩ := correct_start p.first p.second (newMl p.first p.second)
    refine ⟨_, _, rfl, h.first.shorten hge hle, h.second.correct hroom', rfl, ?_, hcend, ?_, ?_⟩
    · show p.first.start + newMl p.first p.second ≤ _
      omega
    · omega
    · omega
  · refine ⟨_, _, rfl, h.first.shorten (by omega) (by omega), h.second, rfl, ?_, rfl, hstart,
      by omega⟩
    show p.first.start + (p.second.start - p.first.start) ≤ p.second.start
    omega
  · exact ⟨p.first, p.second, rfl, h.first, h.second, rfl, by omega, rfl, hstart, by omega⟩

theorem encodeOfThree_spec (hstart' : p.third.start ≤ p.second.start + p.second.ml - 3)
    (hfar : p.first.start + p.first.ml + 3 ≤ p.third.start) :
    Ensures (p.encodeOfThree src) (Progress src p) := by
  have hends := hthird.end_le
  have hgap_ml := h.gap_ml
  obtain ⟨first, second, heq, hfirst, hsecond, hfstart, hbefore, hend, hle, hroom'⟩ :=
    encodeOfThree_cut h hlonger hstart hfar
  rw [encodeOfThree, heq]
  refine (encodeFirst_spec (p := { p with first := first, second := second }) h.written hfirst (by
    show p.out.anchor ≤ first.start
    rw [hfstart]
    exact h.anchor_le)).bind ?_
  rintro _ ⟨out, hwritten, hanchor, rfl⟩
  have hanchor : out.anchor = first.start + first.ml := hanchor
  have hsecond_ml := hsecond.ml_ge
  have hfirst_ml := hfirst.ml_ge
  obtain ⟨q, hq, hqle⟩ := h.inserted
  refine .pure ⟨?_, left_lt_of_reach_lt ?_ ?_⟩
  · rw [Inv, h.mode]
    refine ⟨hwritten, ?_, hsecond, hthird, hle, hroom', ?_, ?_, q, hq, ?_⟩
    · show out.anchor ≤ second.start
      omega
    · show p.third.start ≤ second.start + second.ml + 1
      omega
    · show p.third.start = second.start + second.ml + 1 → 5 ≤ p.third.ml
      omega
    · show q ≤ p.third.start + p.third.ml - 3
      omega
  · rw [h.reach_eq, reach, h.mode]
    show p.second.start + p.second.ml < p.third.start + p.third.ml
    omega
  · rw [reach, h.mode]
    show p.third.start + p.third.ml ≤ src.length
    omega

omit h hlonger hstart hthird in
/-- **A round of `_Search3`.** -/
theorem search3Round_spec (hmode : p.mode = .search3) (h : Search3Inv src p) :
    Ensures (p.search3Round src attempts) (Progress src p) := by
  obtain ⟨hinv, hmode', hreach, hapart⟩ := correctSecond_spec hmode h
  have hleft : p.correctSecond.left src = p.left src := by rw [left, left, hreach, hmode, hmode']
  have hsame : ∀ p', Progress src p.correctSecond p' → Progress src p p' := fun p' hp' =>
    ⟨hp'.1, hleft ▸ hp'.2⟩
  rw [search3Round]
  generalize p.correctSecond = p₁ at hinv hmode' hapart hsame
  refine Ensures.mono ?_ hsame
  refine (findThird_spec hinv).bind ?_
  rintro _ ⟨tables, third, hinserted, hfound, rfl⟩
  have hfound' : Search3Found src { p₁ with tables := tables, third := third } :=
    ⟨⟨hinv.written, hinv.anchor_le, hinv.first, hinv.second, hinv.first_le, hinv.room, hinv.gap,
      hinv.gap_ml, hinserted⟩, hmode', hapart⟩
  refine .ite (fun _ => encodeTwo_spec hfound') fun hne => ?_
  obtain ⟨hlonger, hstart, hstart', hthird⟩ := hfound.resolve_left hne
  refine .ite (fun hclose => .ite (fun hbehind => ?_) fun hinside => .pure ?_) fun hfar => ?_
  · exact removeSecond_spec hfound' hlonger hstart hthird hclose hbehind
  · exact replaceSecond_spec hfound' hlonger hstart hthird (Int.not_le.mp hinside)
  · exact encodeOfThree_spec hfound' hlonger hstart hthird hstart' (Int.not_lt.mp hfar)

end Rounds

theorem round_spec {src : Mem} {attempts : ℕ} {p : Parser} (h : p.Inv src) :
    Ensures (p.round src attempts)
      (Ensures.AfterRound (Inv src) (left src) (fun p' => MainInv src p') p) := by
  rw [round]
  cases hmode : p.mode with
  | main =>
    rw [Inv, hmode] at h
    exact .ite (fun hlt => .map (mainRound_spec hmode h hlt)) fun _ => .pure h
  | search2 =>
    rw [Inv, hmode] at h
    exact .map (search2Round_spec hmode h)
  | search3 =>
    rw [Inv, hmode] at h
    exact .map (search3Round_spec hmode h)

end Parser

/-! ## The block -/

/-- The output is a block of sequences that are the input. -/
structure Compressed (src : Mem) (out : Output) (l : List (Lz77.Sequence UInt8)) (pos : ℕ) :
    Prop where
  parse : Lz77.Parse src l pos
  /-- A match leaves five letters for the last literals. -/
  pos_le : pos = 0 ∨ pos + 5 ≤ src.length
  encodable : ∀ s ∈ l, Encodable s
  op_eq : out.op = (blockBytes l (src.drop pos)).length
  wrote : Wrote (fun _ => none) out.ho8 0 (blockBytes l (src.drop pos))
  emitted_eq : out.emitted = l.map fun s => ((s.offset : ℤ), (s.length : ℤ))

theorem written_init (src : Mem) : Written src Parser.init.out [] :=
  ⟨le_rfl, .inl rfl, .nil, nofun, rfl, .nil _ _, rfl⟩

/-- **`LZ4HC_compress_generic_g_nl`** ends, and writes a block. -/
theorem lz4hcCompressGeneric_spec (src : Mem) (compressionLevel : ℤ) :
    Ensures (lz4hcCompressGeneric src compressionLevel) fun out =>
      ∃ l pos, Compressed src out l pos := by
  have hinit : Parser.init.Inv src :=
    ⟨⟨[], written_init src⟩, zero_le_one, 0, inserted_init, zero_le_one⟩
  have hfuel : Parser.init.left src < 2 * src.length + 2 := by
    show (2 * ((src.length : ℤ) - 1) + 0).toNat < _
    omega
  refine (Ensures.loop (fun _ => Parser.round_spec) hinit hfuel).bind fun p hp => ?_
  obtain ⟨l, hl⟩ := hp.written
  have h0 := hl.anchor_nonneg
  have hroom := hl.anchor_le
  have hle := hl.parse.le_length
  obtain ⟨hat, hlen⟩ := hasAt_between src h0 (show p.out.anchor ≤ src.length by omega) le_rfl
  have hrest : (src.drop p.out.anchor.toNat).take ((src.length : ℤ).toNat - p.out.anchor.toNat) =
      src.drop p.out.anchor.toNat := by
    rw [List.take_of_length_le]
    rw [List.length_drop, Int.toNat_natCast]
  rw [hrest] at hat hlen
  refine (encodeLastLiterals_spec hat (by omega)).mono fun out hout => ?_
  obtain ⟨hop, hemitted, hwrote⟩ := hout
  refine ⟨l, p.out.anchor.toNat, hl.parse, by omega, hl.encodable, ?_, hl.wrote.append ?_, ?_⟩
  · rw [hop, hl.op_eq, blockBytes, List.length_append, Int.natCast_add]
  · rw [zero_add, ← hl.op_eq]
    exact hwrote
  · rw [hemitted, hl.emitted_eq]

end OlivePiccolo.Lz4hc
