import OlivePiccolo.Lz4hc.Heap

/-!
# The match finder

The places of the input that have been inserted are chained by the hash of their four bytes. A place is
kept with 0x10000 added to it. What the search finds is a match (`IsMatch`), as it compares the bytes
themselves; what the tables hold matters only for the search to end, and to stay in front of the place
that it is for (`Tables.Inserted`).
-/

namespace OlivePiccolo.Lz4hc

/-! ## The code -/

/-- `LZ4_nextToUpdate`, `LZ4_hashTable` and `LZ4_chainTable`. -/
structure Tables where
  nextToUpdate : ℤ
  hashTable : TclArray ℤ
  chainTable : TclArray ℤ

/-- `LZ4HC_init_g`. -/
def lz4hcInit : Tables where
  nextToUpdate := 0x10000
  hashTable i := if 0 ≤ i ∧ i < 32768 then some 0 else none
  chainTable i := if 0 ≤ i ∧ i < 0x10000 then some 0xffff else none

/-- `LZ4HC_hashPtr`. -/
def lz4hcHashPtr (src : Mem) (ptr : ℤ) : Access ℤ :=
  (lz4Read32 src ptr).map fun v => ((v * 2654435761) >>> 17 &&& 32767 : ℕ)

/-- `& 0xffff`. -/
def low16 (i : ℤ) : ℤ := i % 0x10000

/-- A round of the loop of `LZ4HC_Insert_g`. -/
def insertRound (src : Mem) (target : ℤ) (s : ℤ × Tables) : Access (Round (ℤ × Tables) Tables) :=
  let (idx, t) := s
  if idx < target then do
    let h ← lz4hcHashPtr src (idx - 0x10000)
    let last ← t.hashTable h
    let delta := idx - last
    let delta := if 0xffff < delta then 0xffff else delta
    return .again (idx + 1, { t with
      chainTable := Function.update t.chainTable (low16 idx) (some delta)
      hashTable := Function.update t.hashTable h (some idx) })
  else return .done { t with nextToUpdate := target }

/-- `LZ4HC_Insert_g`. -/
def lz4hcInsert (src : Mem) (t : Tables) (ip : ℤ) : Access Tables :=
  let target := ip + 0x10000
  loop (insertRound src target) ((target - t.nextToUpdate).toNat + 1) (t.nextToUpdate, t)

/-- `lowLimit`. -/
def lowLimit (ip : ℤ) : ℤ := if ip < 0x10000 then 0x10000 else ip + 1

/-- Where `LZ4HC_InsertAndFindBestMatch_g` stands. -/
structure Finding where
  matchIndex : ℤ
  nbAttempts : ℕ
  ml : ℤ
  matchpos : ℤ

/-- `[ LZ4_read32 $Pmatch ] == [ LZ4_read32 $Pip ]`. -/
def sameFour (src : Mem) (pmatch ip : ℤ) : Access Bool := do
  let vm ← lz4Read32 src pmatch
  let v ← lz4Read32 src ip
  return vm = v

/-- The test for a place: the byte behind the best match so far, and the first four bytes. -/
def findTest (src : Mem) (pmatch ip ml : ℤ) : Access Bool := do
  let bm ← lz4Read8o src pmatch ml
  let b ← lz4Read8o src ip ml
  andAlso (bm = b) (sameFour src pmatch ip)

/-- What `LZ4HC_InsertAndFindBestMatch_g` does with a place: the length and the place of the best match
so far. -/
def findAt (src : Mem) (ip iLimit : ℤ) (s : Finding) : Access (ℤ × ℤ) :=
  let pmatch := s.matchIndex - 0x10000
  if 0x10000 ≤ s.matchIndex then do
    let same ← findTest src pmatch ip s.ml
    if same then
      let c ← lz4Count src (ip + 4) (pmatch + 4) iLimit
      let mlt := c + 4
      return if s.ml < mlt then (mlt, pmatch) else (s.ml, s.matchpos)
    else return (s.ml, s.matchpos)
  else do
    let same ← sameFour src pmatch ip
    if same then
      let vLimit := ip + (0x10000 - s.matchIndex)
      let vLimit := if iLimit < vLimit then iLimit else vLimit
      let c ← lz4Count src (ip + 4) (pmatch + 4) vLimit
      let mlt := c + 4
      return if s.ml < mlt then (mlt, s.matchIndex - 0x10000) else (s.ml, s.matchpos)
    else return (s.ml, s.matchpos)

/-- A round of the loop of `LZ4HC_InsertAndFindBestMatch_g`. -/
def findRound (src : Mem) (t : Tables) (ip iLimit : ℤ) (s : Finding) :
    Access (Round Finding (ℤ × ℤ)) :=
  if lowLimit ip ≤ s.matchIndex ∧ s.nbAttempts ≠ 0 then do
    let (ml, matchpos) ← findAt src ip iLimit s
    let delta ← t.chainTable (low16 s.matchIndex)
    return .again ⟨s.matchIndex - delta, s.nbAttempts - 1, ml, matchpos⟩
  else return .done (s.ml, s.matchpos)

/-- `LZ4HC_InsertAndFindBestMatch_g`: the tables, the length and the place of the match. -/
def lz4hcInsertAndFindBestMatch (src : Mem) (t : Tables) (ip iLimit matchpos : ℤ)
    (maxNbAttempts : ℕ) : Access (Tables × ℤ × ℤ) := do
  let t ← lz4hcInsert src t ip
  let h ← lz4hcHashPtr src ip
  let matchIndex ← t.hashTable h
  let r ← loop (findRound src t ip iLimit) (maxNbAttempts + 1)
    ⟨matchIndex, maxNbAttempts, 0, matchpos⟩
  return (t, r)

/-- A match: `start` and `ref` are the same for `ml` bytes. -/
structure Triple where
  start : ℤ
  ref : ℤ
  ml : ℤ
  deriving DecidableEq, Repr

/-- Where `LZ4HC_InsertAndGetWiderMatch_g` stands: `longest` is `best.ml`. -/
structure Widening where
  matchIndex : ℤ
  nbAttempts : ℕ
  best : Triple

/-- The test for going back. -/
def backTest (src : Mem) (ip matchPtr iLowLimit low back : ℤ) : Access Bool :=
  andAlso (iLowLimit < ip + back) (andAlso (low < matchPtr + back) do
    let b ← lz4Read8 src (ip + back - 1)
    let bm ← lz4Read8 src (matchPtr + back - 1)
    return b = bm)

/-- A round of the loop that goes back. -/
def backRound (src : Mem) (ip matchPtr iLowLimit low back : ℤ) : Access (Round ℤ ℤ) := do
  let same ← backTest src ip matchPtr iLowLimit low back
  return if same then .again (back - 1) else .done back

/-- How far the match goes back, as a number that is not positive. -/
def goBack (src : Mem) (ip matchPtr iLowLimit low : ℤ) : Access ℤ :=
  loop (backRound src ip matchPtr iLowLimit low) ((ip - iLowLimit).toNat + 1) 0

/-- The test for a place: the byte behind the best match so far, and the first four bytes. -/
def widenTest (src : Mem) (matchPtr ip iLowLimit longest : ℤ) : Access Bool := do
  let b ← lz4Read8o src iLowLimit longest
  let bm ← lz4Read8 src (matchPtr - (ip - iLowLimit) + longest)
  andAlso (b = bm) (sameFour src matchPtr ip)

/-- What `LZ4HC_InsertAndGetWiderMatch_g` does with a place: the best match so far. -/
def widenAt (src : Mem) (ip iLowLimit iHighLimit : ℤ) (s : Widening) : Access Triple :=
  let matchPtr := s.matchIndex - 0x10000
  if 0x10000 ≤ s.matchIndex then do
    let same ← widenTest src matchPtr ip iLowLimit s.best.ml
    if same then
      let c ← lz4Count src (ip + 4) (matchPtr + 4) iHighLimit
      let back ← goBack src ip matchPtr iLowLimit 0
      let mlt := 4 + c - back
      return if s.best.ml < mlt then ⟨ip + back, matchPtr + back, mlt⟩ else s.best
    else return s.best
  else do
    let same ← sameFour src matchPtr ip
    if same then
      let vLimit := ip + 0x10000 - s.matchIndex
      let vLimit := if iHighLimit < vLimit then iHighLimit else vLimit
      let c ← lz4Count src (ip + 4) (matchPtr + 4) vLimit
      let mlt := c + 4
      let more ←
        (if ip + mlt = vLimit ∧ vLimit < iHighLimit then lz4Count src (ip + mlt) 0 iHighLimit
        else some 0)
      -- `matchIndex + back > lowLimit`
      let back ← goBack src ip matchPtr iLowLimit (lowLimit ip - 0x10000)
      let mlt := mlt + more - back
      return if s.best.ml < mlt then ⟨ip + back, s.matchIndex - 0x10000 + back, mlt⟩ else s.best
    else return s.best

/-- A round of the loop of `LZ4HC_InsertAndGetWiderMatch_g`. -/
def widenRound (src : Mem) (t : Tables) (ip iLowLimit iHighLimit : ℤ) (s : Widening) :
    Access (Round Widening Triple) :=
  if lowLimit ip ≤ s.matchIndex ∧ s.nbAttempts ≠ 0 then do
    let best ← widenAt src ip iLowLimit iHighLimit s
    let delta ← t.chainTable (low16 s.matchIndex)
    return .again ⟨s.matchIndex - delta, s.nbAttempts - 1, best⟩
  else return .done s.best

/-- `LZ4HC_InsertAndGetWiderMatch_g`: the tables, and the match with its length. The start and the
place of `best` are what is in the variables of the caller; its length is `longest`. -/
def lz4hcInsertAndGetWiderMatch (src : Mem) (t : Tables) (ip iLowLimit iHighLimit : ℤ)
    (best : Triple) (maxNbAttempts : ℕ) : Access (Tables × Triple) := do
  let t ← lz4hcInsert src t ip
  let h ← lz4hcHashPtr src ip
  let matchIndex ← t.hashTable h
  let r ← loop (widenRound src t ip iLowLimit iHighLimit) (maxNbAttempts + 1)
    ⟨matchIndex, maxNbAttempts, best⟩
  return (t, r)

/-! ## The tables -/

/-- The tables hold places in front of `next` only, and chains go back. -/
structure Tables.Below (t : Tables) (next : ℤ) : Prop where
  hash : ∀ h, 0 ≤ h → h < 32768 → ∃ v, t.hashTable h = some v ∧ v < next
  chain : ∀ i, 0 ≤ i → i < 0x10000 → ∃ d, t.chainTable i = some d ∧ 0 ≤ d

/-- All places in front of `ip` have been inserted, and no other ones. -/
structure Tables.Inserted (t : Tables) (ip : ℤ) : Prop where
  nonneg : 0 ≤ ip
  next_eq : t.nextToUpdate = ip + 0x10000
  below : t.Below (ip + 0x10000)

section Tables

variable {src : Mem} {t : Tables} {ip ip' p : ℤ}

theorem inserted_init : lz4hcInit.Inserted 0 := by
  refine ⟨le_rfl, rfl, fun h h0 hlt => ⟨0, if_pos ⟨h0, hlt⟩, by decide⟩, fun i h0 hlt =>
    ⟨0xffff, if_pos ⟨h0, hlt⟩, by decide⟩⟩

theorem low16_nonneg (i : ℤ) : 0 ≤ low16 i := Int.emod_nonneg i (by decide)

theorem low16_lt (i : ℤ) : low16 i < 0x10000 := Int.emod_lt_of_pos i (by decide)

theorem lz4hcHashPtr_spec (hp : 0 ≤ p) (hlt : p < src.length) :
    Ensures (lz4hcHashPtr src p) fun h => 0 ≤ h ∧ h < 32768 := by
  obtain ⟨v, hv⟩ := read32_isSome src p hp hlt
  rw [lz4hcHashPtr, hv]
  refine .pure ⟨Int.natCast_nonneg _, ?_⟩
  have hle : (v * 2654435761) >>> 17 &&& 32767 ≤ 32767 := Nat.and_le_right
  show (((v * 2654435761) >>> 17 &&& 32767 : ℕ) : ℤ) < 32768
  omega

theorem Tables.Below.insert (h : t.Below p) {delta h' : ℤ} (hdelta : 0 ≤ delta) :
    Tables.Below { t with
      chainTable := Function.update t.chainTable (low16 p) (some delta)
      hashTable := Function.update t.hashTable h' (some p) } (p + 1) := by
  constructor
  · intro i h0 hlt
    by_cases hi : i = h'
    · subst hi
      exact ⟨p, Function.update_self _ _ _, lt_add_one p⟩
    · obtain ⟨v, hv, hvp⟩ := h.hash i h0 hlt
      exact ⟨v, (Function.update_of_ne hi _ _).trans hv, hvp.trans (lt_add_one p)⟩
  · intro i h0 hlt
    by_cases hi : i = low16 p
    · subst hi
      exact ⟨delta, Function.update_self _ _ _, hdelta⟩
    · obtain ⟨d, hd, hd0⟩ := h.chain i h0 hlt
      exact ⟨d, (Function.update_of_ne hi _ _).trans hd, hd0⟩

theorem lz4hcInsert_spec (h : t.Inserted ip') (hle : ip' ≤ ip) (hlen : ip ≤ src.length) :
    Ensures (lz4hcInsert src t ip) fun t' => t'.Inserted ip := by
  have h0 := h.nonneg
  have hnext := h.next_eq
  refine Ensures.loop (I := fun s => 0x10000 ≤ s.1 ∧ s.1 ≤ ip + 0x10000 ∧ s.2.Below s.1)
    (m := fun s => (ip + 0x10000 - s.1).toNat) (fun s hs => ?_)
    ⟨by omega, by omega, by rw [hnext]; exact h.below⟩ (Nat.lt_succ_self _)
  obtain ⟨idx, t⟩ := s
  obtain ⟨hlow, hhigh, hbelow⟩ : 0x10000 ≤ idx ∧ idx ≤ ip + 0x10000 ∧ t.Below idx := hs
  refine .ite (fun hlt => ?_) fun hge => .pure ?_
  · refine (lz4hcHashPtr_spec (by omega) (by omega)).bind fun hash hhash => ?_
    obtain ⟨v, hv, hvlt⟩ := hbelow.hash hash hhash.1 hhash.2
    refine .bind_of_eq hv (.pure ⟨⟨?_, ?_, hbelow.insert ?_⟩, ?_⟩)
    · show 0x10000 ≤ idx + 1
      omega
    · show idx + 1 ≤ ip + 0x10000
      omega
    · split_ifs <;> omega
    · show (ip + 0x10000 - (idx + 1)).toNat < (ip + 0x10000 - idx).toNat
      omega
  · obtain rfl : idx = ip + 0x10000 := by omega
    exact ⟨h0.trans hle, rfl, hbelow.hash, hbelow.chain⟩

theorem Tables.Inserted.first (h : t.Inserted ip) (src : Mem) (hlt : ip < src.length) :
    ∃ hash i, lz4hcHashPtr src ip = some hash ∧ t.hashTable hash = some i ∧ i < ip + 0x10000 := by
  obtain ⟨hash, hhash, hpos, hlt⟩ := lz4hcHashPtr_spec h.nonneg hlt
  obtain ⟨i, hi, hlt⟩ := h.below.hash hash hpos hlt
  exact ⟨hash, i, hhash, hi, hlt⟩

/-- The next place of a chain is not behind. -/
theorem Tables.Inserted.next (h : t.Inserted ip) (i : ℤ) :
    Ensures (t.chainTable (low16 i)) fun d => 0 ≤ d :=
  h.below.chain _ (low16_nonneg i) (low16_lt i)

theorem lowLimit_spec {i : ℤ} (h0 : 0 ≤ ip) (h : lowLimit ip ≤ i) :
    0x10000 ≤ i ∧ ip - (i - 0x10000) ≤ 65535 := by
  rw [lowLimit] at h
  split_ifs at h <;> omega

end Tables

/-! ## Matches -/

/-- The bytes are the same up to the limit, and are found near enough. -/
structure IsMatch (src : Mem) (limit : ℤ) (t : Triple) : Prop where
  ref_nonneg : 0 ≤ t.ref
  ref_lt : t.ref < t.start
  near : t.start - t.ref ≤ 65535
  ends : t.start + t.ml ≤ limit
  same : SameAt src t.ref t.start t.ml

section Find

variable {src : Mem} {t : Tables} {ip iLimit : ℤ}

/-- What `LZ4HC_InsertAndFindBestMatch_g` has found: nothing yet, or a match. -/
def Found (src : Mem) (ip iLimit : ℤ) (r : ℤ × ℤ) : Prop :=
  r.1 = 0 ∨ (4 ≤ r.1 ∧ IsMatch src iLimit ⟨ip, r.2, r.1⟩)

variable (h0 : 0 ≤ ip) (hip : ip + 4 ≤ iLimit) (hlimit : iLimit < src.length)
include h0 hip hlimit

omit h0 hip hlimit in
theorem sameFour_spec {pmatch : ℤ} (hp : 0 ≤ pmatch) (hp' : pmatch < src.length) (h0 : 0 ≤ ip)
    (hlt : ip < src.length) : Ensures (sameFour src pmatch ip) fun same => same = true →
      lz4Read32 src pmatch = lz4Read32 src ip := by
  obtain ⟨vm, hvm⟩ := read32_isSome src pmatch hp hp'
  obtain ⟨v, hv⟩ := read32_isSome src ip h0 hlt
  refine .bind_of_eq hvm (.bind_of_eq hv (.pure fun heq => ?_))
  rw [hvm, hv, of_decide_eq_true heq]

theorem count_spec {ref limit : ℤ} (href : 0 ≤ ref) (hlt : ref < ip)
    (hfour : lz4Read32 src ref = lz4Read32 src ip)
    (hle : ip + 4 ≤ limit) (hle' : limit ≤ iLimit) :
    Ensures (lz4Count src (ip + 4) (ref + 4) limit) fun c =>
      0 ≤ c ∧ ip + 4 + c ≤ limit ∧ SameAt src ref ip (4 + c) := by
  refine (lz4Count_spec (by omega) (by omega) (by omega) hle).mono fun c hc => ?_
  exact ⟨hc.1, hc.2.1,
    (sameAt_of_read32 href (by omega) h0 (by omega) hfour).append hc.2.2⟩

theorem findAt_spec {s : Finding} (hlow : lowLimit ip ≤ s.matchIndex)
    (hhigh : s.matchIndex < ip + 0x10000) (hs : Found src ip iLimit (s.ml, s.matchpos)) :
    Ensures (findAt src ip iLimit s) (Found src ip iLimit) := by
  obtain ⟨hindex, hnear⟩ := lowLimit_spec h0 hlow
  have hml : 0 ≤ s.ml ∧ ip + s.ml < src.length := by
    rcases hs with hzero | ⟨hml, hmatch⟩
    · have hzero : s.ml = 0 := hzero
      omega
    · have hends : ip + s.ml ≤ iLimit := hmatch.ends
      have hml : 4 ≤ s.ml := hml
      omega
  rw [findAt]
  refine .ite (fun _ => ?_) fun hnot => absurd hindex hnot
  obtain ⟨bm, hbm⟩ := Mem.exists_peek (m := src) (p := s.matchIndex - 0x10000 + s.ml) (by omega)
    (by omega)
  obtain ⟨b, hb⟩ := Mem.exists_peek (m := src) (p := ip + s.ml) (by omega) hml.2
  have htest : Ensures (findTest src (s.matchIndex - 0x10000) ip s.ml) fun same => same = true →
      lz4Read32 src (s.matchIndex - 0x10000) = lz4Read32 src ip :=
    .bind_of_eq hbm (.bind_of_eq hb (.ite (fun _ => sameFour_spec (by omega) (by omega) (by omega)
      (by omega)) fun _ => .pure nofun))
  refine htest.bind fun same heq => .ite (fun htrue => ?_) fun _ => .pure hs
  have hfour := heq htrue
  refine (count_spec h0 hip hlimit (by omega) (by omega) hfour hip le_rfl).bind fun c hc => .pure ?_
  split_ifs
  · refine .inr ⟨by show 4 ≤ c + 4; omega, by show 0 ≤ s.matchIndex - 0x10000; omega,
      by show s.matchIndex - 0x10000 < ip; omega, hnear, by show ip + (c + 4) ≤ iLimit; omega, ?_⟩
    show SameAt src _ ip (c + 4)
    rw [add_comm c]
    exact hc.2.2
  · exact hs

/-- **`LZ4HC_InsertAndFindBestMatch_g`** finds a match, or nothing. -/
theorem lz4hcInsertAndFindBestMatch_spec {p : ℤ} (ht : t.Inserted p) (hp : p ≤ ip) (matchpos : ℤ)
    (maxNbAttempts : ℕ) :
    Ensures (lz4hcInsertAndFindBestMatch src t ip iLimit matchpos maxNbAttempts) fun r =>
      r.1.Inserted ip ∧ Found src ip iLimit r.2 := by
  refine (lz4hcInsert_spec ht hp (by omega)).bind fun t ht => ?_
  obtain ⟨hash, i, hhash, hi, hlt⟩ := ht.first src (by omega)
  have hloop : Ensures (loop (findRound src t ip iLimit) (maxNbAttempts + 1)
      ⟨i, maxNbAttempts, 0, matchpos⟩) (Found src ip iLimit) := by
    refine Ensures.loop (I := fun s => s.matchIndex < ip + 0x10000 ∧
      Found src ip iLimit (s.ml, s.matchpos)) (m := Finding.nbAttempts) (fun s hs => ?_)
      ⟨hlt, .inl rfl⟩ (Nat.lt_succ_self _)
    refine .ite (fun hgo => ?_) fun _ => .pure hs.2
    refine (findAt_spec h0 hip hlimit hgo.1 hs.1 hs.2).bind fun r hr => ?_
    refine (ht.next s.matchIndex).bind fun delta hdelta => .pure ⟨⟨?_, hr⟩, ?_⟩
    · have hhigh := hs.1
      show s.matchIndex - delta < ip + 0x10000
      omega
    · exact Nat.sub_one_lt hgo.2
  exact .bind_of_eq hhash (.bind_of_eq hi (hloop.bind fun r hr => .pure ⟨ht, hr⟩))

end Find

/-! ## Wider matches -/

section Widen

variable {src : Mem} {t : Tables} {ip iLowLimit iHighLimit : ℤ} {best : Triple}

theorem backTest_spec {matchPtr low back : ℤ} (h0 : 0 ≤ iLowLimit) (hlen : ip + back ≤ src.length)
    (hlow : 0 ≤ low) (hmatch : matchPtr < ip) :
    Ensures (backTest src ip matchPtr iLowLimit low back) fun same => same = true →
      iLowLimit < ip + back ∧ low < matchPtr + back ∧
        src.peek (matchPtr + back - 1) = src.peek (ip + back - 1) := by
  refine .ite (fun hc => .ite (fun hc' => ?_) fun _ => .pure nofun) fun _ => .pure nofun
  have hc : iLowLimit < ip + back := of_decide_eq_true hc
  have hc' : low < matchPtr + back := of_decide_eq_true hc'
  obtain ⟨b, hb⟩ := Mem.exists_peek (m := src) (p := ip + back - 1) (by omega) (by omega)
  obtain ⟨bm, hbm⟩ := Mem.exists_peek (m := src) (p := matchPtr + back - 1) (by omega) (by omega)
  refine .bind_of_eq hb (.bind_of_eq hbm (.pure fun heq => ⟨hc, hc', ?_⟩))
  rw [hb, hbm, of_decide_eq_true heq]

theorem goBack_spec {matchPtr low : ℤ} (h0 : 0 ≤ iLowLimit) (hle : iLowLimit ≤ ip)
    (hlen : ip ≤ src.length) (hlow : 0 ≤ low) (hmatch : low ≤ matchPtr) (hlt : matchPtr < ip) :
    Ensures (goBack src ip matchPtr iLowLimit low) fun back => back ≤ 0 ∧ iLowLimit ≤ ip + back ∧
      low ≤ matchPtr + back ∧ SameAt src (matchPtr + back) (ip + back) (-back) := by
  refine Ensures.loop (I := fun back => back ≤ 0 ∧ iLowLimit ≤ ip + back ∧ low ≤ matchPtr + back ∧
    SameAt src (matchPtr + back) (ip + back) (-back)) (m := fun back => (ip + back - iLowLimit).toNat)
    (fun back hback => ?_) ⟨le_rfl, by omega, by omega, .nil src _ _⟩ (by omega)
  obtain ⟨hneg, hpos, hpos', hsame⟩ := hback
  refine (backTest_spec h0 (by omega) hlow hlt).bind fun same htest => .pure ?_
  split_ifs with htrue
  · obtain ⟨hmore, hmore', hbyte⟩ := htest htrue
    refine ⟨⟨by omega, by omega, by omega, ?_⟩,
      by show (ip + (back - 1) - iLowLimit).toNat < (ip + back - iLowLimit).toNat; omega⟩
    have hone : SameAt src (matchPtr + back - 1) (ip + back - 1) (1 + -back) :=
      (SameAt.single hbyte).append (by rwa [sub_add_cancel, sub_add_cancel])
    rwa [show 1 + -back = -(back - 1) by omega, add_sub_assoc, add_sub_assoc] at hone
  · exact ⟨hneg, hpos, hpos', hsame⟩

/-- The best match so far is a longer one than at the start, or none has been found. -/
def Wider (src : Mem) (ip iLowLimit iHighLimit : ℤ) (best best' : Triple) : Prop :=
  best' = best ∨ (best.ml < best'.ml ∧ iLowLimit ≤ best'.start ∧ best'.start ≤ ip ∧
    IsMatch src iHighLimit best')

variable (h0 : 0 ≤ iLowLimit) (hle : iLowLimit ≤ ip) (hip : ip + 4 ≤ iHighLimit)
  (hlimit : iHighLimit < src.length) (hbest : ip - iLowLimit ≤ best.ml)
  (hbest' : iLowLimit + best.ml < src.length)
include h0 hle hip hlimit hbest hbest'

theorem widenAt_spec {s : Widening} (hlow : lowLimit ip ≤ s.matchIndex)
    (hhigh : s.matchIndex < ip + 0x10000)
    (hs : Wider src ip iLowLimit iHighLimit best s.best) :
    Ensures (widenAt src ip iLowLimit iHighLimit s)
      (Wider src ip iLowLimit iHighLimit best) := by
  obtain ⟨hindex, hnear⟩ := lowLimit_spec (h0.trans hle) hlow
  have hml : ip - iLowLimit ≤ s.best.ml ∧ iLowLimit + s.best.ml < src.length ∧
      best.ml ≤ s.best.ml := by
    rcases hs with heq | ⟨hlt, hstart, -, hmatch⟩
    · rw [heq]
      exact ⟨hbest, hbest', le_rfl⟩
    · have hends := hmatch.ends
      omega
  obtain ⟨hml, hml', hml''⟩ := hml
  rw [widenAt]
  refine .ite (fun _ => ?_) fun hnot => absurd hindex hnot
  obtain ⟨b, hb⟩ := Mem.exists_peek (m := src) (p := iLowLimit + s.best.ml) (by omega) hml'
  obtain ⟨bm, hbm⟩ := Mem.exists_peek (m := src)
    (p := s.matchIndex - 0x10000 - (ip - iLowLimit) + s.best.ml) (by omega) (by omega)
  have htest : Ensures (widenTest src (s.matchIndex - 0x10000) ip iLowLimit s.best.ml) fun same =>
      same = true → lz4Read32 src (s.matchIndex - 0x10000) = lz4Read32 src ip :=
    .bind_of_eq hb (.bind_of_eq hbm (.ite (fun _ => sameFour_spec (by omega) (by omega) (by omega)
      (by omega)) fun _ => .pure nofun))
  refine htest.bind fun same heq => .ite (fun htrue => ?_) fun _ => .pure hs
  refine (count_spec (by omega) hip hlimit (by omega) (by omega) (heq htrue) hip le_rfl).bind
    fun c hc => ?_
  refine (goBack_spec h0 hle (by omega) le_rfl (by omega) (by omega)).bind
    fun back hback => .pure ?_
  obtain ⟨hc0, hends, hsame⟩ := hc
  obtain ⟨hneg, hstart, href, hfront⟩ := hback
  split_ifs with hlonger
  · refine .inr ⟨hml''.trans_lt hlonger, hstart, by show ip + back ≤ ip; omega, href,
      by show s.matchIndex - 0x10000 + back < ip + back; omega,
      by show ip + back - (s.matchIndex - 0x10000 + back) ≤ 65535; omega,
      by show ip + back + (4 + c - back) ≤ iHighLimit; omega, ?_⟩
    have hall : SameAt src (s.matchIndex - 0x10000 + back) (ip + back) (-back + (4 + c)) :=
      hfront.append (by rwa [add_neg_cancel_right, add_neg_cancel_right])
    show SameAt src _ (ip + back) (4 + c - back)
    rwa [show 4 + c - back = -back + (4 + c) by omega]
  · exact hs

/-- **`LZ4HC_InsertAndGetWiderMatch_g`** finds a longer match, or leaves the best one as it is. -/
theorem lz4hcInsertAndGetWiderMatch_spec {p : ℤ} (ht : t.Inserted p) (hp : p ≤ ip)
    (maxNbAttempts : ℕ) : Ensures
      (lz4hcInsertAndGetWiderMatch src t ip iLowLimit iHighLimit best maxNbAttempts) fun r =>
        r.1.Inserted ip ∧ Wider src ip iLowLimit iHighLimit best r.2 := by
  refine (lz4hcInsert_spec ht hp (by omega)).bind fun t ht => ?_
  obtain ⟨hash, i, hhash, hi, hlt⟩ := ht.first src (by omega)
  have hloop : Ensures (loop (widenRound src t ip iLowLimit iHighLimit) (maxNbAttempts + 1)
      ⟨i, maxNbAttempts, best⟩) (Wider src ip iLowLimit iHighLimit best) := by
    refine Ensures.loop (I := fun s => s.matchIndex < ip + 0x10000 ∧
      Wider src ip iLowLimit iHighLimit best s.best) (m := Widening.nbAttempts) (fun s hs => ?_)
      ⟨hlt, .inl rfl⟩ (Nat.lt_succ_self _)
    refine .ite (fun hgo => ?_) fun _ => .pure hs.2
    refine (widenAt_spec h0 hle hip hlimit hbest hbest' hgo.1 hs.1 hs.2).bind fun r hr => ?_
    refine (ht.next s.matchIndex).bind fun delta hdelta => .pure ⟨⟨?_, hr⟩, ?_⟩
    · have hhigh := hs.1
      show s.matchIndex - delta < ip + 0x10000
      omega
    · exact Nat.sub_one_lt hgo.2
  exact .bind_of_eq hhash (.bind_of_eq hi (hloop.bind fun r hr => .pure ⟨ht, hr⟩))

end Widen

end OlivePiccolo.Lz4hc
