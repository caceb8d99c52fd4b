import OlivePiccolo.Bson.Containment

/-!
# Reading malformed documents

A memory of arbitrary bytes that starts with the number of them. The search and the getters keep to
it, but for the four bytes of a number: `measure_value`, `bson_get_string`, `bson_get_binary` and
`bson_get_int32` read it where the value begins, and check only that the value begins in front of the
end. With a value in the last three bytes the number goes on behind them (`read_inside_iff`).
-/

namespace OlivePiccolo.Bson

/-- What all the getters hand on for an offset. -/
structure AllHanded (d : Mem) (off : ℤ) : Prop extends Handed d off where
  boolean : ∀ defaultValue, ∃ v, bsonGetBoolean (some d) off defaultValue = some v
  subdocument : ∃ r, bsonGetSubdocument (some d) off = some r

/-- `bson_get_props` for these keys, and the getters at the offsets that it has stored, read inside
only. -/
def ReadInside (d : Mem) (keys : Keys) : Prop :=
  ∃ r keys', bsonGetProps d keys = some (r, keys') ∧ ∀ k ∈ keys', AllHanded d k.2

/-- Of every element that the search comes to, the number that its value begins with is inside, if it
is read: by `measure_value`, unless it was the last key, or by the getter of its type, if its offset
is stored. -/
def NumbersInside (d : Mem) (keys : Keys) : Prop :=
  4 < d.length → d.peek (d.length - 1) = some 0 → ∀ pos scanned keys' type name value,
    Searched d d.length keys.length (keys.map fun k => (k.1, -1)) pos scanned keys' →
      HeadAt d d.length pos type name value →
        (startsWithLength type = true ∧
            ¬ ((assignFirst name pos keys').isSome ∧ scanned + 1 = keys.length)) ∨
          (readsNumber type = true ∧ (assignFirst name pos keys').isSome) →
        value + 4 ≤ d.length

section

variable {d : Mem} {keys : Keys} {fin off : ℤ}

/-- `bson_get_boolean` and `bson_get_subdocument` need no number. -/
theorem Handed.all (h : Handed d off)
    (hseek : ∀ type1 type2, ∃ r, seekData (some d) off type1 type2 = some r ∧
      ∀ value fin, r = some (value, fin) → 0 ≤ value ∧ value < d.length) : AllHanded d off := by
  refine ⟨h, fun defaultValue => ?_, ?_⟩
  · obtain ⟨r, hr, hvalue⟩ := hseek 0x08 0x08
    cases r with
    | none =>
      refine ⟨defaultValue, ?_⟩
      simp only [bsonGetBoolean, hr, Option.bind_eq_bind, Option.bind_some, Option.pure_def]
    | some found =>
      obtain ⟨value, fin⟩ := found
      obtain ⟨hpos, hlt⟩ := hvalue value fin rfl
      obtain ⟨b, hb⟩ := Mem.exists_peek hpos hlt
      refine ⟨if b ≠ 0 then 1 else 0, ?_⟩
      simp only [bsonGetBoolean, hr, hb, Option.bind_eq_bind, Option.bind_some, Option.pure_def]
  · obtain ⟨r, hr, -⟩ := hseek 0x04 0x03
    refine ⟨r.map (·.1), ?_⟩
    simp only [bsonGetSubdocument, hr, Option.bind_eq_bind, Option.bind_some, Option.pure_def]

theorem allHanded_of_none (h : ∀ type1 type2, seekData (some d) off type1 type2 = some none) :
    AllHanded d off :=
  (handed_of_none h).all fun type1 type2 => ⟨none, h type1 type2, nofun⟩

theorem Reported.seekData_some (h : Reported d fin off) (hfin : fin ≤ d.length)
    (hlen : readUnalignedInt d 0 = some fin) (hend : d.peek (fin - 1) = some 0)
    (type1 type2 : UInt8) : ∃ r, seekData (some d) off type1 type2 = some r ∧
      ∀ value fin, r = some (value, fin) → 0 ≤ value ∧ value < d.length := by
  obtain ⟨type, name, value, hvisited, hhead⟩ := h
  have h4 := hvisited.le
  have hgt := hhead.value_gt
  have hlt := hhead.value_lt
  refine ⟨_, hhead.seekData h4 hlen hend type1 type2, fun value' fin' heq => ?_⟩
  split_ifs at heq
  obtain ⟨rfl, rfl⟩ := Prod.mk.inj (Option.some.inj heq)
  omega

/-- An element whose number is inside if its getter reads it. -/
theorem Reported.allHanded (h : Reported d fin off) (hfin : fin ≤ d.length)
    (hlen : readUnalignedInt d 0 = some fin) (hend : d.peek (fin - 1) = some 0)
    (hfits : ∀ type name value, HeadAt d fin off type name value →
      readsNumber type = true → value + 4 ≤ d.length) : AllHanded d off :=
  (h.handed hfin hlen hend hfits).all (h.seekData_some hfin hlen hend)

/-- Two elements at one place are one. -/
theorem HeadAt.unique {pos value value' : ℤ} {type type' : UInt8} {name name' : CString}
    (h : HeadAt d fin pos type name value) (h' : HeadAt d fin pos type' name' value') :
    type = type' ∧ name = name' ∧ value = value' := by
  have htype := h.type_at.symm.trans h'.type_at
  have hvalue := h.skipString.symm.trans h'.skipString
  cases htype
  cases hvalue
  have hlen : name.encode.length = name'.encode.length := by
    have hend := h.value_eq.symm.trans h'.value_eq
    omega
  have hname := h.name_at.readBytes
  rw [hlen, h'.name_at.readBytes] at hname
  exact ⟨rfl, CString.eq_of_encode (Option.some.inj hname).symm, rfl⟩

theorem NumbersInside.readInside (h : NumbersInside d keys)
    (hlen : readUnalignedInt d 0 = some (d.length : ℤ)) : ReadInside d keys := by
  have hlength := readUnalignedInt_isSome.mp
    (show (readUnalignedInt d 0).isSome by rw [hlen]; rfl)
  by_cases hvalid : 4 < d.length ∧ d.peek (d.length - 1) = some 0
  · obtain ⟨h4, hend⟩ := hvalid
    have hinside := h h4 hend
    obtain ⟨r, keys', hscan, -, hkeys⟩ := scanElements_inside (Int.le_refl (d.length : ℤ))
      (fun pos scanned keys' type name value hpos hhead htype hlast =>
        hinside pos scanned keys' type name value hpos hhead (.inl ⟨htype, hlast⟩))
      ((d.length : ℤ) - 4).toNat .first
    refine ⟨r, keys', ?_, fun k hk => ?_⟩
    · rw [bsonGetProps_eq_scan hlen (by omega) hend]
      exact hscan
    rcases hkeys k hk with hk | hfound
    · obtain ⟨k', -, rfl⟩ := List.mem_map.mp hk
      exact allHanded_of_none fun type1 type2 => rfl
    · refine hfound.reported.allHanded (Int.le_refl _) hlen hend ?_
      obtain ⟨scanned, keys'', type, value, hsearched, hopen, hhead⟩ := hfound
      intro type' name' value' hhead' htype'
      obtain ⟨rfl, -, rfl⟩ := hhead.unique hhead'
      obtain ⟨keys1, hassign, -⟩ := assignFirst_of_mem k.2 hopen
      exact hinside _ _ _ _ _ _ hsearched hhead (.inr ⟨htype', by rw [hassign]; rfl⟩)
  · -- without a valid end nothing is stored, and the getters check the end again
    have hbad : 4 < (d.length : ℤ) → ∃ b, d.peek (d.length - 1) = some b ∧ b ≠ 0 := by
      intro h4
      obtain ⟨b, hb⟩ := Mem.exists_peek (m := d) (p := d.length - 1) (by omega) (by omega)
      exact ⟨b, hb, fun hzero => hvalid ⟨by omega, by rw [hb, hzero]⟩⟩
    exact ⟨-1, keys, bsonGetProps_no_end hlen hbad keys, fun k _ =>
      allHanded_of_none (seekData_no_end hlen hbad)⟩

/-- The getter of its type reads the number of an element. -/
theorem Handed.number_inside {type : UInt8} {name : CString} {value : ℤ} (h : Handed d off)
    (hhead : HeadAt d fin off type name value) (h4 : 4 ≤ off)
    (hlen : readUnalignedInt d 0 = some fin) (hend : d.peek (fin - 1) = some 0)
    (htype : readsNumber type = true) : value + 4 ≤ d.length := by
  have hseek := hhead.seekData h4 hlen hend type type
  rw [if_neg fun hne => hne.1 rfl] at hseek
  have hread : ∀ {v : ℤ}, readUnalignedInt d value = some v → value + 4 ≤ d.length := by
    intro v hv
    exact (readUnalignedInt_isSome.mp (by rw [hv]; rfl)).2
  simp only [readsNumber, Bool.or_eq_true, beq_iff_eq] at htype
  rcases htype with (rfl | rfl) | rfl
  · obtain ⟨r, hr, -⟩ := h.string
    simp only [bsonGetString, hseek, Option.bind_eq_bind, Option.bind_some] at hr
    obtain ⟨v, hv, -⟩ := Option.bind_eq_some_iff.mp hr
    exact hread hv
  · obtain ⟨r, hr, -⟩ := h.binary
    simp only [bsonGetBinary, hseek, Option.bind_eq_bind, Option.bind_some] at hr
    obtain ⟨v, hv, -⟩ := Option.bind_eq_some_iff.mp hr
    exact hread hv
  · obtain ⟨v, hv⟩ := h.int32 0
    simp only [bsonGetInt32, hseek, Option.bind_eq_bind, Option.bind_some] at hv
    exact hread hv

theorem assignFirst_stores {pos : ℤ} {name : CString} {keys keys' : Keys}
    (h : assignFirst name pos keys = some keys') : (name, pos) ∈ keys' := by
  induction keys generalizing keys' with
  | nil => cases h
  | cons k keys ih =>
    rw [assignFirst] at h
    split_ifs at h with hopen
    · cases h
      rw [hopen.2]
      exact List.mem_cons_self
    · obtain ⟨keys1, hrest, rfl⟩ := Option.map_eq_some_iff.mp h
      exact List.mem_cons_of_mem _ (ih hrest)

theorem ReadInside.numbersInside (h : ReadInside d keys)
    (hlen : readUnalignedInt d 0 = some (d.length : ℤ)) : NumbersInside d keys := by
  intro h4 hend pos scanned keys1 type name value hsearched hhead hread
  have hgt := hhead.value_gt
  have hlt := hhead.value_lt
  have hpos := hsearched.visited.le
  obtain ⟨r, keys', hprops, hhanded⟩ := h
  rw [bsonGetProps_eq_scan hlen (by omega) hend] at hprops
  obtain ⟨fuel, hscan⟩ := hsearched.scan (by omega) (Nat.le_refl _)
  rw [hscan] at hprops
  rcases hread with ⟨htype, hopen⟩ | ⟨htype, hhit⟩
  · rw [hhead.scanElements, if_neg hopen] at hprops
    obtain ⟨len, hmeasure, -⟩ := Option.bind_eq_some_iff.mp hprops
    exact (measureValue_isSome (by omega) (by omega) (Int.le_refl _)).mp
      (by rw [hmeasure]; rfl) htype
  · obtain ⟨keys2, hassign⟩ := Option.isSome_iff_exists.mp hhit
    have hmem : (name, pos) ∈ keys2 := assignFirst_stores hassign
    have hkeys := hhead.mem_of_scan hassign hmem (Int.le_trans (by decide) hpos) hprops
    exact (hhanded _ hkeys).toHanded.number_inside hhead hpos hlen hend htype

end

/-! ## Lengths that go on behind the end -/

section Behind

variable {d : Mem} {fin pos value p n : ℤ} {type : UInt8} {name : CString}
  {total fuel scanned : ℕ} {keys0 keys keys' : Keys} {r : ℤ}

/-- The bytes of a number. -/
theorem readUnalignedInt_bytes (h : readUnalignedInt d p = some n) :
    ∃ b0 b1 b2 b3, d.peek p = some b0 ∧ d.peek (p + 1) = some b1 ∧ d.peek (p + 2) = some b2 ∧
      d.peek (p + 3) = some b3 ∧ n = toInt32 (leNat [b0, b1, b2, b3]) := by
  obtain ⟨b0, h0, h⟩ := Option.bind_eq_some_iff.mp h
  obtain ⟨b1, h1, h⟩ := Option.bind_eq_some_iff.mp h
  obtain ⟨b2, h2, h⟩ := Option.bind_eq_some_iff.mp h
  obtain ⟨b3, h3, h⟩ := Option.bind_eq_some_iff.mp h
  exact ⟨b0, b1, b2, b3, h0, h1, h2, h3, (Option.some.inj h).symm⟩

/-- The bytes of a small number are zero, but for the first one. -/
theorem peek_of_small (h : readUnalignedInt d p = some n) (h0 : 0 ≤ n) (h3 : n < 3) :
    d.peek (p + n) = some 0 := by
  obtain ⟨b0, b1, b2, b3, hb0, hb1, hb2, hb3, hn⟩ := readUnalignedInt_bytes h
  have hlt : leNat [b0, b1, b2, b3] < 2 ^ 32 := leNat_lt_two_pow_32 rfl
  have hzero {b : UInt8} (hb : b.toNat = 0) : b = 0 := UInt8.toNat_inj.mp hb
  have hsmall : leNat [b0, b1, b2, b3] < 2 ^ 31 := by
    by_contra hbig
    rw [toInt32_of_ge (Nat.le_of_not_lt hbig) hlt] at hn
    omega
  rw [toInt32_of_lt hsmall] at hn
  subst hn
  have hsum : leNat [b0, b1, b2, b3] =
      b0.toNat + 256 * (b1.toNat + 256 * (b2.toNat + 256 * (b3.toNat + 256 * 0))) := rfl
  generalize leNat [b0, b1, b2, b3] = v at h3 hsum ⊢
  obtain rfl := hzero (show b1.toNat = 0 by omega)
  obtain rfl := hzero (show b2.toNat = 0 by omega)
  obtain rfl | rfl | rfl : v = 0 ∨ v = 1 ∨ v = 2 := by omega
  · obtain rfl := hzero (show b0.toNat = 0 by omega)
    rwa [Nat.cast_zero, add_zero]
  · exact hb1
  · exact hb2

/-- The size of a value that starts with a length, unless `int` is too small for it. -/
theorem measured_cases {skip : ℕ} (hn : n < 2 ^ 31) (hskip : skip ≤ 16) :
    Bson.measured n skip < 0 ∨ 0 ≤ n ∧ Bson.measured n skip = n + skip := by
  unfold Bson.measured
  split_ifs with hneg
  · exact .inl (by decide)
  · by_cases hbig : n + skip < 2 ^ 31
    · exact .inr ⟨by omega, by rw [Int.bmod_eq_of_le] <;> omega⟩
    · obtain ⟨v, rfl⟩ := Int.eq_ofNat_of_zero_le (Int.not_lt.mp hneg)
      have hge : toInt32 (v + skip) = _ :=
        toInt32_of_ge (show 2 ^ 31 ≤ v + skip by omega) (by omega)
      left
      rw [← Nat.cast_add]
      exact Int.lt_of_le_of_lt (Int.le_of_eq hge) (by omega)

/-- The search in a larger memory. -/
theorem Searched.append
    (h : Searched d fin total keys0 pos scanned keys) (back : Mem) :
    Searched (d ++ back) fin total keys0 pos scanned keys := by
  induction h with
  | first => exact .first
  | next _ hhead hopen hsize hnonneg ih =>
    exact .next ih (hhead.append back) hopen (measureValue_stable _ _ _ _ _ _ hsize) hnonneg

/-- Nothing is stored while no key has been found. -/
theorem Searched.keys_eq (h : Searched d fin total keys0 pos scanned keys) (hnone : scanned = 0) :
    keys = keys0 := by
  induction h with
  | first => rfl
  | @next pos scanned keys type name value size _ _ _ _ _ ih =>
    by_cases hit : (assignFirst name pos keys).isSome
    · rw [if_pos hit] at hnone
      omega
    · rw [if_neg hit] at hnone
      rw [Option.not_isSome_iff_eq_none.mp hit]
      exact ih hnone

/-- The elements whose offsets have been stored have been measured. -/
theorem Searched.measured (h : Searched d fin total keys0 pos scanned keys) :
    ∀ k ∈ keys, k ∈ keys0 ∨ ∃ type value size, HeadAt d fin k.2 type k.1 value ∧ 4 ≤ k.2 ∧
      measureValue d type value fin = some size ∧ 0 ≤ size ∧ value + size ≤ pos := by
  induction h with
  | first => exact fun _ => .inl
  | @next pos scanned keys type name value size hsearched hhead _ hsize hnonneg ih =>
    have hgt := hhead.value_gt
    have hold (k : CString × ℤ) (hk : k ∈ keys) : k ∈ keys0 ∨ ∃ type value' size',
        HeadAt d fin k.2 type k.1 value' ∧ 4 ≤ k.2 ∧
          measureValue d type value' fin = some size' ∧ 0 ≤ size' ∧
            value' + size' ≤ value + size := by
      rcases ih k hk with hk | ⟨type', value', size', hhead', h4, hsize', hnonneg', hle⟩
      · exact .inl hk
      · exact .inr ⟨type', value', size', hhead', h4, hsize', hnonneg', by omega⟩
    intro k hk
    cases hassign : assignFirst name pos keys with
    | none =>
      rw [hassign] at hk
      exact hold k hk
    | some keys1 =>
      rw [hassign] at hk
      rcases assignFirst_mem hassign hk with hk | ⟨rfl, -⟩
      · exact hold k hk
      · exact .inr ⟨type, value, size, hhead, hsearched.visited.le, hsize, hnonneg, Int.le_refl _⟩

/-- Behind an element whose length goes on behind the end, the search ends. -/
theorem HeadAt.scan_behind (h : HeadAt d fin pos type name value)
    (htype : startsWithLength type = true) (hout : fin < value + 4)
    (hopen : ¬ ((assignFirst name pos keys).isSome ∧ scanned + 1 = total))
    (hscan : Bson.scanElements d fin total (fuel + 1) pos scanned keys = some (r, keys')) :
    ∃ len, measureValue d type value fin = some len ∧
      keys' = (assignFirst name pos keys).getD keys ∧
      r = if len < 0 then -1 else
        ((if (assignFirst name pos keys).isSome then scanned + 1 else scanned : ℕ) : ℤ) := by
  rw [h.scanElements, if_neg hopen] at hscan
  obtain ⟨len, hlen, hscan⟩ := Option.bind_eq_some_iff.mp hscan
  refine ⟨len, hlen, ?_⟩
  by_cases hneg : len < 0
  · rw [if_pos hneg] at hscan
    cases hscan
    exact ⟨rfl, (if_pos hneg).symm⟩
  · rw [if_neg hneg] at hscan
    rw [if_neg hneg]
    cases fuel with
    | zero =>
      cases hscan
      exact ⟨rfl, rfl⟩
    | succ fuel =>
      rw [Bson.scanElements] at hscan
      by_cases hlt : value + len < fin
      · -- a document of less than three bytes, whose last ones are zero
        obtain ⟨skip, hskip, hle, hmeasure⟩ := measureValue_length htype
        rw [hmeasure] at hlen
        obtain ⟨n, hn, rfl⟩ := Option.map_eq_some_iff.mp hlen
        rcases measured_cases (readUnalignedInt_lt hn) hle with hbad | ⟨hn0, hsize⟩
        · exact absurd hbad hneg
        · obtain rfl : skip = 0 := by omega
          rw [hsize, Nat.cast_zero, add_zero] at hscan hlt
          have hzero := peek_of_small hn hn0 (by omega)
          simp only [if_pos hlt, hzero, if_true, Option.bind_eq_bind, Option.bind_some,
            Option.pure_def] at hscan
          cases hscan
          exact ⟨rfl, rfl⟩
      · rw [if_neg hlt] at hscan
        cases hscan
        exact ⟨rfl, rfl⟩

end Behind

/-- **Malformed documents.** Whatever the bytes are, the search for keys and the getters read inside
if and only if the numbers do not go on behind the end. -/
theorem read_inside_iff (d : Mem) (keys : Keys)
    (hlen : readUnalignedInt d 0 = some (d.length : ℤ)) :
    ReadInside d keys ↔ NumbersInside d keys :=
  ⟨fun h => h.numbersInside hlen, fun h => h.readInside hlen⟩

/-- A number, and a string that is said to be longer than the document. -/
def overlong : Mem :=
  encodeBody (encodeElements [.mk nameA (.int32 7)] ++ 0x02 :: (nameB.encode ++ leBytes 4 100) ++
    encodeElements [.mk nameC .null])

theorem overlong_heads :
    HeadAt overlong 22 4 0x10 nameA 7 ∧ HeadAt overlong 22 11 0x02 nameB 14 := by
  have hnames : overlong.readBytes (4 + 1) 2 = some nameA.encode ∧
      overlong.readBytes (11 + 1) 2 = some nameB.encode := by decide
  exact ⟨⟨by decide, by decide, (Mem.hasAt_of_readBytes hnames.1).2, rfl, by decide⟩,
    ⟨by decide, by decide, (Mem.hasAt_of_readBytes hnames.2).2, rfl, by decide⟩⟩

/-- The search never comes to the third element. -/
theorem overlong_visited {pos : ℤ} (h : Visited overlong 22 pos) :
    pos = 4 ∨ pos = 11 ∨ pos = 118 := by
  induction h with
  | first => exact .inl rfl
  | next _ hhead hsize _ ih =>
    rcases ih with rfl | rfl | rfl
    · obtain ⟨rfl, -, rfl⟩ := hhead.unique overlong_heads.1
      cases hsize
      exact .inr (.inl rfl)
    · obtain ⟨rfl, -, rfl⟩ := hhead.unique overlong_heads.2
      have hmeasure : measureValue overlong 0x02 14 22 = some 104 := by decide
      cases hmeasure.symm.trans hsize
      exact .inr (.inr rfl)
    · cases hhead.type_at

/-- `read_inside_iff` of this document: nobody reads as far as the string is said to go. -/
theorem read_inside_iff_overlong :
    ReadInside overlong [(nameA, 0), (nameB, 0), (nameC, 0)] := by
  refine (read_inside_iff overlong _ (by decide)).mpr fun _ _ pos scanned keys type name value
    hsearched hhead hread => ?_
  rcases overlong_visited hsearched.visited with rfl | rfl | rfl
  · obtain ⟨rfl, -, rfl⟩ := hhead.unique overlong_heads.1
    decide
  · obtain ⟨rfl, -, rfl⟩ := hhead.unique overlong_heads.2
    decide
  · cases hhead.type_at

/-- The claim fails for an element whose value begins with the last byte. -/
theorem not_read_inside : ¬ ∀ (d : Mem) (keys : Keys),
    readUnalignedInt d 0 = some (d.length : ℤ) → ReadInside d keys := by
  intro h
  obtain ⟨r, keys', hprops, -⟩ := h [7, 0, 0, 0, 0x02, 0, 0] [(nameA, 0)] (by decide)
  have hnone : bsonGetProps [7, 0, 0, 0, 0x02, 0, 0] [(nameA, 0)] = none := by decide
  cases hnone.symm.trans hprops

end OlivePiccolo.Bson
