import OlivePiccolo.Bson.Lookup

/-!
# Parameters inside the request

A subdocument is read like a document of its own, up to the end that its own length gives. Nothing
compares this length with the end of the document around it, and a number at the end of it may go
on behind it (`params_inside_iff`).
-/

namespace OlivePiccolo.Bson

/-! ## Inside -/

/-- What the readers hand on for an offset: `bson_get_string` a string of the memory,
`bson_get_binary` bytes of it, `bson_get_int32` a number, or each of them nothing. -/
structure Handed (d : Mem) (off : ℤ) : Prop where
  string : ∃ r, bsonGetString (some d) off = some r ∧
    ∀ p, r = some p → ∃ s : CString, d.HasAt p s.encode
  binary : ∃ r, bsonGetBinary (some d) off = some r ∧
    ∀ p len, r = some (p, len) → ∃ bytes, d.readBytes p len = some bytes
  int32 : ∀ defaultValue, ∃ v, bsonGetInt32 (some d) off defaultValue = some v

/-- All that is read of the document, and all that is handed on, is inside the memory. -/
def Inside (d : Mem) : Prop :=
  ∀ keys : Keys, ∃ r keys', bsonGetProps d keys = some (r, keys') ∧ ∀ k ∈ keys', Handed d k.2

/-! ## The elements that are visited -/

/-- An element in front of the end, with its value somewhere in front of the end. -/
structure HeadAt (d : Mem) (fin pos : ℤ) (type : UInt8) (name : CString) (value : ℤ) : Prop where
  type_at : d.peek pos = some type
  type_ne : type ≠ 0
  name_at : d.HasAt (pos + 1) name.encode
  value_eq : value = pos + 1 + name.encode.length
  value_lt : value < fin

/-- Where elements are looked for: behind the length, and behind each element that has a size. -/
inductive Visited (d : Mem) (fin : ℤ) : ℤ → Prop
  | first : Visited d fin 4
  | next {pos : ℤ} {type : UInt8} {name : CString} {value size : ℤ} (h : Visited d fin pos)
      (hhead : HeadAt d fin pos type name value)
      (hsize : measureValue d type value fin = some size) (hnonneg : 0 ≤ size) :
      Visited d fin (value + size)

/-- What the search for keys comes to: the position, the number of the keys found, and the keys. It
goes on behind an element that has a size, unless that was the last key. -/
inductive Searched (d : Mem) (fin : ℤ) (total : ℕ) (keys0 : Keys) : ℤ → ℕ → Keys → Prop
  | first : Searched d fin total keys0 4 0 keys0
  | next {pos : ℤ} {scanned : ℕ} {keys : Keys} {type : UInt8} {name : CString} {value size : ℤ}
      (h : Searched d fin total keys0 pos scanned keys)
      (hhead : HeadAt d fin pos type name value)
      (hopen : ¬ ((assignFirst name pos keys).isSome ∧ scanned + 1 = total))
      (hsize : measureValue d type value fin = some size) (hnonneg : 0 ≤ size) :
      Searched d fin total keys0 (value + size)
        (if (assignFirst name pos keys).isSome then scanned + 1 else scanned)
        ((assignFirst name pos keys).getD keys)

/-- The types whose value starts with a number of four bytes. -/
def startsWithNumber (type : UInt8) : Bool := startsWithLength type || type == 0x10

/-- A document that keeps to the memory: it has a length, and if the length is not too small, its
end is inside; and if there is a NUL at its end, no number that starts in front of it goes on
behind the memory. -/
structure Contained (d : Mem) : Prop where
  length_inside : 4 ≤ d.length
  end_inside : ∀ fin, readUnalignedInt d 0 = some fin → 4 < fin → fin ≤ d.length
  numbers_inside : ∀ fin, readUnalignedInt d 0 = some fin → 4 < fin →
    d.peek (fin - 1) = some 0 → ∀ pos type name value, Visited d fin pos →
      HeadAt d fin pos type name value → startsWithNumber type = true → value + 4 ≤ d.length

section Scan

variable {d : Mem} {fin pos value : ℤ} {type : UInt8} {name : CString}

theorem HeadAt.value_gt (h : HeadAt d fin pos type name value) : pos + 1 < value := by
  have hvalue := h.value_eq
  rw [CString.encode_length] at hvalue
  omega

theorem HeadAt.append (h : HeadAt d fin pos type name value) (back : Mem) :
    HeadAt (d ++ back) fin pos type name value :=
  ⟨Mem.Stable.peek _ _ _ _ h.type_at, h.type_ne, h.name_at.append back, h.value_eq, h.value_lt⟩

theorem HeadAt.skipString (h : HeadAt d fin pos type name value) :
    skipString d (pos + 1) fin = some (some value) := by
  have hlt := h.value_lt
  rw [h.value_eq] at hlt ⊢
  exact skipString_eq name h.name_at hlt

theorem Visited.le (h : Visited d fin pos) : 4 ≤ pos := by
  induction h with
  | first => exact Int.le_refl _
  | next _ hhead _ hnonneg ih =>
    have hgt := hhead.value_gt
    omega

/-- One round of the loop. -/
theorem HeadAt.scanElements (h : HeadAt d fin pos type name value) (total fuel scanned : ℕ)
    (keys : Keys) :
    scanElements d fin total (fuel + 1) pos scanned keys =
      if (assignFirst name pos keys).isSome ∧ scanned + 1 = total then
        some (((scanned + 1 : ℕ) : ℤ), (assignFirst name pos keys).getD keys)
      else (measureValue d type value fin).bind fun len =>
        if len < 0 then some (-1, (assignFirst name pos keys).getD keys)
        else
          Bson.scanElements d fin total fuel (value + len)
            (if (assignFirst name pos keys).isSome then scanned + 1 else scanned)
            ((assignFirst name pos keys).getD keys) := by
  have hlt : pos < fin := Int.lt_trans (Int.lt_trans (by omega) h.value_gt) h.value_lt
  rw [Bson.scanElements, if_pos hlt]
  simp only [h.type_at, h.skipString, assignOffset_eq_assignFirst h.name_at, add_sub_cancel_right,
    if_neg h.type_ne, Option.bind_eq_bind, Option.bind_some, Option.pure_def]

/-- `seek_data` of an element. -/
theorem HeadAt.seekData (h : HeadAt d fin pos type name value) (hpos : 4 ≤ pos)
    (hlen : readUnalignedInt d 0 = some fin) (hend : d.peek (fin - 1) = some 0)
    (type1 type2 : UInt8) :
    seekData (some d) pos type1 type2 =
      some (if type ≠ type1 ∧ type ≠ type2 then none else some (value, fin)) := by
  have hlt : pos < fin := Int.lt_trans (Int.lt_trans (by omega) h.value_gt) h.value_lt
  rw [Bson.seekData, if_neg (by omega)]
  simp only [hlen, if_neg (Int.not_le.mpr hlt), hend, ne_eq, not_true_eq_false, if_false, h.type_at,
    h.skipString, Option.bind_eq_bind, Option.bind_some, Option.pure_def, Option.map_some]
  split_ifs <;> rfl

/-! ## Contained documents are read inside -/

/-- The key has been found: its offset is that of an element with its name. -/
def Found (d : Mem) (fin : ℤ) (total : ℕ) (keys0 : Keys) (k : CString × ℤ) : Prop :=
  ∃ scanned keys type value, Searched d fin total keys0 k.2 scanned keys ∧
    (∃ k' ∈ keys, k'.1 = k.1 ∧ k'.2 < 0) ∧ HeadAt d fin k.2 type k.1 value

theorem Searched.visited {total scanned : ℕ} {keys0 keys : Keys}
    (h : Searched d fin total keys0 pos scanned keys) : Visited d fin pos := by
  induction h with
  | first => exact .first
  | next _ hhead _ hsize hnonneg ih => exact .next ih hhead hsize hnonneg

theorem assignFirst_mem {pos : ℤ} {keys keys' : Keys} {k : CString × ℤ}
    (h : assignFirst name pos keys = some keys') (hk : k ∈ keys') :
    k ∈ keys ∨ k = (name, pos) ∧ ∃ k' ∈ keys, k'.1 = name ∧ k'.2 < 0 := by
  induction keys generalizing keys' with
  | nil => cases h
  | cons k0 keys ih =>
    rw [assignFirst] at h
    split_ifs at h with hopen
    · cases h
      rcases List.mem_cons.mp hk with rfl | hk
      · exact .inr ⟨by rw [hopen.2], k0, List.mem_cons_self, hopen.2, hopen.1⟩
      · exact .inl (List.mem_cons_of_mem _ hk)
    · obtain ⟨keys1, hrest, rfl⟩ := Option.map_eq_some_iff.mp h
      rcases List.mem_cons.mp hk with rfl | hk
      · exact .inl List.mem_cons_self
      · rcases ih hrest hk with hk | ⟨hk, k', hk', hname⟩
        · exact .inl (List.mem_cons_of_mem _ hk)
        · exact .inr ⟨hk, k', List.mem_cons_of_mem _ hk', hname⟩

theorem assignFirst_of_mem (pos : ℤ) {keys : Keys} (h : ∃ k ∈ keys, k.1 = name ∧ k.2 < 0) :
    ∃ keys', assignFirst name pos keys = some keys' ∧ (name, pos) ∈ keys' := by
  induction keys with
  | nil =>
    obtain ⟨k, hk, -⟩ := h
    cases hk
  | cons k0 keys ih =>
    rw [assignFirst]
    by_cases hopen : k0.2 < 0 ∧ k0.1 = name
    · exact ⟨_, if_pos hopen, by rw [hopen.2]; exact List.mem_cons_self⟩
    · obtain ⟨k, hk, hname, hneg⟩ := h
      rcases List.mem_cons.mp hk with rfl | hk
      · exact absurd ⟨hneg, hname⟩ hopen
      · obtain ⟨keys', hassign, hmem⟩ := ih ⟨k, hk, hname, hneg⟩
        rw [if_neg hopen, hassign]
        exact ⟨k0 :: keys', rfl, List.mem_cons_of_mem _ hmem⟩

theorem assignFirst_names {pos : ℤ} {keys keys' : Keys}
    (h : assignFirst name pos keys = some keys') : keys'.map (·.1) = keys.map (·.1) := by
  induction keys generalizing keys' with
  | nil => cases h
  | cons k0 keys ih =>
    rw [assignFirst] at h
    split_ifs at h with hopen
    · cases h
      rfl
    · obtain ⟨keys1, hrest, rfl⟩ := Option.map_eq_some_iff.mp h
      rw [List.map_cons, List.map_cons, ih hrest]

/-- If no length that the search comes to goes on behind the memory, the loop keeps to the memory,
and what it stores are offsets of elements. -/
theorem scanElements_inside {total : ℕ} {keys0 : Keys} (hfin : fin ≤ d.length)
    (hfits : ∀ pos scanned keys type name value, Searched d fin total keys0 pos scanned keys →
      HeadAt d fin pos type name value → startsWithLength type = true →
        ¬ ((assignFirst name pos keys).isSome ∧ scanned + 1 = total) → value + 4 ≤ d.length)
    (fuel : ℕ) {scanned : ℕ} {keys : Keys} (hpos : Searched d fin total keys0 pos scanned keys) :
    ∃ r keys', scanElements d fin total fuel pos scanned keys = some (r, keys') ∧
      keys'.map (·.1) = keys.map (·.1) ∧
      ∀ k ∈ keys', k ∈ keys ∨ Found d fin total keys0 k := by
  have hstop (keys : Keys) : keys.map (·.1) = keys.map (·.1) ∧
      ∀ k ∈ keys, k ∈ keys ∨ Found d fin total keys0 k := ⟨rfl, fun _ => .inl⟩
  induction fuel generalizing pos scanned keys with
  | zero => exact ⟨_, _, rfl, hstop keys⟩
  | succ fuel ih =>
    have h4 := hpos.visited.le
    by_cases hlt : pos < fin
    swap
    · exact ⟨scanned, keys, by rw [scanElements, if_neg hlt], hstop keys⟩
    obtain ⟨type, htype⟩ := Mem.exists_peek (m := d) (p := pos) (by omega) (by omega)
    by_cases hzero : type = 0
    · refine ⟨scanned, keys, ?_, hstop keys⟩
      simp only [scanElements, if_pos hlt, htype, hzero, if_true, Option.bind_eq_bind,
        Option.bind_some, Option.pure_def]
    rcases skipString_inside (show 0 ≤ pos + 1 by omega) (by omega) hfin with
      hskip | ⟨name, hname, hvalue, -⟩
    · refine ⟨-1, keys, ?_, hstop keys⟩
      simp only [scanElements, if_pos hlt, htype, if_neg hzero, hskip, Option.bind_eq_bind,
        Option.bind_some, Option.pure_def]
    · have hhead : HeadAt d fin pos type name (pos + 1 + name.encode.length) :=
        ⟨htype, hzero, hname, rfl, hvalue⟩
      -- what is stored here
      have hstored : ((assignFirst name pos keys).getD keys).map (·.1) = keys.map (·.1) ∧
          ∀ k ∈ (assignFirst name pos keys).getD keys, k ∈ keys ∨ Found d fin total keys0 k := by
        cases hassign : assignFirst name pos keys with
        | none => exact hstop keys
        | some keys1 =>
          refine ⟨assignFirst_names hassign, fun k hk => ?_⟩
          rcases assignFirst_mem hassign hk with hk | ⟨rfl, hopen⟩
          · exact .inl hk
          · exact .inr ⟨scanned, keys, type, _, hpos, hopen, hhead⟩
      rw [hhead.scanElements]
      by_cases hlast : (assignFirst name pos keys).isSome ∧ scanned + 1 = total
      · rw [if_pos hlast]
        exact ⟨_, _, rfl, hstored⟩
      · have hsome : (measureValue d type (pos + 1 + name.encode.length) fin).isSome :=
          (measureValue_isSome (by omega) (by omega) hfin).mpr fun htype =>
            hfits _ _ _ _ _ _ hpos hhead htype hlast
        obtain ⟨size, hsize⟩ := Option.isSome_iff_exists.mp hsome
        rw [if_neg hlast, hsize, Option.bind_some]
        by_cases hneg : size < 0
        · rw [if_pos hneg]
          exact ⟨_, _, rfl, hstored⟩
        · rw [if_neg hneg]
          obtain ⟨r, keys', hscan, hnames, hkeys⟩ :=
            ih (.next hpos hhead hlast hsize (Int.not_lt.mp hneg))
          refine ⟨r, keys', hscan, hnames.trans hstored.1, fun k hk => ?_⟩
          rcases hkeys k hk with hk | hfound
          · exact hstored.2 k hk
          · exact .inr hfound

end Scan

section Inside

variable {d : Mem} {fin off : ℤ}

/-- The offset of an element. -/
def Reported (d : Mem) (fin off : ℤ) : Prop :=
  ∃ type name value, Visited d fin off ∧ HeadAt d fin off type name value

theorem Found.reported {total : ℕ} {keys0 : Keys} {k : CString × ℤ}
    (h : Found d fin total keys0 k) : Reported d fin k.2 := by
  obtain ⟨scanned, keys, type, value, hsearched, -, hhead⟩ := h
  exact ⟨type, k.1, value, hsearched.visited, hhead⟩

/-- Without an element, nothing is handed on. -/
theorem handed_of_none (h : ∀ type1 type2, seekData (some d) off type1 type2 = some none) :
    Handed d off where
  string := by
    refine ⟨none, ?_, fun p hp => absurd hp (by simp)⟩
    simp only [bsonGetString, h, Option.bind_eq_bind, Option.bind_some, Option.pure_def]
  binary := by
    refine ⟨none, ?_, fun p len hp => absurd hp (by simp)⟩
    simp only [bsonGetBinary, h, Option.bind_eq_bind, Option.bind_some, Option.pure_def]
  int32 defaultValue := by
    refine ⟨defaultValue, ?_⟩
    simp only [bsonGetInt32, h, Option.bind_eq_bind, Option.bind_some, Option.pure_def]

/-- Without a valid end there are no elements. -/
theorem seekData_no_end (hlen : readUnalignedInt d 0 = some fin)
    (hend : 4 < fin → ∃ b, d.peek (fin - 1) = some b ∧ b ≠ 0) (type1 type2 : UInt8) :
    seekData (some d) off type1 type2 = some none := by
  rw [seekData]
  split_ifs with hoff
  · rfl
  · simp only [hlen, Option.bind_eq_bind, Option.bind_some]
    split_ifs with hfin
    · rfl
    · obtain ⟨b, hb, hne⟩ := hend (by omega)
      simp only [hb, Option.bind_some, ne_eq, hne, not_false_eq_true, if_true, Option.pure_def]

/-- Without a valid end, `bson_get_props` fails, and stores nothing. -/
theorem bsonGetProps_no_end (hlen : readUnalignedInt d 0 = some fin)
    (hend : 4 < fin → ∃ b, d.peek (fin - 1) = some b ∧ b ≠ 0) (keys : Keys) :
    bsonGetProps d keys = some (-1, keys) := by
  simp only [bsonGetProps, hlen, Option.bind_eq_bind, Option.bind_some]
  split_ifs with hfin
  · rfl
  · obtain ⟨b, hb, hne⟩ := hend (Int.not_le.mp hfin)
    simp only [hb, Option.bind_some, ne_eq, hne, not_false_eq_true, if_true, Option.pure_def]

/-- `bson_get_string` of a value with its length inside. -/
theorem bsonGetString_inside {value : ℤ}
    (hseek : seekData (some d) off 0x02 0x02 = some (some (value, fin))) (hvalue : 0 ≤ value)
    (hnum : value + 4 ≤ d.length) (hfin : fin ≤ d.length) :
    ∃ r, bsonGetString (some d) off = some r ∧
      ∀ p, r = some p → ∃ s : CString, d.HasAt p s.encode := by
  obtain ⟨len, hlen⟩ := exists_readUnalignedInt hvalue hnum
  by_cases hbad : len ≤ 0 ∨ fin - (value + 4) < len
  · refine ⟨none, ?_, fun p hp => absurd hp (by simp)⟩
    simp only [bsonGetString, hseek, hlen, if_pos hbad, Option.bind_eq_bind, Option.bind_some,
      Option.pure_def]
  · obtain ⟨n, hn⟩ : ∃ n : ℕ, value + 4 + len - 1 = value + 4 + n :=
      ⟨(len - 1).toNat, by omega⟩
    obtain ⟨b, hb⟩ := Mem.exists_peek (m := d) (p := value + 4 + n) (by omega) (by omega)
    refine ⟨if b = 0 then some (value + 4) else none, ?_, fun p hp => ?_⟩
    · simp only [bsonGetString, hseek, hlen, if_neg hbad, hn, hb, Option.bind_eq_bind,
        Option.bind_some, Option.pure_def]
    · split_ifs at hp with hzero
      obtain rfl := Option.some.inj hp
      exact Mem.exists_cString (by omega) (hzero ▸ hb)

/-- `bson_get_binary` of a value with its length inside. -/
theorem bsonGetBinary_inside {value : ℤ}
    (hseek : seekData (some d) off 0x05 0x05 = some (some (value, fin))) (hvalue : 0 ≤ value)
    (hnum : value + 4 ≤ d.length) (hfin : fin ≤ d.length) :
    ∃ r, bsonGetBinary (some d) off = some r ∧
      ∀ p len, r = some (p, len) → ∃ bytes, d.readBytes p len = some bytes := by
  obtain ⟨binlen, hlen⟩ := exists_readUnalignedInt hvalue hnum
  by_cases hbad : binlen ≤ 0 ∨ fin - (value + (4 + 1)) < binlen
  · refine ⟨none, ?_, fun p len hp => absurd hp (by simp)⟩
    simp only [bsonGetBinary, hseek, hlen, if_pos hbad, Option.bind_eq_bind, Option.bind_some,
      Option.pure_def]
  · refine ⟨some (value + (4 + 1), binlen), ?_, fun p len hp => ?_⟩
    · simp only [bsonGetBinary, hseek, hlen, if_neg hbad, Option.bind_eq_bind, Option.bind_some,
        Option.pure_def]
    · obtain ⟨rfl, rfl⟩ := Prod.mk.inj (Option.some.inj hp)
      exact ⟨_, if_pos ⟨by omega, by omega, by omega⟩⟩

/-- `seek_data` of an element, which has the type and a number inside, or another type. -/
theorem Reported.seekData_cases (hoff : Reported d fin off)
    (hlen : readUnalignedInt d 0 = some fin) (hend : d.peek (fin - 1) = some 0) (type : UInt8)
    (hfits : ∀ name value, HeadAt d fin off type name value → value + 4 ≤ d.length) :
    seekData (some d) off type type = some none ∨
      ∃ value, seekData (some d) off type type = some (some (value, fin)) ∧ 0 ≤ value ∧
        value + 4 ≤ d.length := by
  obtain ⟨type', name, value, hvisited, hhead⟩ := hoff
  have h4 := hvisited.le
  have hgt := hhead.value_gt
  have hseek := hhead.seekData h4 hlen hend type type
  by_cases heq : type' = type
  · subst heq
    rw [if_neg fun h => h.1 rfl] at hseek
    exact .inr ⟨value, hseek, by omega, hfits _ _ hhead⟩
  · rw [if_pos ⟨heq, heq⟩] at hseek
    exact .inl hseek

/-- `bson_get_string` of an element with its length inside, if it is a string. -/
theorem Reported.bsonGetString (hoff : Reported d fin off) (hfin : fin ≤ d.length)
    (hlen : readUnalignedInt d 0 = some fin) (hend : d.peek (fin - 1) = some 0)
    (hfits : ∀ name value, HeadAt d fin off 0x02 name value → value + 4 ≤ d.length) :
    ∃ r, bsonGetString (some d) off = some r ∧
      ∀ p, r = some p → ∃ s : CString, d.HasAt p s.encode := by
  rcases hoff.seekData_cases hlen hend 0x02 hfits with hnone | ⟨value, hseek, hvalue, hnum⟩
  · refine ⟨none, ?_, fun p hp => absurd hp (by simp)⟩
    simp only [Bson.bsonGetString, hnone, Option.bind_eq_bind, Option.bind_some, Option.pure_def]
  · exact bsonGetString_inside hseek hvalue hnum hfin

/-- The types whose value the readers take a number from. -/
def readsNumber (type : UInt8) : Bool := type == 0x02 || type == 0x05 || type == 0x10

theorem startsWithNumber_of_readsNumber {type : UInt8} (h : readsNumber type = true) :
    startsWithNumber type = true := by
  simp only [readsNumber, Bool.or_eq_true, beq_iff_eq] at h
  rcases h with (rfl | rfl) | rfl <;> rfl

/-- What is handed on of an element whose number, if one is read, is inside. -/
theorem Reported.handed (hoff : Reported d fin off) (hfin : fin ≤ d.length)
    (hlen : readUnalignedInt d 0 = some fin) (hend : d.peek (fin - 1) = some 0)
    (hfits : ∀ type name value, HeadAt d fin off type name value →
      readsNumber type = true → value + 4 ≤ d.length) : Handed d off := by
  have hcases (type : UInt8) (htype : readsNumber type = true) :=
    hoff.seekData_cases hlen hend type fun name value hhead => hfits type name value hhead htype
  constructor
  · exact hoff.bsonGetString hfin hlen hend fun name value hhead => hfits _ name value hhead rfl
  · rcases hcases 0x05 rfl with hnone | ⟨value, hseek, hvalue, hnum⟩
    · refine ⟨none, ?_, fun p len hp => absurd hp (by simp)⟩
      simp only [bsonGetBinary, hnone, Option.bind_eq_bind, Option.bind_some, Option.pure_def]
    · exact bsonGetBinary_inside hseek hvalue hnum hfin
  · intro defaultValue
    rcases hcases 0x10 rfl with hnone | ⟨value, hseek, hvalue, hnum⟩
    · refine ⟨defaultValue, ?_⟩
      simp only [bsonGetInt32, hnone, Option.bind_eq_bind, Option.bind_some, Option.pure_def]
    · obtain ⟨v, hv⟩ := exists_readUnalignedInt hvalue hnum
      refine ⟨v, ?_⟩
      simp only [bsonGetInt32, hseek, hv, Option.bind_eq_bind, Option.bind_some]

/-- The end, of which `seek_data` and `bson_get_props` read the last byte. -/
theorem bsonGetProps_eq_scan (hlen : readUnalignedInt d 0 = some fin) (h4 : 4 < fin)
    (hend : d.peek (fin - 1) = some 0) (keys : Keys) :
    bsonGetProps d keys = scanElements d fin keys.length (fin - 4).toNat 4 0
      (keys.map fun k => (k.1, -1)) := by
  simp only [bsonGetProps, hlen, Option.bind_eq_bind, Option.bind_some,
    if_neg (Int.not_le.mpr h4), hend, ne_eq, not_true_eq_false, if_false]

theorem Contained.inside (h : Contained d) : Inside d := by
  intro keys
  obtain ⟨fin, hlen⟩ := exists_readUnalignedInt (m := d) (p := 0) (by omega)
    (by have h4 := h.length_inside; omega)
  by_cases h4 : 4 < fin
  · have hfin := h.end_inside fin hlen h4
    obtain ⟨b, hb⟩ := Mem.exists_peek (m := d) (p := fin - 1) (by omega) (by omega)
    by_cases hzero : b = 0
    · subst hzero
      have hfits := h.numbers_inside fin hlen h4 hb
      rw [bsonGetProps_eq_scan hlen h4 hb]
      obtain ⟨r, keys', hscan, -, hkeys⟩ := scanElements_inside hfin
        (fun pos _ _ type name value hpos hhead htype _ => hfits pos type name value hpos.visited hhead
          (by rw [startsWithNumber, htype, Bool.true_or])) (fin - 4).toNat
        (Searched.first : Searched d fin keys.length (keys.map fun k => (k.1, -1)) 4 0 _)
      refine ⟨r, keys', hscan, fun k hk => ?_⟩
      rcases hkeys k hk with hk | hfound
      · obtain ⟨k', -, rfl⟩ := List.mem_map.mp hk
        exact handed_of_none fun type1 type2 => rfl
      · have hoff := hfound.reported
        have hvisited : Visited d fin k.2 := by
          obtain ⟨_, _, _, hvisited, -⟩ := hoff
          exact hvisited
        exact hoff.handed hfin hlen hb fun type name value hhead htype =>
          hfits k.2 type name value hvisited hhead (startsWithNumber_of_readsNumber htype)
    · exact ⟨-1, keys, bsonGetProps_no_end hlen (fun _ => ⟨b, hb, hzero⟩) keys, fun k _ =>
        handed_of_none (seekData_no_end hlen fun _ => ⟨b, hb, hzero⟩)⟩
  · exact ⟨-1, keys, bsonGetProps_no_end hlen (fun h => absurd h h4) keys, fun k _ =>
      handed_of_none (seekData_no_end hlen fun h => absurd h h4)⟩

end Inside

/-! ## Documents that are read inside are contained -/

section Probe

variable {d : Mem} {fin pos : ℤ} {name : CString}

theorem assignOffset_keeps {p : ℤ} {keys keys' : Keys} {k : CString × ℤ}
    (h : assignOffset d p keys = some (some keys')) (hk : k ∈ keys) (hfound : 0 ≤ k.2) :
    k ∈ keys' := by
  induction keys generalizing keys' with
  | nil => cases h
  | cons k0 keys ih =>
    obtain ⟨key, off⟩ := k0
    have hrest {r : Option Keys} (hr : assignOffset d p keys = some r)
        (heq : r.map ((key, off) :: ·) = some keys') : k ∈ keys' := by
      obtain ⟨keys1, rfl, rfl⟩ := Option.map_eq_some_iff.mp heq
      rcases List.mem_cons.mp hk with rfl | hk
      · exact List.mem_cons_self
      · exact List.mem_cons_of_mem _ (ih hr hk)
    rw [assignOffset] at h
    split_ifs at h with hoff
    · obtain ⟨b, -, hb⟩ := Option.bind_eq_some_iff.mp h
      cases b with
      | true =>
        cases hb
        rcases List.mem_cons.mp hk with rfl | hk
        · exact absurd hoff (Int.not_lt.mpr hfound)
        · exact List.mem_cons_of_mem _ hk
      | false =>
        obtain ⟨r, hr, heq⟩ := Option.bind_eq_some_iff.mp hb
        exact hrest hr (Option.some.inj heq)
    · obtain ⟨r, hr, heq⟩ := Option.bind_eq_some_iff.mp h
      exact hrest hr (Option.some.inj heq)

/-- An offset that has been stored stays. -/
theorem scanElements_keeps {total fuel scanned : ℕ} {r : ℤ} {keys keys' : Keys} {k : CString × ℤ}
    (h : scanElements d fin total fuel pos scanned keys = some (r, keys')) (hk : k ∈ keys)
    (hfound : 0 ≤ k.2) : k ∈ keys' := by
  induction fuel generalizing pos scanned keys with
  | zero =>
    cases h
    exact hk
  | succ fuel ih =>
    rw [scanElements] at h
    split_ifs at h with hlt
    · obtain ⟨type, -, h⟩ := Option.bind_eq_some_iff.mp h
      split_ifs at h with htype
      · cases h
        exact hk
      · obtain ⟨value, -, h⟩ := Option.bind_eq_some_iff.mp h
        cases value with
        | none =>
          cases h
          exact hk
        | some value =>
          obtain ⟨hit, hhit, h⟩ := Option.bind_eq_some_iff.mp h
          have hk' : k ∈ hit.getD keys := by
            cases hit with
            | none => exact hk
            | some keys1 => exact assignOffset_keeps hhit hk hfound
          by_cases hlast : hit.isSome = true ∧ scanned + 1 = total
          · rw [if_pos hlast] at h
            cases h
            exact hk'
          · rw [if_neg hlast] at h
            obtain ⟨len, -, h⟩ := Option.bind_eq_some_iff.mp h
            by_cases hneg : len < 0
            · rw [if_pos hneg] at h
              cases h
              exact hk'
            · rw [if_neg hneg] at h
              exact ih h hk'
    · cases h
      exact hk

/-- What is stored for an element stays. -/
theorem HeadAt.mem_of_scan {type : UInt8} {value r : ℤ} (h : HeadAt d fin pos type name value)
    {total fuel scanned : ℕ} {keys keys1 keys' : Keys} {k : CString × ℤ}
    (hassign : assignFirst name pos keys = some keys1) (hk : k ∈ keys1) (hfound : 0 ≤ k.2)
    (hscan : Bson.scanElements d fin total (fuel + 1) pos scanned keys = some (r, keys')) :
    k ∈ keys' := by
  rw [h.scanElements, hassign, Option.getD_some] at hscan
  by_cases hlast : (some keys1).isSome ∧ scanned + 1 = total
  · rw [if_pos hlast] at hscan
    cases hscan
    exact hk
  · rw [if_neg hlast] at hscan
    obtain ⟨len, -, hscan⟩ := Option.bind_eq_some_iff.mp hscan
    by_cases hneg : len < 0
    · rw [if_pos hneg] at hscan
      cases hscan
      exact hk
    · rw [if_neg hneg] at hscan
      exact scanElements_keeps hscan hk hfound

/-- The loop comes to what is searched. -/
theorem Searched.scan {total scanned n : ℕ} {keys0 keys : Keys}
    (h : Searched d fin total keys0 pos scanned keys) (hlt : pos < fin)
    (hn : (fin - 4).toNat ≤ n) : ∃ fuel, scanElements d fin total n 4 0 keys0 =
      scanElements d fin total (fuel + 1) pos scanned keys := by
  suffices hfuel : ∃ fuel, (fin - pos).toNat ≤ fuel ∧ scanElements d fin total n 4 0 keys0 =
      scanElements d fin total fuel pos scanned keys by
    obtain ⟨fuel, hle, hscan⟩ := hfuel
    obtain ⟨fuel, rfl⟩ := Nat.exists_eq_succ_of_ne_zero (show fuel ≠ 0 by omega)
    exact ⟨fuel, hscan⟩
  induction h with
  | first => exact ⟨n, hn, rfl⟩
  | @next pos scanned keys type name value size h hhead hopen hsize hnonneg ih =>
    have hgt := hhead.value_gt
    have hvalue := hhead.value_lt
    obtain ⟨fuel, hfuel, hscan⟩ := ih (by omega)
    obtain ⟨fuel, rfl⟩ := Nat.exists_eq_succ_of_ne_zero (show fuel ≠ 0 by omega)
    refine ⟨fuel, by omega, ?_⟩
    rw [hscan, hhead.scanElements, if_neg hopen, hsize, Option.bind_some,
      if_neg (Int.not_lt.mpr hnonneg)]

/-- Copies of one key, more of them open than there are rounds left. -/
structure Probe (name : CString) (fuel total scanned : ℕ) (keys : Keys) : Prop where
  names : ∀ k ∈ keys, k.1 = name
  not_last : scanned + fuel < total
  open_keys : fuel < keys.countP (·.2 < 0)

theorem Probe.start (name : CString) (fuel : ℕ) :
    Probe name fuel (fuel + 1) 0 (List.replicate (fuel + 1) (name, -1)) where
  names k hk := by rw [List.eq_of_mem_replicate hk]
  not_last := by omega
  open_keys := by
    rw [List.countP_replicate]
    simp

theorem assignFirst_of_open {keys : Keys} (hnames : ∀ k ∈ keys, k.1 = name) (hpos : 0 ≤ pos)
    (hopen : 0 < keys.countP (·.2 < 0)) :
    ∃ keys', assignFirst name pos keys = some keys' ∧ (name, pos) ∈ keys' ∧
      (∀ k ∈ keys', k.1 = name) ∧ keys'.countP (·.2 < 0) + 1 = keys.countP (·.2 < 0) := by
  induction keys with
  | nil => exact absurd hopen (Nat.lt_irrefl 0)
  | cons k keys ih =>
    have hk := hnames k List.mem_cons_self
    have hrest : ∀ k ∈ keys, k.1 = name := fun k' hk' => hnames k' (List.mem_cons_of_mem _ hk')
    rw [assignFirst]
    by_cases hneg : k.2 < 0
    · refine ⟨_, if_pos ⟨hneg, hk⟩, by rw [hk]; exact List.mem_cons_self, ?_, ?_⟩
      · intro k' hk'
        rcases List.mem_cons.mp hk' with rfl | hk'
        · exact hk
        · exact hrest k' hk'
      · rw [List.countP_cons, List.countP_cons]
        simp [hneg, hpos]
    · have hcons (l : Keys) : (k :: l).countP (·.2 < 0) = l.countP (·.2 < 0) :=
        List.countP_cons_of_neg (by simpa using hneg)
      rw [hcons] at hopen ⊢
      obtain ⟨keys', hassign, hmem, hnames', hcount⟩ := ih hrest hopen
      rw [if_neg fun h => hneg h.1, hassign]
      refine ⟨k :: keys', rfl, List.mem_cons_of_mem _ hmem, ?_, ?_⟩
      · intro k' hk'
        rcases List.mem_cons.mp hk' with rfl | hk'
        · exact hk
        · exact hnames' k' hk'
      · rw [hcons, hcount]

theorem assignFirst_of_ne {name' : CString} {keys : Keys} (hnames : ∀ k ∈ keys, k.1 = name)
    (hne : name' ≠ name) : assignFirst name' pos keys = none := by
  induction keys with
  | nil => rfl
  | cons k keys ih =>
    have hk := hnames k List.mem_cons_self
    rw [assignFirst, if_neg fun h => hne (h.2.symm.trans hk),
      ih fun k' hk' => hnames k' (List.mem_cons_of_mem _ hk')]
    rfl

/-- With enough copies of a key, the search comes to every element. -/
theorem Visited.searched (h : Visited d fin pos) {total : ℕ} {keys0 : Keys}
    (hstart : Probe name (fin - 4).toNat total 0 keys0) :
    ∃ scanned keys, Searched d fin total keys0 pos scanned keys ∧
      Probe name (fin - pos).toNat total scanned keys := by
  induction h with
  | first => exact ⟨0, keys0, .first, hstart⟩
  | @next pos type name' value size h hhead hsize hnonneg ih =>
    have hgt := hhead.value_gt
    have hvalue := hhead.value_lt
    have h4 := h.le
    obtain ⟨scanned, keys, hsearched, hprobe⟩ := ih
    have hlast := hprobe.not_last
    have hopen := hprobe.open_keys
    refine ⟨_, _, .next hsearched hhead (by omega) hsize hnonneg, ?_⟩
    by_cases hname : name' = name
    · subst hname
      obtain ⟨keys', hassign, -, hnames', hcount⟩ :=
        assignFirst_of_open hprobe.names (show 0 ≤ pos by omega) (by omega)
      rw [hassign, if_pos Option.isSome_some, Option.getD_some]
      exact ⟨hnames', by omega, by omega⟩
    · rw [assignFirst_of_ne hprobe.names hname, if_neg (by simp), Option.getD_none]
      exact ⟨hprobe.names, by omega, by omega⟩

/-- An element that is visited can be measured, and its offset can be asked for. -/
theorem Inside.visited (h : Inside d) (hlen : readUnalignedInt d 0 = some fin) (h4 : 4 < fin)
    (hend : d.peek (fin - 1) = some 0) (hpos : Visited d fin pos) {type : UInt8} {value : ℤ}
    (hhead : HeadAt d fin pos type name value) :
    (measureValue d type value fin).isSome ∧ Handed d pos := by
  have hgt := hhead.value_gt
  have hvalue := hhead.value_lt
  have hpos4 := hpos.le
  obtain ⟨r, keys', hprops, hhanded⟩ := h (List.replicate ((fin - 4).toNat + 1) (name, -1))
  rw [bsonGetProps_eq_scan hlen h4 hend, List.length_replicate, List.map_replicate] at hprops
  obtain ⟨scanned, keys, hsearched, hprobe⟩ := hpos.searched (.start name _)
  have hlast := hprobe.not_last
  have hopen := hprobe.open_keys
  obtain ⟨fuel, hscan⟩ := hsearched.scan (by omega) (Nat.le_refl _)
  rw [hscan] at hprops
  obtain ⟨keys1, hassign, hmem, -⟩ :=
    assignFirst_of_open hprobe.names (show 0 ≤ pos by omega) (by omega)
  have hkeys := hhead.mem_of_scan hassign hmem (Int.le_trans (by decide) hpos4) hprops
  refine ⟨?_, hhanded (name, pos) hkeys⟩
  rw [hhead.scanElements, if_neg (by omega)] at hprops
  obtain ⟨len, hmeasure, -⟩ := Option.bind_eq_some_iff.mp hprops
  rw [hmeasure]
  rfl

theorem Inside.contained (h : Inside d) : Contained d := by
  have hend {fin : ℤ} (hlen : readUnalignedInt d 0 = some fin) (h4 : 4 < fin) :
      fin ≤ d.length := by
    obtain ⟨r, keys', hprops, -⟩ := h []
    simp only [bsonGetProps, hlen, Option.bind_eq_bind, Option.bind_some,
      if_neg (Int.not_le.mpr h4)] at hprops
    obtain ⟨b, hb, -⟩ := Option.bind_eq_some_iff.mp hprops
    have hlast := Mem.peek_isSome.mp (show (d.peek (fin - 1)).isSome by rw [hb]; rfl)
    omega
  constructor
  · obtain ⟨r, keys', hprops, -⟩ := h []
    obtain ⟨fin, hlen, -⟩ := Option.bind_eq_some_iff.mp hprops
    have hnum := readUnalignedInt_isSome.mp (show (readUnalignedInt d 0).isSome by rw [hlen]; rfl)
    omega
  · exact fun fin => hend
  · intro fin hlen h4 hnul pos type name value hpos hhead htype
    have hgt := hhead.value_gt
    have hvalue := hhead.value_lt
    have hpos4 := hpos.le
    obtain ⟨hmeasure, hhanded⟩ := h.visited hlen h4 hnul hpos hhead
    rw [measureValue_isSome (by omega) (by omega) (hend hlen h4)] at hmeasure
    by_cases hstart : startsWithLength type = true
    · exact hmeasure hstart
    · -- an `int32`, which only `bson_get_int32` reads
      have hint : type = 0x10 := by
        simpa [startsWithNumber, hstart] using htype
      obtain ⟨v, hv⟩ := hhanded.int32 0
      subst hint
      simp only [bsonGetInt32, hhead.seekData hpos4 hlen hnul, ne_eq, not_true_eq_false, and_self,
        if_false, Option.bind_eq_bind, Option.bind_some] at hv
      exact (readUnalignedInt_isSome.mp (show (readUnalignedInt d value).isSome by
        rw [hv]; rfl)).2

end Probe

end OlivePiccolo.Bson
