import OlivePiccolo.Bson.Containment

/-!
# The fields of a document

Of the elements with one name, the first one counts: `bson_get_props` reports it
(`Contained.bsonGetProps`), and what `bson_get_binary` hands on is its value (`FieldAt.binary`). A
well-formed document without code with scope is contained (`IsDocument.contained`).
-/

namespace OlivePiccolo.Bson

/-! ## First elements -/

/-- Positions that the search for a name comes to: the elements in front have other names. -/
inductive Passed (d : Mem) (fin : ℤ) (name : CString) : ℤ → Prop
  | first : Passed d fin name 4
  | next {pos : ℤ} {type : UInt8} {name' : CString} {value size : ℤ} (h : Passed d fin name pos)
      (hhead : HeadAt d fin pos type name' value) (hne : name' ≠ name)
      (hsize : measureValue d type value fin = some size) (hnonneg : 0 ≤ size) :
      Passed d fin name (value + size)

/-- The document has an end, and its first element of this name is at `off`. -/
structure FieldAt (d : Mem) (fin : ℤ) (name : CString) (off : ℤ) : Prop where
  length : readUnalignedInt d 0 = some fin
  last : d.peek (fin - 1) = some 0
  passed : Passed d fin name off
  head : ∃ type value, HeadAt d fin off type name value

/-- The document has this binary under this name. -/
def HasBinary (d : Mem) (name : CString) (bytes : List UInt8) : Prop :=
  ∃ fin off value, FieldAt d fin name off ∧ HeadAt d fin off 0x05 name value ∧
    readUnalignedInt d value = some (bytes.length : ℤ) ∧ d.HasAt (value + 5) bytes ∧
    value + 5 + bytes.length ≤ fin

section Search

variable {d : Mem} {fin pos off : ℤ} {total scanned : ℕ} {keys0 keys : Keys} {name : CString}

theorem Searched.names (h : Searched d fin total keys0 pos scanned keys) :
    keys.map (·.1) = keys0.map (·.1) := by
  induction h with
  | first => rfl
  | @next pos scanned keys type name value size _ _ _ _ _ ih =>
    cases hassign : assignFirst name pos keys with
    | none => exact ih
    | some keys' => exact (assignFirst_names hassign).trans ih

/-- Two keys of one name are the same. -/
theorem eq_of_nodup {k k' : CString × ℤ} (hnodup : (keys.map (·.1)).Nodup) (hk : k ∈ keys)
    (hk' : k' ∈ keys) (h : k.1 = k'.1) : k = k' :=
  List.inj_on_of_nodup_map hnodup hk hk' h

/-- As long as a key is open, no element has had its name. -/
theorem Searched.passed (hnodup : (keys0.map (·.1)).Nodup)
    (h : Searched d fin total keys0 pos scanned keys)
    (hopen : ∃ k ∈ keys, k.1 = name ∧ k.2 < 0) : Passed d fin name pos := by
  induction h with
  | first => exact .first
  | @next pos scanned keys type name' value size hsearched hhead hlast hsize hnonneg ih =>
    obtain ⟨k, hk, rfl, hneg⟩ := hopen
    have hpos := hsearched.visited.le
    have hnames := hsearched.names
    have hmem : k ∈ keys := by
      cases hassign : assignFirst name' pos keys with
      | none =>
        rw [hassign] at hk
        exact hk
      | some keys' =>
        rw [hassign] at hk
        rcases assignFirst_mem hassign hk with hk | ⟨rfl, -⟩
        · exact hk
        · exact absurd hneg (by simp only; omega)
    refine .next (ih ⟨k, hmem, rfl, hneg⟩) hhead ?_ hsize hnonneg
    rintro rfl
    -- the key would have got this offset
    obtain ⟨keys', hassign, hstored⟩ := assignFirst_of_mem pos ⟨k, hmem, rfl, hneg⟩
    rw [hassign] at hk
    have hnodup' : (keys'.map (·.1)).Nodup := by
      rw [assignFirst_names hassign, hnames]
      exact hnodup
    have heq := eq_of_nodup hnodup' hk hstored rfl
    rw [heq] at hneg
    exact absurd hneg (by simp only; omega)

/-- `bson_get_props` of a contained document: an error, or the first elements of the names. -/
theorem Contained.bsonGetProps (h : Contained d) (keys : Keys)
    (hnodup : (keys.map (·.1)).Nodup) :
    ∃ r keys', bsonGetProps d keys = some (r, keys') ∧ keys'.map (·.1) = keys.map (·.1) ∧
      (0 ≤ r → ∀ k ∈ keys', k.2 = -1 ∨ ∃ fin, FieldAt d fin k.1 k.2) := by
  obtain ⟨fin, hlen⟩ := exists_readUnalignedInt (m := d) (p := 0) (by omega)
    (by have h4 := h.length_inside; omega)
  by_cases hend : 4 < fin → ∃ b, d.peek (fin - 1) = some b ∧ b ≠ 0
  · exact ⟨-1, keys, bsonGetProps_no_end hlen hend keys, rfl, fun hr => absurd hr (by decide)⟩
  obtain ⟨h4, hend⟩ := Classical.not_imp.mp hend
  have hfin := h.end_inside fin hlen h4
  obtain ⟨b, hb⟩ := Mem.exists_peek (m := d) (p := fin - 1) (by omega) (by omega)
  obtain rfl : b = 0 := by
    by_contra hne
    exact hend ⟨b, hb, hne⟩
  have hfits := h.numbers_inside fin hlen h4 hb
  have hnames : (keys.map fun k => (k.1, (-1 : ℤ))).map (·.1) = keys.map (·.1) := by
    rw [List.map_map]
    rfl
  obtain ⟨r, keys', hscan, hkeys', hfound⟩ := scanElements_inside hfin
    (fun pos _ _ type name value hpos hhead htype _ => hfits pos type name value hpos.visited hhead
      (by rw [startsWithNumber, htype, Bool.true_or])) (fin - 4).toNat
    (Searched.first : Searched d fin keys.length (keys.map fun k => (k.1, -1)) 4 0 _)
  refine ⟨r, keys', (bsonGetProps_eq_scan hlen h4 hb keys).trans hscan, hkeys'.trans hnames,
    fun _ k hk => ?_⟩
  rcases hfound k hk with hk | ⟨scanned, keys'', type, value, hsearched, hopen, hhead⟩
  · obtain ⟨k', -, rfl⟩ := List.mem_map.mp hk
    exact .inl rfl
  · exact .inr ⟨fin, hlen, hb, hsearched.passed (hnames ▸ hnodup) hopen, type, value, hhead⟩

theorem Passed.le (h : Passed d fin name pos) : 4 ≤ pos := by
  induction h with
  | first => exact Int.le_refl _
  | next _ hhead _ _ hnonneg ih =>
    have hgt := hhead.value_gt
    omega

/-- What `bson_get_binary` hands on of a field. -/
theorem FieldAt.binary {p len : ℤ} {bytes : List UInt8} (h : FieldAt d fin name off)
    (hget : bsonGetBinary (some d) off = some (some (p, len)))
    (hread : d.readBytes p len = some bytes) : HasBinary d name bytes := by
  obtain ⟨type, value, hhead⟩ := h.head
  have hseek := hhead.seekData h.passed.le h.length h.last 0x05 0x05
  obtain ⟨hlen, hat⟩ := Mem.hasAt_of_readBytes hread
  by_cases htype : type = 0x05
  · subst htype
    rw [if_neg fun h => h.1 rfl] at hseek
    simp only [bsonGetBinary, hseek, Option.bind_eq_bind, Option.bind_some] at hget
    obtain ⟨binlen, hbinlen, hget⟩ := Option.bind_eq_some_iff.mp hget
    split_ifs at hget with hbad
    · cases hget
    · cases hget
      rw [hlen] at hbinlen hbad
      exact ⟨fin, off, value, h, hhead, hbinlen, hat, by omega⟩
  · rw [if_pos ⟨htype, htype⟩] at hseek
    simp only [bsonGetBinary, hseek, Option.bind_eq_bind, Option.bind_some] at hget
    cases hget

end Search

/-! ## Well-formed documents -/

section Document

variable {d : Mem} {fin pos value : ℤ} {es : List Element} {type : UInt8} {name : CString}

/-- An element whose type starts with a number has room for it. -/
theorem Value.four_le_length (v : Value) (h : startsWithNumber v.typeCode = true) :
    4 ≤ v.encode.length := by
  cases v with
  | double bytes | utcDatetime bytes | timestamp bytes | int64 bytes | objectId bytes
  | decimal128 bytes => exact absurd h Bool.false_ne_true
  | undefined | null | boolean b | regex pt op => exact absurd h Bool.false_ne_true
  | int32 v => exact Nat.le_of_eq (leBytes_length _ _).symm
  | string s | code s | symbol s =>
    rw [Value.encode, encodeString_length]
    omega
  | document es | array es =>
    rw [Value.encode, encodeBody_length]
    omega
  | binary subtype bytes =>
    rw [Value.encode, List.length_append, leBytes_length]
    omega
  | dbPointer s bytes =>
    rw [Value.encode, List.length_append, encodeString_length]
    omega
  | codeWithScope s scope =>
    rw [Value.encode, List.length_append, List.length_append, leBytes_length]
    omega

/-- What stands at the head of the first element. -/
theorem ElementsAt.head_eq {e : Element} (h : ElementsAt d pos fin (e :: es))
    (hhead : HeadAt d fin pos type name value) :
    type = e.value.typeCode ∧ value = pos + 1 + e.name.encode.length := by
  obtain ⟨htype, -, hskip, -, -⟩ := h.head
  exact ⟨Option.some.inj (hhead.type_at.symm.trans htype),
    Option.some.inj (Option.some.inj (hhead.skipString.symm.trans hskip))⟩

/-- Behind the last element there is none. -/
theorem ElementsAt.not_head (h : ElementsAt d pos fin []) : ¬ HeadAt d fin pos type name value := by
  intro hhead
  have hnul : d.peek pos = some 0 := h.hasAt.peek
  exact hhead.type_ne (Option.some.inj (hhead.type_at.symm.trans hnul))

/-- The search comes to the elements only. -/
theorem Visited.elementsAt (h : Visited d fin pos) (hes : ElementsAt d 4 fin es)
    (hscope : ∀ e ∈ es, e.value.overhang = 0) :
    ∃ rest, ElementsAt d pos fin rest ∧ ∀ e ∈ rest, e.value.overhang = 0 := by
  induction h with
  | first => exact ⟨es, hes, hscope⟩
  | @next pos type name value size _ hhead hsize hnonneg ih =>
    obtain ⟨rest, hrest, hover⟩ := ih
    cases rest with
    | nil => exact absurd hhead hrest.not_head
    | cons e rest =>
      obtain ⟨rfl, rfl⟩ := hrest.head_eq hhead
      obtain ⟨-, -, -, hmeasure, hnext⟩ := hrest.head
      obtain ⟨hzero, hover⟩ := List.forall_mem_cons.mp hover
      rw [hzero, Nat.add_zero] at hmeasure
      obtain rfl := Option.some.inj (hsize.symm.trans hmeasure)
      refine ⟨rest, ?_, hover⟩
      rw [hnext]
      exact hrest.tail

/-- A well-formed document without code with scope is contained. -/
theorem IsDocument.contained (h : IsDocument d es) (hscope : ∀ e ∈ es, e.value.overhang = 0) :
    Contained d := by
  have hsize : ((encodeDocument es).length : ℤ) ≤ d.length := by
    obtain ⟨back, rfl⟩ := Mem.hasAt_zero.mp h.hasAt
    rw [List.length_append]
    omega
  have hlen := h.length_eq
  have hdoc := encodeDocument_length es
  refine ⟨by omega, fun fin hfin _ => ?_,
    fun fin hfin _ _ pos type name value hpos hhead htype => ?_⟩
  · obtain rfl := Option.some.inj (hlen.symm.trans hfin)
    exact hsize
  · obtain rfl := Option.some.inj (hlen.symm.trans hfin)
    obtain ⟨rest, hrest, -⟩ := hpos.elementsAt h.elementsAt hscope
    cases rest with
    | nil => exact absurd hhead hrest.not_head
    | cons e rest =>
      obtain ⟨rfl, rfl⟩ := hrest.head_eq hhead
      obtain ⟨-, -, -, -, hnext⟩ := hrest.head
      have hfour := e.value.four_le_length htype
      have hfin := hrest.fin_eq
      rw [encodeElements, List.length_append] at hfin
      omega

end Document

end OlivePiccolo.Bson
