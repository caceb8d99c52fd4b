import OlivePiccolo.Bson.Build

/-!
# Reading what has been built

At the offset of an element, the getter of its type returns its value, and every other getter its
default value (`readsBack`). With `bson_get_props`, which finds the offset, reading a document undoes
building it (`reading_undoes_building`).
-/

namespace OlivePiccolo.Bson

/-! ## Getters -/

/-- What the getters return at the offset of an element with the value: the getter of its type the
value itself, and the others their default values. -/
structure ReadsBack (m : Mem) (offset : ℤ) (v : Value) : Prop where
  string {s : List UInt8} : v = .string s →
    ∃ p, bsonGetString (some m) offset = some (some p) ∧ m.HasAt p (s ++ [0])
  not_string : v.typeCode ≠ 0x02 → bsonGetString (some m) offset = some none
  subdocument {es : List Element} : v = .document es ∨ v = .array es →
    ∃ p, bsonGetSubdocument (some m) offset = some (some p) ∧ m.HasAt p (encodeDocument es)
  not_subdocument : v.typeCode ≠ 0x03 → v.typeCode ≠ 0x04 →
    bsonGetSubdocument (some m) offset = some none
  binary {subtype : UInt8} {bytes : List UInt8} : v = .binary subtype bytes → bytes ≠ [] →
    ∃ p, bsonGetBinary (some m) offset = some (some (p, (bytes.length : ℤ))) ∧ m.HasAt p bytes
  not_binary : v.typeCode ≠ 0x05 → bsonGetBinary (some m) offset = some none
  boolean {b : Bool} (defaultValue : ℤ) : v = .boolean b →
    bsonGetBoolean (some m) offset defaultValue = some (if b then 1 else 0)
  not_boolean (defaultValue : ℤ) : v.typeCode ≠ 0x08 →
    bsonGetBoolean (some m) offset defaultValue = some defaultValue
  int32 {i : BitVec 32} (defaultValue : ℤ) : v = .int32 i →
    bsonGetInt32 (some m) offset defaultValue = some i.toInt
  not_int32 (defaultValue : ℤ) : v.typeCode ≠ 0x10 →
    bsonGetInt32 (some m) offset defaultValue = some defaultValue

section Getters

variable {m : Mem} {front back : List Element} {e : Element}

/-- `seek_data` at an element: its value, if it has one of the types. -/
theorem seekData_eq (h : IsDocument m (front ++ e :: back)) (type type' : UInt8) :
    seekData (some m) (4 + (encodeElements front).length) type type' =
      some (if e.value.typeCode = type ∨ e.value.typeCode = type' then
        some ((4 + (encodeElements front).length + 1 + e.name.encode.length : ℤ),
          ((encodeDocument (front ++ e :: back)).length : ℤ)) else none) := by
  have hat := h.elementsAt.append
  obtain ⟨htype, -, hskip, -, -⟩ := hat.head
  have hfin := hat.fin_eq
  have hroom : ¬ ((encodeDocument (front ++ e :: back)).length : ℤ) ≤
      4 + (encodeElements front).length := by omega
  rw [seekData, if_neg (by omega)]
  simp only [h.length_eq, if_neg hroom, h.peek_last, htype, hskip, Option.bind_eq_bind,
    Option.bind_some, ne_eq, not_true_eq_false, if_false, Option.map_some]
  by_cases hmatch : e.value.typeCode = type ∨ e.value.typeCode = type'
  · rw [if_pos hmatch, if_neg fun hh => hmatch.elim hh.1 hh.2]
    rfl
  · rw [if_neg hmatch, if_pos (not_or.mp hmatch)]
    rfl

end Getters

section Values

variable {m : Mem} {offset data fin : ℤ}

theorem bsonGetString_eq {s : List UInt8}
    (hseek : seekData (some m) offset 0x02 0x02 = some (some (data, fin)))
    (h : m.HasAt data (encodeString s)) (hroom : data + (encodeString s).length < fin)
    (hfin : fin < 2 ^ 31) (hdata : 0 ≤ data) :
    bsonGetString (some m) offset = some (some (data + 4)) ∧ m.HasAt (data + 4) (s ++ [0]) := by
  rw [encodeString_length] at hroom
  rw [encodeString, List.append_assoc] at h
  have hlen := readUnalignedInt_length h.left (by omega)
  have hstring := h.right
  rw [leBytes_length] at hstring
  have hnul := hstring.right.peek
  have hpos : data + 4 + ((s.length + 1 : ℕ) : ℤ) - 1 = data + (4 : ℕ) + s.length := by omega
  have hok : ¬ (((s.length + 1 : ℕ) : ℤ) ≤ 0 ∨ fin - (data + 4) < ((s.length + 1 : ℕ) : ℤ)) := by
    omega
  refine ⟨?_, hstring⟩
  simp only [bsonGetString, hseek, hlen, hpos, hnul, if_neg hok, Option.bind_eq_bind,
    Option.bind_some, if_true, Option.pure_def]

theorem bsonGetBinary_eq {subtype : UInt8} {bytes : List UInt8} (hne : bytes ≠ [])
    (hseek : seekData (some m) offset 0x05 0x05 = some (some (data, fin)))
    (h : m.HasAt data (leBytes 4 bytes.length ++ subtype :: bytes))
    (hroom : data + (5 + bytes.length : ℕ) < fin) (hfin : fin < 2 ^ 31) (hdata : 0 ≤ data) :
    bsonGetBinary (some m) offset = some (some (data + 5, (bytes.length : ℤ))) ∧
      m.HasAt (data + 5) bytes := by
  have hlen := readUnalignedInt_length h.left (by omega)
  have hbytes := h.right.tail
  rw [leBytes_length, add_assoc] at hbytes
  have hpos := List.length_pos_iff.mpr hne
  have hok : ¬ ((bytes.length : ℤ) ≤ 0 ∨ fin - (data + (4 + 1)) < (bytes.length : ℤ)) := by omega
  refine ⟨?_, hbytes⟩
  simp only [bsonGetBinary, hseek, hlen, if_neg hok, Option.bind_eq_bind, Option.bind_some,
    Option.pure_def]
  rfl

theorem bsonGetBoolean_eq {b : Bool} (d : ℤ)
    (hseek : seekData (some m) offset 0x08 0x08 = some (some (data, fin)))
    (h : m.HasAt data [if b then 1 else 0]) :
    bsonGetBoolean (some m) offset d = some (if b then 1 else 0) := by
  simp only [bsonGetBoolean, hseek, h.peek, Option.bind_eq_bind, Option.bind_some, Option.pure_def]
  cases b <;> rfl

theorem bsonGetInt32_eq {v : BitVec 32} (d : ℤ)
    (hseek : seekData (some m) offset 0x10 0x10 = some (some (data, fin)))
    (h : m.HasAt data (leBytes 4 v.toNat)) :
    bsonGetInt32 (some m) offset d = some v.toInt := by
  rw [bsonGetInt32, hseek, BitVec.toInt_eq_toNat_bmod]
  exact readUnalignedInt_eq h v.isLt

end Values

section Elements

variable {m : Mem} {front back : List Element} {e : Element}

/-- **Getters.** At the offset of any element of any well-formed document. -/
theorem readsBack (h : IsDocument m (front ++ e :: back)) :
    ReadsBack m (4 + (encodeElements front).length) e.value := by
  have hat := h.elementsAt.append
  have hvalue := hat.value
  have hfin := hat.fin_eq
  have hlt := hat.fin_lt
  have hlen := e.encode_length
  have hname := e.name.encode_length
  rw [encodeElements, List.length_append] at hfin
  have hseek := seekData_eq h
  generalize e.value = v at hvalue hlen hseek ⊢
  -- a getter of another type
  have hother {t t' : UInt8} (ht : v.typeCode ≠ t) (ht' : v.typeCode ≠ t') :
      seekData (some m) (4 + (encodeElements front).length) t t' = some none := by
    rw [hseek, if_neg (not_or.mpr ⟨ht, ht'⟩)]
  constructor
  case string =>
    rintro s rfl
    rw [Value.encode] at hvalue hlen
    exact ⟨_, bsonGetString_eq (hseek 0x02 0x02) hvalue (by omega) hlt (by omega)⟩
  case not_string =>
    intro ht
    rw [bsonGetString, hother ht ht]
    rfl
  case subdocument =>
    rintro es (rfl | rfl) <;> rw [Value.encode] at hvalue <;> refine ⟨_, ?_, hvalue⟩
    · rw [bsonGetSubdocument, hseek, if_pos (.inr rfl)]
      rfl
    · rw [bsonGetSubdocument, hseek, if_pos (.inl rfl)]
      rfl
  case not_subdocument =>
    intro ht ht'
    rw [bsonGetSubdocument, hother ht' ht]
    rfl
  case binary =>
    rintro subtype bytes rfl hne
    rw [Value.encode] at hvalue hlen
    rw [List.length_append, leBytes_length, List.length_cons] at hlen
    exact ⟨_, bsonGetBinary_eq hne (hseek 0x05 0x05) hvalue (by omega) hlt (by omega)⟩
  case not_binary =>
    intro ht
    rw [bsonGetBinary, hother ht ht]
    rfl
  case boolean =>
    rintro b d rfl
    rw [Value.encode] at hvalue
    exact bsonGetBoolean_eq d (hseek 0x08 0x08) hvalue
  case not_boolean =>
    intro d ht
    rw [bsonGetBoolean, hother ht ht]
    rfl
  case int32 =>
    rintro i d rfl
    rw [Value.encode] at hvalue
    exact bsonGetInt32_eq d (hseek 0x10 0x10) hvalue
  case not_int32 =>
    intro d ht
    rw [bsonGetInt32, hother ht ht]
    rfl

/-- **Reading undoes building.** In a document that has been built with distinct keys,
`bson_get_props` finds the requested keys that are there, and no others, and at the offset of each
one the getters read back what was set. -/
theorem reading_undoes_building {es : List Element} (h : Built m es)
    (hnames : (es.map Element.name).Nodup) {keys : Keys} (hkeys : (keys.map (·.1)).Nodup) :
    ∃ keys', bsonGetProps m keys =
        some (((keys.countP fun k => es.any (·.name = k.1) : ℕ) : ℤ), keys') ∧
      keys'.map (·.1) = keys.map (·.1) ∧
      ∀ k ∈ keys', ((∀ e ∈ es, e.name ≠ k.1) → k.2 = -1) ∧
        ∀ e ∈ es, e.name = k.1 → ReadsBack m k.2 e.value := by
  obtain ⟨hdoc, hbuildable⟩ := h.isDocument
  have hscope : ScopeHarmless es (keys.map (·.1)) := by
    rintro front e back rfl hs
    rw [(hbuildable e (by simp)).not_scope] at hs
    cases hs
  have hprops := bsonGetProps_eq_lookup hdoc hkeys hscope
  rw [lookup, List.map_map, List.countP_map] at hprops
  refine ⟨_, hprops, by rw [List.map_map]; rfl, fun k hk => ?_⟩
  obtain ⟨k, -, rfl⟩ := List.mem_map.mp hk
  refine ⟨fun habsent => ?_, fun e he hname => ?_⟩
  · rw [← List.append_nil es]
    exact offsetOf_append habsent
  · change e.name = k.1 at hname
    obtain ⟨front, back, rfl⟩ := List.append_of_mem he
    rw [List.map_append, List.map_cons] at hnames
    have hfront : ∀ f ∈ front, f.name ≠ k.1 := fun f hf heq =>
      (List.nodup_append.mp hnames).2.2 _ (List.mem_map_of_mem hf) _ List.mem_cons_self
        (heq.trans hname.symm)
    have hoff : offsetOf k.1 (front ++ e :: back) 4 = 4 + (encodeElements front).length := by
      rw [offsetOf_append hfront, offsetOf, if_pos hname]
    show ReadsBack m (offsetOf k.1 (front ++ e :: back) 4) e.value
    rw [hoff]
    exact readsBack hdoc

/-- `reading_undoes_building` of elements of different types, for their keys and another one. -/
theorem reading_undoes_building_mixed :
    ∃ keys' : Keys, bsonGetProps (encodeDocument mixed ++ List.replicate 31 0xff)
        [(nameC, 0), (nameD, 0), (nameA, 0), (nameB, 0)] = some (((3 : ℕ) : ℤ), keys') ∧
      keys'.map (·.1) = [nameC, nameD, nameA, nameB] ∧
      ∀ k ∈ keys', ((∀ e ∈ mixed, e.name ≠ k.1) → k.2 = -1) ∧ ∀ e ∈ mixed, e.name = k.1 →
        ReadsBack (encodeDocument mixed ++ List.replicate 31 0xff) k.2 e.value :=
  reading_undoes_building built_mixed (by decide) (by decide)

end Elements

end OlivePiccolo.Bson
