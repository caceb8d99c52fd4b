import OlivePiccolo.Bson.Lookup

/-!
# Documents are uniquely decodable

No two lists of elements have the same encoding. Values of one type are read from the left: a
string ends where its length says, a name at its NUL and the elements of a document at a byte that
is no type code, so what follows a value begins at the same place, too (`Value.encode_append_inj`).
-/

namespace OlivePiccolo.Bson

section Parts

variable {l l' r r' : List UInt8} {n v v' : ℕ}

theorem cstring_append_inj {s s' : CString} (h : s.encode ++ r = s'.encode ++ r') :
    s = s' ∧ r = r' := by
  obtain ⟨s, hs⟩ := s
  obtain ⟨s', hs'⟩ := s'
  simp only [CString.encode, List.append_assoc, List.cons_append, List.nil_append] at h
  simp only [CString.mk.injEq]
  induction s generalizing s' with
  | nil =>
    cases s' with
    | nil => exact ⟨rfl, (List.cons.inj h).2⟩
    | cons c s' => exact absurd (List.cons.inj h).1 (List.ne_and_not_mem_of_not_mem_cons hs').1
  | cons c s ih =>
    cases s' with
    | nil => exact absurd (List.cons.inj h).1.symm (List.ne_and_not_mem_of_not_mem_cons hs).1
    | cons c' s' =>
      obtain ⟨hc, htail⟩ := List.cons.inj h
      obtain ⟨hs, hr⟩ := ih (List.ne_and_not_mem_of_not_mem_cons hs).2 s'
        (List.ne_and_not_mem_of_not_mem_cons hs').2 htail
      exact ⟨by rw [hc, hs], hr⟩

theorem leBytes_append_inj (hv : v < 256 ^ n) (hv' : v' < 256 ^ n)
    (h : leBytes n v ++ r = leBytes n v' ++ r') : v = v' ∧ r = r' := by
  obtain ⟨hbytes, hr⟩ := List.append_inj h (by rw [leBytes_length, leBytes_length])
  have hnat := congrArg leNat hbytes
  rw [leNat_leBytes hv, leNat_leBytes hv'] at hnat
  exact ⟨hnat, hr⟩

theorem vector_append_inj {b b' : List.Vector UInt8 n} (h : b.toList ++ r = b'.toList ++ r') :
    b = b' ∧ r = r' := by
  obtain ⟨hb, hr⟩ := List.append_inj h (by rw [List.Vector.toList_length, List.Vector.toList_length])
  exact ⟨List.Vector.toList_injective hb, hr⟩

theorem encodeString_append_inj (hl : (encodeString l).length < 2 ^ 32)
    (hl' : (encodeString l').length < 2 ^ 32) (h : encodeString l ++ r = encodeString l' ++ r') :
    l = l' ∧ r = r' := by
  rw [encodeString_length] at hl hl'
  simp only [encodeString, List.append_assoc] at h
  obtain ⟨hlen, h⟩ := leBytes_append_inj (by omega) (by omega) h
  obtain ⟨hl, h⟩ := List.append_inj h (by omega)
  exact ⟨hl, (List.append_inj h rfl).2⟩

/-- The lengths of two documents need not be compared: their elements say where they end. -/
theorem encodeBody_append_inj (h : encodeBody l ++ r = encodeBody l' ++ r') :
    l ++ 0 :: r = l' ++ 0 :: r' := by
  simp only [encodeBody, List.append_assoc, List.cons_append, List.nil_append] at h
  exact (List.append_inj h (by rw [leBytes_length, leBytes_length])).2

end Parts

mutual

/-- Values of one type. -/
theorem Value.encode_append_inj : ∀ {v v' : Value} {r r' : List UInt8},
    v.typeCode = v'.typeCode → v.encode.length < 2 ^ 32 → v'.encode.length < 2 ^ 32 →
      v.encode ++ r = v'.encode ++ r' → v = v' ∧ r = r' := by
  intro v v' r r' htype hv hv' h
  cases v <;> cases v' <;> try (simp [Value.typeCode] at htype; done)
  all_goals
    simp only [Value.encode, List.append_assoc, List.length_append] at hv hv' h
  case double.double | objectId.objectId | utcDatetime.utcDatetime | timestamp.timestamp |
      int64.int64 | decimal128.decimal128 =>
    obtain ⟨rfl, hr⟩ := vector_append_inj h
    exact ⟨rfl, hr⟩
  case string.string | code.code | symbol.symbol =>
    obtain ⟨rfl, hr⟩ := encodeString_append_inj hv hv' h
    exact ⟨rfl, hr⟩
  case document.document es es' | array.array es es' =>
    rw [encodeBody_length] at hv hv'
    obtain ⟨rfl, hr⟩ := encodeElements_append_inj (by omega) (by omega) (encodeBody_append_inj h)
    exact ⟨rfl, hr⟩
  case binary.binary t bytes t' bytes' =>
    rw [leBytes_length, List.length_cons] at hv hv'
    obtain ⟨hlen, hrest⟩ := leBytes_append_inj (by omega) (by omega) h
    obtain ⟨ht, hbytes⟩ := List.cons.inj hrest
    obtain ⟨rfl, hr⟩ := List.append_inj hbytes hlen
    exact ⟨by rw [ht], hr⟩
  case undefined.undefined | null.null => exact ⟨rfl, h⟩
  case boolean.boolean b b' =>
    obtain ⟨hb, hr⟩ := List.cons.inj h
    cases b <;> cases b' <;> first | exact ⟨rfl, hr⟩ | exact absurd hb (by decide)
  case regex.regex =>
    obtain ⟨hpattern, hrest⟩ := cstring_append_inj h
    obtain ⟨hoptions, hr⟩ := cstring_append_inj hrest
    exact ⟨by rw [hpattern, hoptions], hr⟩
  case dbPointer.dbPointer =>
    obtain ⟨hs, hrest⟩ := encodeString_append_inj (by omega) (by omega) h
    obtain ⟨hbytes, hr⟩ := vector_append_inj hrest
    exact ⟨by rw [hs, hbytes], hr⟩
  case codeWithScope.codeWithScope s es s' es' =>
    rw [encodeBody_length] at hv hv'
    obtain ⟨-, hrest⟩ := List.append_inj h (by rw [leBytes_length, leBytes_length])
    obtain ⟨hs, hscope⟩ := encodeString_append_inj (by omega) (by omega) hrest
    obtain ⟨hes, hr⟩ :=
      encodeElements_append_inj (by omega) (by omega) (encodeBody_append_inj hscope)
    exact ⟨by rw [hs, hes], hr⟩
  case int32.int32 i i' =>
    obtain ⟨hi, hr⟩ := leBytes_append_inj i.isLt i'.isLt h
    exact ⟨congrArg _ (BitVec.eq_of_toNat_eq hi), hr⟩

/-- The elements of a document, up to the NUL at its end. -/
theorem encodeElements_append_inj : ∀ {es es' : List Element} {r r' : List UInt8},
    (encodeElements es).length < 2 ^ 32 → (encodeElements es').length < 2 ^ 32 →
      encodeElements es ++ 0 :: r = encodeElements es' ++ 0 :: r' → es = es' ∧ r = r'
  | [], [], _, _, _, _, h => ⟨rfl, (List.cons.inj h).2⟩
  | [], .mk n v :: _, _, _, _, _, h => by
    rw [encodeElements, encodeElements, Element.encode] at h
    exact absurd (List.cons.inj h).1.symm v.typeCode_ne_zero
  | .mk n v :: _, [], _, _, _, _, h => by
    rw [encodeElements, encodeElements, Element.encode] at h
    exact absurd (List.cons.inj h).1 v.typeCode_ne_zero
  | .mk n v :: es, .mk n' v' :: es', _, _, hes, hes', h => by
    simp only [encodeElements, Element.encode, List.length_append, List.length_cons] at hes hes'
    simp only [encodeElements, Element.encode, List.append_assoc, List.cons_append] at h
    obtain ⟨htype, helement⟩ := List.cons.inj h
    obtain ⟨hn, hvalue⟩ := cstring_append_inj helement
    obtain ⟨hv, hrest⟩ := Value.encode_append_inj htype (by omega) (by omega) hvalue
    obtain ⟨hes, hr⟩ := encodeElements_append_inj (by omega) (by omega) hrest
    exact ⟨by rw [hn, hv, hes], hr⟩

end

/-- **Unique decoding.** A memory starts with the encoding of one list of elements at most. -/
theorem IsDocument.unique {m : Mem} {es es' : List Element} (h : IsDocument m es)
    (h' : IsDocument m es') : es = es' := by
  obtain ⟨back, hback⟩ := Mem.hasAt_zero.mp h.hasAt
  obtain ⟨back', hback'⟩ := Mem.hasAt_zero.mp h'.hasAt
  have hlen := encodeDocument_length es
  have hlen' := encodeDocument_length es'
  have hlt := h.length_lt
  have hlt' := h'.length_lt
  have hsame := encodeBody_append_inj (hback.symm.trans hback')
  exact (encodeElements_append_inj (by omega) (by omega) hsame).1

end OlivePiccolo.Bson
