import OlivePiccolo.Bson.Build

/-!
# Binaries that turn out shorter

A binary is reserved at the length it has at most, filled in part, and shrunk by
`bson_shrink_binary` to what it has in the end. What was reserved behind stays as it is, outside of
the document.
-/

namespace OlivePiccolo.Bson

/-- `bson_shrink_binary`. Its result is 0, or -1 if it does nothing because of an error. -/
def bsonShrinkBinary (doc : Mem) (buf binlen : ℤ) : Access (Mem × ℤ) := do
  let oldBinlen ← readUnalignedInt doc (buf - 5)
  let last ← doc.peek (buf + oldBinlen)
  if last ≠ 0 then return (doc, -1)
  else if oldBinlen < binlen then return (doc, -1)
  else if oldBinlen = binlen then return (doc, 0)
  else
    let m ← doc.poke (buf + binlen) 0x00
    let m ← writeUnalignedInt m (buf - 5) binlen
    let oldDoclen ← readUnalignedInt m 0
    let m ← writeUnalignedInt m 0 (oldDoclen - (oldBinlen - binlen))
    return (m, 0)

/-! ## The parts of a document that ends with a binary -/

/-- Where `bson_set_binary_generic` puts the data of a binary behind the elements of a document. -/
def dataAt (body : List UInt8) (key : CString) : ℕ :=
  body.length + 5 + key.encode.length + 5

/-- The elements in front of a binary, and its type and name. -/
def beforeData (body : List UInt8) (key : CString) : List UInt8 :=
  body ++ 0x05 :: key.encode

/-- The length of the document that ends with a binary of `n` bytes. -/
def dataEnd (body : List UInt8) (key : CString) (n : ℕ) : ℕ := dataAt body key + n + 1

/-- A memory in which these are the length of the document and that of its last binary. -/
def dataParts (body : List UInt8) (key : CString) (doclen binlen : ℕ) (tail : List UInt8) : Mem :=
  leBytes 4 doclen ++ beforeData body key ++ leBytes 4 binlen ++ tail

section Parts

variable {body : List UInt8} {key : CString} {doclen binlen : ℕ} {tail : List UInt8}

theorem beforeData_length (body : List UInt8) (key : CString) :
    (beforeData body key).length + 9 = dataAt body key := by
  rw [beforeData, dataAt, List.length_append, List.length_cons]
  omega

theorem append_binaryElem_length (body : List UInt8) (key : CString) (bytes : List UInt8) :
    (body ++ binaryElem key 0 bytes).length + 5 = dataEnd body key bytes.length := by
  rw [List.length_append, binaryElem_length, dataEnd, dataAt]
  omega

/-- A document that ends with a binary. -/
theorem encodeBody_binary (body : List UInt8) (key : CString) (bytes : List UInt8) :
    encodeBody (body ++ binaryElem key 0 bytes) =
      dataParts body key (dataEnd body key bytes.length) bytes.length ([0] ++ bytes ++ [0]) := by
  rw [encodeBody, append_binaryElem_length, binaryElem, dataParts, beforeData]
  simp only [List.append_assoc, List.cons_append, List.nil_append]

/-- The memory behind the call of `bson_set_binary_generic`. -/
theorem appended_binary (m : Mem) (body : List UInt8) (key : CString) (n : ℕ) :
    ∃ back, ∀ bytes : List UInt8, bytes.length = n →
      appended m body (binaryElem key 0 bytes) =
        dataParts body key (dataEnd body key n) n ([0] ++ bytes ++ ([0] ++ back)) := by
  refine ⟨m.drop (body.length + 5 + (1 + key.encode.length + 4 + 1 + n)), ?_⟩
  rintro bytes rfl
  rw [appended, encodeBody_binary, binaryElem_length, dataParts, dataParts]
  simp only [List.append_assoc]

theorem readUnalignedInt_binlen (h : binlen < 2 ^ 31) :
    readUnalignedInt (dataParts body key doclen binlen tail) (dataAt body key - 5) =
      some (binlen : ℤ) := by
  have hpos : (dataAt body key : ℤ) - 5 = (leBytes 4 doclen ++ beforeData body key).length := by
    have hbefore := beforeData_length body key
    rw [List.length_append, leBytes_length]
    omega
  rw [hpos]
  exact readUnalignedInt_length (Mem.hasAt_append _ _ _) h

theorem writeUnalignedInt_binlen {v : ℕ} (h : v < 2 ^ 31) :
    writeUnalignedInt (dataParts body key doclen binlen tail) (dataAt body key - 5) v =
      some (dataParts body key doclen v tail) := by
  have hpos : (dataAt body key : ℤ) - 5 = (leBytes 4 doclen ++ beforeData body key).length := by
    have hbefore := beforeData_length body key
    rw [List.length_append, leBytes_length]
    omega
  rw [writeUnalignedInt_eq h, hpos]
  exact Mem.pokes_eq _ _ _ (by rw [leBytes_length, leBytes_length])

theorem readUnalignedInt_doclen (h : doclen < 2 ^ 31) :
    readUnalignedInt (dataParts body key doclen binlen tail) 0 = some (doclen : ℤ) := by
  unfold dataParts
  rw [List.append_assoc, List.append_assoc]
  exact readUnalignedInt_length (Mem.hasAt_prefix _ _) h

theorem writeUnalignedInt_doclen {v : ℕ} (h : v < 2 ^ 31) :
    writeUnalignedInt (dataParts body key doclen binlen tail) 0 v =
      some (dataParts body key v binlen tail) := by
  have hwrite := Mem.pokes_eq (l := leBytes 4 v) [] (leBytes 4 doclen)
    (beforeData body key ++ (leBytes 4 binlen ++ tail)) (by rw [leBytes_length, leBytes_length])
  rw [writeUnalignedInt_eq h, dataParts, dataParts]
  simpa only [List.append_assoc, List.nil_append, List.length_nil, Int.natCast_zero] using hwrite

/-- Bytes are written behind the start of the data. -/
theorem pokes_data (body : List UInt8) (key : CString) (doclen binlen : ℕ)
    (front old bytes rest : List UInt8) (h : old.length = bytes.length) :
    (dataParts body key doclen binlen ([0] ++ front ++ old ++ rest)).pokes
        (dataAt body key + front.length) bytes =
      some (dataParts body key doclen binlen ([0] ++ front ++ bytes ++ rest)) := by
  have hwrite := Mem.pokes_eq
    (leBytes 4 doclen ++ beforeData body key ++ leBytes 4 binlen ++ ([0] ++ front)) old rest h
  have hpos : (dataAt body key : ℤ) + front.length =
      (leBytes 4 doclen ++ beforeData body key ++ leBytes 4 binlen ++ ([0] ++ front)).length := by
    have hbefore := beforeData_length body key
    simp only [List.length_append, leBytes_length, List.length_singleton]
    omega
  rw [hpos, dataParts, dataParts]
  simpa only [List.append_assoc] using hwrite

theorem peek_data (body : List UInt8) (key : CString) (doclen binlen : ℕ)
    (front rest : List UInt8) (b : UInt8) :
    (dataParts body key doclen binlen ([0] ++ front ++ ([b] ++ rest))).peek
      (dataAt body key + front.length) = some b := by
  have hat := Mem.hasAt_append
    (leBytes 4 doclen ++ beforeData body key ++ leBytes 4 binlen ++ ([0] ++ front)) [b] rest
  have hpos : (dataAt body key : ℤ) + front.length =
      (leBytes 4 doclen ++ beforeData body key ++ leBytes 4 binlen ++ ([0] ++ front)).length := by
    have hbefore := beforeData_length body key
    simp only [List.length_append, leBytes_length, List.length_singleton]
    omega
  rw [hpos, dataParts]
  simpa only [List.append_assoc] using hat.peek

end Parts

/-! ## Filling and shrinking -/

/-- The first part of the buffer of the data is filled. -/
theorem appended_fill_data (m : Mem) (body : List UInt8) (key : CString)
    (old bytes rest : List UInt8) (h : old.length = bytes.length) :
    (appended m body (binaryElem key 0 (old ++ rest))).pokes (dataAt body key) bytes =
      some (appended m body (binaryElem key 0 (bytes ++ rest))) := by
  have hlen : (bytes ++ rest).length = (old ++ rest).length := by
    rw [List.length_append, List.length_append, h]
  obtain ⟨back, hparts⟩ := appended_binary m body key (old ++ rest).length
  have hfill := pokes_data body key (dataEnd body key (old ++ rest).length) (old ++ rest).length []
    old bytes (rest ++ ([0] ++ back)) h
  rw [hparts _ rfl, hparts _ hlen]
  simpa only [List.append_assoc, List.append_nil, List.nil_append, List.length_nil,
    Int.natCast_zero, add_zero] using hfill

/-- The end of a binary is cut off. -/
theorem bsonShrinkBinary_parts (body : List UInt8) (key : CString) {front rest : List UInt8}
    (back : List UInt8) (cut : UInt8) {n : ℕ}
    (hn : n = front.length + rest.length + 1) (hsize : dataEnd body key n < 2 ^ 31) :
    bsonShrinkBinary (dataParts body key (dataEnd body key n) n
          ([0] ++ (front ++ cut :: rest) ++ ([0] ++ back))) (dataAt body key) front.length =
      some (dataParts body key (dataEnd body key front.length) front.length
        ([0] ++ (front ++ 0 :: rest) ++ ([0] ++ back)), 0) := by
  have hend : dataEnd body key n = dataAt body key + n + 1 := rfl
  have hend' : dataEnd body key front.length = dataAt body key + front.length + 1 := rfl
  have hdiff : (dataEnd body key n : ℤ) - (n - front.length) =
      (dataEnd body key front.length : ℕ) := by omega
  have hlast : (dataParts body key (dataEnd body key n) n
      ([0] ++ (front ++ cut :: rest) ++ ([0] ++ back))).peek (dataAt body key + n) = some 0 := by
    have hlen : (front ++ cut :: rest).length = n := by
      rw [List.length_append, List.length_cons, hn]
      omega
    rw [← hlen]
    exact peek_data _ _ _ _ _ back 0
  have hcut : (dataParts body key (dataEnd body key n) n
      ([0] ++ (front ++ cut :: rest) ++ ([0] ++ back))).poke (dataAt body key + front.length) 0 =
        some (dataParts body key (dataEnd body key n) n
          ([0] ++ (front ++ 0 :: rest) ++ ([0] ++ back))) := by
    rw [← Mem.pokes_singleton]
    simpa only [List.append_assoc, List.cons_append, List.nil_append] using
      pokes_data body key (dataEnd body key n) n front [cut] [0] (rest ++ 0 :: back) rfl
  unfold bsonShrinkBinary
  rw [readUnalignedInt_binlen (by omega), Option.bind_eq_bind, Option.bind_some, hlast,
    Option.bind_eq_bind, Option.bind_some, if_neg (not_not.mpr rfl), if_neg (by omega),
    if_neg (by omega), hcut, Option.bind_eq_bind, Option.bind_some,
    writeUnalignedInt_binlen (by omega), Option.bind_some, readUnalignedInt_doclen hsize,
    Option.bind_some, hdiff,
    writeUnalignedInt_doclen (by omega)]
  rfl

/-- The binary at the end of a document is cut to its first bytes. -/
theorem bsonShrinkBinary_appended (m : Mem) (body : List UInt8) (key : CString)
    (bytes : List UInt8) {n : ℕ} (hn : n ≤ bytes.length)
    (hsize : dataEnd body key bytes.length < 2 ^ 31) :
    ∃ m', bsonShrinkBinary (appended m body (binaryElem key 0 bytes)) (dataAt body key) n =
        some (m', 0) ∧
      m'.HasAt 0 (encodeBody (body ++ binaryElem key 0 (bytes.take n))) ∧
      m'.length = (appended m body (binaryElem key 0 bytes)).length := by
  have hend : ∀ n, dataEnd body key n = dataAt body key + n + 1 := fun _ => rfl
  obtain ⟨back, hparts⟩ := appended_binary m body key bytes.length
  rcases Nat.lt_or_eq_of_le hn with hlt | rfl
  · obtain ⟨cut, rest, hbytes⟩ : ∃ cut rest, bytes = bytes.take n ++ cut :: rest :=
      ⟨_, _, by rw [← List.drop_eq_getElem_cons hlt, List.take_append_drop]⟩
    have htake : (bytes.take n).length = n := List.length_take_of_le hn
    have hlen : bytes.length = (bytes.take n).length + rest.length + 1 := by
      conv_lhs => rw [hbytes]
      rw [List.length_append, List.length_cons]
      omega
    have hshrink := bsonShrinkBinary_parts body key back cut hlen hsize
    rw [← hbytes, htake] at hshrink
    rw [hparts _ rfl]
    refine ⟨_, hshrink, ?_, ?_⟩
    · have hdoc := encodeBody_binary body key (bytes.take n)
      rw [htake] at hdoc
      rw [Mem.hasAt_zero, hdoc]
      refine ⟨rest ++ ([0] ++ back), ?_⟩
      simp only [dataParts, List.append_assoc, List.cons_append, List.nil_append]
    · conv_rhs => rw [hbytes]
      simp only [dataParts, List.length_append, leBytes_length, List.length_cons]
  · have hpeek := peek_data body key (dataEnd body key bytes.length) bytes.length bytes back 0
    refine ⟨appended m body (binaryElem key 0 bytes), ?_, ?_, rfl⟩
    · rw [hparts _ rfl, bsonShrinkBinary, readUnalignedInt_binlen (by rw [hend] at hsize; omega),
        Option.bind_eq_bind, Option.bind_some, hpeek, Option.bind_eq_bind, Option.bind_some,
        if_neg (not_not.mpr rfl), if_neg (lt_irrefl _), if_pos rfl]
      rfl
    · rw [List.take_length]
      exact Mem.hasAt_prefix _ _

/-! ## Behind the elements of a document -/

end OlivePiccolo.Bson
