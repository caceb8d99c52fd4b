import OlivePiccolo.Bson.Reader

/-!
# Writing documents

The writers of `bson.c`. Each one takes the place of the NUL at the end of a document with the type
of the new element, writes its name, its value and a new NUL behind, and then the new length at the
start. For `NULL` in the place of a document it only measures the element.
-/

namespace OlivePiccolo.Bson

/-! ## The code -/

/-- `write_unaligned_int`. -/
def writeUnalignedInt (m : Mem) (p len : ℤ) : Access Mem :=
  m.pokes p (leBytes 4 (len % 2 ^ 32).toNat)

/-- `bson_create_empty_document`. -/
def bsonCreateEmptyDocument (doc : Mem) : Access Mem := doc.pokes 0 [5, 0, 0, 0, 0]

/-- The document, or `NULL`, after a call, and what the call returns. -/
abbrev Written := Access (Option Mem × ℤ)

/-- `if (doc)`. -/
def ifDoc (doc : Option Mem) (write : Mem → Access Mem) : Access (Option Mem) :=
  match doc with
  | none => some none
  | some data => (write data).map some

/-- `bson_set_string`. -/
def bsonSetString (doc : Option Mem) (key string : CString) : Written := do
  let keylen := toInt32 key.encode.length
  let datalen := toInt32 string.encode.length
  let doc' ← ifDoc doc fun data => do
    let fin ← readUnalignedInt data 0
    let m ← data.poke (fin - 1) 0x02
    let m ← m.memcpy fin key.encode 0 keylen
    let m ← writeUnalignedInt m (fin + keylen) datalen
    let m ← m.memcpy (fin + keylen + 4) string.encode 0 datalen
    let m ← m.poke (fin + keylen + 4 + datalen) 0x00
    writeUnalignedInt m 0 (fin + keylen + 4 + datalen + 1)
  return (doc', (1 + keylen + 4 + datalen).bmod (2 ^ 32))

/-- `set_subelement`. The value is copied from `ptr` in another block of memory. -/
def setSubelement (doc : Option Mem) (key : CString) (type : UInt8) (src : Mem) (ptr len : ℤ) :
    Written := do
  let keylen := toInt32 key.encode.length
  let doc' ← ifDoc doc fun data => do
    let fin ← readUnalignedInt data 0
    let m ← data.poke (fin - 1) type
    let m ← m.memcpy fin key.encode 0 keylen
    let m ← m.memcpy (fin + keylen) src ptr len
    let m ← m.poke (fin + keylen + len) 0x00
    writeUnalignedInt m 0 (fin + keylen + len + 1)
  return (doc', (1 + keylen + len).bmod (2 ^ 32))

/-- `set_subdocument`. -/
def setSubdocument (doc : Option Mem) (key : CString) (type : UInt8) (subDoc : Mem) : Written := do
  setSubelement doc key type subDoc 0 (← readUnalignedInt subDoc 0)

/-- `bson_set_subdocument`. -/
def bsonSetSubdocument (doc : Option Mem) (key : CString) (subDoc : Mem) : Written :=
  setSubdocument doc key 0x03 subDoc

/-- `bson_set_array`. -/
def bsonSetArray (doc : Option Mem) (key : CString) (subDoc : Mem) : Written :=
  setSubdocument doc key 0x04 subDoc

/-- `bson_set_boolean`. -/
def bsonSetBoolean (doc : Option Mem) (key : CString) (value : ℤ) : Written :=
  setSubelement doc key 0x08 [if value ≠ 0 then 1 else 0] 0 1

/-- `bson_set_int32`. -/
def bsonSetInt32 (doc : Option Mem) (key : CString) (value : BitVec 32) : Written :=
  setSubelement doc key 0x10 (leBytes 4 value.toNat) 0 4

/-- `bson_set_null`. -/
def bsonSetNull (doc : Option Mem) (key : CString) : Written := setSubelement doc key 0x0a [] 0 0

/-- `bson_set_binary`. What it stores at `bufptr`, if that is not `NULL`, is the last result. -/
def bsonSetBinary (doc : Option Mem) (key : CString) (binlen : ℤ) (bufptr : Bool)
    (subtype : UInt8) : Access (Option Mem × ℤ × Option ℤ) :=
  if binlen < 0 then some (doc, -1, none)
  else do
    let keylen := toInt32 key.encode.length
    let ret := (1 + keylen + 4 + 1 + binlen).bmod (2 ^ 32)
    match doc with
    | none => return (none, ret, none)
    | some data =>
      let fin ← readUnalignedInt data 0
      let m ← data.poke (fin - 1) 0x05
      let m ← m.memcpy fin key.encode 0 keylen
      let m ← writeUnalignedInt m (fin + keylen) binlen
      let m ← m.poke (fin + keylen + 4) subtype
      let buf := if bufptr then some (fin + keylen + 4 + 1) else none
      let m ← m.memset (fin + keylen + 4 + 1) 0 binlen
      let m ← m.poke (fin + keylen + 4 + 1 + binlen) 0x00
      let m ← writeUnalignedInt m 0 (fin + keylen + 4 + 1 + binlen + 1)
      return (some m, ret, buf)

/-- `bson_set_binary_generic`. -/
def bsonSetBinaryGeneric (doc : Option Mem) (key : CString) (binlen : ℤ) (bufptr : Bool) :
    Access (Option Mem × ℤ × Option ℤ) := bsonSetBinary doc key binlen bufptr 0x00

/-- `bson_set_element`. -/
def bsonSetElement (doc1 : Option Mem) (key : CString) (doc2 : Option Mem) (offset : ℤ) :
    Written :=
  match doc2 with
  | none => some (doc1, 0)
  | some src =>
    if offset < 4 then some (doc1, 0)
    else do
      let fin ← readUnalignedInt src 0
      if fin ≤ offset + 1 then return (doc1, 0)
      else
        let b ← src.peek (fin - 1)
        if b ≠ 0 then return (doc1, 0)
        else
          let type ← src.peek offset
          match ← skipString src (offset + 1) fin with
          | none => return (doc1, 0)
          | some data =>
            let elmlen ← measureValue src type data fin
            if elmlen < 0 then return (doc1, 0)
            else setSubelement doc1 key type src data elmlen

/-- `bson_measure_string`. -/
def bsonMeasureString (key string : CString) : Access ℤ := do
  return (← bsonSetString none key string).2

/-- `bson_measure_subdocument`. -/
def bsonMeasureSubdocument (key : CString) (subDoc : Mem) : Access ℤ := do
  return (← setSubdocument none key 0x03 subDoc).2

/-- `bson_measure_array`. -/
def bsonMeasureArray (key : CString) (subDoc : Mem) : Access ℤ := do
  return (← setSubdocument none key 0x04 subDoc).2

/-- `bson_measure_boolean`. -/
def bsonMeasureBoolean (key : CString) : Access ℤ := do return (← bsonSetBoolean none key 0).2

/-- `bson_measure_int32`. -/
def bsonMeasureInt32 (key : CString) : Access ℤ := do return (← bsonSetInt32 none key 0).2

/-- `bson_measure_null`. -/
def bsonMeasureNull (key : CString) : Access ℤ := do return (← bsonSetNull none key).2

/-- `bson_measure_binary`. -/
def bsonMeasureBinary (key : CString) (binlen : ℤ) : Access ℤ := do
  return (← bsonSetBinaryGeneric none key binlen false).2.1

/-- `bson_measure_element`. -/
def bsonMeasureElement (key : CString) (doc : Option Mem) (offset : ℤ) : Access ℤ := do
  return (← bsonSetElement none key doc offset).2

/-- `bson_measure_document`. -/
def bsonMeasureDocument (doc : Mem) : Access ℤ := readUnalignedInt doc 0

/-! ## Appending -/

/-- The memory with an element appended to the document at its start. -/
def appended (m : Mem) (body elem : List UInt8) : Mem :=
  encodeBody (body ++ elem) ++ m.drop (body.length + 5 + elem.length)

section Append

variable {m : Mem} {body elem : List UInt8} {key : CString}

theorem readUnalignedInt_body (h : m.HasAt 0 (encodeBody body)) (hsize : body.length + 5 < 2 ^ 31) :
    readUnalignedInt m 0 = some ((body.length + 5 : ℕ) : ℤ) := by
  rw [encodeBody, List.append_assoc] at h
  exact readUnalignedInt_length h.left hsize

theorem writeUnalignedInt_eq {v : ℕ} {p : ℤ} (hv : v < 2 ^ 31) :
    writeUnalignedInt m p v = m.pokes p (leBytes 4 v) := by
  rw [writeUnalignedInt]
  congr 2
  omega

/-- The element takes the place of the NUL, with a NUL behind it, and the length is written. -/
theorem appended_eq {p len : ℤ} {l : List UInt8} (h : m.HasAt 0 (encodeBody body))
    (hroom : body.length + 5 + elem.length ≤ m.length)
    (hsize : body.length + 5 + elem.length < 2 ^ 31) (hl : l = elem ++ [0])
    (hp : p = body.length + 4) (hlen : len = body.length + 5 + elem.length) :
    ((m.pokes p l).bind fun m => writeUnalignedInt m 0 len) = some (appended m body elem) := by
  obtain ⟨back, rfl⟩ := Mem.hasAt_zero.mp h
  have hback : elem.length ≤ back.length := by
    rw [List.length_append, encodeBody_length] at hroom
    omega
  have hnat : (len % 2 ^ 32).toNat = (body ++ elem).length + 5 := by
    rw [hlen, List.length_append]
    omega
  -- the memory in parts: length, elements, what is written over, the rest
  have hparts : encodeBody body ++ back = (leBytes 4 (body.length + 5) ++ body) ++
      (0 :: back.take elem.length) ++ back.drop elem.length := by
    rw [encodeBody]
    simp only [List.append_assoc, List.cons_append, List.nil_append, List.take_append_drop]
  have hwrite := Mem.pokes_eq (l := elem ++ [0]) (leBytes 4 (body.length + 5) ++ body)
    (0 :: back.take elem.length) (back.drop elem.length) (by
      rw [List.length_cons, List.length_take, List.length_append, List.length_singleton]
      omega)
  have hpos : p = (leBytes 4 (body.length + 5) ++ body).length := by
    rw [hp, List.length_append, leBytes_length]
    omega
  have hlength := Mem.pokes_eq (l := leBytes 4 ((body ++ elem).length + 5)) []
    (leBytes 4 (body.length + 5)) (body ++ (elem ++ [0]) ++ back.drop elem.length)
    (by rw [leBytes_length, leBytes_length])
  have hdrop : (encodeBody body ++ back).drop (body.length + 5 + elem.length) =
      back.drop elem.length := by
    rw [← encodeBody_length body, List.drop_length_add_append]
  rw [appended, hdrop, hparts, hl, hpos, hwrite, Option.bind_some, writeUnalignedInt, hnat,
    encodeBody]
  simpa only [List.nil_append, List.append_assoc, List.length_nil, Int.natCast_zero] using hlength

/-- A writer appends the bytes of an element, and returns how many there are. -/
structure Appends (set : Option Mem → Written) (elem : List UInt8) : Prop where
  measure : elem.length < 2 ^ 31 → set none = some (none, (elem.length : ℤ))
  append : ∀ {m : Mem} {body : List UInt8}, m.HasAt 0 (encodeBody body) →
    body.length + 5 + elem.length ≤ m.length → body.length + 5 + elem.length < 2 ^ 31 →
      set (some m) = some (some (appended m body elem), (elem.length : ℤ))

theorem memcpy_encode (m : Mem) (p : ℤ) (s : CString) :
    m.memcpy p s.encode 0 s.encode.length = m.pokes p s.encode :=
  Mem.HasAt.memcpy (Mem.hasAt_self _)

theorem bmod_of_lt {n : ℕ} {i : ℤ} (hi : i = n) (h : n < 2 ^ 31) : i.bmod (2 ^ 32) = n := by
  rw [hi]
  exact toInt32_of_lt h

theorem setSubelement_appends (key : CString) (type : UInt8) {src : Mem} {ptr len : ℤ}
    {bytes : List UInt8} (hsrc : src.HasAt ptr bytes) (hbytes : len = bytes.length) :
    Appends (setSubelement · key type src ptr len) (type :: (key.encode ++ bytes)) := by
  subst hbytes
  have hlen : (type :: (key.encode ++ bytes)).length = 1 + key.encode.length + bytes.length := by
    rw [List.length_cons, List.length_append]
    omega
  have hret (hsize : (type :: (key.encode ++ bytes)).length < 2 ^ 31) :
      toInt32 key.encode.length = key.encode.length ∧
        (1 + (key.encode.length : ℤ) + bytes.length).bmod (2 ^ 32) =
          (type :: (key.encode ++ bytes)).length :=
    ⟨toInt32_of_lt (by omega), bmod_of_lt (by omega) hsize⟩
  constructor
  · intro hsize
    obtain ⟨hkey, hbmod⟩ := hret hsize
    simp only [setSubelement, ifDoc, hkey, hbmod, Option.bind_eq_bind, Option.bind_some,
      Option.pure_def]
  · intro m body h hroom hsize
    obtain ⟨hkey, hbmod⟩ := hret (by omega)
    simp only [setSubelement, ifDoc, hkey, hbmod, readUnalignedInt_body h (by omega), hsrc.memcpy,
      memcpy_encode, ← Mem.pokes_singleton, Option.bind_eq_bind, Option.bind_some, Option.pure_def]
    rw [Mem.pokes_bind_pokes, Mem.pokes_bind_pokes, Mem.pokes_bind_pokes,
      appended_eq h hroom hsize (by simp) (by omega) (by omega)]
    · rfl
    all_goals simp only [List.length_append, List.length_singleton]; omega

theorem bsonSetString_appends (key string : CString) :
    Appends (bsonSetString · key string)
      (0x02 :: (key.encode ++ encodeString string.bytes)) := by
  have hlen : (0x02 :: (key.encode ++ encodeString string.bytes)).length =
      1 + key.encode.length + 4 + string.encode.length := by
    rw [List.length_cons, List.length_append, encodeString_length, CString.encode_length,
      CString.encode_length]
    omega
  have hret (hsize : (0x02 :: (key.encode ++ encodeString string.bytes)).length < 2 ^ 31) :
      toInt32 key.encode.length = key.encode.length ∧
        toInt32 string.encode.length = string.encode.length ∧
        (1 + (key.encode.length : ℤ) + 4 + string.encode.length).bmod (2 ^ 32) =
          (0x02 :: (key.encode ++ encodeString string.bytes)).length :=
    ⟨toInt32_of_lt (by omega), toInt32_of_lt (by omega), bmod_of_lt (by omega) hsize⟩
  constructor
  · intro hsize
    obtain ⟨hkey, hdata, hbmod⟩ := hret hsize
    simp only [bsonSetString, ifDoc, hkey, hdata, hbmod, Option.bind_eq_bind, Option.bind_some,
      Option.pure_def]
  · intro m body h hroom hsize
    obtain ⟨hkey, hdata, hbmod⟩ := hret (by omega)
    have hbytes : [0x02] ++ key.encode ++ leBytes 4 string.encode.length ++ string.encode ++ [0] =
        0x02 :: (key.encode ++ encodeString string.bytes) ++ [0] := by
      rw [CString.encode_length]
      simp only [encodeString, CString.encode, List.append_assoc, List.cons_append, List.nil_append]
    simp only [bsonSetString, ifDoc, hkey, hdata, hbmod, readUnalignedInt_body h (by omega),
      writeUnalignedInt_eq (v := string.encode.length) (by omega), memcpy_encode,
      ← Mem.pokes_singleton, Option.bind_eq_bind, Option.bind_some, Option.pure_def]
    rw [Mem.pokes_bind_pokes, Mem.pokes_bind_pokes, Mem.pokes_bind_pokes,
      Mem.pokes_bind_pokes, appended_eq h hroom hsize hbytes (by omega) (by omega)]
    · rfl
    all_goals simp only [List.length_append, List.length_singleton, leBytes_length]; omega

/-- The bytes of a binary element. -/
def binaryElem (key : CString) (subtype : UInt8) (bytes : List UInt8) : List UInt8 :=
  0x05 :: (key.encode ++ (leBytes 4 bytes.length ++ subtype :: bytes))

theorem binaryElem_length (key : CString) (subtype : UInt8) (bytes : List UInt8) :
    (binaryElem key subtype bytes).length = 1 + key.encode.length + 4 + 1 + bytes.length := by
  unfold binaryElem
  simp only [List.length_cons, List.length_append, leBytes_length]
  omega

theorem bsonSetBinary_none (key : CString) (subtype : UInt8) (bytes : List UInt8) (bufptr : Bool)
    (hsize : (binaryElem key subtype bytes).length < 2 ^ 31) :
    bsonSetBinary none key bytes.length bufptr subtype =
      some (none, ((binaryElem key subtype bytes).length : ℤ), none) := by
  have hlen := binaryElem_length key subtype bytes
  have hkey : toInt32 key.encode.length = key.encode.length := toInt32_of_lt (by omega)
  have hret := bmod_of_lt (i := 1 + (key.encode.length : ℤ) + 4 + 1 + bytes.length) (by omega) hsize
  rw [bsonSetBinary, if_neg (by omega)]
  simp only [hkey, hret, Option.pure_def]

/-- The buffer for the data is filled with zeros, and its position is stored. -/
theorem bsonSetBinary_some (key : CString) (subtype : UInt8) (n : ℕ) (bufptr : Bool)
    (h : m.HasAt 0 (encodeBody body))
    (hroom : body.length + 5 + (binaryElem key subtype (List.replicate n 0)).length ≤ m.length)
    (hsize : body.length + 5 + (binaryElem key subtype (List.replicate n 0)).length < 2 ^ 31) :
    bsonSetBinary (some m) key n bufptr subtype =
      some (some (appended m body (binaryElem key subtype (List.replicate n 0))),
        ((binaryElem key subtype (List.replicate n 0)).length : ℤ),
        if bufptr then some ((body.length + 5 : ℕ) + key.encode.length + 4 + 1 : ℤ) else none) := by
  have hlen := binaryElem_length key subtype (List.replicate n 0)
  rw [List.length_replicate] at hlen
  have hkey : toInt32 key.encode.length = key.encode.length := toInt32_of_lt (by omega)
  have hret := bmod_of_lt (i := 1 + (key.encode.length : ℤ) + 4 + 1 + n) (by omega)
    (show (binaryElem key subtype (List.replicate n 0)).length < 2 ^ 31 by omega)
  have helem : [0x05] ++ key.encode ++ leBytes 4 n ++ [subtype] ++ List.replicate n 0 ++ [0] =
      binaryElem key subtype (List.replicate n 0) ++ [0] := by
    simp only [binaryElem, List.append_assoc, List.cons_append, List.nil_append,
      List.length_replicate]
  rw [bsonSetBinary, if_neg (by omega)]
  simp only [hkey, hret, readUnalignedInt_body h (by omega), writeUnalignedInt_eq (v := n) (by omega),
    memcpy_encode, Mem.memset, Int.toNat_natCast, ← Mem.pokes_singleton, Option.bind_eq_bind,
    Option.bind_some, Option.pure_def]
  rw [Mem.pokes_bind_pokes, Mem.pokes_bind_pokes, Mem.pokes_bind_pokes, Mem.pokes_bind_pokes,
    Mem.pokes_bind_pokes, ← Option.bind_assoc,
    appended_eq h hroom hsize helem (by omega) (by omega), Option.bind_some]
  all_goals
    simp only [List.length_append, List.length_singleton, leBytes_length, List.length_replicate]
    omega

/-- Filling the buffer of the data. -/
theorem appended_fill (m : Mem) (body front old bytes : List UInt8)
    (h : old.length = bytes.length) :
    (appended m body (front ++ old)).pokes (body.length + 4 + front.length : ℕ) bytes =
      some (appended m body (front ++ bytes)) := by
  have hlen : (body ++ (front ++ old)).length = (body ++ (front ++ bytes)).length := by
    simp only [List.length_append, h]
  have hfill := Mem.pokes_eq (leBytes 4 ((body ++ (front ++ bytes)).length + 5) ++ (body ++ front)) old
    ([0] ++ m.drop (body.length + 5 + (front ++ bytes).length)) h
  have hpos : (leBytes 4 ((body ++ (front ++ bytes)).length + 5) ++ (body ++ front)).length =
      body.length + 4 + front.length := by
    simp only [List.length_append, leBytes_length]
    omega
  have hdrop : (front ++ old).length = (front ++ bytes).length := by
    simp only [List.length_append, h]
  rw [hpos] at hfill
  rw [appended, appended, encodeBody, encodeBody, hlen, hdrop]
  simpa only [List.append_assoc] using hfill

end Append

end OlivePiccolo.Bson
