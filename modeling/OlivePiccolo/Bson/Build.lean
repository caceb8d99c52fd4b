import OlivePiccolo.Bson.Lookup
import OlivePiccolo.Bson.Writer

/-!
# Building documents

A document is built by `bson_create_empty_document` and any calls of the writers, which may read
documents that have been built before (`Built`). After every call the memory starts with the
encoding of the elements so far (`builder_encodes`), and a call does what it should as long as there
is room for its element.
-/

namespace OlivePiccolo.Bson

/-! ## Calls -/

/-- A call of a writer. The documents that it reads are in memories of their own. -/
inductive Call
  | string (key string : CString)
  | subdocument (key : CString) (subDoc : Mem)
  | array (key : CString) (subDoc : Mem)
  | boolean (key : CString) (value : ℤ)
  | int32 (key : CString) (value : BitVec 32)
  | null (key : CString)
  | binary (key : CString) (bytes : List UInt8)
  | element (key : CString) (doc : Mem) (offset : ℤ)

/-- `bson_set_binary_generic`, and the buffer filled afterwards. -/
def setBinaryFilled (doc : Option Mem) (key : CString) (bytes : List UInt8) : Written := do
  match ← bsonSetBinaryGeneric doc key bytes.length true with
  | (some m, ret, some buf) => return (some (← m.pokes buf bytes), ret)
  | (doc', ret, _) => return (doc', ret)

/-- The call, on a document or `NULL`. -/
def Call.run : Call → Option Mem → Written
  | string key s, doc => bsonSetString doc key s
  | subdocument key subDoc, doc => bsonSetSubdocument doc key subDoc
  | array key subDoc, doc => bsonSetArray doc key subDoc
  | boolean key value, doc => bsonSetBoolean doc key value
  | int32 key value, doc => bsonSetInt32 doc key value
  | null key, doc => bsonSetNull doc key
  | binary key bytes, doc => setBinaryFilled doc key bytes
  | element key src offset, doc => bsonSetElement doc key (some src) offset

/-- The measuring function that goes with the call. -/
def Call.measure : Call → Access ℤ
  | string key s => bsonMeasureString key s
  | subdocument key subDoc => bsonMeasureSubdocument key subDoc
  | array key subDoc => bsonMeasureArray key subDoc
  | boolean key _ => bsonMeasureBoolean key
  | int32 key _ => bsonMeasureInt32 key
  | null key => bsonMeasureNull key
  | binary key bytes => bsonMeasureBinary key bytes.length
  | element key src offset => bsonMeasureElement key (some src) offset

mutual

/-- A memory with a document that has been built at its start, and the elements of that. -/
inductive Built : Mem → List Element → Prop
  | create {buf m : Mem} (h : bsonCreateEmptyDocument buf = some m) : Built m []
  | call {m m' : Mem} {es : List Element} {c : Call} {e : Element} {ret : ℤ} (h : Built m es)
      (hadds : Adds c e) (hsize : (encodeDocument (es ++ [e])).length < 2 ^ 31)
      (hroom : (encodeDocument (es ++ [e])).length ≤ m.length)
      (hrun : c.run (some m) = some (some m', ret)) : Built m' (es ++ [e])

/-- The element that a call should add. -/
inductive Adds : Call → Element → Prop
  | string (key s : CString) : Adds (.string key s) (.mk key (.string s.bytes))
  | subdocument (key : CString) {sub : Mem} {es : List Element} (h : Built sub es) :
      Adds (.subdocument key sub) (.mk key (.document es))
  | array (key : CString) {sub : Mem} {es : List Element} (h : Built sub es) :
      Adds (.array key sub) (.mk key (.array es))
  | boolean (key : CString) (value : ℤ) :
      Adds (.boolean key value) (.mk key (.boolean (decide (value ≠ 0))))
  | int32 (key : CString) (value : BitVec 32) : Adds (.int32 key value) (.mk key (.int32 value))
  | null (key : CString) : Adds (.null key) (.mk key .null)
  | binary (key : CString) (bytes : List UInt8) :
      Adds (.binary key bytes) (.mk key (.binary 0 bytes))
  | element (key : CString) {src : Mem} {front back : List Element} {e : Element}
      (h : Built src (front ++ e :: back)) :
      Adds (.element key src (4 + (encodeElements front).length)) (.mk key e.value)

end

/-! ## What the writers append -/

section Writers

variable {m : Mem} {es : List Element}

theorem isDocument_iff : IsDocument m es ↔
    m.HasAt 0 (encodeBody (encodeElements es)) ∧ (encodeElements es).length + 5 < 2 ^ 31 := by
  rw [← encodeBody_length]
  exact ⟨fun h => ⟨h.hasAt, h.length_lt⟩, fun h => ⟨h.1, h.2⟩⟩

theorem setSubdocument_appends (key : CString) (type : UInt8) (h : IsDocument m es) :
    Appends (setSubdocument · key type m) (type :: (key.encode ++ encodeDocument es)) := by
  have heq : (setSubdocument · key type m) =
      (setSubelement · key type m 0 (encodeDocument es).length) := by
    funext doc
    rw [setSubdocument, h.length_eq]
    rfl
  rw [heq]
  exact setSubelement_appends key type h.hasAt rfl

theorem setBinaryFilled_appends (key : CString) (bytes : List UInt8) :
    Appends (setBinaryFilled · key bytes) (binaryElem key 0 bytes) := by
  have hlen := binaryElem_length key 0 bytes
  have hzero := binaryElem_length key 0 (List.replicate bytes.length 0)
  rw [List.length_replicate, ← hlen] at hzero
  constructor
  · intro hsize
    rw [setBinaryFilled, bsonSetBinaryGeneric, bsonSetBinary_none key 0 bytes true hsize]
    rfl
  · intro m body h hroom hsize
    have hset := bsonSetBinary_some key 0 bytes.length true h (by omega) (by omega)
    have hsplit (l : List UInt8) : l.length = bytes.length → binaryElem key 0 l =
        (0x05 :: (key.encode ++ (leBytes 4 bytes.length ++ [0]))) ++ l := by
      intro hl
      rw [binaryElem, hl]
      simp only [List.cons_append, List.append_assoc, List.nil_append]
    have hfill := appended_fill m body (0x05 :: (key.encode ++ (leBytes 4 bytes.length ++ [0])))
      (List.replicate bytes.length 0) bytes List.length_replicate
    have hbuf : ((body.length + 4 +
        (0x05 :: (key.encode ++ (leBytes 4 bytes.length ++ [0]))).length : ℕ) : ℤ) =
          (body.length + 5 : ℕ) + key.encode.length + 4 + 1 := by
      simp only [List.length_cons, List.length_append, leBytes_length, List.length_nil]
      omega
    rw [← hsplit _ List.length_replicate, ← hsplit _ rfl, hbuf] at hfill
    simp only [setBinaryFilled, bsonSetBinaryGeneric, hset, hzero, hfill, if_true,
      Option.bind_eq_bind, Option.bind_some, Option.pure_def]

theorem bsonSetElement_appends (key : CString) {front back : List Element} {e : Element}
    (h : IsDocument m (front ++ e :: back)) (hs : e.value.isCodeWithScope = false) :
    Appends (bsonSetElement · key (some m) (4 + (encodeElements front).length))
      (e.value.typeCode :: (key.encode ++ e.value.encode)) := by
  have hat := h.elementsAt.append
  obtain ⟨htype, -, hskip, hmeasure, -⟩ := hat.head
  have hover : e.value.overhang = 0 := if_neg (by rw [hs]; exact Bool.false_ne_true)
  have hfin := hat.fin_eq
  rw [encodeElements, List.length_append, Element.encode_length] at hfin
  have heq : (bsonSetElement · key (some m) (4 + (encodeElements front).length)) =
      (setSubelement · key e.value.typeCode m
        (4 + (encodeElements front).length + 1 + e.name.encode.length) e.value.encode.length) := by
    funext doc
    have hroom : ¬ ((encodeDocument (front ++ e :: back)).length : ℤ) ≤
      4 + (encodeElements front).length + 1 := by omega
    have hlen : ¬ (e.value.encode.length : ℤ) < 0 := by omega
    rw [bsonSetElement, if_neg (by omega)]
    simp only [h.length_eq, if_neg hroom, h.peek_last, htype, hskip, hmeasure, hover, if_neg hlen,
      Option.bind_eq_bind, Option.bind_some, ne_eq, not_true_eq_false, if_false, Nat.add_zero]
  rw [heq]
  exact setSubelement_appends key e.value.typeCode hat.value rfl

theorem bsonSetBoolean_appends (key : CString) (value : ℤ) :
    Appends (bsonSetBoolean · key value) (0x08 :: (key.encode ++ [if value ≠ 0 then 1 else 0])) :=
  setSubelement_appends key 0x08 (Mem.hasAt_self _) rfl

theorem bsonSetInt32_appends (key : CString) (value : BitVec 32) :
    Appends (bsonSetInt32 · key value) (0x10 :: (key.encode ++ leBytes 4 value.toNat)) :=
  setSubelement_appends key 0x10 (Mem.hasAt_self _) (by rw [leBytes_length]; rfl)

theorem bsonSetNull_appends (key : CString) :
    Appends (bsonSetNull · key) (0x0a :: (key.encode ++ [])) :=
  setSubelement_appends key 0x0a (Mem.hasAt_self _) rfl

end Writers

/-! ## Runs of calls -/

/-- The values that can be built. -/
def Value.Buildable : Value → Prop
  | .string s => 0 ∉ s
  | .binary subtype _ => subtype = 0
  | .document _ | .array _ | .boolean _ | .int32 _ | .null => True
  | _ => False

theorem Value.Buildable.not_scope {v : Value} (h : v.Buildable) : v.isCodeWithScope = false := by
  cases v <;> first | rfl | exact h.elim

section Runs

variable {m m' : Mem} {es : List Element} {c : Call} {e : Element}

theorem encodeElements_concat (es : List Element) (e : Element) :
    encodeElements (es ++ [e]) = encodeElements es ++ e.encode := by
  rw [encodeElements_append, encodeElements_singleton]

theorem encodeDocument_concat_length (es : List Element) (e : Element) :
    (encodeDocument (es ++ [e])).length = (encodeElements es).length + 5 + e.encode.length := by
  rw [encodeDocument_length, encodeElements_concat, List.length_append]
  omega

/-- A call that appends the encoding of an element, on a document with room for it. -/
theorem run_eq (h : IsDocument m es) (happends : Appends c.run e.encode)
    (hsize : (encodeDocument (es ++ [e])).length < 2 ^ 31)
    (hroom : (encodeDocument (es ++ [e])).length ≤ m.length) :
    c.run (some m) =
      some (some (appended m (encodeElements es) e.encode), (e.encode.length : ℤ)) := by
  rw [encodeDocument_concat_length] at hsize hroom
  exact happends.append h.hasAt hroom hsize

theorem isDocument_appended (m : Mem) (hsize : (encodeDocument (es ++ [e])).length < 2 ^ 31) :
    IsDocument (appended m (encodeElements es) e.encode) (es ++ [e]) := by
  refine ⟨?_, hsize⟩
  rw [appended, encodeDocument, encodeElements_concat]
  exact Mem.hasAt_prefix _ _

theorem encodeDocument_nil : encodeDocument [] = [5, 0, 0, 0, 0] := by
  rw [encodeDocument, encodeElements]
  decide

theorem bsonCreateEmptyDocument_eq {buf : Mem} (h : 5 ≤ buf.length) :
    bsonCreateEmptyDocument buf = some (encodeDocument [] ++ buf.drop 5) := by
  have hwrite := Mem.pokes_eq (l := [5, 0, 0, 0, 0]) [] (buf.take 5) (buf.drop 5) (by
    rw [List.length_take]
    exact min_eq_left h)
  rw [List.nil_append, List.take_append_drop] at hwrite
  rw [bsonCreateEmptyDocument, encodeDocument_nil]
  exact hwrite

theorem isDocument_nil {buf : Mem} (h : bsonCreateEmptyDocument buf = some m) :
    IsDocument m [] := by
  have hroom := Mem.pokes_inside (by omega) h
  rw [bsonCreateEmptyDocument_eq (by simpa using hroom)] at h
  cases h
  exact ⟨Mem.hasAt_prefix _ _, by rw [encodeDocument_nil]; decide⟩

mutual

/-- What has been built is a well-formed document. -/
theorem Built.isDocument : ∀ {m : Mem} {es : List Element}, Built m es →
    IsDocument m es ∧ ∀ e ∈ es, e.value.Buildable
  | _, _, .create h => ⟨isDocument_nil h, fun _ he => absurd he List.not_mem_nil⟩
  | _, _, .call h hadds hsize hroom hrun => by
    obtain ⟨hdoc, hbuildable⟩ := h.isDocument
    obtain ⟨happends, hvalue⟩ := hadds.appends
    rw [run_eq hdoc happends hsize hroom] at hrun
    cases hrun
    refine ⟨isDocument_appended _ hsize, fun e he => ?_⟩
    rcases List.mem_append.mp he with he | he
    · exact hbuildable e he
    · rw [List.mem_singleton.mp he]
      exact hvalue

/-- A call appends the encoding of the element that it should add. -/
theorem Adds.appends : ∀ {c : Call} {e : Element}, Adds c e →
    Appends c.run e.encode ∧ e.value.Buildable
  | _, _, .string key s => by
    rw [Element.encode_eq]
    exact ⟨bsonSetString_appends key s, s.no_nul⟩
  | _, _, .subdocument key h => by
    rw [Element.encode_eq]
    exact ⟨setSubdocument_appends key 0x03 h.isDocument.1, trivial⟩
  | _, _, .array key h => by
    rw [Element.encode_eq]
    exact ⟨setSubdocument_appends key 0x04 h.isDocument.1, trivial⟩
  | _, _, .boolean key value => by
    rw [Element.encode_eq]
    have hvalue : (Value.boolean (decide (value ≠ 0))).encode = [if value ≠ 0 then 1 else 0] := by
      rw [Value.encode]
      simp only [decide_eq_true_eq]
    have happends := bsonSetBoolean_appends key value
    rw [← hvalue] at happends
    exact ⟨happends, trivial⟩
  | _, _, .int32 key value => by
    rw [Element.encode_eq]
    exact ⟨bsonSetInt32_appends key value, trivial⟩
  | _, _, .null key => by
    rw [Element.encode_eq]
    exact ⟨bsonSetNull_appends key, trivial⟩
  | _, _, .binary key bytes => by
    rw [Element.encode_eq]
    exact ⟨setBinaryFilled_appends key bytes, rfl⟩
  | _, _, .element key h => by
    obtain ⟨hdoc, hbuildable⟩ := h.isDocument
    have hvalue := hbuildable _ (List.mem_append_right _ List.mem_cons_self)
    rw [Element.encode_eq]
    have happends := bsonSetElement_appends key hdoc hvalue.not_scope
    exact ⟨happends, hvalue⟩

end

/-- Measuring is calling without a document. -/
theorem Appends.measured {set : Option Mem → Written} {elem : List UInt8} {n : ℕ}
    (h : Appends set elem) (hlen : elem.length = n) (hn : n < 2 ^ 31) :
    (do return (← set none).2 : Access ℤ) = some (n : ℤ) := by
  rw [h.measure (by omega), hlen]
  rfl

/-- The measuring functions measure what the calls append. -/
theorem Adds.measure_eq (h : Adds c e) (hsize : e.encode.length < 2 ^ 31) :
    c.measure = some (e.encode.length : ℤ) := by
  have happends := h.appends.1
  cases h with
  | string | subdocument | array | null | element => exact happends.measured rfl hsize
  | boolean key value =>
    have hvalue : (Value.boolean (decide (value ≠ 0))).encode.length = 1 := by
      rw [Value.encode]
      rfl
    refine (bsonSetBoolean_appends key 0).measured ?_ hsize
    rw [Element.encode_length, Element.value, hvalue, List.length_cons, List.length_append,
      CString.encode_length]
    exact Nat.add_right_comm _ _ _
  | int32 key value =>
    have hvalue : (Value.int32 value).encode.length = 4 := by rw [Value.encode, leBytes_length]
    refine (bsonSetInt32_appends key 0).measured ?_ hsize
    rw [Element.encode_length, Element.value, hvalue, List.length_cons, List.length_append,
      CString.encode_length, leBytes_length]
    exact Nat.add_right_comm _ _ _
  | binary key bytes =>
    rw [Element.encode_eq] at hsize ⊢
    exact congrArg (·.bind fun written => some written.2.1)
      (bsonSetBinary_none key 0 bytes false hsize)

/-- **Building.** After any sequence of calls the memory starts with the encoding of the elements
so far. The next call succeeds if there is room for its element: its element is the next one of the
encoding, which ends in NUL, has grown by what the call returns, which is what the measuring
function says, and no byte between the length and the old NUL has changed. -/
theorem builder_encodes (h : Built m es) (hadds : Adds c e)
    (hsize : (encodeDocument (es ++ [e])).length < 2 ^ 31)
    (hroom : (encodeDocument (es ++ [e])).length ≤ m.length) :
    ∃ n ret m', readUnalignedInt m 0 = some n ∧ m.readBytes 0 n = some (encodeDocument es) ∧
      c.run (some m) = some (some m', ret) ∧ Built m' (es ++ [e]) ∧ m'.length = m.length ∧
      readUnalignedInt m' 0 = some (n + ret) ∧ c.measure = some ret ∧
      m'.readBytes 0 (n + ret) = some (encodeDocument (es ++ [e])) ∧
      m'.peek (n + ret - 1) = some 0 ∧ ∀ p, 4 ≤ p → p < n - 1 → m'.peek p = m.peek p := by
  have hdoc := h.isDocument.1
  have hrun := run_eq hdoc hadds.appends.1 hsize hroom
  have hdoc' := isDocument_appended m hsize
  have hlen := encodeDocument_length es
  have hlen' := encodeDocument_concat_length es e
  have hgrown : ((encodeDocument es).length : ℤ) + e.encode.length =
      (encodeDocument (es ++ [e])).length := by omega
  have hmeasure := hadds.measure_eq (by omega)
  have hkept : (appended m (encodeElements es) e.encode).length = m.length := by
    rw [appended, List.length_append, encodeBody_length, List.length_append, List.length_drop]
    omega
  -- the elements so far stand where they stood
  have hbody := hdoc.elementsAt.hasAt.left
  have hbody' := hdoc'.elementsAt.hasAt.left
  rw [encodeElements_concat] at hbody'
  refine ⟨_, _, _, hdoc.length_eq, hdoc.hasAt.readBytes, hrun, .call h hadds hsize hroom hrun, hkept,
    ?_, hmeasure, ?_, ?_, fun p hp hlt => hbody.peek_congr hbody'.left hp (by omega)⟩ <;> rw [hgrown]
  · exact hdoc'.length_eq
  · exact hdoc'.hasAt.readBytes
  · exact hdoc'.peek_last

/-- Elements of different types. -/
def mixed : List Element :=
  [.mk nameA (.string [0x78, 0x79]), .mk nameB (.int32 5), .mk nameC (.binary 0 [1, 2, 3])]

/-- They have been built in a buffer of 64 bytes. -/
theorem built_mixed : Built (encodeDocument mixed ++ List.replicate 31 0xff) mixed := by
  have hcreate : bsonCreateEmptyDocument (List.replicate 64 0xff) =
      some (encodeDocument [] ++ List.replicate 59 0xff) := by decide
  have hstring : (Call.string nameA ⟨[0x78, 0x79], by decide⟩).run
      (some (encodeDocument [] ++ List.replicate 59 0xff)) =
        some (some (encodeDocument (mixed.take 1) ++ List.replicate 49 0xff), 10) := by decide
  have hint32 : (Call.int32 nameB 5).run
      (some (encodeDocument (mixed.take 1) ++ List.replicate 49 0xff)) =
        some (some (encodeDocument (mixed.take 2) ++ List.replicate 42 0xff), 7) := by decide
  have hbinary : (Call.binary nameC [1, 2, 3]).run
      (some (encodeDocument (mixed.take 2) ++ List.replicate 42 0xff)) =
        some (some (encodeDocument mixed ++ List.replicate 31 0xff), 11) := by decide
  have h1 : Built _ ([] ++ [.mk nameA (.string [0x78, 0x79])]) :=
    .call (.create hcreate) (.string nameA ⟨[0x78, 0x79], by decide⟩) (by decide) (by decide)
      hstring
  have h2 : Built _ (mixed.take 1 ++ [.mk nameB (.int32 5)]) :=
    .call h1 (.int32 nameB 5) (by decide) (by decide) hint32
  exact .call h2 (.binary nameC [1, 2, 3]) (by decide) (by decide) hbinary

/-- `builder_encodes` of a call that copies the second element behind them, with another key. -/
theorem builder_encodes_mixed :
    ∃ n ret m',
      readUnalignedInt (encodeDocument mixed ++ List.replicate 31 0xff) 0 = some n ∧
      Mem.readBytes (encodeDocument mixed ++ List.replicate 31 0xff) 0 n =
        some (encodeDocument mixed) ∧
      (Call.element nameD (encodeDocument mixed ++ List.replicate 31 0xff) 14).run
        (some (encodeDocument mixed ++ List.replicate 31 0xff)) = some (some m', ret) ∧
      Built m' (mixed ++ [.mk nameD (.int32 5)]) ∧
      m'.length = (encodeDocument mixed ++ List.replicate 31 0xff).length ∧
      readUnalignedInt m' 0 = some (n + ret) ∧
      (Call.element nameD (encodeDocument mixed ++ List.replicate 31 0xff) 14).measure =
        some ret ∧
      m'.readBytes 0 (n + ret) = some (encodeDocument (mixed ++ [.mk nameD (.int32 5)])) ∧
      m'.peek (n + ret - 1) = some 0 ∧ ∀ p, 4 ≤ p → p < n - 1 →
        m'.peek p = Mem.peek (encodeDocument mixed ++ List.replicate 31 0xff) p := by
  have hsrc : Built (encodeDocument mixed ++ List.replicate 31 0xff)
      (mixed.take 1 ++ .mk nameB (.int32 5) :: mixed.drop 2) := built_mixed
  exact builder_encodes built_mixed (.element nameD hsrc) (by decide) (by decide)

end Runs

end OlivePiccolo.Bson
