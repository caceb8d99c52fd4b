import OlivePiccolo.Bson.RoundTrip
import OlivePiccolo.Rpc.Service

/-!
# Sending a reply

`send_reply` measures the reply, and builds it in a buffer of that size. For whatever element it
copies from the request (`CopiesId`) and whatever answer it appends (`AnswerWriter`), the two passes
agree: what is sent is the reply, from its first byte to its last one (`attempt_eq`).
-/

namespace OlivePiccolo.Rpc

open Bson

/-- The bytes of the first element of every reply. -/
def versionElem : List UInt8 := 0x02 :: (keyJsonrpc.encode ++ encodeString jsonrpcVer.bytes)

/-- The bytes of a reply: the version, the element copied from the request, the answer. -/
def replyBytes (idElem answerElem : List UInt8) : List UInt8 :=
  encodeBody (versionElem ++ idElem ++ answerElem)

/-- The element of an error. -/
def errorElem (code : BitVec 32) : List UInt8 :=
  0x03 :: (keyError.encode ++ encodeDocument [.mk keyCode (.int32 code)])

/-- What `send_reply` copies from the request. -/
structure CopiesId (job : Mem) (offId : ℤ) (elem : List UInt8) : Prop where
  appends : Appends (bsonSetElement · keyId (some job) offId) elem
  length_lt : elem.length < 2 ^ 31

/-- What `send_reply` appends for a result, or for an error in the error document. -/
structure AnswerWriter (result : Option Mem) (code : BitVec 32) (errorDoc : Mem)
    (elem : List UInt8) : Prop where
  measure : measureAnswer result errorDoc code = some ((elem.length : ℤ).bmod (2 ^ 32))
  append : ∃ set : Option Mem → Written, Appends set elem ∧
    ∀ output : Mem, setAnswer output result errorDoc code = written (set (some output))

/-- The effects of a reply that is sent. -/
def replied (result : Option Mem) (code : BitVec 32) (bytes : List UInt8) : List Effect :=
  [.freeJob] ++ (if code = 0 then freeResult result else []) ++ [.source bytes, .freeOutput]

/-- What `send_reply` does: it sends the reply; or without memory for a result, an error. -/
def sent (env : Surroundings) (result : Option Mem) (code : BitVec 32)
    (idElem elem : List UInt8) : List Effect :=
  if (env.malloc 0 (replyBytes idElem elem).length).isSome then
    replied result code (replyBytes idElem elem)
  else if code ≠ 0 then [.freeJob]
  else if (env.malloc 1 (replyBytes idElem (errorElem errInternalError)).length).isSome then
    freeResult result ++
      replied none errInternalError (replyBytes idElem (errorElem errInternalError))
  else freeResult result ++ [.freeJob]

section

variable {m job : Mem} {es : List Element} {body elem idElem : List UInt8} {offId : ℤ}
  {result : Option Mem} {code : BitVec 32} {errorDoc : Mem} {set : Option Mem → Written}

theorem versionElem_length : versionElem.length = 17 := by decide

theorem replyBytes_length (idElem elem : List UInt8) :
    (replyBytes idElem elem).length = 5 + 17 + idElem.length + elem.length := by
  rw [replyBytes, encodeBody_length, List.length_append, List.length_append, versionElem_length]
  omega

theorem written_appends (h : m.HasAt 0 (encodeBody body)) (happends : Appends set elem)
    (hsize : body.length + 5 + elem.length < 2 ^ 31)
    (hroom : body.length + 5 + elem.length ≤ m.length) :
    ∃ m', written (set (some m)) = some m' ∧ m'.HasAt 0 (encodeBody (body ++ elem)) ∧
      m'.length = m.length := by
  refine ⟨appended m body elem, ?_, Mem.hasAt_prefix _ _, ?_⟩
  · rw [written, happends.append h hroom hsize]
    rfl
  · rw [appended, List.length_append, encodeBody_length, List.length_append, List.length_drop]
    omega

theorem bsonCreateEmptyDocument_hasAt (h : 5 ≤ m.length) :
    ∃ m', bsonCreateEmptyDocument m = some m' ∧ m'.HasAt 0 (encodeBody []) ∧
      m'.length = m.length := by
  have hcreate := bsonCreateEmptyDocument_eq h
  refine ⟨_, hcreate, (isDocument_nil hcreate).hasAt, ?_⟩
  rw [List.length_append, List.length_drop, encodeDocument_nil]
  exact Nat.add_sub_cancel' h

theorem makeErrorDoc_eq (hlen : errorDoc.length = 16) (h : code ≠ 0) :
    ∃ doc, makeErrorDoc errorDoc code = some doc ∧ IsDocument doc [.mk keyCode (.int32 code)] := by
  obtain ⟨empty, hcreate, hempty, hlen'⟩ := bsonCreateEmptyDocument_hasAt (m := errorDoc) (by omega)
  have happends := bsonSetInt32_appends keyCode code
  have hsize : (0x10 :: (keyCode.encode ++ leBytes 4 code.toNat)).length = 10 := by
    rw [List.length_cons, List.length_append, leBytes_length]
    rfl
  have hencode : encodeElements [.mk keyCode (.int32 code)] =
      [] ++ 0x10 :: (keyCode.encode ++ leBytes 4 code.toNat) := by
    rw [encodeElements_singleton, Element.encode, Value.encode]
    rfl
  obtain ⟨doc, hdoc, hat, -⟩ := written_appends hempty happends
    (by rw [List.length_nil]; omega) (by rw [List.length_nil]; omega)
  refine ⟨doc, ?_, isDocument_iff.mpr ⟨by rwa [hencode], ?_⟩⟩
  · rw [makeErrorDoc, if_neg h, hcreate, Option.bind_eq_bind, Option.bind_some]
    exact hdoc
  · rw [hencode, List.nil_append, hsize]
    decide

/-- A subdocument is measured modulo the range of `int`. -/
theorem bsonMeasureSubdocument_eq {key : CString} (hkey : key.encode.length < 100) {len : ℕ}
    (hlen : readUnalignedInt m 0 = some (len : ℤ)) :
    bsonMeasureSubdocument key m =
      some (((1 + key.encode.length + len : ℕ) : ℤ).bmod (2 ^ 32)) := by
  have hkeylen : toInt32 key.encode.length = key.encode.length := toInt32_of_lt (by omega)
  have hsum : ((1 + key.encode.length + len : ℕ) : ℤ) = 1 + key.encode.length + len := by omega
  simp only [bsonMeasureSubdocument, setSubdocument, setSubelement, ifDoc, hlen, hkeylen, hsum,
    Option.bind_eq_bind, Option.bind_some, Option.pure_def]

theorem answerWriter_result {r : Mem} {bytes : List UInt8}
    (hlen : readUnalignedInt r 0 = some (bytes.length : ℤ)) (hat : r.HasAt 0 bytes) :
    AnswerWriter (some r) 0 errorDoc (0x03 :: (keyResult.encode ++ bytes)) := by
  have hset : (bsonSetSubdocument · keyResult r) =
      (setSubelement · keyResult 0x03 r 0 bytes.length) := by
    funext doc
    rw [bsonSetSubdocument, setSubdocument, hlen]
    rfl
  refine ⟨?_, (bsonSetSubdocument · keyResult r), ?_, fun _ => rfl⟩
  · rw [List.length_cons, List.length_append, Nat.add_comm, ← Nat.add_assoc]
    exact bsonMeasureSubdocument_eq (by decide) hlen
  · rw [hset]
    exact setSubelement_appends keyResult 0x03 hat rfl

theorem answerWriter_null : AnswerWriter none 0 errorDoc (0x0a :: (keyResult.encode ++ [])) := by
  have happends := bsonSetNull_appends keyResult
  refine ⟨?_, _, happends, fun _ => rfl⟩
  exact (happends.measured rfl (by decide)).trans (congrArg some (by decide))

theorem errorElem_length (code : BitVec 32) : (errorElem code).length = 22 := by
  rw [errorElem, List.length_cons, List.length_append, encodeDocument_length,
    encodeElements_singleton, Element.encode_length, Element.value, Value.encode, leBytes_length]
  rfl

theorem answerWriter_error (h : code ≠ 0) (hdoc : IsDocument errorDoc [.mk keyCode (.int32 code)]) :
    AnswerWriter result code errorDoc (errorElem code) := by
  refine ⟨?_, (bsonSetSubdocument · keyError errorDoc), setSubdocument_appends keyError 0x03 hdoc,
    fun _ => if_neg h⟩
  have hmeasure : measureAnswer result errorDoc code = bsonMeasureSubdocument keyError errorDoc :=
    if_neg h
  rw [hmeasure, bsonMeasureSubdocument_eq (by decide) hdoc.length_eq, errorElem, List.length_cons,
    List.length_append, Nat.add_comm 1, Nat.add_right_comm]

/-- `reply_len` is the size of the reply, modulo the range of `int`. -/
theorem replyLen_eq (hid : CopiesId job offId idElem)
    (ha : AnswerWriter result code errorDoc elem) :
    replyLen job offId result errorDoc code =
      some (((replyBytes idElem elem).length : ℤ).bmod (2 ^ 32)) := by
  have hjsonrpc : bsonMeasureString keyJsonrpc jsonrpcVer = some 17 := by decide
  have hmeasure : bsonMeasureElement keyId (some job) offId = _ :=
    hid.appends.measured rfl hid.length_lt
  rw [replyLen, hjsonrpc, hmeasure, ha.measure, replyBytes_length]
  simp only [Option.bind_eq_bind, Option.bind_some, Option.pure_def, Int.add_bmod_bmod,
    Int.natCast_add]
  rfl

theorem buildReply_eq {output : Mem} (hid : CopiesId job offId idElem)
    (ha : AnswerWriter result code errorDoc elem)
    (hroom : output.length = (replyBytes idElem elem).length)
    (hsize : (replyBytes idElem elem).length < 2 ^ 31) :
    ∃ m, buildReply output job offId result errorDoc code = some m ∧
      m.HasAt 0 (replyBytes idElem elem) := by
  obtain ⟨set, happends, hset⟩ := ha.append
  have hlen := replyBytes_length idElem elem
  have hver := versionElem_length
  have hnil : ([] : List UInt8).length = 0 := rfl
  obtain ⟨m0, hm0, hat0, hlen0⟩ := bsonCreateEmptyDocument_hasAt (m := output) (by omega)
  -- the version, the id, the answer
  obtain ⟨m1, hm1, hat1, hlen1⟩ := written_appends hat0
    (show Appends _ versionElem from bsonSetString_appends keyJsonrpc jsonrpcVer) (by omega)
      (by omega)
  rw [List.nil_append] at hat1
  obtain ⟨m2, hm2, hat2, hlen2⟩ := written_appends hat1 hid.appends (by omega) (by omega)
  obtain ⟨m3, hm3, hat3, -⟩ := written_appends hat2 happends
    (by rw [List.length_append]; omega) (by rw [List.length_append]; omega)
  refine ⟨m3, ?_, hat3⟩
  rw [buildReply, hm0]
  simp only [Option.bind_eq_bind, Option.bind_some]
  rw [hm1, Option.bind_some, hm2, Option.bind_some]
  exact (hset m2).trans hm3

/-- **One attempt.** If there is memory for the reply, it is sent. -/
theorem attempt_eq (env : Surroundings) (i : ℕ) (hid : CopiesId job offId idElem)
    (hdoc : makeErrorDoc env.errorDoc code = some errorDoc)
    (ha : AnswerWriter result code errorDoc elem)
    (hlt : (replyBytes idElem elem).length < 2 ^ 32) :
    attempt env i job offId result code =
      some ((env.malloc i (replyBytes idElem elem).length).map fun _ =>
        replied result code (replyBytes idElem elem)) := by
  have hsize : (((replyBytes idElem elem).length : ℤ).bmod (2 ^ 32) % 2 ^ 32).toNat =
      (replyBytes idElem elem).length := by
    rw [show (2 : ℤ) ^ 32 = ((2 ^ 32 : ℕ) : ℤ) from rfl, Int.bmod_emod]
    omega
  simp only [attempt, hdoc, replyLen_eq hid ha, hsize, Option.bind_eq_bind, Option.bind_some]
  cases hmalloc : env.malloc i (replyBytes idElem elem).length with
  | none => rfl
  | some output =>
    obtain ⟨hroom, hsmall⟩ := env.malloc_length _ _ _ hmalloc
    obtain ⟨m, hbuild, hm⟩ := buildReply_eq hid ha hroom hsmall
    have hlen : ((replyBytes idElem elem).length : ℤ).bmod (2 ^ 32) =
        (replyBytes idElem elem).length := toInt32_of_lt hsmall
    simp only [hbuild, hlen, hm.readBytes, Option.bind_some, Option.map_some, Option.pure_def,
      replied]

/-- The error that is sent without memory for a result. -/
theorem attempt_error (env : Surroundings) (i : ℕ) (hid : CopiesId job offId idElem)
    (result : Option Mem) (h : code ≠ 0) :
    attempt env i job offId result code =
      some ((env.malloc i (replyBytes idElem (errorElem code)).length).map fun _ =>
        replied result code (replyBytes idElem (errorElem code))) := by
  obtain ⟨doc, hdoc, his⟩ := makeErrorDoc_eq env.errorDoc_length h
  have hlt := hid.length_lt
  refine attempt_eq env i hid hdoc (answerWriter_error h his) ?_
  rw [replyBytes_length, errorElem_length]
  omega

theorem packets_replied (result : Option Mem) (code : BitVec 32) (bytes : List UInt8) :
    packets (replied result code bytes) = [bytes] := by
  unfold replied
  split_ifs
  · cases result <;> rfl
  · rfl

/-- Two replies with answers of one length are the same in both parts only. -/
theorem replyBytes_inj {idElem' elem' : List UInt8} (hlen : elem.length = elem'.length)
    (h : replyBytes idElem elem = replyBytes idElem' elem') : idElem = idElem' ∧ elem = elem' := by
  simp only [replyBytes, encodeBody, List.append_assoc] at h
  have hbody := (List.append_inj h (by rw [leBytes_length, leBytes_length])).2
  have htail := List.append_cancel_left hbody
  rw [← List.append_assoc, ← List.append_assoc] at htail
  exact List.append_inj' (List.append_cancel_right htail) hlen

theorem errorElem_inj {code' : BitVec 32} (h : errorElem code = errorElem code') : code = code' := by
  simp only [errorElem, encodeDocument, encodeBody, encodeElements_singleton, Element.encode,
    Value.encode, List.append_assoc, List.cons_append] at h
  have hdoc := List.append_cancel_left (List.cons.inj h).2
  have helem := (List.append_inj hdoc (by rw [leBytes_length, leBytes_length])).2
  have hvalue := List.append_cancel_left (List.cons.inj helem).2
  have hcode := congrArg leNat (List.append_cancel_right hvalue)
  rw [leNat_leBytes (by omega), leNat_leBytes (by omega)] at hcode
  exact BitVec.eq_of_toNat_eq hcode

/-- What follows on an attempt without memory: a second one with an error, but not for an error. -/
theorem sendReply_of_attempt (env : Surroundings) (hid : CopiesId job offId idElem)
    {o : Option Mem} {effects : List Effect}
    (h : attempt env 0 job offId result code = some (o.map fun _ => effects)) :
    sendReply env job offId result code = some (
      if o.isSome then effects
      else if code ≠ 0 then [.freeJob]
      else if (env.malloc 1 (replyBytes idElem (errorElem errInternalError)).length).isSome then
        freeResult result ++
          replied none errInternalError (replyBytes idElem (errorElem errInternalError))
      else freeResult result ++ [.freeJob]) := by
  have hsecond := attempt_error env 1 hid none
    (show errInternalError ≠ 0 by decide)
  cases o with
  | some output =>
    rw [Option.map_some] at h
    simp only [sendReply, h, Option.bind_eq_bind, Option.bind_some, Option.pure_def,
      Option.isSome_some, if_true]
  | none =>
    rw [Option.map_none] at h
    simp only [sendReply, h, hsecond, Option.bind_eq_bind, Option.bind_some, Option.pure_def,
      Option.isSome_none, Bool.false_eq_true, if_false]
    by_cases hcode : code = 0
    · rw [if_neg (not_not_intro hcode), if_neg (not_not_intro hcode)]
      cases env.malloc 1 (replyBytes idElem (errorElem errInternalError)).length with
      | some output => rfl
      | none => rfl
    · rw [if_pos hcode, if_pos hcode]

theorem sendReply_eq (env : Surroundings) (hid : CopiesId job offId idElem)
    (hdoc : makeErrorDoc env.errorDoc code = some errorDoc)
    (ha : AnswerWriter result code errorDoc elem)
    (hlt : (replyBytes idElem elem).length < 2 ^ 32) :
    sendReply env job offId result code = some (sent env result code idElem elem) :=
  sendReply_of_attempt env hid (attempt_eq env 0 hid hdoc ha hlt)

end

end OlivePiccolo.Rpc
