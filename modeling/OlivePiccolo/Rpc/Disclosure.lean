import OlivePiccolo.Bson.ReadBounds
import OlivePiccolo.Rpc.SendReply

/-!
# What a reply discloses

A reply should depend on the bytes of the request only, whatever else is in memory. The request's
element `id` is copied into the reply with the size that its own length gives, and lengths may be
read behind the end of the request. So the service replies with the same bytes in all memories if
and only if the request is `Confined` (`reply_depends_on_request`): where it is not, two memories
are given, with one byte repeated behind the request, whose replies differ.
-/

namespace OlivePiccolo.Rpc

open Bson

/-! ## Two memories -/

/-- The handlers return the same for the two jobs. -/
def Handler.Same (job job' : Mem) : Handler → Handler → Prop
  | .sync call, .sync call' => ∀ params, call job params = call' job' params
  | .async call, .async call' => ∀ params, call job params = call' job' params
  | _, _ => False

/-- The same methods with the same results, and memory for the same calls of `malloc`. What is in
that memory, and in variables that are not initialised, may be different. -/
structure SameResults (env env' : Surroundings) (job job' : Mem) : Prop where
  methods : List.Forall₂ (fun entry entry' => entry.name = entry'.name ∧
    Handler.Same job job' entry.handler entry'.handler) env.methods env'.methods
  malloc : ∀ i n, (env.malloc i n).isSome = (env'.malloc i n).isSome

/-- The keys of the service, without offsets. -/
def noOffsets : Keys := [(keyJsonrpc, -1), (keyMethod, -1), (keyParams, -1), (keyId, -1)]

/-- The keys of the service, where nothing is in the variables. -/
def startKeys : Keys := [(keyJsonrpc, 0), (keyMethod, 0), (keyParams, 0), (keyId, 0)]

/-- The bytes of a request, as the sink hands it over: their number is the length that they start
with, and not too large. -/
structure RequestBytes (data : Mem) : Prop where
  length_eq : readUnalignedInt data 0 = some (data.length : ℤ)
  length_le : data.length ≤ maxRequestLength

/-- The lengths that a reply depends on do not go on behind the end of the request. They are those
of elements that the search measures, and of the element `id`; but while no key has been found, the
search fails whatever a length says. -/
def LengthsInside (data : Mem) : Prop :=
  data.peek (data.length - 1) = some 0 → ∀ pos scanned keys type name value,
    Searched data data.length 4 noOffsets pos scanned keys →
      HeadAt data data.length pos type name value → startsWithLength type = true →
        ((assignFirst name pos keys).isSome ∨ 0 < scanned) →
          (¬ ((assignFirst name pos keys).isSome ∧ scanned + 1 = 4) ∨ name = keyId) →
            value + 4 ≤ data.length

/-- The element `id` that is found, if it has this size. -/
def FoundId (data : Mem) (pos value size : ℤ) : Prop :=
  data.peek (data.length - 1) = some 0 ∧ ∃ scanned keys type,
    Searched data data.length 4 noOffsets pos scanned keys ∧ (∃ k ∈ keys, k.1 = keyId ∧ k.2 < 0) ∧
      HeadAt data data.length pos type keyId value ∧
        measureValue data type value data.length = some size

/-- The request names the version and a method. -/
def NamesMethod (data : Mem) : Prop :=
  ∃ r o0 o1 o2 o3 ver name, bsonGetProps data startKeys =
      some (r, [(keyJsonrpc, o0), (keyMethod, o1), (keyParams, o2), (keyId, o3)]) ∧ 0 < r ∧
    bsonGetString (some data) o0 = some (some ver) ∧
      isJsonrpcVer data (some ver) = some true ∧ bsonGetString (some data) o1 = some (some name)

/-- There is room for an `id` of this size in a reply: with an error, or, if a method is called,
with its result `null`. -/
def ReplyHolds (data : Mem) (size : ℤ) : Prop :=
  size + 48 < 2 ^ 31 ∨ size + 34 < 2 ^ 31 ∧ NamesMethod data

/-- A request that keeps to its bytes: no length goes on behind the end, and the element `id` that
is found ends in front of it, unless it is too large for a reply. -/
structure Confined (data : Mem) : Prop where
  lengths_inside : LengthsInside data
  id_inside : ∀ pos value size, FoundId data pos value size → ReplyHolds data size →
    value + size ≤ data.length

/-- The same reply in all memories with this request. -/
def DependsOnRequest (data : Mem) : Prop :=
  ∀ env env' back back' effects effects', SameResults env env' (data ++ back) (data ++ back') →
    peridotRpcServerService env (data ++ back) = some effects →
      peridotRpcServerService env' (data ++ back') = some effects' →
        packets effects = packets effects'

/-! ## What is copied -/

section Copy

variable {data back out job : Mem} {offId : ℤ} {key : CString}

theorem copiesId_nil (h : ∀ doc, bsonSetElement doc keyId (some job) offId = some (doc, 0)) :
    CopiesId job offId [] := by
  refine ⟨⟨fun _ => h none, fun {m body} hbody _ _ => ?_⟩, by decide⟩
  obtain ⟨rest, rfl⟩ := Mem.hasAt_zero.mp hbody
  show bsonSetElement _ _ _ _ = _
  rw [h, appended, List.append_nil, List.length_nil, add_zero, ← encodeBody_length body,
    List.drop_left]
  rfl

theorem bsonSetElement_no_end {fin : ℤ} (hlen : readUnalignedInt job 0 = some fin)
    (hend : 4 < fin → ∃ b, job.peek (fin - 1) = some b ∧ b ≠ 0) (doc : Option Mem) :
    bsonSetElement doc key (some job) offId = some (doc, 0) := by
  rw [bsonSetElement]
  split_ifs with hoff
  · rfl
  · simp only [hlen, Option.bind_eq_bind, Option.bind_some]
    split_ifs with hfin
    · rfl
    · obtain ⟨b, hb, hne⟩ := hend (by omega)
      simp only [hb, Option.bind_some, ne_eq, hne, not_false_eq_true, if_true, Option.pure_def]

theorem bsonSetElement_head {fin pos value size : ℤ} {type : UInt8} {name : CString}
    (h : HeadAt job fin pos type name value) (hpos : 4 ≤ pos)
    (hlen : readUnalignedInt job 0 = some fin) (hend : job.peek (fin - 1) = some 0)
    (hsize : measureValue job type value fin = some size) (doc : Option Mem) :
    bsonSetElement doc key (some job) pos =
      if size < 0 then some (doc, 0) else setSubelement doc key type job value size := by
  have hgt := h.value_gt
  have hlt := h.value_lt
  rw [bsonSetElement, if_neg (by omega)]
  simp only [hlen, if_neg (show ¬ fin ≤ pos + 1 by omega), hend, ne_eq, not_true_eq_false, if_false,
    h.type_at, h.skipString, hsize, Option.bind_eq_bind, Option.bind_some, Option.pure_def]

theorem copiesId_of_neg {fin pos value size : ℤ} {type : UInt8} {name : CString}
    (h : HeadAt job fin pos type name value) (hpos : 4 ≤ pos)
    (hlen : readUnalignedInt job 0 = some fin) (hend : job.peek (fin - 1) = some 0)
    (hsize : measureValue job type value fin = some size) (hneg : size < 0) :
    CopiesId job pos [] :=
  copiesId_nil fun doc => by rw [bsonSetElement_head h hpos hlen hend hsize, if_pos hneg]

theorem copiesId_of_bytes {fin pos value : ℤ} {type : UInt8} {name : CString} {bytes : List UInt8}
    (h : HeadAt job fin pos type name value) (hpos : 4 ≤ pos)
    (hlen : readUnalignedInt job 0 = some fin) (hend : job.peek (fin - 1) = some 0)
    (hsize : measureValue job type value fin = some (bytes.length : ℤ))
    (hbytes : job.HasAt value bytes) (hsmall : bytes.length + 4 < 2 ^ 31) :
    CopiesId job pos (type :: (keyId.encode ++ bytes)) := by
  have hkey : keyId.encode.length = 3 := rfl
  have hfun : (bsonSetElement · keyId (some job) pos) =
      (setSubelement · keyId type job value bytes.length) := by
    funext doc
    rw [bsonSetElement_head h hpos hlen hend hsize, if_neg (by omega)]
  refine ⟨?_, ?_⟩
  · rw [hfun]
    exact setSubelement_appends keyId type hbytes rfl
  · rw [List.length_cons, List.length_append]
    omega

/-- An element whose value ends in front of the end is copied from its document only. -/
theorem copiesId_of_head (hreq : RequestBytes data) {pos value size : ℤ} {type : UInt8}
    {name : CString} (h : HeadAt data data.length pos type name value) (hpos : 4 ≤ pos)
    (hend : data.peek (data.length - 1) = some 0)
    (hsize : measureValue data type value data.length = some size)
    (hin : value + size ≤ data.length) :
    ∃ elem, elem.length ≤ maxRequestLength ∧ ∀ back, CopiesId (data ++ back) pos elem := by
  have hgt := h.value_gt
  have hmax := hreq.length_le
  have hmaxlt : maxRequestLength + 4 < 2 ^ 31 := by decide
  have hlen (back : Mem) := readUnalignedInt_stable _ _ back _ hreq.length_eq
  have hend' (back : Mem) := Mem.Stable.peek _ _ back _ hend
  have hsize' (back : Mem) := measureValue_stable _ _ _ _ back _ hsize
  by_cases hneg : size < 0
  · exact ⟨[], Nat.zero_le _, fun back =>
      copiesId_of_neg (h.append back) hpos (hlen back) (hend' back) (hsize' back) hneg⟩
  · -- the bytes of the value
    obtain ⟨n, rfl⟩ := Int.eq_ofNat_of_zero_le (Int.not_lt.mp hneg)
    obtain ⟨bytes, rfl, hbytes⟩ := Mem.exists_hasAt (m := data) (p := value) (n := n) (by omega) hin
    have hkey : keyId.encode.length = 3 := rfl
    refine ⟨type :: (keyId.encode ++ bytes), ?_, fun back => copiesId_of_bytes (h.append back) hpos
      (hlen back) (hend' back) (hsize' back) (hbytes.append back) (by omega)⟩
    rw [List.length_cons, List.length_append]
    omega

end Copy

/-! ## What is sent -/

section Send

variable {env env' : Surroundings} {job job' : Mem} {offId offId' : ℤ} {idElem : List UInt8}
  {result : Option Mem} {code : BitVec 32} {effects effects' : List Effect}

theorem setSubelement_readBytes {doc src : Mem} {key : CString} {type : UInt8} {ptr len : ℤ}
    {w : Option Mem × ℤ} (h : setSubelement (some doc) key type src ptr len = some w) :
    ∃ bytes, src.readBytes ptr len = some bytes := by
  obtain ⟨doc', h, -⟩ := Option.bind_eq_some_iff.mp h
  obtain ⟨m, h, -⟩ := Option.map_eq_some_iff.mp h
  obtain ⟨fin, -, h⟩ := Option.bind_eq_some_iff.mp h
  obtain ⟨m1, -, h⟩ := Option.bind_eq_some_iff.mp h
  obtain ⟨m2, -, h⟩ := Option.bind_eq_some_iff.mp h
  obtain ⟨m3, hcopy, -⟩ := Option.bind_eq_some_iff.mp h
  obtain ⟨bytes, hbytes, -⟩ := Option.bind_eq_some_iff.mp hcopy
  exact ⟨bytes, hbytes⟩

theorem attempt_result {i : ℕ} {r : Mem}
    (h : attempt env i job offId (some r) 0 = some (some effects)) :
    ∃ bytes : List UInt8, readUnalignedInt r 0 = some (bytes.length : ℤ) ∧ r.HasAt 0 bytes := by
  obtain ⟨len, -, h⟩ := Option.bind_eq_some_iff.mp h
  cases hmalloc : env.malloc i (len % 2 ^ 32).toNat with
  | none =>
    rw [hmalloc] at h
    cases h
  | some output =>
    rw [hmalloc] at h
    obtain ⟨m, hbuild, -⟩ := Option.bind_eq_some_iff.mp h
    obtain ⟨m1, -, hbuild⟩ := Option.bind_eq_some_iff.mp hbuild
    obtain ⟨m2, -, hbuild⟩ := Option.bind_eq_some_iff.mp hbuild
    obtain ⟨m3, -, hbuild⟩ := Option.bind_eq_some_iff.mp hbuild
    obtain ⟨w, hset, -⟩ := Option.bind_eq_some_iff.mp hbuild
    obtain ⟨n, hlen, hset⟩ := Option.bind_eq_some_iff.mp hset
    obtain ⟨bytes, hbytes⟩ := setSubelement_readBytes hset
    obtain ⟨rfl, hat⟩ := Mem.hasAt_of_readBytes hbytes
    exact ⟨bytes, hlen, hat⟩

/-- With the same element copied, the same result and memory for the same calls, the same happens.
-/
theorem sendReply_congr (hid : CopiesId job offId idElem) (hid' : CopiesId job' offId' idElem)
    (hsmall : idElem.length ≤ maxRequestLength)
    (hmalloc : ∀ i n, (env.malloc i n).isSome = (env'.malloc i n).isSome)
    (h : sendReply env job offId result code = some effects)
    (h' : sendReply env' job' offId' result code = some effects') : effects = effects' := by
  have hmax : maxRequestLength = 65536 := rfl
  have hattempt (o : Option Mem) (o' : Option Mem) (ho : o.isSome = o'.isSome) (e : List Effect)
      (ha : attempt env 0 job offId result code = some (o.map fun _ => e))
      (ha' : attempt env' 0 job' offId' result code = some (o'.map fun _ => e)) :
      effects = effects' := by
    rw [sendReply_of_attempt env hid ha] at h
    rw [sendReply_of_attempt env' hid' ha', ← ho, ← hmalloc] at h'
    exact Option.some.inj (h.symm.trans h')
  by_cases hcode : code = 0
  · subst hcode
    have hwritten {elem : List UInt8}
        (hwriter : ∀ errorDoc, AnswerWriter result 0 errorDoc elem)
        (hlt : (replyBytes idElem elem).length < 2 ^ 32) : effects = effects' :=
      hattempt _ _ (hmalloc _ _) _ (attempt_eq env 0 hid rfl (hwriter _) hlt)
        (attempt_eq env' 0 hid' rfl (hwriter _) hlt)
    cases result with
    | none =>
      refine hwritten (fun _ => answerWriter_null) ?_
      rw [replyBytes_length]
      have hlen : (0x0a :: (keyResult.encode ++ [])).length = 8 := rfl
      omega
    | some r =>
      by_cases hbytes : ∃ bytes : List UInt8, readUnalignedInt r 0 = some (bytes.length : ℤ) ∧
          r.HasAt 0 bytes
      · obtain ⟨bytes, hlen, hat⟩ := hbytes
        refine hwritten (fun _ => answerWriter_result hlen hat) ?_
        have hlt := readUnalignedInt_lt hlen
        have hkey : keyResult.encode.length = 7 := rfl
        rw [replyBytes_length, List.length_cons, List.length_append]
        omega
      · -- no memory for what the result says that it is
        have hnone {env : Surroundings} {job : Mem} {offId : ℤ} {effects : List Effect}
            (h : sendReply env job offId (some r) 0 = some effects) :
            attempt env 0 job offId (some r) 0 = some none := by
          obtain ⟨o, ho, -⟩ := Option.bind_eq_some_iff.mp h
          cases o with
          | none => exact ho
          | some e => exact absurd (attempt_result ho) hbytes
        exact hattempt none none rfl [] (hnone h) (hnone h')
  · exact hattempt _ _ (hmalloc _ _) _ (attempt_error env 0 hid _ hcode)
      (attempt_error env' 0 hid' _ hcode)

end Send

/-! ## What is too large to be sent -/

section Large

variable {env : Surroundings} {job : Mem} {pos fin value size : ℤ} {type : UInt8} {name : CString}
  {result : Option Mem} {code : BitVec 32} {effects : List Effect}

theorem length_of_setString {m m' : Mem} {key s : CString}
    (h : written (bsonSetString (some m) key s) = some m') : m'.length = m.length := by
  obtain ⟨w, h, hw⟩ := Option.bind_eq_some_iff.mp h
  obtain ⟨doc, hifdoc, hpure⟩ := Option.bind_eq_some_iff.mp h
  obtain ⟨m6, hwrite, rfl⟩ := Option.map_eq_some_iff.mp hifdoc
  cases hpure
  cases hw
  obtain ⟨fin, -, h⟩ := Option.bind_eq_some_iff.mp hwrite
  obtain ⟨m1, h1, h⟩ := Option.bind_eq_some_iff.mp h
  obtain ⟨m2, h2, h⟩ := Option.bind_eq_some_iff.mp h
  obtain ⟨m3, h3, h⟩ := Option.bind_eq_some_iff.mp h
  obtain ⟨m4, h4, h⟩ := Option.bind_eq_some_iff.mp h
  obtain ⟨m5, h5, h⟩ := Option.bind_eq_some_iff.mp h
  rw [Mem.length_of_pokes h, Mem.length_of_poke h5, Mem.length_of_memcpy h4, Mem.length_of_pokes h3,
    Mem.length_of_memcpy h2, Mem.length_of_poke h1]

theorem le_of_setSubelement {m src : Mem} {key : CString} {ptr len : ℤ}
    {w : Option Mem × ℤ} (h : setSubelement (some m) key type src ptr len = some w) :
    len ≤ m.length := by
  obtain ⟨doc', h, -⟩ := Option.bind_eq_some_iff.mp h
  obtain ⟨m5, h, -⟩ := Option.map_eq_some_iff.mp h
  obtain ⟨fin, -, h⟩ := Option.bind_eq_some_iff.mp h
  obtain ⟨m1, h1, h⟩ := Option.bind_eq_some_iff.mp h
  obtain ⟨m2, h2, h⟩ := Option.bind_eq_some_iff.mp h
  obtain ⟨m3, h3, -⟩ := Option.bind_eq_some_iff.mp h
  rw [← Mem.length_of_poke h1, ← Mem.length_of_memcpy h2]
  exact (Mem.le_length_of_memcpy h3).2

theorem measureAnswer_of_attempt {i : ℕ} {errorDoc : Mem}
    (h : attempt env i job pos result code = some (some effects))
    (hdoc : makeErrorDoc env.errorDoc code = some errorDoc) :
    ∃ n : ℕ, (if code = 0 then 8 else 22) ≤ n ∧ n < 2 ^ 31 + 8 ∧
      measureAnswer result errorDoc code = some ((n : ℤ).bmod (2 ^ 32)) := by
  by_cases hcode : code = 0
  · subst hcode
    cases result with
    | none => exact ⟨_, by decide, by decide, answerWriter_null.measure⟩
    | some r =>
      obtain ⟨bytes, hlen, hat⟩ := attempt_result h
      have hlt := readUnalignedInt_lt hlen
      have hkey : keyResult.encode.length = 7 := rfl
      refine ⟨_, ?_, ?_, (answerWriter_result hlen hat).measure⟩
      · rw [if_pos rfl, List.length_cons, List.length_append]
        omega
      · rw [List.length_cons, List.length_append]
        omega
  · obtain ⟨doc, hdoc', his⟩ := makeErrorDoc_eq env.errorDoc_length hcode
    rw [hdoc] at hdoc'
    cases hdoc'
    have hlen := errorElem_length code
    exact ⟨_, by rw [if_neg hcode]; omega, by omega, (answerWriter_error hcode his).measure⟩

/-- There is no memory for a reply with an `id` of almost the whole address space. -/
theorem attempt_large {i : ℕ} (h : HeadAt job fin pos type name value) (hpos : 4 ≤ pos)
    (hlen : readUnalignedInt job 0 = some fin) (hend : job.peek (fin - 1) = some 0)
    (hsize : measureValue job type value fin = some size)
    (hlarge : 2 ^ 31 ≤ size + if code = 0 then 34 else 48) (hlt : size < 2 ^ 31) :
    attempt env i job pos result code ≠ some (some effects) := by
  intro hattempt
  have hnonneg : ¬ size < 0 := by
    split_ifs at hlarge with hcode
    · omega
    · omega
  have hset (doc : Option Mem) : bsonSetElement doc keyId (some job) pos =
      setSubelement doc keyId type job value size := by
    rw [bsonSetElement_head h hpos hlen hend hsize, if_neg hnonneg]
  obtain ⟨errorDoc, hdoc, h1⟩ := Option.bind_eq_some_iff.mp hattempt
  obtain ⟨n, hleast, hn, hanswer⟩ := measureAnswer_of_attempt hattempt hdoc
  have hge : 2 ^ 31 ≤ size + 26 + n := by
    split_ifs at hlarge hleast with hcode
    · omega
    · omega
  obtain ⟨len, hreply, h2⟩ := Option.bind_eq_some_iff.mp h1
  have hjsonrpc : bsonMeasureString keyJsonrpc jsonrpcVer = some 17 := by decide
  have hid : bsonMeasureElement keyId (some job) pos = some ((1 + 3 + size).bmod (2 ^ 32)) := by
    have hkey : toInt32 keyId.encode.length = 3 := by decide
    simp only [bsonMeasureElement, hset, setSubelement, ifDoc, hkey, Option.bind_eq_bind,
      Option.bind_some, Option.pure_def]
  simp only [replyLen, hjsonrpc, hid, hanswer, Option.bind_eq_bind, Option.bind_some,
    Option.pure_def, Option.some.injEq] at hreply
  subst hreply
  cases hmalloc : env.malloc i (((5 + 17 + (1 + 3 + size).bmod (2 ^ 32) +
      (n : ℤ).bmod (2 ^ 32)).bmod (2 ^ 32)) % 2 ^ 32).toNat with
  | none =>
    rw [hmalloc] at h2
    cases h2
  | some output =>
    rw [hmalloc] at h2
    obtain ⟨hroom, hsmall⟩ := env.malloc_length _ _ _ hmalloc
    obtain ⟨m, hbuild, -⟩ := Option.bind_eq_some_iff.mp h2
    obtain ⟨m0, h0, hbuild⟩ := Option.bind_eq_some_iff.mp hbuild
    obtain ⟨m1, h1, hbuild⟩ := Option.bind_eq_some_iff.mp hbuild
    obtain ⟨m2, h2, -⟩ := Option.bind_eq_some_iff.mp hbuild
    obtain ⟨w, hw, -⟩ := Option.bind_eq_some_iff.mp h2
    rw [hset] at hw
    have hle := le_of_setSubelement hw
    rw [length_of_setString h1, Mem.length_of_pokes h0, hroom] at hle
    have hmod (x : ℤ) : x.bmod (2 ^ 32) % 2 ^ 32 = x % 2 ^ 32 := Int.bmod_emod
    have hidmod := hmod (1 + 3 + size)
    have hanswermod := hmod n
    rw [hmod] at hle hsmall
    generalize (1 + 3 + size).bmod (2 ^ 32) = x at hle hsmall hidmod
    generalize (n : ℤ).bmod (2 ^ 32) = y at hle hsmall hanswermod
    clear * - hle hsmall hidmod hanswermod hge hlt hn
    omega

theorem sendReply_large (h : HeadAt job fin pos type name value) (hpos : 4 ≤ pos)
    (hlen : readUnalignedInt job 0 = some fin) (hend : job.peek (fin - 1) = some 0)
    (hsize : measureValue job type value fin = some size)
    (hlarge : 2 ^ 31 ≤ size + if code = 0 then 34 else 48) (hlt : size < 2 ^ 31)
    (hsend : sendReply env job pos result code = some effects) :
    packets effects = [] := by
  obtain ⟨o, ho, hsend⟩ := Option.bind_eq_some_iff.mp hsend
  cases o with
  | some sent => exact absurd ho (attempt_large h hpos hlen hend hsize hlarge hlt)
  | none =>
    by_cases hcode : code = 0
    · subst hcode
      obtain ⟨o, ho, hsend⟩ := Option.bind_eq_some_iff.mp hsend
      cases o with
      | some sent =>
        rw [if_pos rfl] at hlarge
        refine absurd ho (attempt_large h hpos hlen hend hsize ?_ hlt)
        rw [if_neg (by decide)]
        omega
      | none =>
        cases hsend
        cases result <;> rfl
    · simp only [ne_eq, hcode, not_false_eq_true, if_true] at hsend
      cases hsend
      rfl

end Large

/-! ## What is found -/

/-- A key that has been found in the document, or has no offset. -/
def FoundOrNot (d : Mem) (fin : ℤ) (key : CString) (off : ℤ) : Prop :=
  off = -1 ∨ Found d fin 4 noOffsets (key, off)

section Found

variable {data d : Mem} {fin off : ℤ} {key : CString}

/-- The offsets that are found, if no length that is measured goes on behind the memory. -/
theorem search_found (hlen : readUnalignedInt d 0 = some fin) (h4 : 4 < fin)
    (hend : d.peek (fin - 1) = some 0) (hfin : fin ≤ d.length)
    (hfits : ∀ pos scanned keys type name value, Searched d fin 4 noOffsets pos scanned keys →
      HeadAt d fin pos type name value → startsWithLength type = true →
        ¬ ((assignFirst name pos keys).isSome ∧ scanned + 1 = 4) → value + 4 ≤ d.length) :
    ∃ r o0 o1 o2 o3, FoundOrNot d fin keyJsonrpc o0 ∧ FoundOrNot d fin keyMethod o1 ∧
      FoundOrNot d fin keyParams o2 ∧ FoundOrNot d fin keyId o3 ∧ ∀ u0 u1 u2 u3,
        bsonGetProps d [(keyJsonrpc, u0), (keyMethod, u1), (keyParams, u2), (keyId, u3)] =
          some (r, [(keyJsonrpc, o0), (keyMethod, o1), (keyParams, o2), (keyId, o3)]) := by
  obtain ⟨r, keys', hscan, hnames, hkeys⟩ :=
    scanElements_inside hfin hfits (fin - 4).toNat .first
  obtain ⟨o0, o1, o2, o3, rfl⟩ : ∃ o0 o1 o2 o3, keys' = [(keyJsonrpc, o0), (keyMethod, o1),
      (keyParams, o2), (keyId, o3)] := by
    match keys', hnames with
    | [(k0, o0), (k1, o1), (k2, o2), (k3, o3)], hnames =>
      simp only [List.map_cons, List.map_nil, noOffsets, List.cons.injEq, and_true] at hnames
      obtain ⟨rfl, rfl, rfl, rfl⟩ := hnames
      exact ⟨o0, o1, o2, o3, rfl⟩
  have hfound {key : CString} {o : ℤ} (hk : (key, o) ∈ [(keyJsonrpc, o0), (keyMethod, o1),
      (keyParams, o2), (keyId, o3)]) : FoundOrNot d fin key o := by
    rcases hkeys _ hk with hk | hk
    · have hneg : ∀ k ∈ noOffsets, k.2 = -1 := by decide
      exact .inl (hneg _ hk)
    · exact .inr hk
  exact ⟨r, o0, o1, o2, o3, hfound (by simp), hfound (by simp), hfound (by simp),
    hfound (by simp), fun u0 u1 u2 u3 => (bsonGetProps_eq_scan hlen h4 hend _).trans hscan⟩

/-- If a length that is measured goes on behind the end, no key is found. -/
theorem LengthsInside.search_none (hlen : LengthsInside data) (hreq : RequestBytes data)
    (hend : data.peek (data.length - 1) = some 0)
    (hout : ¬ ∀ pos scanned keys type name value,
      Searched data data.length 4 noOffsets pos scanned keys →
        HeadAt data data.length pos type name value → startsWithLength type = true →
          ¬ ((assignFirst name pos keys).isSome ∧ scanned + 1 = 4) → value + 4 ≤ data.length)
    {back : Mem} {u0 u1 u2 u3 r : ℤ} {keys' : Keys}
    (hprops : bsonGetProps (data ++ back) [(keyJsonrpc, u0), (keyMethod, u1), (keyParams, u2),
      (keyId, u3)] = some (r, keys')) : r ≤ 0 ∧ keys' = noOffsets := by
  push Not at hout
  obtain ⟨pos, scanned, keys, type, name, value, hsearched, hhead, htype, hopen, hbehind⟩ := hout
  have hgt := hhead.value_gt
  have hlt := hhead.value_lt
  have h4 := hsearched.visited.le
  have hnone : ¬ ((assignFirst name pos keys).isSome ∨ 0 < scanned) := fun hkey =>
    absurd (hlen hend _ _ _ _ _ _ hsearched hhead htype hkey (.inl fun h => hopen h.1 h.2))
      (Int.not_le.mpr hbehind)
  obtain ⟨hmiss, hzero⟩ := not_or.mp hnone
  obtain rfl : scanned = 0 := Nat.eq_zero_of_not_pos hzero
  obtain rfl := hsearched.keys_eq rfl
  rw [bsonGetProps_eq_scan (readUnalignedInt_stable _ _ _ _ hreq.length_eq) (by omega)
    (Mem.Stable.peek _ _ _ _ hend)] at hprops
  obtain ⟨fuel, hscan⟩ := (hsearched.append back).scan (by omega) (Nat.le_refl _)
  obtain ⟨len, -, hkeys, rfl⟩ := (hhead.append back).scan_behind htype hbehind
    (fun h => hopen h.1 h.2) (hscan.symm.trans hprops)
  rw [Option.not_isSome_iff_eq_none.mp hmiss, Option.getD_none] at hkeys
  refine ⟨?_, hkeys⟩
  split_ifs
  · decide
  · exact Int.le_refl 0

theorem FoundOrNot.string (h : FoundOrNot data data.length key off) (hreq : RequestBytes data)
    (hend : data.peek (data.length - 1) = some 0) :
    ∃ r, (∀ back x, bsonGetString (some (data ++ back)) off = some x → x = r) ∧
      ∀ p, r = some p → bsonGetString (some data) off = some (some p) ∧
        ∃ s : CString, data.HasAt p s.encode := by
  rcases h with rfl | hfound
  · exact ⟨none, fun _ _ hx => (Option.some.inj hx).symm, fun p hp => absurd hp (by simp)⟩
  · by_cases hin : ∀ name value, HeadAt data data.length off 0x02 name value →
        value + 4 ≤ data.length
    · obtain ⟨r, hr, hs⟩ := hfound.reported.bsonGetString (Int.le_refl _) hreq.length_eq hend hin
      refine ⟨r, fun back x hx => ?_, fun p hp => ?_⟩
      · have hback := bsonGetString_stable _ _ back _ hr
        exact Option.some.inj (hx.symm.trans hback)
      · exact ⟨by rw [hr, hp], hs p hp⟩
    · push Not at hin
      obtain ⟨name, value, hhead, hbehind⟩ := hin
      obtain ⟨_, _, _, _, hsearched, -⟩ := hfound
      refine ⟨none, fun back x hx => ?_, fun p hp => absurd hp (by simp)⟩
      have hseek := (hhead.append back).seekData hsearched.visited.le
        (readUnalignedInt_stable _ _ _ _ hreq.length_eq) (Mem.Stable.peek _ _ _ _ hend) 0x02 0x02
      rw [if_neg fun hne => hne.1 rfl] at hseek
      simp only [bsonGetString, hseek, Option.bind_eq_bind, Option.bind_some] at hx
      obtain ⟨len, -, hx⟩ := Option.bind_eq_some_iff.mp hx
      rw [if_pos (by omega)] at hx
      exact (Option.some.inj hx).symm

theorem FoundOrNot.subdocument (h : FoundOrNot data data.length key off) (hreq : RequestBytes data)
    (hend : data.peek (data.length - 1) = some 0) :
    ∃ p, ∀ back, bsonGetSubdocument (some (data ++ back)) off = some p := by
  rcases h with rfl | hfound
  · exact ⟨none, fun _ => rfl⟩
  · obtain ⟨scanned, keys, type, value, hsearched, -, hhead⟩ := hfound
    have hseek := hhead.seekData hsearched.visited.le hreq.length_eq hend 0x04 0x03
    have hsub : bsonGetSubdocument (some data) off = some ((if type ≠ 0x04 ∧ type ≠ 0x03 then none
        else some (value, (data.length : ℤ))).map (·.1)) := by
      simp only [bsonGetSubdocument, hseek, Option.bind_eq_bind, Option.bind_some, Option.pure_def]
    exact ⟨_, fun back => bsonGetSubdocument_stable _ _ _ _ hsub⟩

/-- `send_reply` sends the same packets for the two jobs. -/
def SendsSame (env env' : Surroundings) (job job' : Mem) (offId : ℤ) (code : BitVec 32) : Prop :=
  ∀ result effects effects', sendReply env job offId result code = some effects →
    sendReply env' job' offId result code = some effects' → packets effects = packets effects'

theorem sendsSame_of_copied {env env' : Surroundings} {job job' : Mem} {elem : List UInt8}
    {code : BitVec 32}
    (hid : CopiesId job off elem) (hid' : CopiesId job' off elem)
    (hsmall : elem.length ≤ maxRequestLength)
    (hmalloc : ∀ i n, (env.malloc i n).isSome = (env'.malloc i n).isSome) :
    SendsSame env env' job job' off code := fun _ _ _ h h' =>
  congrArg packets (sendReply_congr hid hid' hsmall hmalloc h h')

theorem FoundOrNot.sendsSame (h : FoundOrNot data data.length keyId off) (hreq : RequestBytes data)
    (hconf : Confined data) (hend : data.peek (data.length - 1) = some 0) {env env' : Surroundings}
    (hmalloc : ∀ i n, (env.malloc i n).isSome = (env'.malloc i n).isSome) (back back' : Mem)
    {code : BitVec 32} (hcode : code = 0 → NamesMethod data) :
    SendsSame env env' (data ++ back) (data ++ back') off code := by
  rcases h with rfl | hfound
  · have hnone (job : Mem) : CopiesId job (-1) [] := copiesId_nil fun _ => rfl
    exact sendsSame_of_copied (hnone _) (hnone _) (Nat.zero_le _) hmalloc
  · obtain ⟨scanned, keys, type, value, hsearched, hopen, hhead⟩ := hfound
    have hgt := hhead.value_gt
    have hlt := hhead.value_lt
    have h4 := hsearched.visited.le
    obtain ⟨keys1, hassign, -⟩ := assignFirst_of_mem off hopen
    have hsome : (measureValue data type value data.length).isSome :=
      (measureValue_isSome (by omega) (by omega) (Int.le_refl _)).mpr fun htype =>
        hconf.lengths_inside hend _ _ _ _ _ _ hsearched hhead htype (.inl (by rw [hassign]; rfl))
          (.inr rfl)
    obtain ⟨size, hsize⟩ := Option.isSome_iff_exists.mp hsome
    by_cases hin : value + size ≤ data.length
    · obtain ⟨elem, hsmall, hid⟩ := copiesId_of_head hreq hhead h4 hend hsize hin
      exact sendsSame_of_copied (hid back) (hid back') hsmall hmalloc
    · have hlarge : 2 ^ 31 ≤ size + if code = 0 then 34 else 48 := by
        have hnot : ¬ ReplyHolds data size := fun hholds =>
          hin (hconf.id_inside _ _ _ ⟨hend, _, _, _, hsearched, hopen, hhead, hsize⟩ hholds)
        split_ifs with h0
        · exact Int.not_lt.mp fun hlt => hnot (.inr ⟨hlt, hcode h0⟩)
        · exact Int.not_lt.mp fun hlt => hnot (.inl hlt)
      intro result effects effects' hsend hsend'
      have hnothing {env : Surroundings} {back : Mem} {effects : List Effect}
          (hsend : sendReply env (data ++ back) off result code = some effects) :
          packets effects = [] :=
        sendReply_large (hhead.append back) h4 (readUnalignedInt_stable _ _ _ _ hreq.length_eq)
          (Mem.Stable.peek _ _ _ _ hend) (measureValue_stable _ _ _ _ _ _ hsize) hlarge
          (measureValue_lt hsize) hsend
      rw [hnothing hsend, hnothing hsend']

end Found

/-! ## The service in two memories -/

section Service

variable {data back back' : Mem} {env env' : Surroundings} {effects effects' : List Effect}

theorem finish_congr {job job' : Mem} {offId : ℤ} {result : Option Mem} {errno : BitVec 32}
    (hsends : ∀ code, SendsSame env env' job job' offId code)
    (h : finish env job offId result errno = some effects)
    (h' : finish env' job' offId result errno = some effects') :
    packets effects = packets effects' := by
  rw [finish] at h h'
  by_cases hneg : offId < 0
  · rw [if_pos hneg] at h h'
    exact congrArg packets (Option.some.inj (h.symm.trans h'))
  · rw [if_neg hneg] at h h'
    exact hsends _ _ _ _ h h'

theorem callMethod_congr {job job' : Mem} {offId : ℤ} {params : Option ℤ} {f f' : Handler}
    (hsends : ∀ code, SendsSame env env' job job' offId code) (hsame : Handler.Same job job' f f')
    (h : callMethod env job offId params f = some effects)
    (h' : callMethod env' job' offId params f' = some effects') :
    packets effects = packets effects' := by
  cases f with
  | sync call =>
    cases f' with
    | sync call' =>
      rw [callMethod, hsame params] at h
      exact finish_congr hsends h h'
    | async call' => exact hsame.elim
  | async call =>
    cases f' with
    | sync call' => exact hsame.elim
    | async call' =>
      rw [callMethod, hsame params] at h
      rw [callMethod] at h'
      by_cases hqueued : call' job' params = 0
      · rw [if_pos hqueued] at h h'
        exact congrArg packets (Option.some.inj (h.symm.trans h'))
      · rw [if_neg hqueued] at h h'
        exact finish_congr hsends h h'

theorem findMethod_congr {m m' : Mem} {p : ℤ} {s : CString} (hp : m.HasAt p s.encode)
    (hp' : m'.HasAt p s.encode) {entries entries' : List MethodEntry}
    (h : List.Forall₂ (fun entry entry' => entry.name = entry'.name ∧
      Handler.Same m m' entry.handler entry'.handler) entries entries') :
    (findMethod m p entries = some none ∧ findMethod m' p entries' = some none) ∨
      ∃ entry entry', findMethod m p entries = some (some entry) ∧
        findMethod m' p entries' = some (some entry') ∧
          Handler.Same m m' entry.handler entry'.handler := by
  induction h with
  | nil => exact .inl ⟨rfl, rfl⟩
  | @cons entry entry' entries entries' hentry _ ih =>
    have hcmp := Mem.HasAt.strcmpEq (l := []) s.no_nul entry.name.no_nul hp
    have hcmp' := Mem.HasAt.strcmpEq (l := []) s.no_nul entry'.name.no_nul hp'
    rw [← hentry.1] at hcmp'
    by_cases hname : entry.name.bytes = s.bytes
    · refine .inr ⟨entry, entry', ?_, ?_, hentry.2⟩
      · rw [findMethod, hcmp, decide_eq_true hname]
        rfl
      · rw [findMethod, ← hentry.1, hcmp', decide_eq_true hname]
        rfl
    · rw [decide_eq_false hname] at hcmp hcmp'
      rw [findMethod, findMethod, ← hentry.1, hcmp, hcmp']
      exact ih

theorem isJsonrpcVer_same {ver : Option ℤ} (h : ∀ p, ver = some p →
    ∃ s : CString, data.HasAt p s.encode) :
    ∃ b, ∀ back, isJsonrpcVer (data ++ back) ver = some b := by
  cases ver with
  | none => exact ⟨false, fun _ => rfl⟩
  | some p =>
    obtain ⟨s, hs⟩ := h p rfl
    exact ⟨_, fun back => Mem.HasAt.strcmpEq (l := []) s.no_nul jsonrpcVer.no_nul (hs.append back)⟩

/-- A confined request is replied to with the same bytes, whatever is in memory behind it, in the
buffers that `malloc` returns and in variables that are not initialised. -/
theorem Confined.dependsOnRequest (hconf : Confined data) (hreq : RequestBytes data) :
    DependsOnRequest data := by
  intro env env' back back' effects effects' hsame h h'
  have hnone (job : Mem) : CopiesId job (-1) [] := copiesId_nil fun _ => rfl
  have hneg : (-1 : ℤ) ≤ 0 := by decide
  by_cases hend : 4 < data.length ∧ data.peek (data.length - 1) = some 0
  · obtain ⟨h4, hend⟩ := hend
    by_cases hfits : ∀ pos scanned keys type name value,
        Searched data data.length 4 noOffsets pos scanned keys →
          HeadAt data data.length pos type name value → startsWithLength type = true →
            ¬ ((assignFirst name pos keys).isSome ∧ scanned + 1 = 4) → value + 4 ≤ data.length
    · obtain ⟨r, o0, o1, o2, o3, hf0, hf1, hf2, hf3, hprops⟩ :=
        search_found hreq.length_eq (by omega) hend (Int.le_refl _) hfits
      have hprops' (back : Mem) (u0 u1 u2 u3 : ℤ) :=
        bsonGetProps_stable _ _ back _ (hprops u0 u1 u2 u3)
      obtain ⟨ver, hver, hverAt⟩ := hf0.string hreq hend
      obtain ⟨name, hname, hnameAt⟩ := hf1.string hreq hend
      obtain ⟨params, hparams⟩ := hf2.subdocument hreq hend
      have hsends {code : BitVec 32} (hcode : code = 0 → NamesMethod data) :=
        hf3.sendsSame hreq hconf hend hsame.malloc back back' hcode
      obtain ⟨b, hisVer⟩ := isJsonrpcVer_same fun p hp => (hverAt p hp).2
      simp only [peridotRpcServerService, hprops', List.getD_cons_zero, List.getD_cons_succ,
        hparams, Option.bind_eq_bind, Option.bind_some] at h h'
      by_cases hr : r ≤ 0
      · rw [if_pos hr] at h h'
        exact hsends (fun h0 => absurd h0 (by decide)) _ _ _ h h'
      · rw [if_neg hr] at h h'
        obtain ⟨x, hx, h⟩ := Option.bind_eq_some_iff.mp h
        obtain ⟨x', hx', h'⟩ := Option.bind_eq_some_iff.mp h'
        obtain rfl := hver back x hx
        obtain rfl := hver back' x' hx'
        simp only [hisVer, Option.bind_some] at h h'
        cases b with
        | false => exact hsends (fun h0 => absurd h0 (by decide)) _ _ _ h h'
        | true =>
          simp only [Bool.not_true, Bool.false_eq_true, if_false] at h h'
          obtain ⟨y, hy, h⟩ := Option.bind_eq_some_iff.mp h
          obtain ⟨y', hy', h'⟩ := Option.bind_eq_some_iff.mp h'
          obtain rfl := hname back y hy
          obtain rfl := hname back' y' hy'
          cases y' with
          | none => exact hsends (fun h0 => absurd h0 (by decide)) _ _ _ h h'
          | some p =>
            obtain ⟨hget, s, hs⟩ := hnameAt p rfl
            have hnames : NamesMethod data := by
              have hnil := hisVer []
              rw [List.append_nil] at hnil
              cases x' with
              | none => cases hnil
              | some v =>
                exact ⟨r, o0, o1, o2, o3, v, p, hprops 0 0 0 0, Int.not_le.mp hr,
                  (hverAt v rfl).1, hnil, hget⟩
            have hall (code : BitVec 32) := @hsends code fun _ => hnames
            rcases findMethod_congr (hs.append back) (hs.append back') hsame.methods with
              ⟨hfind, hfind'⟩ | ⟨entry, entry', hfind, hfind', hentry⟩
            · simp only [hfind, hfind', Option.bind_some] at h h'
              exact finish_congr hall h h'
            · simp only [hfind, hfind', Option.bind_some] at h h'
              exact callMethod_congr hall hentry h h'
    · -- a parse error, whatever the length behind the end is
      have herror {env : Surroundings} {back : Mem} {effects : List Effect}
          (h : peridotRpcServerService env (data ++ back) = some effects) :
          sendReply env (data ++ back) (-1) none errParseError = some effects := by
        obtain ⟨⟨r, keys'⟩, hprops, h⟩ := Option.bind_eq_some_iff.mp h
        obtain ⟨hr, rfl⟩ := hconf.lengths_inside.search_none hreq hend hfits hprops
        simp only [if_pos hr] at h
        exact h
      exact sendsSame_of_copied (hnone _) (hnone _) (Nat.zero_le _) hsame.malloc _ _ _
        (herror h) (herror h')
  · -- without a valid end, the offsets are not even initialised, but not used either
    have hnoEnd (back : Mem) : 4 < (data.length : ℤ) →
        ∃ b, Mem.peek (data ++ back) (data.length - 1) = some b ∧ b ≠ 0 := by
      intro h4
      obtain ⟨b, hb⟩ := Mem.exists_peek (m := data) (p := data.length - 1) (by omega) (by omega)
      exact ⟨b, Mem.Stable.peek _ _ _ _ hb, fun hzero => hend ⟨by omega, by rw [hb, hzero]⟩⟩
    have hlen (back : Mem) := readUnalignedInt_stable _ _ back _ hreq.length_eq
    have hid (back : Mem) (offId : ℤ) : CopiesId (data ++ back) offId [] :=
      copiesId_nil (bsonSetElement_no_end (hlen back) (hnoEnd back))
    simp only [peridotRpcServerService, bsonGetProps_no_end (hlen _) (hnoEnd _),
      Option.bind_eq_bind, Option.bind_some, if_pos hneg] at h h'
    exact congrArg packets (sendReply_congr (hid _ _) (hid _ _) (Nat.zero_le _) hsame.malloc h h')

end Service

/-! ## What a reply may disclose -/

section Plentiful

variable {data d job : Mem} {methods : List MethodEntry} {fin off r : ℤ} {keys' : Keys}
  {key : CString} {elem answerElem : List UInt8} {code : BitVec 32} {errorDoc : Mem}

theorem sendReply_plentiful (methods : List MethodEntry) (hid : CopiesId job off elem)
    (hdoc : makeErrorDoc (plentiful methods).errorDoc code = some errorDoc)
    (ha : AnswerWriter none code errorDoc answerElem)
    (hsmall : (replyBytes elem answerElem).length < 2 ^ 31) :
    ∃ effects, sendReply (plentiful methods) job off none code = some effects ∧
      packets effects = [replyBytes elem answerElem] := by
  have hmalloc : ((plentiful methods).malloc 0 (replyBytes elem answerElem).length).isSome := by
    simp only [plentiful, if_pos hsmall, Option.isSome_some]
  refine ⟨_, sendReply_eq _ hid hdoc ha (by omega), ?_⟩
  rw [sent, if_pos hmalloc, packets_replied]

theorem sendReply_plentiful_error (methods : List MethodEntry) (hid : CopiesId job off elem)
    (hcode : code ≠ 0) (hsmall : elem.length + 44 < 2 ^ 31) :
    ∃ effects, sendReply (plentiful methods) job off none code = some effects ∧
      packets effects = [replyBytes elem (errorElem code)] := by
  obtain ⟨doc, hdoc, his⟩ := makeErrorDoc_eq (plentiful methods).errorDoc_length hcode
  refine sendReply_plentiful methods hid hdoc (answerWriter_error hcode his) ?_
  rw [replyBytes_length, errorElem_length]
  omega

theorem search_plentiful (hlen : readUnalignedInt d 0 = some fin) (h4 : 4 < fin)
    (hend : d.peek (fin - 1) = some 0) (hroom : fin + 3 ≤ d.length) :
    ∃ r o0 o1 o2 o3, FoundOrNot d fin keyJsonrpc o0 ∧ FoundOrNot d fin keyMethod o1 ∧
      bsonGetProps d startKeys =
        some (r, [(keyJsonrpc, o0), (keyMethod, o1), (keyParams, o2), (keyId, o3)]) := by
  obtain ⟨r, o0, o1, o2, o3, hf0, hf1, -, -, hprops⟩ := search_found hlen h4 hend (by omega)
    fun pos scanned keys type name value _ hhead _ _ => by
      have hlt := hhead.value_lt
      omega
  exact ⟨r, o0, o1, o2, o3, hf0, hf1, hprops 0 0 0 0⟩

theorem FoundOrNot.bsonGetString (h : FoundOrNot d fin key off)
    (hlen : readUnalignedInt d 0 = some fin) (hend : d.peek (fin - 1) = some 0)
    (hroom : fin + 3 ≤ d.length) :
    ∃ s, bsonGetString (some d) off = some s ∧
      ∀ p, s = some p → ∃ s : CString, d.HasAt p s.encode := by
  rcases h with rfl | hfound
  · exact ⟨none, rfl, fun p hp => absurd hp (by simp)⟩
  · refine hfound.reported.bsonGetString (by omega) hlen hend fun name value hhead => ?_
    have hlt := hhead.value_lt
    omega

theorem offId_eq {o0 o1 o2 o3 : ℤ}
    (h : (keyId, off) ∈ [(keyJsonrpc, o0), (keyMethod, o1), (keyParams, o2), (keyId, o3)]) :
    off = o3 := by
  simp only [List.mem_cons, Prod.mk.injEq, List.not_mem_nil, or_false] at h
  rcases h with ⟨hk, -⟩ | ⟨hk, -⟩ | ⟨hk, -⟩ | ⟨-, rfl⟩
  · exact absurd hk (by decide)
  · exact absurd hk (by decide)
  · exact absurd hk (by decide)
  · rfl

theorem packets_plentiful (hlen : readUnalignedInt d 0 = some fin) (h4 : 4 < fin)
    (hend : d.peek (fin - 1) = some 0) (hroom : fin + 3 ≤ d.length)
    (hprops : bsonGetProps d startKeys = some (r, keys')) (hoff : (keyId, off) ∈ keys')
    (hid : CopiesId d off elem) (hsmall : elem.length + 44 < 2 ^ 31) :
    ∃ effects, peridotRpcServerService (plentiful []) d = some effects ∧
      ((∃ code, (code = errParseError ↔ r ≤ 0) ∧
          packets effects = [replyBytes elem (errorElem code)]) ∨
        0 < r ∧ off < 0 ∧ packets effects = []) := by
  obtain ⟨r', o0, o1, o2, o3, hf0, hf1, hprops'⟩ := search_plentiful hlen h4 hend hroom
  rw [hprops'] at hprops
  cases hprops
  obtain rfl := offId_eq hoff
  obtain ⟨ver, hver, hverAt⟩ := hf0.bsonGetString hlen hend hroom
  obtain ⟨name, hname, -⟩ := hf1.bsonGetString hlen hend hroom
  obtain ⟨b, hisVer⟩ := isJsonrpcVer_same hverAt
  have hisVer := hisVer []
  rw [List.append_nil] at hisVer
  have hkeys : [(keyJsonrpc, (plentiful []).offJsonrpc), (keyMethod, (plentiful []).offMethod),
    (keyParams, (plentiful []).offParams), (keyId, (plentiful []).offId)] = startKeys := rfl
  have hmethods : (plentiful []).methods = [] := rfl
  simp only [peridotRpcServerService, hkeys, hprops', List.getD_cons_zero, List.getD_cons_succ,
    hver, hisVer, hname, hmethods, findMethod, Option.bind_eq_bind, Option.bind_some]
  have herror {code : BitVec 32} (hcode : code ≠ 0) (hparse : code = errParseError ↔ r ≤ 0) :
      ∃ effects, sendReply (plentiful []) d off none code = some effects ∧
        ((∃ code, (code = errParseError ↔ r ≤ 0) ∧
            packets effects = [replyBytes elem (errorElem code)]) ∨
          0 < r ∧ off < 0 ∧ packets effects = []) := by
    obtain ⟨effects, hsend, hpackets⟩ :=
      sendReply_plentiful_error [] hid hcode hsmall
    exact ⟨effects, hsend, .inl ⟨code, hparse, hpackets⟩⟩
  by_cases hr : r ≤ 0
  · rw [if_pos hr]
    exact herror (by decide) ⟨fun _ => hr, fun _ => rfl⟩
  · have hcode {code : BitVec 32} (hne : code ≠ errParseError) : code = errParseError ↔ r ≤ 0 :=
      ⟨fun h => absurd h hne, fun h => absurd h hr⟩
    rw [if_neg hr]
    cases b with
    | false => exact herror (by decide) (hcode (by decide))
    | true =>
      cases name with
      | none => exact herror (by decide) (hcode (by decide))
      | some p =>
        simp only [finish, Bool.not_true, Bool.false_eq_true, if_false]
        by_cases hneg : off < 0
        · rw [if_pos hneg]
          exact ⟨_, rfl, .inr ⟨Int.not_le.mp hr, hneg, rfl⟩⟩
        · rw [if_neg hneg]
          exact herror (by decide) (hcode (by decide))

end Plentiful

section Converse

variable {data back : Mem} {pos value size r : ℤ} {scanned n : ℕ} {keys keys' keys1 : Keys}
  {type b : UInt8} {name : CString}

theorem peek_behind {p : ℤ} (hle : data.length ≤ p) (hlt : p < data.length + n) :
    Mem.peek (data ++ List.replicate n b) p = some b := by
  have hat := Mem.hasAt_append data (List.replicate n b) []
  rw [List.append_nil] at hat
  have hk : (p - data.length).toNat < n := by omega
  have hpeek := hat.peek_add (n := (p - data.length).toNat) (by rwa [List.length_replicate])
  rwa [show (data.length : ℤ) + ((p - data.length).toNat : ℕ) = p by omega,
    List.getElem?_replicate, if_pos hk] at hpeek

theorem measureValue_behind (htype : startsWithLength type = true) (hvalue : 0 ≤ value)
    (hlt : value < data.length) (hout : (data.length : ℤ) < value + 4) (hn : 3 ≤ n) (b : UInt8) :
    ∃ skip w : ℕ, skip ≤ 16 ∧ 2 ^ 24 * b.toNat ≤ w ∧ w < 2 ^ 24 * (b.toNat + 1) ∧ ∀ fin,
      measureValue (data ++ List.replicate n b) type value fin =
        some (measured (toInt32 w) skip) := by
  obtain ⟨skip, -, hskip, hmeasure⟩ := measureValue_length htype
  have hsome : (readUnalignedInt (data ++ List.replicate n b) value).isSome := by
    rw [readUnalignedInt_isSome, List.length_append, List.length_replicate]
    omega
  have hbehind : Mem.peek (data ++ List.replicate n b) (value + 3) = some b :=
    peek_behind (by omega) (by omega)
  obtain ⟨v, hv⟩ := Option.isSome_iff_exists.mp hsome
  obtain ⟨b0, b1, b2, b3, -, -, -, h3, hbytes⟩ := readUnalignedInt_bytes hv
  cases hbehind.symm.trans h3
  have hsum : leNat [b0, b1, b2, b] =
      b0.toNat + 256 * (b1.toNat + 256 * (b2.toNat + 256 * (b.toNat + 256 * 0))) := rfl
  have h0 : b0.toNat < 256 := b0.toNat_lt
  have h1 : b1.toNat < 256 := b1.toNat_lt
  have h2 : b2.toNat < 256 := b2.toNat_lt
  have hsize (fin : ℤ) : measureValue (data ++ List.replicate n b) type value fin =
      some (measured (toInt32 (leNat [b0, b1, b2, b])) skip) := by
    rw [hmeasure, hv, hbytes, Option.map_some]
  refine ⟨skip, leNat [b0, b1, b2, b], hskip, ?_, ?_, hsize⟩
  · clear * - hsum
    omega
  · clear * - hsum h0 h1 h2
    omega

theorem measured_of_ge {w skip : ℕ} (hge : 2 ^ 31 ≤ w) (hlt : w < 2 ^ 32) :
    measured (toInt32 w) skip = -1 := by
  have hneg : toInt32 w < 0 := by
    rw [toInt32_of_ge hge hlt]
    omega
  rw [measured, if_pos hneg]

/-- What is behind the request decides whether the length is negative, or some megabytes. -/
theorem lengths_behind (htype : startsWithLength type = true) (hvalue : 0 ≤ value)
    (hlt : value < data.length) (hout : (data.length : ℤ) < value + 4) :
    ∃ n size : ℕ, 3 ≤ n ∧ size ≤ n ∧ size < 2 ^ 26 ∧
      (∀ fin, measureValue (data ++ List.replicate n 255) type value fin = some (-1)) ∧
        ∀ fin, measureValue (data ++ List.replicate n 1) type value fin = some (size : ℤ) := by
  obtain ⟨n, hn⟩ : ∃ n : ℕ, 2 ^ 26 ≤ n := ⟨_, Nat.le_refl _⟩
  have h255 : UInt8.toNat 255 = 255 := rfl
  have h1 : UInt8.toNat 1 = 1 := rfl
  obtain ⟨skip, w, -, hge, hltw, hsize⟩ :=
    measureValue_behind (n := n) htype hvalue hlt hout (by omega) 255
  obtain ⟨skip', w', hskip', hge', hltw', hsize'⟩ :=
    measureValue_behind (n := n) htype hvalue hlt hout (by omega) 1
  rw [h255] at hge hltw
  rw [h1] at hge' hltw'
  rw [measured_of_ge (by omega) (by omega)] at hsize
  rw [toInt32_of_lt (by omega), measured_eq (by omega)] at hsize'
  exact ⟨n, w' + skip', by omega, by omega, by omega, hsize, hsize'⟩

theorem mem_of_props (back : Mem) (hhead : HeadAt data data.length pos type name value)
    (hreq : RequestBytes data) (hend : data.peek (data.length - 1) = some 0)
    (hsearched : Searched data data.length 4 noOffsets pos scanned keys)
    (hassign : assignFirst name pos keys = some keys1) (hmem : (name, pos) ∈ keys1)
    (hprops : bsonGetProps (data ++ back) startKeys = some (r, keys')) : (name, pos) ∈ keys' := by
  have hgt := hhead.value_gt
  have hlt := hhead.value_lt
  have h4 := hsearched.visited.le
  rw [bsonGetProps_eq_scan (readUnalignedInt_stable _ _ _ _ hreq.length_eq) (by omega)
    (Mem.Stable.peek _ _ _ _ hend)] at hprops
  obtain ⟨fuel, hscan⟩ := (hsearched.append back).scan (by omega) (Nat.le_refl _)
  exact (hhead.append back).mem_of_scan hassign hmem (Int.le_trans (by decide) h4)
    (hscan.symm.trans hprops)

/-- An element `id` with an offset of its own is replied to with what is copied of it. -/
theorem packets_found (hhead : HeadAt data data.length pos type keyId value)
    (hreq : RequestBytes data) (hend : data.peek (data.length - 1) = some 0)
    (hsearched : Searched data data.length 4 noOffsets pos scanned keys)
    (hassign : assignFirst keyId pos keys = some keys1) (hroom : 3 ≤ back.length)
    {elem : List UInt8} (hid : CopiesId (data ++ back) pos elem)
    (hsmall : elem.length + 44 < 2 ^ 31) : ∃ effects code,
      peridotRpcServerService (plentiful []) (data ++ back) = some effects ∧
        packets effects = [replyBytes elem (errorElem code)] := by
  have hgt := hhead.value_gt
  have hlt := hhead.value_lt
  have h4 := hsearched.visited.le
  have hlen := readUnalignedInt_stable _ _ back _ hreq.length_eq
  have hend' := Mem.Stable.peek _ _ back _ hend
  have hin : (data.length : ℤ) + 3 ≤ (data ++ back).length := by
    rw [List.length_append]
    omega
  obtain ⟨r, o0, o1, o2, o3, -, -, hprops⟩ := search_plentiful hlen (by omega) hend' hin
  have hoff := mem_of_props _ hhead hreq hend hsearched hassign
    (assignFirst_stores hassign) hprops
  obtain ⟨effects, hrun, ⟨code, -, hpackets⟩ | ⟨-, hneg, -⟩⟩ :=
    packets_plentiful hlen (by omega) hend' hin hprops hoff hid hsmall
  · exact ⟨effects, code, hrun, hpackets⟩
  · omega

/-- With its offset stored, an element `id` whose length goes on behind the end is copied or not. -/
theorem DependsOnRequest.id_length (h : DependsOnRequest data) (hreq : RequestBytes data)
    (hend : data.peek (data.length - 1) = some 0)
    (hsearched : Searched data data.length 4 noOffsets pos scanned keys)
    (hhead : HeadAt data data.length pos type keyId value) (htype : startsWithLength type = true)
    (hassign : assignFirst keyId pos keys = some keys1) : value + 4 ≤ data.length := by
  by_contra hout
  have hgt := hhead.value_gt
  have hlt := hhead.value_lt
  have h4 := hsearched.visited.le
  have hlen (back : Mem) := readUnalignedInt_stable _ _ back _ hreq.length_eq
  have hend' (back : Mem) := Mem.Stable.peek _ _ back _ hend
  obtain ⟨n, size, hn, hle, hsmall, hneg, hsize⟩ :=
    lengths_behind htype (by omega) hlt (Int.not_le.mp hout)
  have hnone : CopiesId (data ++ List.replicate n 255) pos [] :=
    copiesId_of_neg (hhead.append _) h4 (hlen _) (hend' _) (hneg _) (by decide)
  obtain ⟨bytes, rfl, hat⟩ := Mem.exists_hasAt (m := data ++ List.replicate n 1) (p := value)
    (n := size) (by omega) (by rw [List.length_append, List.length_replicate]; omega)
  have hcopies := copiesId_of_bytes (hhead.append _) h4 (hlen _) (hend' _) (hsize _) hat
    (by omega)
  have hkey : keyId.encode.length = 3 := rfl
  obtain ⟨effects, code, hrun, hpackets⟩ := packets_found hhead hreq hend hsearched hassign
    (by rwa [List.length_replicate]) hnone (by rw [List.length_nil]; omega)
  obtain ⟨effects', code', hrun', hpackets'⟩ := packets_found hhead hreq hend hsearched hassign
    (by rwa [List.length_replicate]) hcopies (by rw [List.length_cons, List.length_append]; omega)
  have heq := h _ _ _ _ _ _ ⟨.nil, fun _ _ => rfl⟩ hrun hrun'
  rw [hpackets, hpackets', List.singleton_inj] at heq
  have helem := (replyBytes_inj (by rw [errorElem_length, errorElem_length]) heq).1
  cases helem

/-- The offset of `id` that has been stored before the search comes to another element: what is
copied is in the request. -/
theorem copiesId_before (hsearched : Searched data data.length 4 noOffsets pos scanned keys)
    (hreq : RequestBytes data) (hend : data.peek (data.length - 1) = some 0)
    (hlt : pos < data.length) {off : ℤ} (hk : (keyId, off) ∈ keys) :
    ∃ elem, elem.length ≤ maxRequestLength ∧ ∀ back, CopiesId (data ++ back) off elem := by
  rcases hsearched.measured _ hk with hk | ⟨type, value, size, hhead, h4, hsize, -, hle⟩
  · have hneg : ∀ k ∈ noOffsets, k.2 = -1 := by decide
    obtain rfl : off = -1 := hneg _ hk
    exact ⟨[], Nat.zero_le _, fun back => copiesId_nil fun _ => rfl⟩
  · exact copiesId_of_head hreq hhead h4 hend hsize (by omega)

/-- A length that is measured and goes on behind the end decides between a parse error and another
outcome. -/
theorem DependsOnRequest.lengths_inside (h : DependsOnRequest data) (hreq : RequestBytes data) :
    LengthsInside data := by
  intro hend pos scanned keys type name value hsearched hhead htype hkey hlast
  by_cases hid : (assignFirst name pos keys).isSome ∧ name = keyId
  · obtain ⟨hit, rfl⟩ := hid
    obtain ⟨keys1, hassign⟩ := Option.isSome_iff_exists.mp hit
    exact h.id_length hreq hend hsearched hhead htype hassign
  by_contra hout
  have hgt := hhead.value_gt
  have hlt := hhead.value_lt
  have h4 := hsearched.visited.le
  have hopen : ¬ ((assignFirst name pos keys).isSome ∧ scanned + 1 = 4) := by
    rintro ⟨hit, htotal⟩
    rcases hlast with hlast | hname
    · exact hlast ⟨hit, htotal⟩
    · exact hid ⟨hit, hname⟩
  obtain ⟨n, size, hn, -, -, hneg, hsize⟩ :=
    lengths_behind htype (by omega) hlt (Int.not_le.mp hout)
  have hlen (back : Mem) := readUnalignedInt_stable _ _ back _ hreq.length_eq
  have hend' (back : Mem) := Mem.Stable.peek _ _ back _ hend
  have hin (b : UInt8) : (data.length : ℤ) + 3 ≤ (data ++ List.replicate n b).length := by
    rw [List.length_append, List.length_replicate]
    omega
  -- the search ends with this element, with the same offsets
  have hprops (b : UInt8) {len : ℤ} (hmeasure : measureValue (data ++ List.replicate n b) type value
      data.length = some len) : ∃ o0 o1 o2 o3, (assignFirst name pos keys).getD keys =
        [(keyJsonrpc, o0), (keyMethod, o1), (keyParams, o2), (keyId, o3)] ∧
      bsonGetProps (data ++ List.replicate n b) startKeys = some (if len < 0 then -1 else
        ((if (assignFirst name pos keys).isSome then scanned + 1 else scanned : ℕ) : ℤ),
          (assignFirst name pos keys).getD keys) := by
    obtain ⟨r, o0, o1, o2, o3, -, -, hprops⟩ :=
      search_plentiful (hlen _) (by omega) (hend' _) (hin b)
    have hscan := hprops
    rw [bsonGetProps_eq_scan (hlen _) (by omega) (hend' _)] at hscan
    obtain ⟨fuel, hfuel⟩ := (hsearched.append (List.replicate n b)).scan (by omega) (Nat.le_refl _)
    obtain ⟨len', hlen', hkeys, hr⟩ := (hhead.append _).scan_behind htype (Int.not_le.mp hout) hopen
      (hfuel.symm.trans hscan)
    cases hmeasure.symm.trans hlen'
    rw [hkeys, hr] at hprops
    exact ⟨o0, o1, o2, o3, hkeys.symm, hprops⟩
  obtain ⟨o0, o1, o2, o3, hkeys, hprops255⟩ := hprops 255 (hneg _)
  obtain ⟨-, -, -, -, -, hprops1⟩ := hprops 1 (hsize _)
  rw [if_pos (show (-1 : ℤ) < 0 by decide)] at hprops255
  have hoff : (keyId, o3) ∈ (assignFirst name pos keys).getD keys := by
    rw [hkeys]
    simp
  -- the id is another element, or none
  have hbefore : (keyId, o3) ∈ keys := by
    cases hassign : assignFirst name pos keys with
    | none => rwa [hassign] at hoff
    | some keys1 =>
      rw [hassign] at hoff
      rcases assignFirst_mem hassign hoff with hk | ⟨hk, -⟩
      · exact hk
      · exact absurd ⟨by rw [hassign]; rfl, (congrArg Prod.fst hk).symm⟩ hid
  obtain ⟨elem, hsmall, hcopies⟩ := copiesId_before hsearched hreq hend (by omega) hbefore
  have hmax : maxRequestLength + 44 < 2 ^ 31 := by decide
  obtain ⟨effects, hrun, hpackets⟩ := packets_plentiful (hlen _) (by omega) (hend' _) (hin 255)
    hprops255 hoff (hcopies _) (by omega)
  obtain ⟨effects', hrun', hpackets'⟩ := packets_plentiful (hlen _) (by omega) (hend' _) (hin 1)
    hprops1 hoff (hcopies _) (by omega)
  have heq := h _ _ _ _ _ _ ⟨.nil, fun _ _ => rfl⟩ hrun hrun'
  have hparse : packets effects = [replyBytes elem (errorElem errParseError)] := by
    rcases hpackets with ⟨code, hcode, hpackets⟩ | ⟨hr, -, -⟩
    · rwa [hcode.mpr (by decide)] at hpackets
    · exact absurd hr (by decide)
  have hfound : ¬ (if (size : ℤ) < 0 then -1 else
      ((if (assignFirst name pos keys).isSome then scanned + 1 else scanned : ℕ) : ℤ)) ≤ 0 := by
    rw [if_neg (by omega)]
    split_ifs with hit
    · omega
    · have hscanned := hkey.resolve_left hit
      omega
  rcases hpackets' with ⟨code, hcode, hpackets'⟩ | ⟨-, -, hpackets'⟩
  · rw [hparse, hpackets', List.singleton_inj] at heq
    have helem := (replyBytes_inj (by rw [errorElem_length, errorElem_length]) heq).2
    exact hfound (hcode.mp (errorElem_inj helem).symm)
  · rw [hparse, hpackets'] at heq
    cases heq

theorem FoundId.copies (h : FoundId data pos value size) (hreq : RequestBytes data)
    (hsmall : size + 4 < 2 ^ 31) (hout : (data.length : ℤ) < value + size) (b : UInt8) :
    ∃ elem : List UInt8, (elem.length : ℤ) = size + 4 ∧
      elem[(data.length - value).toNat + 4]? = some b ∧
        CopiesId (data ++ List.replicate (size.toNat + 3) b) pos elem := by
  obtain ⟨hend, scanned, keys, type, hsearched, -, hhead, hmeasure⟩ := h
  have hgt := hhead.value_gt
  have hlt := hhead.value_lt
  have h4 := hsearched.visited.le
  obtain ⟨n, rfl⟩ := Int.eq_ofNat_of_zero_le (show 0 ≤ size by omega)
  obtain ⟨bytes, rfl, hbytes⟩ := Mem.exists_hasAt
    (m := data ++ List.replicate ((n : ℤ).toNat + 3) b) (p := value) (n := n) (by omega)
    (by rw [List.length_append, List.length_replicate]; omega)
  have hkey : keyId.encode.length = 3 := rfl
  refine ⟨type :: (keyId.encode ++ bytes), ?_, ?_, copiesId_of_bytes (hhead.append _) h4
    (readUnalignedInt_stable _ _ _ _ hreq.length_eq) (Mem.Stable.peek _ _ _ _ hend)
    (measureValue_stable _ _ _ _ _ _ hmeasure) hbytes (by omega)⟩
  · rw [List.length_cons, List.length_append]
    omega
  · -- the first byte behind the request
    have hat := hbytes.peek_add (n := (data.length - value).toNat) (by omega)
    rw [show value + ((data.length - value).toNat : ℕ) = (data.length : ℤ) by omega,
      peek_behind (by omega) (by omega)] at hat
    rw [List.getElem?_cons_succ, List.getElem?_append_right (by omega), hkey, Nat.add_sub_cancel,
      ← hat]

theorem NamesMethod.packets_null (h : NamesMethod data) (hreq : RequestBytes data)
    (hlengths : LengthsInside data) (hid : FoundId data pos value size) :
    ∃ s : CString, ∀ (back : Mem) (elem : List UInt8), CopiesId (data ++ back) pos elem →
      elem.length + 30 < 2 ^ 31 → ∃ effects,
        peridotRpcServerService (plentiful [⟨s, .sync fun _ _ => (none, 0)⟩]) (data ++ back) =
            some effects ∧
          packets effects = [replyBytes elem (0x0a :: (keyResult.encode ++ []))] := by
  obtain ⟨r, o0, o1, o2, o3, ver, name, hprops, hr, hver, hisVer, hname⟩ := h
  obtain ⟨hend, scanned, keys, type, hsearched, hopen, hhead, -⟩ := hid
  have hgt := hhead.value_gt
  have hlt := hhead.value_lt
  have h4 := hsearched.visited.le
  obtain ⟨keys1, hassign, hmem⟩ := assignFirst_of_mem pos hopen
  have hpropsBack (back : Mem) := bsonGetProps_stable _ _ back _ hprops
  obtain rfl := offId_eq (mem_of_props [] hhead hreq hend hsearched hassign hmem
    (hpropsBack []))
  have hfits : ∀ pos scanned keys type name value,
      Searched data data.length 4 noOffsets pos scanned keys →
        HeadAt data data.length pos type name value → startsWithLength type = true →
          ¬ ((assignFirst name pos keys).isSome ∧ scanned + 1 = 4) → value + 4 ≤ data.length := by
    by_contra hnot
    have hfound := (hlengths.search_none hreq hend hnot (hpropsBack [])).1
    omega
  obtain ⟨r', o0', o1', o2', o3', -, hf1, hf2, -, hprops'⟩ :=
    search_found hreq.length_eq (by omega) hend (Int.le_refl _) hfits
  have hsearch := (hprops' 0 0 0 0).symm.trans hprops
  simp only [Option.some.injEq, Prod.mk.injEq, List.cons.injEq, true_and, and_true] at hsearch
  obtain ⟨-, -, rfl, rfl, -⟩ := hsearch
  obtain ⟨found, hfound, hfoundAt⟩ := hf1.string hreq hend
  obtain rfl := hfound [] (some name) (by rw [List.append_nil, hname])
  obtain ⟨-, s, hs⟩ := hfoundAt name rfl
  obtain ⟨params, hparams⟩ := hf2.subdocument hreq hend
  refine ⟨s, fun back elem hcopies hsmall => ?_⟩
  set methods : List MethodEntry := [⟨s, .sync fun _ _ => (none, 0)⟩] with hmethods
  have hkeys : [(keyJsonrpc, (plentiful methods).offJsonrpc),
    (keyMethod, (plentiful methods).offMethod), (keyParams, (plentiful methods).offParams),
    (keyId, (plentiful methods).offId)] = startKeys := rfl
  have hver' := bsonGetString_stable _ _ back _ hver
  have hname' := bsonGetString_stable _ _ back _ hname
  have hisVer' : isJsonrpcVer (data ++ back) (some ver) = some true :=
    Mem.Stable.strcmpEq _ _ _ _ _ hisVer
  have hfind : findMethod (data ++ back) name (plentiful methods).methods =
      some (some ⟨s, .sync fun _ _ => (none, 0)⟩) := by
    have hcmp := Mem.HasAt.strcmpEq (l := []) s.no_nul s.no_nul (hs.append back)
    rw [plentiful, hmethods, findMethod, hcmp, decide_eq_true rfl]
    rfl
  have hanswer : (0x0a :: (keyResult.encode ++ [])).length = 8 := rfl
  have hsend := sendReply_plentiful methods hcopies (if_pos rfl) answerWriter_null
    (by rw [replyBytes_length, hanswer]; omega)
  simp only [peridotRpcServerService, hkeys, hpropsBack, List.getD_cons_zero, List.getD_cons_succ,
    if_neg (Int.not_le.mpr hr), hver', hisVer', hname', hfind, hparams back, callMethod, finish,
    if_neg (show ¬ pos < 0 by omega), Option.bind_eq_bind, Option.bind_some]
  exact hsend

theorem ReplyHolds.replies (h : ReplyHolds data size) (hreq : RequestBytes data)
    (hlengths : LengthsInside data) (hid : FoundId data pos value size) :
    ∃ (methods : List MethodEntry) (count : ℕ),
      (∀ job job', List.Forall₂ (fun entry entry' => entry.name = entry'.name ∧
        Handler.Same job job' entry.handler entry'.handler) methods methods) ∧
      ∀ (back : Mem) (elem : List UInt8), 3 ≤ back.length → CopiesId (data ++ back) pos elem →
        (elem.length : ℤ) = size + 4 → ∃ effects answerElem,
          peridotRpcServerService (plentiful methods) (data ++ back) = some effects ∧
            answerElem.length = count ∧ packets effects = [replyBytes elem answerElem] := by
  rcases h with hsmall | ⟨hsmall, hnames⟩
  · obtain ⟨hend, scanned, keys, type, hsearched, hopen, hhead, -⟩ := hid
    obtain ⟨keys1, hassign, -⟩ := assignFirst_of_mem pos hopen
    refine ⟨[], 22, fun _ _ => .nil, fun back elem hroom hcopies hlen => ?_⟩
    obtain ⟨effects, code, hrun, hpackets⟩ :=
      packets_found hhead hreq hend hsearched hassign hroom hcopies (by omega)
    exact ⟨effects, errorElem code, hrun, errorElem_length code, hpackets⟩
  · obtain ⟨s, hnull⟩ := hnames.packets_null hreq hlengths hid
    refine ⟨[⟨s, .sync fun _ _ => (none, 0)⟩], 8, fun _ _ => .cons ⟨rfl, fun _ => rfl⟩ .nil,
      fun back elem _ hcopies hlen => ?_⟩
    obtain ⟨effects, hrun, hpackets⟩ := hnull back elem hcopies (by omega)
    exact ⟨effects, _, hrun, rfl, hpackets⟩

/-- An element `id` that is found and goes on behind the end is disclosed: the reply contains the
bytes behind the request. -/
theorem DependsOnRequest.id_inside (h : DependsOnRequest data) (hreq : RequestBytes data)
    (hid : FoundId data pos value size) (hholds : ReplyHolds data size) :
    value + size ≤ data.length := by
  by_contra hout
  obtain ⟨methods, count, hsame, hreplies⟩ := hholds.replies hreq (h.lengths_inside hreq) hid
  have hsmall : size + 4 < 2 ^ 31 := by
    rcases hholds with hsmall | ⟨hsmall, -⟩
    · omega
    · omega
  -- with the same byte everywhere behind the request
  have hreply (b : UInt8) : ∃ elem effects answerElem, (elem.length : ℤ) = size + 4 ∧
      elem[(data.length - value).toNat + 4]? = some b ∧
        peridotRpcServerService (plentiful methods)
            (data ++ List.replicate (size.toNat + 3) b) = some effects ∧
          answerElem.length = count ∧ packets effects = [replyBytes elem answerElem] := by
    obtain ⟨elem, hlen, hb, hcopies⟩ := hid.copies hreq hsmall (Int.not_le.mp hout) b
    obtain ⟨effects, answerElem, hrun, hcount, hpackets⟩ :=
      hreplies _ elem (by rw [List.length_replicate]; omega) hcopies hlen
    exact ⟨elem, effects, answerElem, hlen, hb, hrun, hcount, hpackets⟩
  obtain ⟨elem, effects, answerElem, -, hb, hrun, hcount, hpackets⟩ := hreply 0
  obtain ⟨elem', effects', answerElem', -, hb', hrun', hcount', hpackets'⟩ := hreply 1
  have heq := h _ _ _ _ _ _ ⟨hsame _ _, fun _ _ => rfl⟩ hrun hrun'
  rw [hpackets, hpackets', List.singleton_inj] at heq
  rw [(replyBytes_inj (hcount.trans hcount'.symm) heq).1, hb'] at hb
  exact absurd hb (by decide)

end Converse

/-- **What a reply discloses.** A request is replied to with the same bytes in all memories if and
only if it is confined. -/
theorem reply_depends_on_request (data : Mem) (hreq : RequestBytes data) :
    DependsOnRequest data ↔ Confined data := by
  constructor
  · exact fun h => ⟨h.lengths_inside hreq, fun pos value size hid hholds =>
      h.id_inside hreq hid hholds⟩
  · exact fun h => h.dependsOnRequest hreq

/-! ## Two requests -/

/-- A call of the method `x`. The value of its last element, `params`, begins with the last byte;
but as all the keys are found with it, nobody measures it. -/
def callRequest : Mem :=
  encodeBody (encodeElements [.mk keyJsonrpc (.string jsonrpcVer.bytes),
    .mk keyMethod (.string (ascii ['x'])), .mk keyId (.int32 1)] ++ 0x03 :: keyParams.encode)

/-- An element that the search comes to, with what has been found before. -/
structure SearchStep where
  pos : ℤ
  scanned : ℕ
  keys : Keys
  type : UInt8
  name : CString
  value : ℤ

def callSteps : List SearchStep :=
  [⟨4, 0, noOffsets, 0x02, keyJsonrpc, 13⟩,
    ⟨21, 1, [(keyJsonrpc, 4), (keyMethod, -1), (keyParams, -1), (keyId, -1)], 0x02, keyMethod, 29⟩,
    ⟨35, 2, [(keyJsonrpc, 4), (keyMethod, 21), (keyParams, -1), (keyId, -1)], 0x10, keyId, 39⟩,
    ⟨43, 3, [(keyJsonrpc, 4), (keyMethod, 21), (keyParams, -1), (keyId, 35)], 0x03, keyParams, 51⟩]

theorem callSteps_head {s : SearchStep} (h : s ∈ callSteps) :
    HeadAt callRequest 52 s.pos s.type s.name s.value := by
  have hall : ∀ s ∈ callSteps, callRequest.peek s.pos = some s.type ∧ s.type ≠ 0 ∧
      callRequest.readBytes (s.pos + 1) s.name.encode.length = some s.name.encode ∧
        s.value = s.pos + 1 + s.name.encode.length ∧ s.value < 52 := by decide
  obtain ⟨htype, hne, hname, hvalue, hlt⟩ := hall s h
  exact ⟨htype, hne, (Mem.hasAt_of_readBytes hname).2, hvalue, hlt⟩

theorem callSteps_searched {pos : ℤ} {scanned : ℕ} {keys : Keys}
    (h : Searched callRequest 52 4 noOffsets pos scanned keys) :
    ∃ s ∈ callSteps, s.pos = pos ∧ s.scanned = scanned ∧ s.keys = keys := by
  induction h with
  | first => exact ⟨_, List.mem_cons_self, rfl, rfl, rfl⟩
  | next _ hhead hopen hsize _ ih =>
    obtain ⟨s, hs, rfl, rfl, rfl⟩ := ih
    obtain ⟨rfl, rfl, rfl⟩ := hhead.unique (callSteps_head hs)
    have hall : ∀ s ∈ callSteps, ¬ ((assignFirst s.name s.pos s.keys).isSome ∧ s.scanned + 1 = 4) →
        ∃ s' ∈ callSteps, measureValue callRequest s.type s.value 52 = some (s'.pos - s.value) ∧
          s'.scanned = (if (assignFirst s.name s.pos s.keys).isSome then s.scanned + 1
            else s.scanned) ∧ s'.keys = (assignFirst s.name s.pos s.keys).getD s.keys := by decide
    obtain ⟨s', hs', hmeasure, hscanned, hkeys⟩ := hall s hs hopen
    cases hmeasure.symm.trans hsize
    exact ⟨s', hs', (add_sub_cancel _ _).symm, hscanned, hkeys⟩

theorem callRequest_confined : Confined callRequest := by
  constructor
  · intro _ pos scanned keys type name value hsearched hhead _ hkey hlast
    obtain ⟨s, hs, rfl, rfl, rfl⟩ := callSteps_searched hsearched
    obtain ⟨rfl, rfl, rfl⟩ := hhead.unique (callSteps_head hs)
    have hall : ∀ s ∈ callSteps,
        (¬ ((assignFirst s.name s.pos s.keys).isSome ∧ s.scanned + 1 = 4) ∨ s.name = keyId) →
          s.value + 4 ≤ callRequest.length := by decide
    exact hall s hs hlast
  · rintro pos value size ⟨-, scanned, keys, type, hsearched, -, hhead, hsize⟩ -
    obtain ⟨s, hs, rfl, rfl, rfl⟩ := callSteps_searched hsearched
    obtain ⟨rfl, hname, rfl⟩ := hhead.unique (callSteps_head hs)
    have hall : ∀ s ∈ callSteps, keyId = s.name → measureValue callRequest s.type s.value
        callRequest.length = some 4 ∧ s.value + 4 ≤ callRequest.length := by decide
    obtain ⟨hfour, hle⟩ := hall s hs hname
    cases hfour.symm.trans hsize
    exact hle

/-- `reply_depends_on_request` of the call. -/
theorem reply_depends_on_request_call : DependsOnRequest callRequest :=
  (reply_depends_on_request callRequest ⟨by decide, by decide⟩).mpr callRequest_confined

/-- A request with an element `id` of this type, and nothing else. -/
def idRequest (type : UInt8) (value : List UInt8) : Mem :=
  encodeBody (type :: (keyId.encode ++ value))

/-- The `id` is longer than the request: two memories, two replies. -/
theorem not_reply_depends_on_request : ¬ ∀ data, RequestBytes data → DependsOnRequest data := by
  intro hall
  have hsame : SameResults (plentiful []) (plentiful []) (idRequest 0x02 [2, 0, 0, 0] ++ [0])
      (idRequest 0x02 [2, 0, 0, 0] ++ [1]) := ⟨.nil, fun _ _ => rfl⟩
  obtain ⟨effects, heffects⟩ := Option.isSome_iff_exists.mp (show (peridotRpcServerService
    (plentiful []) (idRequest 0x02 [2, 0, 0, 0] ++ [0])).isSome by decide)
  obtain ⟨effects', heffects'⟩ := Option.isSome_iff_exists.mp (show (peridotRpcServerService
    (plentiful []) (idRequest 0x02 [2, 0, 0, 0] ++ [1])).isSome by decide)
  have hpackets := hall (idRequest 0x02 [2, 0, 0, 0]) ⟨by decide, by decide⟩ _ _ _ _ _ _ hsame
    heffects heffects'
  have hreplies : (peridotRpcServerService (plentiful [])
      (idRequest 0x02 [2, 0, 0, 0] ++ [0])).map packets ≠ (peridotRpcServerService (plentiful [])
        (idRequest 0x02 [2, 0, 0, 0] ++ [1])).map packets := by
    decide
  rw [heffects, heffects', Option.map_some, Option.map_some, hpackets] at hreplies
  exact hreplies rfl

end OlivePiccolo.Rpc
