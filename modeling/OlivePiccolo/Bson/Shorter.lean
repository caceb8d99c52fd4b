import OlivePiccolo.Bson.Shrink

/-!
# Shrinking a binary and building a shorter one

`bson_shrink_binary` finds out from one byte behind the data whether the binary is the last element.
The calls in front and behind may be any, with any arguments, also with documents that are not well
formed: all that matters is that a call leaves the document alone or appends bytes to it of which
the first, the type, is not zero (`Call.run_cases`, `runCalls_cases`). Then shrinking a binary
leaves the document that a build with the shorter binary has (`bsonShrinkBinary_shorter`).
-/

namespace OlivePiccolo.Bson

/-- Calls of the writers on a document, one after the other. -/
def runCalls : List Call → Mem → Access Mem
  | [], m => some m
  | c :: calls, m => do
    match ← c.run (some m) with
    | (some m', _) => runCalls calls m'
    | (none, _) => none

/-! ## What a call appends -/

section Calls

variable {m m' : Mem} {body : List UInt8} {key : CString}

/-- A document was appended to, or it is as it was. -/
inductive Grown (m : Mem) (body : List UInt8) : Mem → List UInt8 → Prop
  | same : Grown m body m []
  | append (type : UInt8) (raw : List UInt8) (htype : type ≠ 0)
      (hroom : body.length + 5 + (type :: raw).length ≤ m.length) :
      Grown m body (appended m body (type :: raw)) (type :: raw)

theorem appended_length {elem : List UInt8} (hroom : body.length + 5 + elem.length ≤ m.length) :
    (appended m body elem).length = m.length := by
  rw [appended, List.length_append, encodeBody_length, List.length_append, List.length_drop]
  omega

theorem appended_hasAt (m : Mem) (body elem : List UInt8) :
    (appended m body elem).HasAt 0 (encodeBody (body ++ elem)) := Mem.hasAt_prefix _ _

/-- An element that has been written had room. -/
theorem appended_of_pokes (elem : List UInt8) {l : List UInt8} {p len : ℤ}
    (h : m.HasAt 0 (encodeBody body))
    (hblock : m.length < 2 ^ 31) (hl : l = elem ++ [0]) (hp : p = body.length + 4)
    (hlen : len = body.length + 5 + elem.length)
    (hrun : ((m.pokes p l).bind fun m => writeUnalignedInt m 0 len) = some m') :
    m' = appended m body elem ∧ body.length + 5 + elem.length ≤ m.length := by
  obtain ⟨back, hback⟩ := Mem.hasAt_zero.mp h
  have hbody : body.length + 5 ≤ m.length := by
    rw [hback, List.length_append, encodeBody_length]
    omega
  obtain ⟨m1, hpokes, -⟩ := Option.bind_eq_some_iff.mp hrun
  have hinside := Mem.pokes_inside (by omega) hpokes
  have hroom : body.length + 5 + elem.length ≤ m.length := by
    rw [hl, List.length_append, List.length_singleton] at hinside
    omega
  rw [appended_eq h hroom (by omega) hl hp hlen] at hrun
  exact ⟨(Option.some.inj hrun).symm, hroom⟩

theorem memcpy_of_readBytes {src l : List UInt8} {ptr len : ℤ}
    (h : Mem.readBytes src ptr len = some l) (m : Mem) (p : ℤ) :
    m.memcpy p src ptr len = m.pokes p l := by
  rw [Mem.memcpy, h, Option.bind_some]

theorem memcpy_of_readBytes_none {src : Mem} {ptr len : ℤ} (h : src.readBytes ptr len = none)
    (m : Mem) (p : ℤ) : m.memcpy p src ptr len = none := by
  rw [Mem.memcpy, h, Option.bind_none]

theorem body_length_le (h : m.HasAt 0 (encodeBody body)) : body.length + 5 ≤ m.length := by
  obtain ⟨back, rfl⟩ := Mem.hasAt_zero.mp h
  rw [List.length_append, encodeBody_length]
  omega

theorem setSubelement_run {type : UInt8} {src : Mem} {ptr len ret : ℤ} {doc : Option Mem}
    (htype : type ≠ 0) (h : m.HasAt 0 (encodeBody body)) (hblock : m.length < 2 ^ 31)
    (hrun : setSubelement (some m) key type src ptr len = some (doc, ret)) :
    ∃ m' elem, doc = some m' ∧ Grown m body m' elem := by
  have hbody := body_length_le h
  unfold setSubelement ifDoc at hrun
  cases hkey : Mem.readBytes key.encode 0 (toInt32 key.encode.length) with
  | none => simp [memcpy_of_readBytes_none hkey, -CString.encode_length] at hrun
  | some name =>
    cases hval : src.readBytes ptr len with
    | none => simp [memcpy_of_readBytes_none hval] at hrun
    | some value =>
      obtain ⟨hname, -⟩ := Mem.hasAt_of_readBytes hkey
      obtain ⟨hvalue, -⟩ := Mem.hasAt_of_readBytes hval
      simp only [memcpy_of_readBytes hkey, memcpy_of_readBytes hval,
        readUnalignedInt_body h (show body.length + 5 < 2 ^ 31 by omega), ← Mem.pokes_singleton,
        Option.bind_eq_bind, Option.bind_some, Option.pure_def] at hrun
      rw [hname, hvalue] at hrun
      rw [Mem.pokes_bind_pokes, Mem.pokes_bind_pokes, Mem.pokes_bind_pokes] at hrun
      · obtain ⟨doc', hdoc, heq⟩ := Option.bind_eq_some_iff.mp hrun
        obtain ⟨m', hwrite, rfl⟩ := Option.map_eq_some_iff.mp hdoc
        obtain ⟨rfl, hroom⟩ := appended_of_pokes (type :: (name ++ value)) h hblock
          (by simp) (by omega) (by simp only [List.length_cons, List.length_append]; omega) hwrite
        cases heq
        exact ⟨_, _, rfl, .append type (name ++ value) htype hroom⟩
      all_goals simp only [List.length_append, List.length_singleton]; omega

theorem bsonSetString_run {string : CString} {doc : Option Mem} {ret : ℤ}
    (h : m.HasAt 0 (encodeBody body)) (hblock : m.length < 2 ^ 31)
    (hrun : bsonSetString (some m) key string = some (doc, ret)) :
    ∃ m' elem, doc = some m' ∧ Grown m body m' elem := by
  have hbody := body_length_le h
  have hint : ∀ (m : Mem) (p : ℤ), writeUnalignedInt m p (toInt32 string.encode.length) =
      m.pokes p (leBytes 4 (toInt32 string.encode.length % 2 ^ 32).toNat) := fun _ _ => rfl
  unfold bsonSetString ifDoc at hrun
  cases hkey : Mem.readBytes key.encode 0 (toInt32 key.encode.length) with
  | none => simp [memcpy_of_readBytes_none hkey, -CString.encode_length] at hrun
  | some name =>
    cases hval : Mem.readBytes string.encode 0 (toInt32 string.encode.length) with
    | none => simp [memcpy_of_readBytes_none hval, -CString.encode_length] at hrun
    | some value =>
      obtain ⟨hname, -⟩ := Mem.hasAt_of_readBytes hkey
      obtain ⟨hvalue, -⟩ := Mem.hasAt_of_readBytes hval
      simp only [memcpy_of_readBytes hkey, memcpy_of_readBytes hval, hint,
        readUnalignedInt_body h (show body.length + 5 < 2 ^ 31 by omega), ← Mem.pokes_singleton,
        Option.bind_eq_bind, Option.bind_some, Option.pure_def] at hrun
      rw [hname, hvalue] at hrun
      rw [Mem.pokes_bind_pokes, Mem.pokes_bind_pokes, Mem.pokes_bind_pokes,
        Mem.pokes_bind_pokes] at hrun
      · obtain ⟨doc', hdoc, heq⟩ := Option.bind_eq_some_iff.mp hrun
        obtain ⟨m', hwrite, rfl⟩ := Option.map_eq_some_iff.mp hdoc
        obtain ⟨rfl, hroom⟩ := appended_of_pokes
          (0x02 :: (name ++ leBytes 4 ((value.length : ℤ) % 2 ^ 32).toNat ++ value))
          h hblock (by simp) (by omega) (by
            simp only [List.length_cons, List.length_append, leBytes_length]
            omega) hwrite
        cases heq
        exact ⟨_, _, rfl, .append 0x02 _ (by decide) hroom⟩
      all_goals simp only [List.length_append, List.length_singleton, leBytes_length]; omega

theorem setBinaryFilled_run {bytes : List UInt8} {doc : Option Mem} {ret : ℤ}
    (h : m.HasAt 0 (encodeBody body)) (hblock : m.length < 2 ^ 31)
    (hrun : setBinaryFilled (some m) key bytes = some (doc, ret)) :
    ∃ m' elem, doc = some m' ∧ Grown m body m' elem := by
  have hbody := body_length_le h
  have hint : ∀ (m : Mem) (p : ℤ), writeUnalignedInt m p bytes.length =
      m.pokes p (leBytes 4 ((bytes.length : ℤ) % 2 ^ 32).toNat) := fun _ _ => rfl
  unfold setBinaryFilled bsonSetBinaryGeneric bsonSetBinary at hrun
  rw [if_neg (by omega)] at hrun
  cases hkey : Mem.readBytes key.encode 0 (toInt32 key.encode.length) with
  | none => simp [memcpy_of_readBytes_none hkey, -CString.encode_length] at hrun
  | some name =>
    obtain ⟨hname, -⟩ := Mem.hasAt_of_readBytes hkey
    simp only [memcpy_of_readBytes hkey, hint, Mem.memset, Int.toNat_natCast,
      readUnalignedInt_body h (show body.length + 5 < 2 ^ 31 by omega), ← Mem.pokes_singleton,
      Option.bind_eq_bind, Option.bind_some, Option.pure_def, if_true] at hrun
    rw [hname, Mem.pokes_bind_pokes, Mem.pokes_bind_pokes, Mem.pokes_bind_pokes,
      Mem.pokes_bind_pokes, Mem.pokes_bind_pokes, ← Option.bind_assoc] at hrun
    · obtain ⟨⟨doc', ret', buf⟩, hset, hfill⟩ := Option.bind_eq_some_iff.mp hrun
      obtain ⟨m', hwrite, heq⟩ := Option.bind_eq_some_iff.mp hset
      let front := 0x05 :: (name ++ leBytes 4 ((bytes.length : ℤ) % 2 ^ 32).toNat ++ [0])
      have hfront : front.length = 1 + name.length + 4 + 1 := by
        simp only [front, List.length_cons, List.length_append, leBytes_length, List.length_nil]
        omega
      obtain ⟨rfl, hroom⟩ := appended_of_pokes (front ++ List.replicate bytes.length 0)
        h hblock (by simp [front]) (by omega) (by
          rw [List.length_append, hfront, List.length_replicate]
          omega) hwrite
      have hbuf : ((body.length + 5 : ℕ) : ℤ) + name.length + 4 + 1 =
          (body.length + 4 + front.length : ℕ) := by omega
      rw [hbuf] at heq
      simp only [Option.some.injEq, Prod.mk.injEq] at heq
      obtain ⟨rfl, rfl, rfl⟩ := heq
      simp only [appended_fill m body front _ bytes List.length_replicate,
        Option.bind_some] at hfill
      cases hfill
      refine ⟨_, _, rfl, .append 0x05 _ (by decide) ?_⟩
      show body.length + 5 + (front ++ bytes).length ≤ m.length
      rwa [List.length_append, List.length_replicate, ← List.length_append] at hroom
    all_goals
      simp only [List.length_append, List.length_singleton, leBytes_length, List.length_replicate]
      omega

theorem bsonSetElement_run {src : Mem} {offset : ℤ} {doc : Option Mem} {ret : ℤ}
    (h : m.HasAt 0 (encodeBody body)) (hblock : m.length < 2 ^ 31)
    (hrun : bsonSetElement (some m) key (some src) offset = some (doc, ret)) :
    ∃ m' elem, doc = some m' ∧ Grown m body m' elem := by
  have hsame : ∃ m' elem, some m = some m' ∧ Grown m body m' elem := ⟨m, [], rfl, .same⟩
  unfold bsonSetElement at hrun
  simp only [Option.bind_eq_bind, Option.pure_def] at hrun
  split_ifs at hrun with hoffset
  · cases hrun
    exact hsame
  obtain ⟨fin, -, hrun⟩ := Option.bind_eq_some_iff.mp hrun
  split_ifs at hrun with hfin
  · cases hrun
    exact hsame
  obtain ⟨b, -, hrun⟩ := Option.bind_eq_some_iff.mp hrun
  split_ifs at hrun with hb
  · cases hrun
    exact hsame
  obtain ⟨type, -, hrun⟩ := Option.bind_eq_some_iff.mp hrun
  obtain ⟨data?, -, hrun⟩ := Option.bind_eq_some_iff.mp hrun
  cases data? with
  | none =>
    cases hrun
    exact hsame
  | some data =>
    obtain ⟨elmlen, hmeasure, hrun⟩ := Option.bind_eq_some_iff.mp hrun
    split_ifs at hrun with hneg
    · cases hrun
      exact hsame
    · refine setSubelement_run ?_ h hblock hrun
      rintro rfl
      cases hmeasure
      exact hneg (by decide)

/-- A call, with any arguments, appends an element or leaves the document as it is. -/
theorem Call.run_cases (c : Call) {doc : Option Mem} {ret : ℤ} (h : m.HasAt 0 (encodeBody body))
    (hblock : m.length < 2 ^ 31) (hrun : c.run (some m) = some (doc, ret)) :
    ∃ m' elem, doc = some m' ∧ Grown m body m' elem := by
  cases c with
  | string key s => exact bsonSetString_run h hblock hrun
  | subdocument key subDoc | array key subDoc =>
    obtain ⟨len, -, hset⟩ := Option.bind_eq_some_iff.mp hrun
    exact setSubelement_run (by decide) h hblock hset
  | boolean key value | int32 key value | null key =>
    exact setSubelement_run (by decide) h hblock hrun
  | binary key bytes => exact setBinaryFilled_run h hblock hrun
  | element key src offset => exact bsonSetElement_run h hblock hrun

/-- Elements have been appended, or nothing has happened. -/
inductive Extends (m : Mem) (body : List UInt8) : Mem → List UInt8 → Prop
  | same : Extends m body m []
  | more {m' : Mem} (type : UInt8) (raw : List UInt8) (htype : type ≠ 0)
      (hat : m'.HasAt 0 (encodeBody (body ++ type :: raw))) (hlen : m'.length = m.length) :
      Extends m body m' (type :: raw)

theorem Extends.length_eq {elems : List UInt8} (h : Extends m body m' elems) :
    m'.length = m.length := by
  cases h with
  | same => rfl
  | more _ _ _ _ hlen => exact hlen

theorem Extends.hasAt {elems : List UInt8} (h : Extends m body m' elems)
    (hm : m.HasAt 0 (encodeBody body)) : m'.HasAt 0 (encodeBody (body ++ elems)) := by
  cases h with
  | same => rwa [List.append_nil]
  | more _ _ _ hat _ => exact hat

/-- Any calls. -/
theorem runCalls_extends (calls : List Call) (h : m.HasAt 0 (encodeBody body))
    (hblock : m.length < 2 ^ 31) (hrun : runCalls calls m = some m') :
    ∃ elems, Extends m body m' elems := by
  induction calls generalizing m body with
  | nil =>
    cases hrun
    exact ⟨[], .same⟩
  | cons c calls ih =>
    obtain ⟨⟨doc, ret⟩, hc, hcalls⟩ := Option.bind_eq_some_iff.mp hrun
    obtain ⟨m1, elem, rfl, hgrown⟩ := c.run_cases h hblock hc
    cases hgrown with
    | same => exact ih h hblock hcalls
    | append type raw htype hroom =>
      have hlen := appended_length hroom
      have hat := appended_hasAt m body (type :: raw)
      obtain ⟨elems, hrest⟩ := ih hat (by omega) hcalls
      have hat' := hrest.hasAt hat
      rw [List.append_assoc, List.cons_append] at hat'
      exact ⟨_, .more type (raw ++ elems) htype hat' (by rw [hrest.length_eq, hlen])⟩

end Calls

/-! ## Shrinking -/

section Shrinking

variable {m : Mem} {body : List UInt8} {key : CString} {bytes : List UInt8}

/-- The length of a binary, and the byte behind it, in a document that it ends or not. -/
theorem HasAt.binary {rest : List UInt8}
    (h : m.HasAt 0 (encodeBody (body ++ (binaryElem key 0 bytes ++ rest)))) (b : UInt8)
    (hb : ∃ more, rest ++ [0] = b :: more) (hlen : bytes.length < 2 ^ 31) :
    readUnalignedInt m (dataAt body key - 5) = some (bytes.length : ℤ) ∧
      m.peek (dataAt body key + bytes.length) = some b := by
  obtain ⟨more, hmore⟩ := hb
  have hparts : encodeBody (body ++ (binaryElem key 0 bytes ++ rest)) =
      leBytes 4 ((body ++ (binaryElem key 0 bytes ++ rest)).length + 5) ++ beforeData body key ++
        (leBytes 4 bytes.length ++ ([0] ++ bytes ++ (b :: more))) := by
    rw [encodeBody, ← hmore, binaryElem, beforeData]
    simp only [List.append_assoc, List.cons_append, List.nil_append]
  have hbefore := beforeData_length body key
  have hpos : (0 : ℤ) + (leBytes 4 ((body ++ (binaryElem key 0 bytes ++ rest)).length + 5) ++
      beforeData body key).length = dataAt body key - 5 := by
    rw [List.length_append, leBytes_length]
    omega
  rw [hparts] at h
  have hat := h.right
  rw [hpos] at hat
  refine ⟨readUnalignedInt_length hat.left hlen, ?_⟩
  have hbehind := hat.right.right.peek
  have hend : (dataAt body key : ℤ) - 5 + (leBytes 4 bytes.length).length + ([0] ++ bytes).length =
      dataAt body key + bytes.length := by
    rw [leBytes_length, List.length_append, List.length_singleton]
    omega
  rwa [hend] at hbehind

/-- A binary with an element behind it is not shrunk. -/
theorem bsonShrinkBinary_followed {type : UInt8} {raw : List UInt8} (htype : type ≠ 0)
    (h : m.HasAt 0 (encodeBody (body ++ (binaryElem key 0 bytes ++ type :: raw))))
    (hlen : bytes.length < 2 ^ 31) (k : ℤ) :
    bsonShrinkBinary m (dataAt body key) k = some (m, -1) := by
  obtain ⟨hbinlen, hpeek⟩ := HasAt.binary h type ⟨raw ++ [0], rfl⟩ hlen
  unfold bsonShrinkBinary
  rw [hbinlen, Option.bind_eq_bind, Option.bind_some, hpeek, Option.bind_eq_bind, Option.bind_some,
    if_pos htype]
  rfl

/-- A binary is not made longer. -/
theorem bsonShrinkBinary_longer (h : m.HasAt 0 (encodeBody (body ++ binaryElem key 0 bytes)))
    (hlen : bytes.length < 2 ^ 31) {k : ℤ} (hk : bytes.length < k) :
    bsonShrinkBinary m (dataAt body key) k = some (m, -1) := by
  rw [← List.append_nil (binaryElem key 0 bytes)] at h
  obtain ⟨hbinlen, hpeek⟩ := HasAt.binary h 0 ⟨[], rfl⟩ hlen
  unfold bsonShrinkBinary
  rw [hbinlen, Option.bind_eq_bind, Option.bind_some, hpeek, Option.bind_eq_bind, Option.bind_some,
    if_neg (not_not.mpr rfl), if_pos hk]
  rfl

end Shrinking

/-! ## The same build with a shorter binary -/

theorem runCalls_append (calls calls' : List Call) (m : Mem) :
    runCalls (calls ++ calls') m = (runCalls calls m).bind (runCalls calls') := by
  induction calls generalizing m with
  | nil => rfl
  | cons c calls ih =>
    rw [List.cons_append, runCalls, runCalls, Option.bind_eq_bind, Option.bind_assoc]
    congr 1
    funext ⟨doc, ret⟩
    cases doc with
    | none => rfl
    | some m' => exact ih m'

theorem bsonCreateEmptyDocument_hasAt {block m : Mem}
    (h : bsonCreateEmptyDocument block = some m) :
    m.HasAt 0 (encodeBody []) ∧ m.length = block.length := by
  have hroom : 5 ≤ block.length := by simpa using Mem.pokes_inside (by omega) h
  rw [bsonCreateEmptyDocument_eq hroom] at h
  cases h
  have hnil : encodeDocument [] = encodeBody [] := by rw [encodeDocument, encodeElements]
  constructor
  · rw [hnil]
    exact Mem.hasAt_prefix _ _
  · rw [List.length_append, List.length_drop, encodeDocument_nil]
    exact Nat.add_sub_cancel' hroom

/-- **Shrinking and building shorter.** A document is built by any calls in any block of memory, and
a binary is added that there is room for, with any contents. Cut to its first `k` bytes it leaves
the document that the same calls build with these bytes as the binary. A longer one, or one with an
element behind the binary, is refused, and no byte changes. -/
theorem bsonShrinkBinary_shorter {block m : Mem} (hblock : block.length < 2 ^ 31)
    (calls : List Call) (hcalls : (bsonCreateEmptyDocument block).bind (runCalls calls) = some m)
    (key : CString) (bytes : List UInt8) {n : ℤ} (hn : readUnalignedInt m 0 = some n)
    (hroom : n + (1 + key.encode.length + 4 + 1 + bytes.length) ≤ m.length) :
    ∃ set ret buf full,
      bsonSetBinaryGeneric (some m) key bytes.length true = some (some set, ret, some buf) ∧
      set.pokes buf bytes = some full ∧
      (∀ k : ℕ, k ≤ bytes.length → ∃ shrunk short n' doc,
        bsonShrinkBinary full buf k = some (shrunk, 0) ∧
        (bsonCreateEmptyDocument block).bind (runCalls (calls ++ [.binary key (bytes.take k)])) =
          some short ∧
        readUnalignedInt shrunk 0 = some n' ∧ readUnalignedInt short 0 = some n' ∧
        shrunk.readBytes 0 n' = some doc ∧ short.readBytes 0 n' = some doc) ∧
      (∀ k : ℤ, bytes.length < k → bsonShrinkBinary full buf k = some (full, -1)) ∧
      ∀ more m', runCalls more full = some m' →
        readUnalignedInt m' 0 ≠ readUnalignedInt full 0 →
          ∀ k : ℤ, bsonShrinkBinary m' buf k = some (m', -1) := by
  obtain ⟨m0, hcreate, hrun⟩ := Option.bind_eq_some_iff.mp hcalls
  obtain ⟨hat0, hlen0⟩ := bsonCreateEmptyDocument_hasAt hcreate
  obtain ⟨body, hext⟩ := runCalls_extends calls hat0 (by omega) hrun
  have hlen := hext.length_eq
  have hat := hext.hasAt hat0
  rw [List.nil_append] at hat
  have hbody := body_length_le hat
  rw [readUnalignedInt_body hat (by omega)] at hn
  cases hn
  have helem : ∀ bytes : List UInt8, (binaryElem key 0 bytes).length =
      1 + key.encode.length + 4 + 1 + bytes.length := binaryElem_length key 0
  have hend : ∀ n, dataEnd body key n = body.length + 5 + key.encode.length + 5 + n + 1 :=
    fun _ => rfl
  have hzero := helem (List.replicate bytes.length 0)
  rw [List.length_replicate] at hzero
  have hset := bsonSetBinary_some key 0 bytes.length true hat (by omega) (by omega)
  have hbuf : ((body.length + 5 : ℕ) : ℤ) + key.encode.length + 4 + 1 = dataAt body key := by
    rw [dataAt]
    omega
  rw [if_pos rfl, hbuf] at hset
  have hfill := appended_fill_data m body key (List.replicate bytes.length 0) bytes []
    List.length_replicate
  rw [List.append_nil, List.append_nil] at hfill
  have hfull := appended_hasAt m body (binaryElem key 0 bytes)
  have hfulllen : (appended m body (binaryElem key 0 bytes)).length = m.length :=
    appended_length (by rw [helem]; omega)
  refine ⟨_, _, _, _, hset, hfill, ?_, ?_, ?_⟩
  · intro k hk
    have htake : (bytes.take k).length = k := List.length_take_of_le hk
    have hshort := (setBinaryFilled_appends key (bytes.take k)).append hat
      (by rw [helem, htake]; omega) (by rw [helem, htake]; omega)
    obtain ⟨shrunk, hshrink, hshrunk, -⟩ := bsonShrinkBinary_appended m body key bytes hk
      (by rw [hend]; omega)
    have hshortAt := appended_hasAt m body (binaryElem key 0 (bytes.take k))
    have hnewlen := append_binaryElem_length body key (bytes.take k)
    rw [htake, hend] at hnewlen
    refine ⟨shrunk, _, _, encodeBody (body ++ binaryElem key 0 (bytes.take k)), hshrink, ?_,
      readUnalignedInt_body hshrunk (by omega),
      readUnalignedInt_body hshortAt (by omega), ?_, ?_⟩
    · rw [hcreate, Option.bind_some, runCalls_append, hrun, Option.bind_some, runCalls]
      show (setBinaryFilled (some m) key (bytes.take k)).bind _ = _
      rw [hshort]
      rfl
    · rw [← encodeBody_length]
      exact hshrunk.readBytes
    · rw [← encodeBody_length]
      exact hshortAt.readBytes
  · intro k hk
    exact bsonShrinkBinary_longer hfull (by omega) hk
  · intro more m' hmore hgrown k
    obtain ⟨elems, hext'⟩ := runCalls_extends more hfull (by omega) hmore
    cases hext' with
    | same => exact absurd rfl hgrown
    | more type raw htype hat' _ =>
      rw [List.append_assoc] at hat'
      exact bsonShrinkBinary_followed htype hat' (by omega) k

/-- `bsonShrinkBinary_shorter` of a binary of three bytes behind a null. -/
theorem bsonShrinkBinary_shorter_three :
    ∃ set ret buf full,
      bsonSetBinaryGeneric (some (encodeDocument [.mk nameB .null] ++ List.replicate 12 0xff)) nameA 3
        true = some (some set, ret, some buf) ∧
      set.pokes buf [7, 0, 9] = some full ∧
      (∀ k : ℕ, k ≤ 3 → ∃ shrunk short n' doc,
        bsonShrinkBinary full buf k = some (shrunk, 0) ∧
        (bsonCreateEmptyDocument (List.replicate 20 0xff)).bind
          (runCalls ([.null nameB] ++ [.binary nameA (List.take k [7, 0, 9])])) = some short ∧
        readUnalignedInt shrunk 0 = some n' ∧ readUnalignedInt short 0 = some n' ∧
        shrunk.readBytes 0 n' = some doc ∧ short.readBytes 0 n' = some doc) ∧
      (∀ k : ℤ, 3 < k → bsonShrinkBinary full buf k = some (full, -1)) ∧
      ∀ more m', runCalls more full = some m' →
        readUnalignedInt m' 0 ≠ readUnalignedInt full 0 →
          ∀ k : ℤ, bsonShrinkBinary m' buf k = some (m', -1) :=
  @bsonShrinkBinary_shorter (List.replicate 20 0xff) _ (by decide) [.null nameB] (by decide)
    nameA [7, 0, 9] (n := 8) (by decide) (by decide)

end OlivePiccolo.Bson
