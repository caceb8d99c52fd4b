import Mathlib.Tactic.IntervalCases
import OlivePiccolo.Bson.Unique
import OlivePiccolo.Rpc.Assemble
import OlivePiccolo.RubicAgent.BootJson

/-!
# The information about the agent

`generate_info` of `rubic_agent.c` puts the document together that `rubic.info` is answered with. The
array of the runtimes and the document of the storages grow side by side in one block of memory, an
element of the array being built in a buffer on the stack, and the output is allocated when both have
been measured. `rubic_agent_method_info` keeps the output, and returns copies of it.

The keys of the array are computed as `i - '0'`, not as `'0' + i`. So an array with an element in it
has a key that is no numeral (`info_iff`).
-/

namespace OlivePiccolo.RubicAgent

open Bson Rpc

/-! ## The code -/

/-- `rubic_agent_runtime`, with a name. -/
structure RuntimeEntry where
  name : CString
  version : Option CString
  runner : ℕ
  deriving DecidableEq, Repr

/-- `rubic_agent_storage`, with a name. -/
structure StorageEntry where
  name : CString
  path : CString
  deriving DecidableEq, Repr

/-- `RUBIC_AGENT_MAX_RUNTIMES` and `RUBIC_AGENT_MAX_STORAGES`. -/
structure InfoConfig where
  maxRuntimes : ℕ
  maxStorages : ℕ
  /-- Checked by an `#error`. -/
  maxRuntimes_le : maxRuntimes ≤ 10
  /-- There are no gigabytes for the work buffers. -/
  size_lt : 64 * (maxRuntimes + maxStorages) < 2 ^ 30

/-- `runtimes`, `storages` and `cached_info` of the state. An entry whose name is `NULL` is `none`. -/
structure InfoState (cfg : InfoConfig) where
  runtimes : List (Option RuntimeEntry)
  storages : List (Option StorageEntry)
  cachedInfo : Option Mem
  runtimes_length : runtimes.length = cfg.maxRuntimes
  storages_length : storages.length = cfg.maxStorages

/-- What the calls of `malloc` return, and what is in the variable `temp` of every round. -/
structure InfoHeap where
  malloc : ℕ → ℕ → Option Mem
  temp : ℕ → Mem
  /-- `malloc` returns as much memory as it is asked for, and never half of the address space. -/
  malloc_length : ∀ i n m, malloc i n = some m → m.length = n ∧ n < 2 ^ 31
  temp_length : ∀ i, (temp i).length = 64

theorem plentyOfMemory_length (_ n : ℕ) (m : Mem)
    (h : (if n < 2 ^ 31 then some (List.replicate n (0 : UInt8)) else none) = some m) :
    m.length = n ∧ n < 2 ^ 31 := by
  split_ifs at h with hn
  cases h
  exact ⟨List.length_replicate, hn⟩

/-- Memory for everything. -/
def plentyOfMemory : InfoHeap where
  malloc _ n := if n < 2 ^ 31 then some (List.replicate n 0) else none
  temp _ := List.replicate 64 0
  malloc_length := plentyOfMemory_length
  temp_length _ := List.length_replicate

theorem plentyOfMemory_isSome (i : ℕ) {n : ℕ} (h : n < 2 ^ 31) :
    (plentyOfMemory.malloc i n).isSome := by
  unfold plentyOfMemory
  simp only [if_pos h, Option.isSome_some]

def keyName : CString := ⟨ascii ['n', 'a', 'm', 'e'], by decide⟩

def keyVersion : CString := ⟨ascii ['v', 'e', 'r', 's', 'i', 'o', 'n'], by decide⟩

def keyRubicVersion : CString :=
  ⟨ascii ['r', 'u', 'b', 'i', 'c', 'V', 'e', 'r', 's', 'i', 'o', 'n'], by decide⟩

def keyRuntimes : CString := ⟨ascii ['r', 'u', 'n', 't', 'i', 'm', 'e', 's'], by decide⟩

def keyStorages : CString := ⟨ascii ['s', 't', 'o', 'r', 'a', 'g', 'e', 's'], by decide⟩

/-- `RUBIC_AGENT_RUBIC_VERSION`. -/
def rubicVersion : CString :=
  ⟨ascii ['>', '=', '0', '.', '9', '9', '.', '1', '0', '0'], by decide⟩

/-- The string in an array of two characters, the second one being NUL. -/
def charString (c : UInt8) : CString where
  bytes := if c = 0 then [] else [c]
  no_nul := by
    split_ifs with h
    · exact List.not_mem_nil
    · rw [List.mem_singleton]
      exact fun h0 => h h0.symm

/-- `subscript`: `i - '0'`. -/
def subscript (i : ℕ) : CString := charString (UInt8.ofNat i - 0x30)

/-- The document `temp` of a runtime. -/
def makeRuntime (temp : Mem) (runtime : RuntimeEntry) : Access Mem := do
  let temp ← bsonCreateEmptyDocument temp
  let temp ← written (bsonSetString (some temp) keyName runtime.name)
  match runtime.version with
  | some version => written (bsonSetString (some temp) keyVersion version)
  | none => return temp

/-- The loop over the runtimes, from the entry `i` on. -/
def setRuntimes (temp : ℕ → Mem) (i : ℕ) (subdoc1 : Mem) : List (Option RuntimeEntry) → Access Mem
  | [] => some subdoc1
  | none :: _ => some subdoc1
  | some runtime :: runtimes => do
    let element ← makeRuntime (temp i) runtime
    let subdoc1 ← written (bsonSetSubdocument (some subdoc1) (subscript i) element)
    setRuntimes temp (i + 1) subdoc1 runtimes

/-- The loop over the storages. -/
def setStorages (subdoc2 : Mem) : List (Option StorageEntry) → Access Mem
  | [] => some subdoc2
  | none :: _ => some subdoc2
  | some storage :: storages => do
    let subdoc2 ← written (bsonSetString (some subdoc2) storage.name storage.path)
    setStorages subdoc2 storages

/-- The first part of `generate_info`: the two documents in the block, `subdoc2` at `offset`. -/
def fillWork (temp : ℕ → Mem) (offset : ℕ) (runtimes : List (Option RuntimeEntry))
    (storages : List (Option StorageEntry)) (subdoc1 : Mem) : Access Mem := do
  let subdoc1 ← bsonCreateEmptyDocument subdoc1
  let subdoc1 ← atPointer subdoc1 offset bsonCreateEmptyDocument
  let subdoc1 ← setRuntimes temp 0 subdoc1 runtimes
  atPointer subdoc1 offset (setStorages · storages)

/-- `len`, measured. -/
def measureInfo (subdoc1 subdoc2 : Mem) : Access ℤ := do
  let version ← bsonMeasureString keyRubicVersion rubicVersion
  let runtimes ← bsonMeasureArray keyRuntimes subdoc1
  let storages ← bsonMeasureSubdocument keyStorages subdoc2
  return 5 + version + runtimes + storages

/-- The last part of `generate_info`: the output. -/
def makeOutput (output subdoc1 subdoc2 : Mem) : Access Mem := do
  let output ← bsonCreateEmptyDocument output
  let output ← written (bsonSetString (some output) keyRubicVersion rubicVersion)
  let output ← written (bsonSetArray (some output) keyRuntimes subdoc1)
  written (bsonSetSubdocument (some output) keyStorages subdoc2)

/-- `generate_info`: the result, and `state.cached_info`. -/
def generateInfo {cfg : InfoConfig} (heap : InfoHeap) (s : InfoState cfg) :
    Access (ℤ × Option Mem) := do
  match heap.malloc 0 (64 * (cfg.maxRuntimes + cfg.maxStorages)) with
  | none => return (-ENOMEM, none)
  | some subdoc1 =>
    let offset := 64 * cfg.maxRuntimes
    let subdoc1 ← fillWork heap.temp offset s.runtimes s.storages subdoc1
    let len ← measureInfo subdoc1 (subdoc1.drop offset)
    match heap.malloc 1 (len % 2 ^ 32).toNat with
    | none => return (-ENOMEM, none)
    | some output => return (0, some (← makeOutput output subdoc1 (subdoc1.drop offset)))

/-- The copy at the end of `rubic_agent_method_info`. A `malloc` that fails sets `errno`. -/
def copyInfo (heap : InfoHeap) (info : Mem) : Access (Option Mem × ℤ) := do
  let len ← bsonMeasureDocument info
  match heap.malloc 2 (len % 2 ^ 32).toNat with
  | none => return (none, ENOMEM)
  | some result => return (some (← result.memcpy 0 info 0 len), 0)

/-- `rubic_agent_method_info`: the result, `errno` and the state. -/
def rubicAgentMethodInfo {cfg : InfoConfig} (heap : InfoHeap) (s : InfoState cfg) :
    Access ((Option Mem × ℤ) × InfoState cfg) := do
  match s.cachedInfo with
  | some info => return (← copyInfo heap info, s)
  | none =>
    match ← generateInfo heap s with
    | (errno, none) => return ((none, errno), s)
    | (_, some info) => return (← copyInfo heap info, { s with cachedInfo := some info })

/-! ## What it should say -/

/-- The entries in front of the first one without a name. -/
def registered {α : Type*} : List (Option α) → List α
  | some a :: l => a :: registered l
  | none :: _ => []
  | [] => []

/-- The document of a runtime. -/
def runtimeDocument (runtime : RuntimeEntry) : List Element :=
  .mk keyName (.string runtime.name.bytes) ::
    match runtime.version with
    | some version => [.mk keyVersion (.string version.bytes)]
    | none => []

/-- The elements of the array, with keys from `i` on. -/
def runtimeElements (key : ℕ → CString) (i : ℕ) : List RuntimeEntry → List Element
  | [] => []
  | runtime :: runtimes =>
    .mk (key i) (.document (runtimeDocument runtime)) :: runtimeElements key (i + 1) runtimes

/-- The elements of the document of the storages. -/
def storageElements (storages : List StorageEntry) : List Element :=
  storages.map fun storage => .mk storage.name (.string storage.path.bytes)

/-- The document with the information: the version, the array and the document. -/
def infoElements (es1 es2 : List Element) : List Element :=
  [.mk keyRubicVersion (.string rubicVersion.bytes), .mk keyRuntimes (.array es1),
    .mk keyStorages (.document es2)]

/-- The document for the registered entries, with the keys of the array. -/
def infoDocument (key : ℕ → CString) (runtimes : List RuntimeEntry) (storages : List StorageEntry) :
    List Element :=
  infoElements (runtimeElements key 0 runtimes) (storageElements storages)

/-- The numeral of a number with one digit: `'0' + i`. -/
def numeral (i : ℕ) : CString := charString (0x30 + UInt8.ofNat i)

/-- The document names the version, the runtimes under the numerals from 0 on, and the storages. -/
structure Describes (es : List Element) (runtimes : List RuntimeEntry)
    (storages : List StorageEntry) : Prop where
  names : (es.map Element.name).Nodup
  version : .mk keyRubicVersion (.string rubicVersion.bytes) ∈ es
  runtimes : .mk keyRuntimes (.array (runtimeElements numeral 0 runtimes)) ∈ es
  storages : .mk keyStorages (.document (storageElements storages)) ∈ es

/-- The entries fit the work buffers: `temp`, and the two halves of the block. -/
structure FitsWork (cfg : InfoConfig) (runtimes : List RuntimeEntry) (storages : List StorageEntry) :
    Prop where
  runtime : ∀ runtime ∈ runtimes, (encodeDocument (runtimeDocument runtime)).length ≤ 64
  runtimes : (encodeDocument (runtimeElements numeral 0 runtimes)).length ≤ 64 * cfg.maxRuntimes
  storages : (encodeDocument (storageElements storages)).length ≤ 64 * cfg.maxStorages

/-! ## The work buffers -/

theorem subscript_length {i : ℕ} (h : i < 10) : (subscript i).bytes.length = 1 := by
  interval_cases i <;> decide

theorem numeral_length {i : ℕ} (h : i < 10) : (numeral i).bytes.length = 1 := by
  interval_cases i <;> decide

theorem subscript_ne_numeral : subscript 0 ≠ numeral 0 := by decide

theorem registered_length_le {α : Type*} (l : List (Option α)) :
    (registered l).length ≤ l.length := by
  induction l with
  | nil => exact Nat.le_refl _
  | cons a l ih =>
    cases a with
    | none => exact Nat.zero_le _
    | some a => exact Nat.succ_le_succ ih

section Documents

theorem string_encode (key s : CString) :
    (Element.mk key (.string s.bytes)).encode = 0x02 :: (key.encode ++ encodeString s.bytes) := by
  rw [Element.encode, Value.encode]
  rfl

theorem document_encode (key : CString) (es : List Element) :
    (Element.mk key (.document es)).encode = 0x03 :: (key.encode ++ encodeDocument es) := by
  rw [Element.encode, Value.encode]
  rfl

theorem array_encode (key : CString) (es : List Element) :
    (Element.mk key (.array es)).encode = 0x04 :: (key.encode ++ encodeDocument es) := by
  rw [Element.encode, Value.encode]
  rfl

/-- Keys of the same lengths. -/
theorem runtimeElements_length {key key' : ℕ → CString} {i : ℕ} {runtimes : List RuntimeEntry}
    (h : ∀ j < i + runtimes.length, (key j).bytes.length = (key' j).bytes.length) :
    (encodeElements (runtimeElements key i runtimes)).length =
      (encodeElements (runtimeElements key' i runtimes)).length := by
  induction runtimes generalizing i with
  | nil => rfl
  | cons runtime runtimes ih =>
    rw [List.length_cons] at h
    have hkey := h i (by omega)
    rw [runtimeElements, runtimeElements, encodeElements, encodeElements, List.length_append,
      List.length_append, Element.encode_length, Element.encode_length,
      ih fun j hj => h j (by omega)]
    simp only [Element.name, Element.value, hkey]

theorem runtimeElements_subscript_length {runtimes : List RuntimeEntry}
    (h : runtimes.length ≤ 10) :
    (encodeDocument (runtimeElements subscript 0 runtimes)).length =
      (encodeDocument (runtimeElements numeral 0 runtimes)).length := by
  rw [encodeDocument_length, encodeDocument_length, runtimeElements_length fun j hj => ?_]
  rw [subscript_length (by omega), numeral_length (by omega)]

end Documents

section Buffers

variable {m back : Mem} {p : ℕ} {es : List Element}

theorem makeRuntime_eq {temp : Mem} {runtime : RuntimeEntry} (hlen : temp.length = 64)
    (hfits : (encodeDocument (runtimeDocument runtime)).length ≤ 64) :
    ∃ doc, makeRuntime temp runtime = some doc ∧ IsDocument doc (runtimeDocument runtime) := by
  obtain ⟨empty, hempty, hholds⟩ := holdsDocument_start (m := temp) (by omega) (by omega)
  rw [hlen] at hholds
  have hname := bsonSetString_appends keyName runtime.name
  rw [← string_encode] at hname
  unfold makeRuntime
  rw [hempty, Option.bind_eq_bind, Option.bind_some]
  unfold runtimeDocument at hfits ⊢
  cases hversion : runtime.version with
  | none =>
    rw [hversion] at hfits
    obtain ⟨doc, hdoc, hnamed⟩ := hholds.append hname hfits
    rw [hdoc]
    exact ⟨doc, rfl, hnamed.isDocument⟩
  | some version =>
    rw [hversion] at hfits
    have hset := bsonSetString_appends keyVersion version
    rw [← string_encode] at hset
    obtain ⟨doc, hdoc, hnamed⟩ := hholds.append hname (by
      rw [← List.singleton_append, ← List.nil_append ([_] ++ _), ← List.append_assoc,
        encodeDocument_concat_length] at hfits
      rw [encodeDocument_length]
      omega)
    obtain ⟨doc', hdoc', hboth⟩ := hnamed.append hset hfits
    rw [hdoc, Option.bind_some]
    exact ⟨doc', hdoc', hboth.isDocument⟩

/-- The loop over the runtimes: the invariant is that the block holds the array so far. -/
theorem setRuntimes_eq {temp : ℕ → Mem} (htemp : ∀ i, (temp i).length = 64) {i : ℕ}
    {slots : List (Option RuntimeEntry)} (hholds : HoldsDocument m p back es)
    (hruntime : ∀ runtime ∈ registered slots,
      (encodeDocument (runtimeDocument runtime)).length ≤ 64)
    (hfits : (encodeDocument (es ++ runtimeElements subscript i (registered slots))).length ≤ p) :
    ∃ m', setRuntimes temp i m slots = some m' ∧
      HoldsDocument m' p back (es ++ runtimeElements subscript i (registered slots)) := by
  induction slots generalizing i m es with
  | nil =>
    unfold registered runtimeElements
    rw [List.append_nil]
    exact ⟨m, rfl, hholds⟩
  | cons slot slots ih =>
    cases slot with
    | none =>
      unfold registered runtimeElements
      rw [List.append_nil]
      exact ⟨m, rfl, hholds⟩
    | some runtime =>
      unfold registered runtimeElements at hfits ⊢
      rw [List.append_cons] at hfits ⊢
      obtain ⟨element, helement, hdoc⟩ :=
        makeRuntime_eq (htemp i) (hruntime runtime List.mem_cons_self)
      have hset := setSubdocument_appends (subscript i) 0x03 hdoc
      rw [← document_encode] at hset
      obtain ⟨m', hm', hgrown⟩ := hholds.append hset (by
        rw [encodeDocument_length, encodeElements_append, List.length_append] at hfits
        rw [encodeDocument_length]
        omega)
      obtain ⟨m'', hm'', hrest⟩ := ih hgrown
        (fun runtime hmem => hruntime runtime (List.mem_cons_of_mem _ hmem)) hfits
      refine ⟨m'', ?_, hrest⟩
      rw [setRuntimes, helement, Option.bind_eq_bind, Option.bind_some, bsonSetSubdocument, hm',
        Option.bind_some]
      exact hm''

/-- The loop over the storages. -/
theorem setStorages_eq {slots : List (Option StorageEntry)} (hholds : HoldsDocument m p back es)
    (hfits : (encodeDocument (es ++ storageElements (registered slots))).length ≤ p) :
    ∃ m', setStorages m slots = some m' ∧
      HoldsDocument m' p back (es ++ storageElements (registered slots)) := by
  induction slots generalizing m es with
  | nil =>
    unfold registered storageElements
    rw [List.map_nil, List.append_nil]
    exact ⟨m, rfl, hholds⟩
  | cons slot slots ih =>
    cases slot with
    | none =>
      unfold registered storageElements
      rw [List.map_nil, List.append_nil]
      exact ⟨m, rfl, hholds⟩
    | some storage =>
      unfold registered storageElements at hfits ⊢
      rw [List.map_cons, List.append_cons] at hfits ⊢
      have hset := bsonSetString_appends storage.name storage.path
      rw [← string_encode] at hset
      obtain ⟨m', hm', hgrown⟩ := hholds.append hset (by
        rw [encodeDocument_length, encodeElements_append, List.length_append] at hfits
        rw [encodeDocument_length]
        omega)
      obtain ⟨m'', hm'', hrest⟩ := ih hgrown hfits
      refine ⟨m'', ?_, hrest⟩
      rw [setStorages, hm', Option.bind_eq_bind, Option.bind_some]
      exact hm''

/-- Both documents, in the two halves of the block. -/
theorem fillWork_eq {temp : ℕ → Mem} (htemp : ∀ i, (temp i).length = 64) {q : ℕ}
    {runtimes : List (Option RuntimeEntry)} {storages : List (Option StorageEntry)}
    (hlen : m.length = p + q) (hlt : p + q < 2 ^ 31)
    (hruntime : ∀ runtime ∈ registered runtimes,
      (encodeDocument (runtimeDocument runtime)).length ≤ 64)
    (hp : (encodeDocument (runtimeElements subscript 0 (registered runtimes))).length ≤ p)
    (hq : (encodeDocument (storageElements (registered storages))).length ≤ q) :
    ∃ m', fillWork temp p runtimes storages m = some m' ∧
      IsDocument m' (runtimeElements subscript 0 (registered runtimes)) ∧
      IsDocument (m'.drop p) (storageElements (registered storages)) := by
  have hp5 := encodeDocument_length (runtimeElements subscript 0 (registered runtimes))
  have hq5 := encodeDocument_length (storageElements (registered storages))
  have hdrop : (m.drop p).length = q := by
    rw [List.length_drop]
    omega
  obtain ⟨m1, hm1, hholds1⟩ :=
    holdsDocument_create (m := m) (p := p) (by omega) (by omega) rfl (by omega)
  obtain ⟨half, hhalf, hholds⟩ := holdsDocument_start (m := m.drop p) (by omega) (by omega)
  rw [hdrop] at hholds
  have hhalflen := hholds.length_eq
  obtain ⟨m2, hm2, hholds2⟩ :=
    hholds1.behind bsonCreateEmptyDocument hhalf (by rw [hhalflen, hdrop]; rfl)
  obtain ⟨m3, hm3, hholds3⟩ := setRuntimes_eq htemp (i := 0) hholds2 hruntime hp
  obtain ⟨half', hhalf', hholds'⟩ := setStorages_eq hholds hq
  obtain ⟨m4, hm4, hholds4⟩ := hholds3.behind (setStorages · storages) hhalf' (by
    rw [hholds'.length_eq, hhalflen])
  refine ⟨m4, ?_, hholds4.isDocument, ?_⟩
  · rw [fillWork, hm1, Option.bind_eq_bind, Option.bind_some, hm2, Option.bind_some, hm3,
      Option.bind_some]
    exact hm4
  · rw [hholds4.drop_eq]
    exact hholds'.isDocument

variable {output subdoc1 subdoc2 : Mem} {es1 es2 : List Element}

theorem infoElements_length (es1 es2 : List Element) :
    (encodeDocument (infoElements es1 es2)).length =
      54 + (encodeDocument es1).length + (encodeDocument es2).length := by
  unfold infoElements
  simp only [encodeDocument_length, encodeElements, List.length_append, string_encode,
    array_encode, document_encode, List.length_cons, CString.encode_length, encodeString_length]
  have hversion : keyRubicVersion.bytes.length + rubicVersion.bytes.length = 22 := rfl
  have hkeys : keyRuntimes.bytes.length + keyStorages.bytes.length = 16 := rfl
  rw [List.length_nil]
  omega

theorem measureInfo_eq (h1 : IsDocument subdoc1 es1) (h2 : IsDocument subdoc2 es2)
    (hlt : (encodeDocument es1).length + (encodeDocument es2).length < 2 ^ 31 - 10) :
    measureInfo subdoc1 subdoc2 = some ((encodeDocument (infoElements es1 es2)).length : ℤ) := by
  have hv : bsonMeasureString keyRubicVersion rubicVersion = some ((29 : ℕ) : ℤ) :=
    (bsonSetString_appends keyRubicVersion rubicVersion).measured (by decide) (by omega)
  have hruntimes : bsonMeasureArray keyRuntimes subdoc1 =
      some ((10 + (encodeDocument es1).length : ℕ) : ℤ) :=
    (setSubdocument_appends keyRuntimes 0x04 h1).measured (by
      rw [List.length_cons, List.length_append, CString.encode_length]
      exact Nat.add_right_comm _ _ _) (by omega)
  have hstorages : bsonMeasureSubdocument keyStorages subdoc2 =
      some ((10 + (encodeDocument es2).length : ℕ) : ℤ) :=
    (setSubdocument_appends keyStorages 0x03 h2).measured (by
      rw [List.length_cons, List.length_append, CString.encode_length]
      exact Nat.add_right_comm _ _ _) (by omega)
  rw [measureInfo, hv, Option.bind_eq_bind, Option.bind_some, hruntimes, Option.bind_some,
    hstorages, Option.bind_some, infoElements_length]
  refine congrArg some ?_
  omega

/-- The output, in a buffer of the size that was measured. -/
theorem makeOutput_eq (h1 : IsDocument subdoc1 es1) (h2 : IsDocument subdoc2 es2)
    (hlen : output.length = (encodeDocument (infoElements es1 es2)).length)
    (hlt : output.length < 2 ^ 31) :
    makeOutput output subdoc1 subdoc2 = some (encodeDocument (infoElements es1 es2)) := by
  have hfull := hlen
  simp only [infoElements, encodeDocument_length, encodeElements, List.length_append] at hlen
  obtain ⟨empty, hempty, hholds⟩ := holdsDocument_start (m := output) (by omega) hlt
  have hversion := bsonSetString_appends keyRubicVersion rubicVersion
  have hruntimes := setSubdocument_appends keyRuntimes 0x04 h1
  have hstorages := setSubdocument_appends keyStorages 0x03 h2
  rw [← string_encode] at hversion
  rw [← array_encode] at hruntimes
  rw [← document_encode] at hstorages
  obtain ⟨doc, hdoc, hone⟩ := hholds.append hversion (by
    simp only [List.nil_append, encodeDocument_length, encodeElements, List.length_append]
    omega)
  obtain ⟨doc', hdoc', htwo⟩ := hone.append hruntimes (by
    simp only [List.nil_append, List.cons_append, encodeDocument_length, encodeElements,
      List.length_append]
    omega)
  obtain ⟨doc'', hdoc'', hthree⟩ := htwo.append hstorages (Nat.le_of_eq hfull.symm)
  rw [makeOutput, hempty, Option.bind_eq_bind, Option.bind_some, hdoc, Option.bind_some,
    bsonSetArray, hdoc', Option.bind_some, bsonSetSubdocument, hdoc'']
  exact congrArg some ((hthree.eq_encode hfull.symm).trans (List.append_nil _))

end Buffers

/-! ## The information -/

section Info

variable {cfg : InfoConfig} {s : InfoState cfg}

/-- The document that is made of the entries of a state. -/
def infoOf (s : InfoState cfg) : List Element :=
  infoDocument subscript (registered s.runtimes) (registered s.storages)

/-- `generate_info` makes the document if there is memory for the work buffers and for it. -/
theorem generateInfo_eq (heap : InfoHeap)
    (hfits : FitsWork cfg (registered s.runtimes) (registered s.storages)) :
    generateInfo heap s = some
      (if (heap.malloc 0 (64 * (cfg.maxRuntimes + cfg.maxStorages))).isSome ∧
          (heap.malloc 1 (encodeDocument (infoOf s)).length).isSome then
        (0, some (encodeDocument (infoOf s))) else (-ENOMEM, none)) := by
  have hten := registered_length_le s.runtimes
  have hmax := cfg.maxRuntimes_le
  have hsize := cfg.size_lt
  have hruntimes := hfits.runtimes
  have hstorages := hfits.storages
  rw [s.runtimes_length] at hten
  rw [← runtimeElements_subscript_length (by omega)] at hruntimes
  unfold generateInfo
  cases hwork : heap.malloc 0 (64 * (cfg.maxRuntimes + cfg.maxStorages)) with
  | none => rfl
  | some work =>
    obtain ⟨hlen, -⟩ := heap.malloc_length _ _ _ hwork
    obtain ⟨filled, hfilled, h1, h2⟩ := fillWork_eq (m := work) heap.temp_length
      (p := 64 * cfg.maxRuntimes) (q := 64 * cfg.maxStorages) (by omega) (by omega)
      hfits.runtime hruntimes hstorages
    have hmeasure := measureInfo_eq h1 h2 (by omega)
    have htotal := infoElements_length (runtimeElements subscript 0 (registered s.runtimes))
      (storageElements (registered s.storages))
    have hnat : ((((encodeDocument (infoElements (runtimeElements subscript 0
        (registered s.runtimes)) (storageElements (registered s.storages)))).length : ℤ) %
          2 ^ 32).toNat) = (encodeDocument (infoOf s)).length := by
      rw [infoOf, infoDocument]
      omega
    simp only [hfilled, hmeasure, hnat, Option.bind_eq_bind, Option.bind_some, Option.isSome_some,
      true_and]
    cases houtput : heap.malloc 1 (encodeDocument (infoOf s)).length with
    | none => rfl
    | some output =>
      obtain ⟨hlen, hlt⟩ := heap.malloc_length _ _ _ houtput
      simp only [makeOutput_eq h1 h2 hlen (by omega), Option.bind_some]
      rfl

/-- The copy of a document. -/
theorem copyInfo_eq (heap : InfoHeap) {es : List Element}
    (hlt : (encodeDocument es).length < 2 ^ 31) :
    copyInfo heap (encodeDocument es) = some
      (if (heap.malloc 2 (encodeDocument es).length).isSome then (some (encodeDocument es), 0)
      else (none, ENOMEM)) := by
  have hdoc : IsDocument (encodeDocument es) es := ⟨Mem.hasAt_self _, hlt⟩
  have hnat : (((encodeDocument es).length : ℤ) % 2 ^ 32).toNat = (encodeDocument es).length := by
    omega
  unfold copyInfo bsonMeasureDocument
  rw [hdoc.length_eq, Option.bind_eq_bind, Option.bind_some, hnat]
  cases hresult : heap.malloc 2 (encodeDocument es).length with
  | none => rfl
  | some result =>
    obtain ⟨hlen, -⟩ := heap.malloc_length _ _ _ hresult
    have hwrite := Mem.pokes_eq [] result [] hlen
    rw [List.nil_append, List.append_nil, List.nil_append, List.append_nil] at hwrite
    simp only [(Mem.hasAt_self _).memcpy]
    rw [show (0 : ℤ) = ([] : Mem).length from rfl, hwrite]
    rfl

theorem infoOf_length_lt
    (hfits : FitsWork cfg (registered s.runtimes) (registered s.storages)) :
    (encodeDocument (infoOf s)).length < 2 ^ 31 := by
  have hten := registered_length_le s.runtimes
  have hmax := cfg.maxRuntimes_le
  have hsize := cfg.size_lt
  have hruntimes := hfits.runtimes
  have hstorages := hfits.storages
  rw [s.runtimes_length] at hten
  rw [← runtimeElements_subscript_length (by omega)] at hruntimes
  rw [infoOf, infoDocument, infoElements_length]
  omega

theorem rubicAgentMethodInfo_cached {heap : InfoHeap} {doc : Mem} {copy : Option Mem × ℤ}
    (hcached : s.cachedInfo = some doc) (hcopy : copyInfo heap doc = some copy) :
    rubicAgentMethodInfo heap s = some (copy, s) := by
  unfold rubicAgentMethodInfo
  rw [hcached]
  simp only [hcopy, Option.bind_eq_bind, Option.bind_some]
  rfl

theorem rubicAgentMethodInfo_made {heap : InfoHeap} {doc : Mem} {copy : Option Mem × ℤ}
    (hcached : s.cachedInfo = none) (hmade : generateInfo heap s = some (0, some doc))
    (hcopy : copyInfo heap doc = some copy) :
    rubicAgentMethodInfo heap s = some (copy, { s with cachedInfo := some doc }) := by
  unfold rubicAgentMethodInfo
  rw [hcached, hmade]
  simp only [hcopy, Option.bind_eq_bind, Option.bind_some]
  rfl

theorem rubicAgentMethodInfo_failed {heap : InfoHeap} {errno : ℤ}
    (hcached : s.cachedInfo = none) (hmade : generateInfo heap s = some (errno, none)) :
    rubicAgentMethodInfo heap s = some ((none, errno), s) := by
  unfold rubicAgentMethodInfo
  rw [hcached, hmade]
  rfl

/-- The cached document, if there is one, has been made of the entries that are there now. -/
def InfoState.Fresh (s : InfoState cfg) : Prop :=
  ∀ info, s.cachedInfo = some info → ∃ heap errno, generateInfo heap s = some (errno, some info)

theorem InfoState.Fresh.cached_eq (hfresh : s.Fresh)
    (hfits : FitsWork cfg (registered s.runtimes) (registered s.storages)) :
    s.cachedInfo = none ∨ s.cachedInfo = some (encodeDocument (infoOf s)) := by
  cases hcached : s.cachedInfo with
  | none => exact .inl rfl
  | some info =>
    obtain ⟨heap, errno, hmade⟩ := hfresh info hcached
    rw [generateInfo_eq heap hfits] at hmade
    split_ifs at hmade with hmem
    · cases hmade
      exact .inr rfl
    · cases hmade

/-- The reply is a copy of the document that is made of the entries, or there is no memory. -/
theorem rubicAgentMethodInfo_eq (heap : InfoHeap)
    (hcached : s.cachedInfo = none ∨ s.cachedInfo = some (encodeDocument (infoOf s)))
    (hfits : FitsWork cfg (registered s.runtimes) (registered s.storages)) :
    ∃ reply s', rubicAgentMethodInfo heap s = some (reply, s') ∧
      (reply.1 = none ∨ reply.1 = some (encodeDocument (infoOf s))) ∧
      (s' = s ∨ s' = { s with cachedInfo := some (encodeDocument (infoOf s)) }) := by
  obtain ⟨copy, hcopy, hsame⟩ : ∃ copy, copyInfo heap (encodeDocument (infoOf s)) = some copy ∧
      (copy.1 = none ∨ copy.1 = some (encodeDocument (infoOf s))) := by
    refine ⟨_, copyInfo_eq heap (infoOf_length_lt hfits), ?_⟩
    split_ifs
    · exact .inr rfl
    · exact .inl rfl
  rcases hcached with hnone | hsome
  · have hmade := generateInfo_eq heap hfits
    split_ifs at hmade with hmem
    · exact ⟨copy, _, rubicAgentMethodInfo_made hnone hmade hcopy, hsame, .inr rfl⟩
    · exact ⟨_, s, rubicAgentMethodInfo_failed hnone hmade, .inl rfl, .inl rfl⟩
  · exact ⟨copy, s, rubicAgentMethodInfo_cached hsome hcopy, hsame, .inl rfl⟩

theorem copyInfo_plentyOfMemory {es : List Element} (hlt : (encodeDocument es).length < 2 ^ 31) :
    copyInfo plentyOfMemory (encodeDocument es) = some (some (encodeDocument es), 0) := by
  rw [copyInfo_eq plentyOfMemory hlt, if_pos (plentyOfMemory_isSome 2 hlt)]

/-- With memory for everything there is a reply, and the document is kept. -/
theorem plentyOfMemory_reply
    (hcached : s.cachedInfo = none ∨ s.cachedInfo = some (encodeDocument (infoOf s)))
    (hfits : FitsWork cfg (registered s.runtimes) (registered s.storages)) :
    rubicAgentMethodInfo plentyOfMemory s = some ((some (encodeDocument (infoOf s)), 0),
      { s with cachedInfo := some (encodeDocument (infoOf s)) }) := by
  have hlt := infoOf_length_lt hfits
  have hsize := cfg.size_lt
  have hwork := plentyOfMemory_isSome 0 (n := 64 * (cfg.maxRuntimes + cfg.maxStorages)) (by omega)
  have hmade := generateInfo_eq plentyOfMemory hfits
  rw [if_pos ⟨hwork, plentyOfMemory_isSome 1 hlt⟩] at hmade
  rcases hcached with hnone | hsome
  · exact rubicAgentMethodInfo_made hnone hmade (copyInfo_plentyOfMemory hlt)
  · rw [rubicAgentMethodInfo_cached hsome (copyInfo_plentyOfMemory hlt), ← hsome]

/-- Every reply of `rubic_agent_method_info` describes the registered entries. -/
def InfoDescribes (s : InfoState cfg) : Prop :=
  ∀ heap, ∃ reply s', rubicAgentMethodInfo heap s = some (reply, s') ∧
    ∀ out, reply.1 = some out → ∃ es, IsDocument out es ∧
      out.length = (encodeDocument es).length ∧
      Describes es (registered s.runtimes) (registered s.storages)

theorem infoElements_names (es1 es2 : List Element) :
    ((infoElements es1 es2).map Element.name).Nodup := by
  change [keyRubicVersion, keyRuntimes, keyStorages].Nodup
  decide

/-- Only the array can be wrong, and it is if there is an element in it. -/
theorem describes_infoDocument (runtimes : List RuntimeEntry) (storages : List StorageEntry) :
    Describes (infoDocument subscript runtimes storages) runtimes storages ↔ runtimes = [] := by
  unfold infoDocument
  constructor
  · intro h
    have hmem := h.runtimes
    unfold infoElements at hmem
    cases runtimes with
    | nil => rfl
    | cons runtime runtimes =>
      simp only [List.mem_cons, List.not_mem_nil, Element.mk.injEq, reduceCtorEq, and_false,
        false_or, or_false, Value.array.injEq, true_and, runtimeElements, List.cons.injEq] at hmem
      exact absurd hmem.1.1.symm subscript_ne_numeral
  · rintro rfl
    refine ⟨infoElements_names _ _, ?_, ?_, ?_⟩
    · exact List.mem_cons_self
    · exact List.mem_cons_of_mem _ List.mem_cons_self
    · exact List.mem_cons_of_mem _ (List.mem_cons_of_mem _ List.mem_cons_self)

theorem InfoDescribes.eq_nil (h : InfoDescribes s) (hfresh : s.Fresh)
    (hfits : FitsWork cfg (registered s.runtimes) (registered s.storages)) :
    registered s.runtimes = [] := by
  have hdoc : IsDocument (encodeDocument (infoOf s)) (infoOf s) :=
    ⟨Mem.hasAt_self _, infoOf_length_lt hfits⟩
  have hcall := plentyOfMemory_reply (hfresh.cached_eq hfits) hfits
  obtain ⟨reply, s', hcall', hall⟩ := h plentyOfMemory
  rw [hcall] at hcall'
  cases hcall'
  obtain ⟨es, hes, -, hread⟩ := hall _ rfl
  rw [hes.unique hdoc] at hread
  exact (describes_infoDocument _ _).mp hread

/-- **The information.** What `rubic.info` is answered with describes the registered runtimes and
storages if no runtime is registered, and in no other case: the key of the first one is no numeral. -/
theorem info_iff (s : InfoState cfg) (hfresh : s.Fresh)
    (hfits : FitsWork cfg (registered s.runtimes) (registered s.storages)) :
    InfoDescribes s ↔ registered s.runtimes = [] := by
  constructor
  · exact fun h => h.eq_nil hfresh hfits
  · intro hnone heap
    obtain ⟨reply, s', hcall, hreply, -⟩ :=
      rubicAgentMethodInfo_eq heap (hfresh.cached_eq hfits) hfits
    refine ⟨reply, s', hcall, fun out hout => ⟨infoOf s, ?_⟩⟩
    rcases hreply with hreply | hreply
    · rw [hreply] at hout
      cases hout
    · rw [hreply] at hout
      cases hout
      exact ⟨⟨Mem.hasAt_self _, infoOf_length_lt hfits⟩, rfl,
        (describes_infoDocument _ _).mpr hnone⟩

/-- Room for two entries of each kind. -/
def twoOfEach : InfoConfig where
  maxRuntimes := 2
  maxStorages := 2
  maxRuntimes_le := by decide
  size_lt := by decide

/-- The storage that `main.c` registers. -/
def internalStorage : StorageEntry := ⟨INTERNAL, Storage.internal.path⟩

/-- A second one. -/
def cardStorage : StorageEntry where
  name := ⟨ascii ['c', 'a', 'r', 'd'], by decide⟩
  path := ⟨ascii ['/', 'm', 'n', 't', '/', 'c', 'a', 'r', 'd'], by decide⟩

/-- A runtime with a version. -/
def duktape : RuntimeEntry where
  name := ⟨ascii ['d', 'u', 'k', 't', 'a', 'p', 'e'], by decide⟩
  version := some ⟨ascii ['2', '.', '0', '.', '3'], by decide⟩
  runner := 0

/-- A runtime without a version. -/
def lua : RuntimeEntry where
  name := ⟨ascii ['l', 'u', 'a'], by decide⟩
  version := none
  runner := 1

/-- Two storages and no runtime. -/
def storagesOnly : InfoState twoOfEach where
  runtimes := [none, none]
  storages := [some internalStorage, some cardStorage]
  cachedInfo := none
  runtimes_length := rfl
  storages_length := rfl

/-- The same storages and two runtimes. -/
def everything : InfoState twoOfEach where
  runtimes := [some duktape, some lua]
  storages := storagesOnly.storages
  cachedInfo := none
  runtimes_length := rfl
  storages_length := rfl

theorem fits_everything : FitsWork twoOfEach [duktape, lua] [internalStorage, cardStorage] := by
  have hruntime : ∀ runtime ∈ [duktape, lua],
      (encodeDocument (runtimeDocument runtime)).length ≤ 64 := by
    intro runtime hmem
    rcases List.mem_pair.mp hmem with rfl | rfl
    · decide
    · decide
  exact ⟨hruntime, by decide, by decide⟩

/-- `info_iff` of the two states. -/
theorem info_iff_two : InfoDescribes storagesOnly ∧ ¬ InfoDescribes everything := by
  have hnone : storagesOnly.Fresh := fun _ h => by cases h
  have hall : everything.Fresh := fun _ h => by cases h
  have hfits : FitsWork twoOfEach [] [internalStorage, cardStorage] :=
    ⟨fun _ h => absurd h List.not_mem_nil, by decide, fits_everything.storages⟩
  constructor
  · exact (info_iff storagesOnly hnone hfits).mpr rfl
  · intro h
    exact List.cons_ne_nil _ _ ((info_iff everything hall fits_everything).mp h)

/-- The claim fails for the state with the runtimes. -/
theorem not_infoDescribes : ¬ ∀ (cfg : InfoConfig) (s : InfoState cfg), s.Fresh →
    FitsWork cfg (registered s.runtimes) (registered s.storages) → InfoDescribes s := by
  intro h
  have hfresh : everything.Fresh := fun _ h => by cases h
  have hnil := (h twoOfEach everything hfresh fits_everything).eq_nil hfresh fits_everything
  exact List.cons_ne_nil _ _ hnil

end Info

end OlivePiccolo.RubicAgent
