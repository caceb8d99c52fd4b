import OlivePiccolo.RubicAgent.BootFile
import OlivePiccolo.RubicAgent.BootScan

/-!
# The boot file that is meant

A flat JSON object of strings and scalars, with white space between its tokens, and what it says.
The parser understands one member; behind it, the check for the end takes the comma, and a comma is
looked for where the next member starts (`parse_boot_json_iff`).
-/

namespace OlivePiccolo.RubicAgent

open Dialog Mem

/-! ## The text -/

/-- White space. -/
structure Blank where
  bytes : List UInt8
  spaces : Spaces bytes

/-- A string without escapes. -/
structure JsonString extends CString where
  plain : ∀ b ∈ bytes, b ≠ 34 ∧ b ≠ 92

/-- `"+-.0123456789Eaeflnrstu"`: what numbers, `true`, `false` and `null` are made of. -/
def SCALAR_BYTES : List UInt8 :=
  [43, 45, 46, 48, 49, 50, 51, 52, 53, 54, 55, 56, 57, 69, 97, 101, 102, 108, 110, 114, 115, 116,
    117]

/-- A number, a boolean or null. -/
structure JsonScalar where
  first : UInt8
  more : List UInt8
  scalar : ∀ b ∈ first :: more, b ∈ SCALAR_BYTES

inductive JsonValue
  | scalar (v : JsonScalar)
  | string (v : JsonString)

structure JsonMember where
  beforeKey : Blank
  key : JsonString
  behindKey : Blank
  beforeValue : Blank
  value : JsonValue
  behindValue : Blank

/-- The `gap` stands between the braces of an object without members. -/
structure BootText where
  front : Blank
  gap : Blank
  members : List JsonMember
  back : Blank

def JsonValue.text : JsonValue → List UInt8
  | .scalar v => v.first :: v.more
  | .string v => 34 :: (v.bytes ++ [34])

def JsonMember.text (m : JsonMember) : List UInt8 :=
  m.beforeKey.bytes ++ 34 :: (m.key.bytes ++ 34 :: (m.behindKey.bytes ++ 58 ::
    (m.beforeValue.bytes ++ (m.value.text ++ m.behindValue.bytes))))

/-- What stands between the braces. -/
def BootText.inner (t : BootText) : List UInt8 :=
  match t.members with
  | [] => t.gap.bytes
  | m :: ms => m.text ++ ms.flatMap fun m => 44 :: m.text

def BootText.text (t : BootText) : List UInt8 :=
  t.front.bytes ++ 123 :: (t.inner ++ 125 :: t.back.bytes)

/-! ## What it says -/

/-- The string of a member of this name. -/
def JsonMember.string? (m : JsonMember) (name : List UInt8) : Option CString :=
  match m.value with
  | .scalar _ => none
  | .string v => if m.key.bytes = name then some v.toCString else none

/-- The last string of this name. -/
def lastString (name : List UInt8) (members : List JsonMember) : Option CString :=
  (members.filterMap (·.string? name)).getLast?

/-- A path on the storage, if it is no full path. -/
def Storage.fullName (storage : Storage) (file : CString) : List UInt8 :=
  if file.bytes.head? = some 47 then file.bytes else storage.path.bytes ++ 47 :: file.bytes

def BootText.path (t : BootText) (storage : Storage) : Option (List UInt8) :=
  (lastString FILE t.members).map storage.fullName

def BootText.runtime (t : BootText) (runtimes : List CString) : Option ℕ :=
  findRuntime runtimes (lastString RUNTIME t.members)

/-- There is memory for the path. -/
def BootFile.HasMemory (f : BootFile) (storage : Storage) (file : CString) : Prop :=
  f.malloc ((storage.fullName file).length + 1) ≠ 0

instance (f : BootFile) (storage : Storage) (file : CString) :
    Decidable (f.HasMemory storage file) := inferInstanceAs (Decidable (_ ≠ _))

/-- The files that the parser understands: with one member at most, or with no path and no other
runtime than the one in the first member. -/
def BootText.Understood (t : BootText) (storage : Storage) (runtimes : List CString)
    (f : BootFile) : Prop :=
  (t.members.length ≤ 1 ∧ ∀ file, lastString FILE t.members = some file →
    f.HasMemory storage file) ∨
  (2 ≤ t.members.length ∧ lastString FILE t.members = none ∧
    findRuntime runtimes (lastString RUNTIME t.members) =
      findRuntime runtimes (lastString RUNTIME (t.members.take 1)))

/-! ## A member -/

section Member

variable {s : Parse} {runtimes : List CString} {m : JsonMember} {x : UInt8} {back : List UInt8}

theorem JsonString.isKey (k : JsonString) : IsKey k.bytes :=
  fun b hb => ⟨fun h => k.no_nul (h ▸ hb), (k.plain b hb).1⟩

theorem JsonString.body (v : JsonString) : StringBody v.bytes := by
  have hbytes : ∀ b ∈ v.bytes, b ≠ 0 ∧ b ≠ 34 ∧ b ≠ 92 :=
    fun b hb => ⟨fun h => v.no_nul (h ▸ hb), v.plain b hb⟩
  generalize v.bytes = bytes at hbytes
  induction bytes with
  | nil => exact .nil
  | cons b l ih =>
    obtain ⟨hb, hl⟩ := List.forall_mem_cons.mp hbytes
    exact .byte hb (ih hl)

theorem scalar_bytes : ∀ b ∈ SCALAR_BYTES,
    b ∉ JSON_SPACES ∧ b ≠ 34 ∧ b ≠ 0 ∧ b ∉ ([123, 125, 91, 93, 44] : List UInt8) := by
  simp [SCALAR_BYTES, JSON_SPACES]

theorem space_bytes : ∀ b ∈ JSON_SPACES, b ≠ 0 ∧ b ∉ ([123, 125, 91, 93, 44] : List UInt8) := by
  simp [JSON_SPACES]

/-- What a scalar is skipped with. -/
theorem JsonScalar.isRest (v : JsonScalar) (ws : Blank) : IsRest (v.more ++ ws.bytes) := by
  intro b hb
  rcases List.mem_append.mp hb with hb | hb
  · exact (scalar_bytes b (v.scalar b (List.mem_cons_of_mem _ hb))).2.2
  · exact space_bytes b (ws.spaces b hb)

/-- The parser has taken over what a member says. -/
structure Parse.Took (runtimes : List CString) (m : JsonMember) (s s' : Parse) : Prop where
  runtime : s'.runtime =
    (m.string? RUNTIME).elim s.runtime fun v => findRuntime runtimes (some v)
  file : (m.string? FILE).elim (s'.file = s.file) fun v =>
    ∃ p, s'.file = some p ∧ s'.buffer.StringAt p v.bytes

/-- **A member** is read up to what stands behind it. -/
theorem member_text (runtimes : List CString) (hm : Sealed s.buffer) (hx : x ∉ JSON_SPACES)
    (hdelim : x ∈ ([123, 125, 91, 93, 44] : List UInt8))
    (h : s.buffer.drop s.input = m.text ++ x :: back) :
    ∃ s' : Parse, s.member runtimes = s'.separator ∧ s'.buffer.drop s'.input = x :: back ∧
      Parse.Took runtimes m s s' := by
  obtain ⟨beforeKey, key, behindKey, beforeValue, value, behindValue⟩ := m
  cases value with
  | scalar v =>
    have hfirst := scalar_bytes v.first (v.scalar _ List.mem_cons_self)
    have hdrop : s.buffer.drop s.input = beforeKey.bytes ++ 34 :: (key.bytes ++ 34 ::
        (behindKey.bytes ++ 58 :: (beforeValue.bytes ++ v.first ::
          (v.more ++ behindValue.bytes ++ x :: back)))) := by
      rw [h]
      simp only [JsonMember.text, JsonValue.text, List.append_assoc, List.cons_append]
    obtain ⟨hvalue, -, hmember⟩ := member_value runtimes hm hdrop beforeKey.spaces
      key.isKey behindKey.spaces beforeValue.spaces hfirst.1
    rw [hmember, value_other hvalue hfirst.2.1 (v.isRest behindValue) hdelim]
    exact ⟨_, rfl, drop_add (drop_add (l := [v.first]) hvalue), rfl, rfl⟩
  | string v =>
    have hdrop : s.buffer.drop s.input = beforeKey.bytes ++ 34 :: (key.bytes ++ 34 ::
        (behindKey.bytes ++ 58 :: (beforeValue.bytes ++ 34 ::
          (v.bytes ++ 34 :: (behindValue.bytes ++ x :: back))))) := by
      rw [h]
      simp only [JsonMember.text, JsonValue.text, List.append_assoc, List.cons_append,
        List.nil_append]
    obtain ⟨hvalue, hkey, hmember⟩ := member_value runtimes hm hdrop beforeKey.spaces
      key.isKey behindKey.spaces beforeValue.spaces (by decide)
    have hval := stringAt_set (drop_add (l := [34]) hvalue) v.no_nul
    rw [hmember, value_string (hm.set _) hvalue v.body behindValue.spaces hx hkey
      (by dsimp only; omega) hval]
    refine ⟨_, rfl, afterString_drop hvalue, ?_, ?_⟩
    · unfold Parse.afterString JsonMember.string?
      dsimp only
      split_ifs
      · rfl
      · rfl
    · unfold Parse.afterString JsonMember.string?
      dsimp only
      split_ifs
      · exact ⟨_, rfl, hval⟩
      · rfl

/-- A member starts with no comma. -/
theorem JsonMember.exists_cons (m : JsonMember) : ∃ y l, m.text = y :: l ∧ y ≠ 44 := by
  rw [JsonMember.text]
  cases hws : m.beforeKey.bytes with
  | nil => exact ⟨34, _, rfl, by decide⟩
  | cons y ws =>
    have hy : y ∈ JSON_SPACES := m.beforeKey.spaces y (hws ▸ List.mem_cons_self)
    refine ⟨y, _, rfl, ?_⟩
    rintro rfl
    exact absurd hy (by decide)

end Member

/-! ## The whole text -/

section Whole

variable {storage : Storage} {runtimes : List CString} {m : Mem} {f : BootFile} {t : BootText}

@[simp] theorem lastString_nil (name : List UInt8) : lastString name [] = none := rfl

@[simp] theorem lastString_singleton (name : List UInt8) (m : JsonMember) :
    lastString name [m] = m.string? name := by
  rw [lastString, List.filterMap_cons]
  cases m.string? name with
  | none => rfl
  | some v => rfl

/-- The path, as far as there is memory. -/
def BootFile.givenPath (f : BootFile) (storage : Storage) (file : CString) : Option (List UInt8) :=
  if f.HasMemory storage file then some (storage.fullName file) else none

theorem givenPath_eq (f : BootFile) (storage : Storage) (v : CString) :
    f.givenPath storage v =
      if f.malloc ((storage.fullName v).length + 1) = 0 then none
      else some (storage.fullName v) := by
  by_cases h : f.malloc ((storage.fullName v).length + 1) = 0
  · exact (if_neg (not_not.mpr h)).trans (if_pos h).symm
  · exact (if_pos h).trans (if_neg h).symm

theorem fullPath_run {p : ℕ} {v : CString} (h : m.StringAt p v.bytes) (s : BootFile.State) :
    (fullPath storage m p).run f.reply s = some (f.givenPath storage v, s) := by
  obtain ⟨c, back, hdrop, hc⟩ : ∃ c back, m.drop p = c :: back ∧
      (c = 47 ↔ v.bytes.head? = some 47) := by
    obtain ⟨-, back, hdrop⟩ := h
    cases hv : v.bytes with
    | nil =>
      rw [hv] at hdrop
      exact ⟨0, back, hdrop, by decide⟩
    | cons c l =>
      rw [hv] at hdrop
      exact ⟨c, _, hdrop, by rw [List.head?_cons, Option.some.injEq]⟩
  rw [fullPath, access_byte hdrop, access_some h.stringAt, givenPath_eq, Storage.fullName]
  by_cases hfull : c = 47
  · rw [if_neg (not_not.mpr hfull), if_pos (hc.mp hfull)]
    rfl
  · rw [if_pos hfull, if_neg (mt hc.mpr hfull), List.length_append, List.length_cons,
      show storage.path.bytes.length + (v.bytes.length + 1) + 1 =
        storage.path.bytes.length + 1 + v.bytes.length + 1 by omega]
    rfl

/-- What the parser makes of the text. -/
def BootText.parsed (t : BootText) (storage : Storage) (runtimes : List CString) (f : BootFile) :
    Boot where
  path := if t.members.length ≤ 1 then
    (lastString FILE t.members).bind (f.givenPath storage) else none
  runtime := findRuntime runtimes (lastString RUNTIME (t.members.take 1))
  flags := RUNNER_FLAG_AUTOBOOT ||| RUNNER_FLAG_FILE

/-- What follows the loop over the members. -/
theorem finish_run {p : Parse} {closed : Bool} {file : Option CString}
    (hfile : file.elim (p.file = none) fun v => ∃ q, p.file = some q ∧ p.buffer.StringAt q v.bytes)
    (s : BootFile.State) :
    Dialog.run f.reply (match closed, p.file with
      | true, some file => fullPath storage p.buffer file >>= fun path =>
          return Boot.mk path p.runtime (RUNNER_FLAG_AUTOBOOT ||| RUNNER_FLAG_FILE)
      | _, _ => return Boot.mk none p.runtime (RUNNER_FLAG_AUTOBOOT ||| RUNNER_FLAG_FILE)) s =
    some (Boot.mk (if closed then file.bind (f.givenPath storage) else none) p.runtime
      (RUNNER_FLAG_AUTOBOOT ||| RUNNER_FLAG_FILE), s) := by
  match closed, file with
  | false, _ => rfl
  | true, none =>
    have hnone : p.file = none := hfile
    rw [hnone]
    rfl
  | true, some v =>
    obtain ⟨q, hq, hstring⟩ := hfile
    rw [hq]
    dsimp only
    rw [run_bind, fullPath_run hstring]
    rfl

theorem Parse.Took.runtime_eq {m : JsonMember} {p p' : Parse} (h : Parse.Took runtimes m p p')
    (hruntime : p.runtime = findRuntime runtimes none) :
    p'.runtime = findRuntime runtimes (lastString RUNTIME [m]) := by
  rw [h.runtime, hruntime, lastString_singleton]
  cases m.string? RUNTIME with
  | none => rfl
  | some v => rfl

/-- The loop ends in its first round. -/
theorem parseLoop_text {p : Parse} {rest : List UInt8} (hm : Sealed p.buffer)
    (h : p.buffer.drop p.input = t.inner ++ 125 :: rest) (hfile : p.file = none)
    (hruntime : p.runtime = findRuntime runtimes none) (storage : Storage) (f : BootFile) :
    ∃ (closed : Bool) (p' : Parse) (file : Option CString),
      parseLoop runtimes 257 p = .ret (closed, p') ∧
      (file.elim (p'.file = none) fun v =>
        ∃ q, p'.file = some q ∧ p'.buffer.StringAt q v.bytes) ∧
      p'.runtime = (t.parsed storage runtimes f).runtime ∧
      (if closed then file.bind (f.givenPath storage) else none) =
        (t.parsed storage runtimes f).path := by
  obtain ⟨front, gap, members, back⟩ := t
  match members with
  | [] =>
    have hmember : p.member runtimes = .ret (.syntaxError p) :=
      member_start hm h gap.spaces (by decide) (by decide)
    rw [parseLoop, hmember]
    exact ⟨false, p, none, rfl, hfile, hruntime, rfl⟩
  | [m] =>
    have htext : p.buffer.drop p.input = m.text ++ 125 :: rest := by
      rw [h]
      show m.text ++ [] ++ _ = _
      rw [List.append_nil]
    obtain ⟨p', hmember, hdrop, htook⟩ :=
      member_text runtimes hm (by decide) (by decide) htext
    rw [parseLoop, hmember, separator_closed hdrop]
    refine ⟨true, p', m.string? FILE, rfl, hfile ▸ htook.file, ?_, ?_⟩
    · exact htook.runtime_eq hruntime
    · rw [BootText.parsed, lastString_singleton]
      rfl
  | m :: m' :: ms =>
    obtain ⟨y, l, hy, hne⟩ := m'.exists_cons
    have htext : p.buffer.drop p.input =
        m.text ++ 44 :: (y :: (l ++ ((ms.flatMap fun m => 44 :: m.text) ++ 125 :: rest))) := by
      rw [h]
      show m.text ++ (m' :: ms).flatMap _ ++ _ = _
      rw [List.flatMap_cons, hy]
      simp only [List.append_assoc, List.cons_append]
    obtain ⟨p', hmember, hdrop, htook⟩ :=
      member_text runtimes hm (by decide) (by decide) htext
    rw [parseLoop, hmember, separator_second hdrop (by decide), if_pos hne]
    exact ⟨false, p', m.string? FILE, rfl, hfile ▸ htook.file, htook.runtime_eq hruntime, rfl⟩

/-- **The text is parsed**. -/
theorem parseBuffer_text (hm : Sealed m) {more : List UInt8} (h : m = t.text ++ more)
    (s : BootFile.State) :
    (parseBuffer storage runtimes m).run f.reply s = some (t.parsed storage runtimes f, s) := by
  have hopen : m.drop 0 = t.front.bytes ++ 123 :: (t.inner ++ 125 :: (t.back.bytes ++ more)) := by
    rw [h, BootText.text]
    simp only [List.drop_zero, List.append_assoc, List.cons_append]
  have hskip := strskip_eq hopen t.front.spaces (by decide) (hm.zero_mem (Nat.zero_le _))
  have hbyte := drop_add hopen
  rw [parseBuffer, access_some hskip, access_byte (by rwa [Nat.zero_add] at hbyte ⊢),
    if_neg (not_not.mpr rfl)]
  obtain ⟨closed, p, file, hloop, hfile, hruntime, hpath⟩ := parseLoop_text (t := t)
    (p := ⟨m, 0 + t.front.bytes.length + 1, none, findRuntime runtimes none⟩) hm
    (drop_add (l := [123]) hbyte) rfl rfl storage f
  rw [hloop]
  refine (finish_run hfile s).trans ?_
  rw [hruntime, hpath]
  rfl

end Whole

/-! ## The file -/

section File

variable {storages : List Storage} {storage : Storage} {t : BootText} {f : BootFile}

theorem parseBootJson_text (hfind : storages.find? (·.name = INTERNAL) = some storage)
    (runtimes : List CString) (hcontent : f.content = t.text) (hlength : t.text.length ≤ 255) :
    ∃ s, (parseBootJson storages runtimes).run f.reply BootFile.start =
      some (t.parsed storage runtimes f, s) := by
  obtain ⟨s, hrun, -⟩ := parseBootJson_found hfind runtimes f
  have hbuffer : f.buffer storage = t.text ++ storage.bootPath.drop t.text.length := by
    rw [BootFile.buffer, hcontent, List.take_of_length_le hlength]
  exact ⟨s, hrun.trans (parseBuffer_text (f.buffer_sealed storage) hbuffer s)⟩

/-- What the parser makes of a text is what the text says. -/
theorem parsed_iff (t : BootText) (storage : Storage) (runtimes : List CString) (f : BootFile) :
    ((t.parsed storage runtimes f).path = t.path storage ∧
      (t.parsed storage runtimes f).runtime = t.runtime runtimes) ↔
    t.Understood storage runtimes f := by
  unfold BootText.parsed BootText.path BootText.runtime BootText.Understood
  by_cases hle : t.members.length ≤ 1
  · have hpath : (lastString FILE t.members).bind (f.givenPath storage) =
        (lastString FILE t.members).map storage.fullName ↔
        ∀ file, lastString FILE t.members = some file → f.HasMemory storage file := by
      cases lastString FILE t.members with
      | none => exact ⟨fun _ _ h => (by cases h), fun _ => rfl⟩
      | some file =>
        rw [Option.bind_some, Option.map_some, BootFile.givenPath]
        split_ifs with hmemory
        · exact ⟨fun _ _ h => Option.some.inj h ▸ hmemory, fun _ => rfl⟩
        · exact ⟨fun h => (by cases h), fun h => absurd (h file rfl) hmemory⟩
    rw [if_pos hle, hpath, List.take_of_length_le hle]
    constructor
    · exact fun h => .inl ⟨hle, h.1⟩
    · rintro (⟨-, h⟩ | ⟨htwo, -⟩)
      · exact ⟨h, rfl⟩
      · omega
  · rw [if_neg hle]
    constructor
    · rintro ⟨hpath, hruntime⟩
      exact .inr ⟨by omega, Option.map_eq_none_iff.mp hpath.symm, hruntime.symm⟩
    · rintro (⟨hone, -⟩ | ⟨-, hpath, hruntime⟩)
      · exact absurd hone hle
      · exact ⟨(Option.map_eq_none_iff.mpr hpath).symm, hruntime.symm⟩

/-- A flat JSON object in the boot file is taken for what it says if the parser understands it, and
only then. -/
theorem parse_boot_json_iff (hfind : storages.find? (·.name = INTERNAL) = some storage)
    (runtimes : List CString) (hcontent : f.content = t.text) (hlength : t.text.length ≤ 255) :
    (∃ (boot : Boot) (s : BootFile.State),
      (parseBootJson storages runtimes).run f.reply BootFile.start = some (boot, s) ∧
      boot.path = t.path storage ∧ boot.runtime = t.runtime runtimes) ↔
    t.Understood storage runtimes f := by
  obtain ⟨s, hrun⟩ := parseBootJson_text hfind runtimes hcontent hlength
  rw [← parsed_iff]
  constructor
  · rintro ⟨boot, s', hrun', hpath, hruntime⟩
    cases hrun.symm.trans hrun'
    exact ⟨hpath, hruntime⟩
  · rintro ⟨hpath, hruntime⟩
    exact ⟨_, s, hrun, hpath, hruntime⟩

/-! ### With one member and with two -/

def Blank.none : Blank := ⟨[], fun _ h => absurd h List.not_mem_nil⟩

/-- A string member without white space. -/
def JsonMember.ofStrings (key value : JsonString) : JsonMember :=
  ⟨.none, key, .none, .none, .string value, .none⟩

theorem a_noNul : (0 : UInt8) ∉ [97] := by decide

/-- `"file":"a"`. -/
def fileMember : JsonMember :=
  .ofStrings ⟨⟨FILE, by decide⟩, by simp [FILE]⟩ ⟨⟨[97], a_noNul⟩, by simp⟩

/-- `"runtime":"lua"`. -/
def runtimeMember : JsonMember :=
  .ofStrings ⟨⟨RUNTIME, by decide⟩, by simp [RUNTIME]⟩ ⟨⟨[108, 117, 97], by decide⟩, by simp⟩

/-- A file with this text. -/
def BootText.file (t : BootText) : BootFile where
  fd := 3
  content := t.text
  portion := fun _ => 255
  malloc := fun _ => 1

def oneMember : BootText := ⟨.none, .none, [fileMember], .none⟩

def twoMembers : BootText := ⟨.none, .none, [fileMember, runtimeMember], .none⟩

theorem parse_boot_json_one_member : ∃ (boot : Boot) (s : BootFile.State),
    (parseBootJson [Storage.internal] []).run oneMember.file.reply BootFile.start =
      some (boot, s) ∧
    boot.path = oneMember.path Storage.internal ∧ boot.runtime = oneMember.runtime [] :=
  (parse_boot_json_iff find_internal [] rfl (by decide)).mpr
    (.inl ⟨by decide, fun _ _ => one_ne_zero⟩)

theorem parse_boot_json_two_members : ¬ ∃ (boot : Boot) (s : BootFile.State),
    (parseBootJson [Storage.internal] []).run twoMembers.file.reply BootFile.start =
      some (boot, s) ∧
    boot.path = twoMembers.path Storage.internal ∧ boot.runtime = twoMembers.runtime [] := by
  obtain ⟨s, hrun⟩ := parseBootJson_text (f := twoMembers.file) find_internal [] rfl (by decide)
  rintro ⟨boot, s', hrun', hpath, -⟩
  cases hrun.symm.trans hrun'
  exact absurd hpath (by decide)

end File

end OlivePiccolo.RubicAgent
