import OlivePiccolo.RubicAgent.BootFile
import OlivePiccolo.RubicAgent.BootScan

/-!
# The bounds of the boot file's parser

The parser leaves its buffer for some files of 255 bytes and more: with a backslash in a string, a
colon, or the quote of a value as the last byte of the buffer but the NUL (`Overruns`). There are no
others (`parse_boot_json_inside_iff`).
-/

namespace OlivePiccolo.RubicAgent

open Dialog Mem

/-- A member up to its value. -/
inductive KeyPart : List UInt8 → Prop
  | mk {ws k ws' ws'' : List UInt8} (hws : Spaces ws) (hk : IsKey k) (hws' : Spaces ws')
      (hws'' : Spaces ws'') : KeyPart (ws ++ 34 :: (k ++ 34 :: (ws' ++ 58 :: ws'')))

/-- What the parser takes for a member with its separator. -/
inductive Item : List UInt8 → Prop
  | other {l t : List UInt8} {c x : UInt8} (hl : KeyPart l) (hc : c ≠ 34) (hspace : c ∉ JSON_SPACES)
      (ht : IsRest t) (hx : x ∈ ([123, 91, 93, 44] : List UInt8)) :
      Item (l ++ c :: (t ++ [x, 44]))
  | string {l body ws : List UInt8} {x : UInt8} (hl : KeyPart l) (hbody : StringBody body)
      (hws : Spaces ws) (hspace : x ∉ JSON_SPACES) (hx : x ≠ 125) :
      Item (l ++ 34 :: (body ++ 34 :: (ws ++ [x, 44])))

/-- A member that the parser leaves the buffer with: it has come to the end of the bytes in front of
a value, at a backslash, or behind a string. -/
inductive Tail : List UInt8 → Prop
  | value {l : List UInt8} (hl : KeyPart l) : Tail l
  | escape {l body : List UInt8} (hl : KeyPart l) (hbody : StringBody body) :
      Tail (l ++ 34 :: (body ++ [92]))
  | quote {l body ws : List UInt8} (hl : KeyPart l) (hbody : StringBody body) (hws : Spaces ws) :
      Tail (l ++ 34 :: (body ++ 34 :: ws))

/-- The bytes of the buffer in front of its NUL lead the parser out of it. -/
def Overruns (bytes : List UInt8) : Prop :=
  ∃ (ws : List UInt8) (items : List (List UInt8)) (tail : List UInt8),
    bytes = ws ++ 123 :: (items.flatten ++ tail) ∧ Spaces ws ∧ (∀ item ∈ items, Item item) ∧
      Tail tail

section Member

variable {s : Parse} {runtimes : List CString} {l item rest : List UInt8}

/-- The state of the parser is in order. -/
structure Parse.Ready (s : Parse) : Prop where
  buffer : Sealed s.buffer
  file : ∀ f, s.file = some f → f ≤ 255

theorem exists_cstring {m : Mem} {p : ℕ} (h : 0 ∈ m.drop p) :
    ∃ v : CString, m.StringAt p v.bytes := by
  obtain ⟨v, hv⟩ := exists_stringAt h
  exact ⟨⟨v, hv.1⟩, hv⟩

/-- A member up to its value has been read. -/
theorem member_keyPart (runtimes : List CString) (hs : s.Ready) (hl : KeyPart l) {c : UInt8}
    {back : List UInt8} (h : s.buffer.drop s.input = l ++ c :: back) (hc : c ∉ JSON_SPACES) :
    ∃ (s' : Parse) (k : List UInt8) (key : ℕ), s'.Ready ∧ s'.buffer.drop s'.input = c :: back ∧
      StringAt s'.buffer key k ∧ key + k.length < s'.input ∧
        s.member runtimes = s'.value runtimes key := by
  obtain @⟨ws, k, ws', ws'', hws, hk, hws', hws''⟩ := hl
  have hdrop : s.buffer.drop s.input =
      ws ++ 34 :: (k ++ 34 :: (ws' ++ 58 :: (ws'' ++ c :: back))) := by
    rw [h]
    simp only [List.append_assoc, List.cons_append]
  obtain ⟨hvalue, hkey, hmember⟩ :=
    member_value runtimes hs.buffer hdrop hws hk hws' hws'' hc
  refine ⟨{ s with
    buffer := s.buffer.set (s.input + ws.length + 1 + k.length) 0
    input := s.input + ws.length + 1 + k.length + 1 + ws'.length + 1 + ws''.length }, k,
    s.input + ws.length + 1, ⟨hs.buffer.set _, hs.file⟩, hvalue, hkey, ?_, hmember⟩
  show _ < s.input + ws.length + 1 + k.length + 1 + ws'.length + 1 + ws''.length
  omega

/-- A value that is a string has been read. -/
theorem value_quoted (runtimes : List CString) (hs : s.Ready) {key : ℕ} {k body ws : List UInt8}
    {x : UInt8} {back : List UInt8}
    (h : s.buffer.drop s.input = 34 :: (body ++ 34 :: (ws ++ x :: back)))
    (hbody : StringBody body) (hws : Spaces ws) (hx : x ∉ JSON_SPACES)
    (hkey : s.buffer.StringAt key k) (hlt : key + k.length < s.input) :
    ∃ s' : Parse, s'.Ready ∧ s'.buffer.drop s'.input = x :: back ∧
      s.value runtimes key = s'.separator := by
  have hrest : s.buffer.drop (s.input + 1) = body ++ 34 :: (ws ++ x :: back) :=
    drop_add (l := [34]) h
  have hquote := drop_add hrest
  have hle := hs.buffer.le_of_drop hquote
  obtain ⟨v, hv⟩ := exists_cstring ((hs.buffer.set (s.input + 1 + body.length)).zero_mem
    (p := s.input + 1) (by omega))
  refine ⟨s.afterString runtimes k v (s.input + 1 + body.length) ws.length, ⟨hs.buffer.set _, ?_⟩,
    afterString_drop h, value_string hs.buffer h hbody hws hx hkey hlt hv⟩
  intro f hf
  unfold Parse.afterString at hf
  dsimp only at hf
  split at hf
  · cases hf
    omega
  · exact hs.file f hf

/-- **A round** that goes on: it takes a member with its separator. -/
theorem member_item (runtimes : List CString) (hs : s.Ready) (hitem : Item item)
    (h : s.buffer.drop s.input = item ++ rest) :
    ∃ s', s.member runtimes = .ret (.again s') ∧ s'.Ready ∧
      s'.buffer.drop s'.input = rest := by
  cases hitem with
  | @other l t c x hl hc hspace ht hx =>
    rw [List.append_assoc, List.cons_append, List.append_assoc] at h
    obtain ⟨s₁, k, key, hs₁, hvalue, -, -, hmember⟩ :=
      member_keyPart runtimes hs hl h hspace
    have hdelim : ∀ x ∈ ([123, 91, 93, 44] : List UInt8),
        x ∈ ([123, 125, 91, 93, 44] : List UInt8) ∧ x ≠ 125 := by simp
    obtain ⟨hx, hne⟩ := hdelim x hx
    have hsep : s₁.buffer.drop (s₁.input + 1 + t.length) = x :: 44 :: rest :=
      drop_add (drop_add (l := [c]) hvalue)
    rw [hmember, value_other hvalue hc ht hx,
      separator_second (s := { s₁ with input := s₁.input + 1 + t.length }) hsep hne]
    exact ⟨_, rfl, ⟨hs₁.buffer, hs₁.file⟩, drop_add (l := [x, 44]) hsep⟩
  | @string l body ws x hl hbody hws hspace hx =>
    simp only [List.append_assoc, List.cons_append, List.nil_append] at h
    obtain ⟨s₁, k, key, hs₁, hvalue, hkey, hlt, hmember⟩ :=
      member_keyPart runtimes hs hl h (by decide)
    obtain ⟨s₂, hs₂, hsep, heq⟩ := value_quoted runtimes hs₁ hvalue hbody hws hspace
      hkey hlt
    rw [hmember, heq, separator_second hsep hx]
    exact ⟨_, rfl, ⟨hs₂.buffer, hs₂.file⟩, drop_add (l := [x, 44]) hsep⟩

/-- **A round** that leaves the buffer. -/
theorem member_tail (hs : s.Ready) (htail : Tail l) (h : s.buffer.drop s.input = l ++ [0]) :
    s.member runtimes = .fault := by
  cases htail with
  | value hl =>
    obtain ⟨s₁, k, key, hs₁, hvalue, -, -, hmember⟩ :=
      member_keyPart runtimes hs hl h zero_not_space
    rw [hmember, value_other_outside hvalue (by decide)]
  | @escape l body hl hbody =>
    simp only [List.append_assoc, List.cons_append, List.nil_append] at h
    obtain ⟨s₁, k, key, hs₁, hvalue, -, -, hmember⟩ :=
      member_keyPart runtimes hs hl h (by decide)
    have hall : StringBody (body ++ [92, 0]) := by
      clear hvalue h
      induction hbody with
      | nil => exact .escape 0 .nil
      | byte hb _ ih => exact .byte hb ih
      | escape b _ ih => exact .escape b ih
    rw [hmember, value_string_outside hs₁.buffer hvalue hall]
  | @quote l body ws hl hbody hws =>
    simp only [List.append_assoc, List.cons_append] at h
    obtain ⟨s₁, k, key, hs₁, hvalue, hkey, hlt, hmember⟩ :=
      member_keyPart runtimes hs hl h (by decide)
    obtain ⟨s₂, hs₂, hsep, heq⟩ := value_quoted runtimes hs₁ hvalue hbody hws
      zero_not_space hkey hlt
    rw [hmember, heq, separator_outside hsep (by decide)]

theorem zero_mem_concat (l : List UInt8) : 0 ∈ l ++ [0] :=
  List.mem_append_right l List.mem_cons_self

/-- What stands behind a byte, up to the NUL at the end. -/
theorem split_last {front back : List UInt8} {b : UInt8} (h : l ++ [0] = front ++ b :: back) :
    (back = [] ∧ b = 0 ∧ l = front) ∨ ∃ back', back = back' ++ [0] ∧ l = front ++ b :: back' := by
  rcases List.eq_nil_or_concat' back with rfl | ⟨back', c, rfl⟩
  · obtain ⟨hl, hb⟩ := List.append_inj' h rfl
    exact .inl ⟨rfl, (List.cons.inj hb).1.symm, hl⟩
  · rw [← List.cons_append, ← List.append_assoc] at h
    obtain ⟨hl, hc⟩ := List.append_inj' h rfl
    obtain rfl := (List.cons.inj hc).1
    exact .inr ⟨back', rfl, hl⟩

theorem StringBody.split {l : List UInt8} (h : StringBody (l ++ [0])) :
    ∃ body, StringBody body ∧ l = body ++ [92] := by
  generalize heq : l ++ [0] = all at h
  induction h generalizing l with
  | nil => exact absurd heq (List.append_ne_nil_of_right_ne_nil l (List.cons_ne_nil 0 []))
  | @byte b rest hb _ ih =>
    cases l with
    | nil => exact absurd (List.cons.inj heq).1.symm hb.1
    | cons c l =>
      obtain ⟨rfl, hrest⟩ := List.cons.inj heq
      obtain ⟨body, hbody, rfl⟩ := ih hrest
      exact ⟨c :: body, .byte hb hbody, rfl⟩
  | @escape b rest hrest ih =>
    match l, heq with
    | [], heq => cases heq
    | [c], heq =>
      obtain ⟨rfl, -⟩ := List.cons.inj heq
      exact ⟨[], .nil, rfl⟩
    | c :: c' :: l, heq =>
      obtain ⟨rfl, htail⟩ := List.cons.inj heq
      obtain ⟨rfl, hl⟩ := List.cons.inj htail
      obtain ⟨body, hbody, rfl⟩ := ih hl
      exact ⟨92 :: c' :: body, .escape c' hbody, rfl⟩

/-- A round that does not go on. -/
def Ends (d : Dialog BootSaid BootReply Next) : Prop :=
  ∃ s : Parse, s.Ready ∧ (d = .ret (.closed s) ∨ d = .ret (.syntaxError s))

theorem Ends.closed (hs : s.Ready) : Ends (.ret (.closed s)) := ⟨s, hs, .inl rfl⟩

theorem Ends.syntaxError (hs : s.Ready) : Ends (.ret (.syntaxError s)) := ⟨s, hs, .inr rfl⟩

/-- The check behind a value: where it goes on, and where it leaves the buffer. -/
theorem separator_cases (hs : s.Ready) {x : UInt8} {back : List UInt8}
    (h : s.buffer.drop s.input = x :: back) :
    Ends s.separator ∨ (x ≠ 125 ∧ ∃ back', back = 44 :: back') ∨ (x ≠ 125 ∧ back = []) := by
  by_cases hx : x = 125
  · rw [hx] at h
    rw [separator_closed h]
    exact .inl (.closed hs)
  match back, h with
  | [], _ => exact .inr (.inr ⟨hx, rfl⟩)
  | y :: back', h =>
    by_cases hy : y = 44
    · exact .inr (.inl ⟨hx, back', by rw [hy]⟩)
    · rw [separator_second h hx, if_pos hy]
      exact .inl (.syntaxError hs)

/-- The cases of a value that is no string. -/
theorem value_other_cases (runtimes : List CString) (key : ℕ) (hs : s.Ready) {c : UInt8}
    {back : List UInt8} (h : s.buffer.drop s.input = c :: (back ++ [0])) (hc : c ≠ 34) :
    (∃ t x back', IsRest t ∧ x ∈ ([123, 91, 93, 44] : List UInt8) ∧
      back = t ++ x :: 44 :: back') ∨ Ends (s.value runtimes key) := by
  obtain ⟨t, x, rest, hsplit, ht, hx⟩ := exists_break [123, 125, 91, 93, 44]
    (zero_mem_concat back)
  rw [hsplit] at h
  by_cases hx0 : x = 0
  · rw [hx0] at h
    rw [value_other_nul h hc ht]
    exact .inr (.syntaxError hs)
  have hdelim := hx.resolve_left hx0
  rw [value_other h hc ht hdelim]
  have hsep : s.buffer.drop (s.input + 1 + t.length) = x :: rest :=
    drop_add (drop_add (l := [c]) h)
  rcases separator_cases (s := { s with input := s.input + 1 + t.length }) ⟨hs.buffer, hs.file⟩ hsep
    with hends | ⟨hne, back', rfl⟩ | ⟨hne, rfl⟩
  · exact .inr hends
  · refine .inl ⟨t, x, ?_⟩
    have hmem : ∀ x ∈ ([123, 125, 91, 93, 44] : List UInt8), x ≠ 125 →
        x ∈ ([123, 91, 93, 44] : List UInt8) := by simp
    rcases split_last hsplit with ⟨hnil, -, -⟩ | ⟨back'', hback, rfl⟩
    · cases hnil
    · cases back'' with
      | nil => cases hback
      | cons y back'' =>
        obtain ⟨rfl, -⟩ := List.cons.inj hback
        exact ⟨back'', ht, hmem x hdelim hne, rfl⟩
  · exact absurd rfl (hs.buffer.back_ne_nil hsep hx0)

/-- The cases of a value that is a string. -/
theorem value_string_cases (runtimes : List CString) (hs : s.Ready) {key : ℕ} {k back : List UInt8}
    (h : s.buffer.drop s.input = 34 :: (back ++ [0])) (hkey : s.buffer.StringAt key k)
    (hlt : key + k.length < s.input) :
    (∃ body ws x back', StringBody body ∧ Spaces ws ∧ x ∉ JSON_SPACES ∧ x ≠ 125 ∧
      back = body ++ 34 :: (ws ++ x :: 44 :: back')) ∨
    (∃ body, StringBody body ∧ back = body ++ [92]) ∨
    (∃ body ws, StringBody body ∧ Spaces ws ∧ back = body ++ 34 :: ws) ∨
      Ends (s.value runtimes key) := by
  rcases exists_body (back ++ [0]) with ⟨body, rest, hbody, hsplit⟩ | ⟨body, rest, hbody, hsplit⟩ |
    hbody | ⟨body, -, hsplit⟩
  · rcases split_last hsplit with ⟨-, h34, -⟩ | ⟨rest', rfl, rfl⟩
    · cases h34
    obtain ⟨ws, x, rest'', hspan, hws, hx⟩ := exists_span zero_not_space
      (zero_mem_concat rest')
    rw [List.append_assoc, List.cons_append, hspan] at h
    obtain ⟨s', hs', hsep, hvalue⟩ := value_quoted runtimes hs h hbody hws hx hkey hlt
    rcases split_last hspan with ⟨-, -, rfl⟩ | ⟨rest₂, rfl, rfl⟩
    · exact .inr (.inr (.inl ⟨body, rest', hbody, hws, rfl⟩))
    rw [hvalue]
    rcases separator_cases hs' hsep with hends | ⟨hne, back', hback⟩ | ⟨-, hnil⟩
    · exact .inr (.inr (.inr hends))
    · cases rest₂ with
      | nil => cases hback
      | cons y rest₂ =>
        obtain ⟨rfl, -⟩ := List.cons.inj hback
        exact .inl ⟨body, ws, x, rest₂, hbody, hws, hx, hne, rfl⟩
    · exact absurd hnil (List.append_ne_nil_of_right_ne_nil rest₂ (List.cons_ne_nil 0 []))
  · rw [hsplit] at h
    rw [value_string_nul hs.buffer h hbody]
    exact .inr (.inr (.inr (.syntaxError hs)))
  · obtain ⟨body, hprefix, rfl⟩ := hbody.split
    exact .inr (.inl ⟨body, hprefix, rfl⟩)
  · cases (List.append_inj' hsplit rfl).2

/-- What stands in front of a value, or a round that does not get to one. -/
theorem keyPart_cases (runtimes : List CString) (hs : s.Ready)
    (h : s.buffer.drop s.input = l ++ [0]) :
    (∃ front c back, KeyPart front ∧ c ∉ JSON_SPACES ∧ l ++ [0] = front ++ c :: back) ∨
      Ends (s.member runtimes) := by
  obtain ⟨ws, b, rest, hspan, hws, hb⟩ := exists_span zero_not_space (zero_mem_concat l)
  rw [hspan] at h ⊢
  by_cases h34 : b = 34
  case neg =>
    rw [member_start hs.buffer h hws hb h34]
    exact .inr (.syntaxError hs)
  subst h34
  obtain ⟨rest', rfl, -⟩ := (split_last hspan).resolve_left fun h => absurd h.2.1 (by decide)
  obtain ⟨k, q, rest₁, hbreak, hk, hq⟩ := exists_break [34] (zero_mem_concat rest')
  have hkey : IsKey k := fun x hx => ⟨(hk x hx).1, fun h => (hk x hx).2 (h ▸ List.mem_cons_self)⟩
  rw [hbreak] at h ⊢
  by_cases hq0 : q = 0
  · rw [hq0] at h
    rw [member_key_nul hs.buffer h hws hkey]
    exact .inr (.syntaxError hs)
  obtain rfl := List.mem_singleton.mp (hq.resolve_left hq0)
  obtain ⟨rest'', rfl, -⟩ := (split_last hbreak).resolve_left fun h => hq0 h.2.1
  obtain ⟨ws', d, rest₂, hspan', hws', hd⟩ := exists_span zero_not_space
    (zero_mem_concat rest'')
  rw [hspan'] at h ⊢
  by_cases hd58 : d = 58
  case neg =>
    obtain ⟨-, -, hmember⟩ := member_colon runtimes hs.buffer h hws hkey hws' hd
    rw [hmember, if_pos hd58]
    exact .inr (.syntaxError ⟨hs.buffer.set _, hs.file⟩)
  subst hd58
  obtain ⟨rest₃, rfl, -⟩ := (split_last hspan').resolve_left fun h => absurd h.2.1 (by decide)
  obtain ⟨ws'', c, back, hspan'', hws'', hc⟩ := exists_span zero_not_space
    (zero_mem_concat rest₃)
  rw [hspan'']
  exact .inl ⟨_, c, back, .mk hws hkey hws' hws'', hc,
    by simp only [List.append_assoc, List.cons_append]⟩

/-- **The cases of a round**: it takes a member and its separator, ends the JSON or finds an error,
or leaves the buffer. -/
theorem member_cases (runtimes : List CString) (hs : s.Ready)
    (h : s.buffer.drop s.input = l ++ [0]) :
    (∃ item l', Item item ∧ l = item ++ l') ∨ Tail l ∨ Ends (s.member runtimes) := by
  rcases keyPart_cases runtimes hs h with ⟨front, c, back, hfront, hc, hsplit⟩ | hends
  case inr => exact .inr (.inr hends)
  rcases split_last hsplit with ⟨-, -, rfl⟩ | ⟨back', rfl, rfl⟩
  · exact .inr (.inl (.value hfront))
  rw [hsplit] at h
  obtain ⟨s', k, key, hs', hvalue, hkey, hlt, hmember⟩ :=
    member_keyPart runtimes hs hfront h hc
  rw [hmember]
  by_cases h34 : c = 34
  case neg =>
    rcases value_other_cases runtimes key hs' hvalue h34 with
      ⟨t, x, rest, ht, hx, rfl⟩ | hends
    · refine .inl ⟨_, rest, .other hfront h34 hc ht hx, ?_⟩
      simp only [List.append_assoc, List.cons_append, List.nil_append]
    · exact .inr (.inr hends)
  subst h34
  rcases value_string_cases runtimes hs' hvalue hkey hlt with
    ⟨body, ws, x, rest, hbody, hws, hx, hne, rfl⟩ | ⟨body, hbody, rfl⟩ |
    ⟨body, ws, hbody, hws, rfl⟩ | hends
  · refine .inl ⟨_, rest, .string hfront hbody hws hx hne, ?_⟩
    simp only [List.append_assoc, List.cons_append, List.nil_append]
  · exact .inr (.inl (.escape hfront hbody))
  · exact .inr (.inl (.quote hfront hbody hws))
  · exact .inr (.inr hends)

end Member

/-! ## All rounds -/

section Rounds

variable {s : Parse} {runtimes : List CString} {l tail : List UInt8} {items : List (List UInt8)}

/-- What the loop over the members leaves the buffer with. -/
def Runaway (l : List UInt8) : Prop :=
  ∃ (items : List (List UInt8)) (tail : List UInt8),
    l = items.flatten ++ tail ∧ (∀ item ∈ items, Item item) ∧ Tail tail

theorem overruns_iff {bytes : List UInt8} : Overruns bytes ↔
    ∃ ws l, bytes = ws ++ 123 :: l ∧ Spaces ws ∧ Runaway l := by
  constructor
  · rintro ⟨ws, items, tail, hbytes, hws, hitems, htail⟩
    exact ⟨ws, _, hbytes, hws, items, tail, rfl, hitems, htail⟩
  · rintro ⟨ws, _, hbytes, hws, items, tail, rfl, hitems, htail⟩
    exact ⟨ws, items, tail, hbytes, hws, hitems, htail⟩

theorem Runaway.cons {item : List UInt8} (hitem : Item item) (h : Runaway l) :
    Runaway (item ++ l) := by
  obtain ⟨items, tail, rfl, hitems, htail⟩ := h
  refine ⟨item :: items, tail, ?_, List.forall_mem_cons.mpr ⟨hitem, hitems⟩, htail⟩
  rw [List.flatten_cons, List.append_assoc]

theorem Item.length_pos {item : List UInt8} (h : Item item) : 0 < item.length := by
  cases h with
  | other => simp only [List.length_append, List.length_cons]; omega
  | string => simp only [List.length_append, List.length_cons]; omega

/-- The loop leaves the buffer, by induction on the members in front. -/
theorem parseLoop_fault (hitems : ∀ item ∈ items, Item item) (htail : Tail tail) (hs : s.Ready)
    (h : s.buffer.drop s.input = items.flatten ++ tail ++ [0]) {rounds : ℕ}
    (hrounds : items.length < rounds) : parseLoop runtimes rounds s = .fault := by
  induction items generalizing s rounds with
  | nil =>
    obtain ⟨rounds, rfl⟩ : ∃ r, rounds = r + 1 := Nat.exists_eq_add_one.mpr hrounds
    rw [parseLoop, member_tail hs htail h]
    rfl
  | cons item items ih =>
    obtain ⟨hitem, hitems⟩ := List.forall_mem_cons.mp hitems
    obtain ⟨rounds, rfl⟩ : ∃ r, rounds = r + 1 :=
      Nat.exists_eq_add_one.mpr (Nat.lt_of_le_of_lt (Nat.zero_le _) hrounds)
    rw [List.flatten_cons, List.append_assoc, List.append_assoc] at h
    obtain ⟨s', hmember, hs', hrest⟩ := member_item runtimes hs hitem h
    rw [← List.append_assoc] at hrest
    rw [parseLoop, hmember]
    exact ih hitems hs' hrest (Nat.lt_of_succ_lt_succ hrounds)

/-- The loop ends inside of the buffer, by induction on its rounds. -/
theorem parseLoop_ret (runtimes : List CString) (hs : s.Ready)
    (h : s.buffer.drop s.input = l ++ [0]) (hl : ¬ Runaway l) {rounds : ℕ}
    (hrounds : l.length < rounds) :
    ∃ closed s', s'.Ready ∧ parseLoop runtimes rounds s = .ret (closed, s') := by
  induction rounds generalizing s l with
  | zero => exact absurd hrounds (Nat.not_lt_zero _)
  | succ rounds ih =>
    rcases member_cases runtimes hs h with ⟨item, l', hitem, rfl⟩ | htail |
      ⟨s', hs', hclosed | herror⟩
    · rw [List.append_assoc] at h
      obtain ⟨s', hmember, hs', hrest⟩ := member_item runtimes hs hitem h
      have hpos := hitem.length_pos
      rw [List.length_append] at hrounds
      rw [parseLoop, hmember]
      exact ih hs' hrest (fun hrun => hl (hrun.cons hitem)) (by omega)
    · exact absurd ⟨[], l, rfl, fun _ h => absurd h List.not_mem_nil, htail⟩ hl
    · rw [parseLoop, hclosed]
      exact ⟨true, s', hs', rfl⟩
    · rw [parseLoop, herror]
      exact ⟨false, s', hs', rfl⟩

theorem length_le_flatten (hitems : ∀ item ∈ items, Item item) :
    items.length ≤ items.flatten.length := by
  induction items with
  | nil => exact Nat.zero_le _
  | cons item items ih =>
    obtain ⟨hitem, hitems⟩ := List.forall_mem_cons.mp hitems
    have hpos := hitem.length_pos
    have := ih hitems
    rw [List.flatten_cons, List.length_append, List.length_cons]
    omega

end Rounds

section Buffer

variable {storage : Storage} {runtimes : List CString} {m : Mem} {f : BootFile}
  {st : BootFile.State}

/-- The string at `file` has its NUL in the buffer. -/
theorem fullPath_inside (hm : Sealed m) {file : ℕ} (hfile : file ≤ 255) :
    ¬ (fullPath storage m file).Faults f.reply st := by
  obtain ⟨name, hname⟩ := Mem.exists_stringAt (hm.zero_mem hfile)
  obtain ⟨c, back, hdrop⟩ := List.exists_cons_of_ne_nil (List.ne_nil_of_mem (hm.zero_mem hfile))
  rw [fullPath, access_byte hdrop, access_some hname.stringAt]
  split_ifs
  · exact id
  · exact id

theorem Sealed.eq_append (hm : Sealed m) : m = m.take 255 ++ [0] := by
  obtain ⟨hlt, hzero⟩ := List.getElem?_eq_some_iff.mp hm.last
  conv_lhs => rw [← List.take_append_drop 255 m, List.drop_eq_getElem_cons hlt, hzero,
    List.drop_of_length_le (Nat.le_of_eq hm.length)]

/-- The buffer is left for its bytes in front of the NUL. -/
theorem parseBuffer_faults (hm : Sealed m) :
    (parseBuffer storage runtimes m).Faults f.reply st ↔ Overruns (m.take 255) := by
  obtain ⟨ws, b, rest, hspan, hws, hb⟩ := hm.exists_skip (Nat.zero_le _)
  have hskip := strskip_eq hspan hws hb (hm.zero_mem (Nat.zero_le _))
  have hbyte := drop_add hspan
  rw [Nat.zero_add] at hskip hbyte
  rw [parseBuffer, access_some hskip, access_byte hbyte, overruns_iff]
  have hbytes : ∀ ws' l, m.take 255 = ws' ++ 123 :: l → Spaces ws' → b = 123 ∧ rest = l ++ [0] := by
    intro ws' l htake hws'
    have heq := hspan.symm.trans hm.eq_append
    rw [htake, List.append_assoc, List.cons_append] at heq
    exact (span_unique heq hws hb hws' (by decide)).2
  by_cases hopen : b = 123
  case neg =>
    rw [if_pos hopen]
    refine ⟨fun h => h.elim, ?_⟩
    rintro ⟨ws', l, htake, hws', -⟩
    exact (hopen (hbytes ws' l htake hws').1).elim
  subst hopen
  rw [if_neg (not_not.mpr rfl)]
  have heq : m.take 255 ++ [0] = ws ++ 123 :: rest := hm.eq_append.symm.trans hspan
  obtain ⟨l, rfl, htake⟩ := (split_last heq).resolve_left fun h => absurd h.2.1 (by decide)
  have hlength := congrArg List.length htake
  rw [List.length_take, List.length_append, List.length_cons] at hlength
  have hs : Parse.Ready ⟨m, ws.length + 1, none, findRuntime runtimes none⟩ :=
    ⟨hm, fun _ h => by cases h⟩
  have hinput : m.drop (ws.length + 1) = l ++ [0] := drop_add (l := [123]) hbyte
  by_cases hrun : Runaway l
  · refine ⟨fun _ => ⟨ws, l, htake, hws, hrun⟩, fun _ => Faults.bind_left ?_⟩
    obtain ⟨items, tail, rfl, hitems, htail⟩ := hrun
    have hitem := length_le_flatten hitems
    rw [List.length_append] at hlength
    rw [parseLoop_fault hitems htail hs hinput (by omega)]
    trivial
  · obtain ⟨closed, s', hs', hloop⟩ := parseLoop_ret runtimes hs hinput hrun
      (show l.length < 257 by omega)
    rw [hloop]
    constructor
    · intro hfaults
      obtain ⟨buffer, input, file, runtime⟩ := s'
      match closed, file with
      | false, _ => exact hfaults.elim
      | true, none => exact hfaults.elim
      | true, some file =>
        change (fullPath storage buffer file >>= fun path =>
          .ret (Boot.mk path runtime 9)).Faults f.reply st at hfaults
        rcases faults_bind.mp hfaults with hpath | ⟨path, st', -, hret⟩
        · exact (fullPath_inside hs'.buffer (hs'.file file rfl) hpath).elim
        · exact hret.elim
    · rintro ⟨ws', l', htake', hws', hrun'⟩
      obtain rfl := List.append_cancel_right (hbytes ws' l' htake' hws').2
      exact absurd hrun' hrun

end Buffer

/-! ## The file -/

theorem parseBootJson_faults {storages : List Storage} {storage : Storage}
    {runtimes : List CString} {f : BootFile}
    (hfind : storages.find? (·.name = INTERNAL) = some storage) :
    (parseBootJson storages runtimes).Faults f.reply BootFile.start ↔
      Overruns ((f.buffer storage).take 255) := by
  obtain ⟨s, -, hfaults⟩ := parseBootJson_found hfind runtimes f
  rw [hfaults, parseBuffer_faults (f.buffer_sealed storage)]

/-- The buffer of `parse_boot_json` is left for the files that make it overrun, in whatever portions
they are read, and for no others. -/
theorem parse_boot_json_inside_iff (storages : List Storage) (runtimes : List CString)
    (f : BootFile) :
    ¬ (parseBootJson storages runtimes).Faults f.reply BootFile.start ↔
      ∀ storage, storages.find? (·.name = INTERNAL) = some storage →
        ¬ Overruns ((f.buffer storage).take 255) := by
  cases hfind : storages.find? (·.name = INTERNAL) with
  | none =>
    rw [parseBootJson, hfind]
    exact ⟨fun _ _ h => (by cases h), fun _ => id⟩
  | some storage =>
    rw [parseBootJson_faults hfind]
    constructor
    · rintro h _ ⟨⟩
      exact h
    · exact fun h => h storage rfl

/-- A file with a string of 248 bytes and a backslash. -/
def backslashFile : BootFile where
  fd := 3
  content := [123, 34, 97, 34, 58, 34] ++ List.replicate 248 120 ++ [92]
  portion := fun _ => 255
  malloc := fun _ => 1

theorem parse_boot_json_backslash :
    (parseBootJson [Storage.internal] []).Faults backslashFile.reply BootFile.start := by
  have hlength : backslashFile.content.length = 255 := by
    show (([123, 34, 97, 34, 58, 34] : List UInt8) ++ List.replicate 248 120 ++ [92]).length = 255
    rw [List.length_append, List.length_append, List.length_replicate]
    rfl
  have hbytes : (backslashFile.buffer Storage.internal).take 255 = backslashFile.content := by
    rw [BootFile.buffer, List.take_of_length_le (Nat.le_of_eq hlength), List.take_left' hlength]
  have hnil : Spaces [] := fun _ h => absurd h List.not_mem_nil
  have hkey : KeyPart ([] ++ 34 :: ([97] ++ 34 :: ([] ++ 58 :: []))) :=
    .mk hnil (by simp [IsKey]) hnil hnil
  have hbody : ∀ n, StringBody (List.replicate n 120) := by
    intro n
    induction n with
    | zero => exact .nil
    | succ n ih => exact .byte (by decide) ih
  refine (parseBootJson_faults find_internal).mpr ?_
  rw [hbytes]
  refine ⟨[], [], _, ?_, hnil, fun _ h => absurd h List.not_mem_nil, .escape hkey (hbody 248)⟩
  rw [backslashFile]
  simp only [List.cons_append, List.nil_append, List.flatten_nil]

/-! ### Short files -/

theorem exists_last {set l ws : List UInt8} {b : UInt8} (hb : b ∈ set) (hws : ∀ x ∈ ws, x ∈ set) :
    ∃ x ∈ set, (l ++ b :: ws).getLast? = some x := by
  have hne : b :: ws ≠ [] := List.cons_ne_nil b ws
  refine ⟨(b :: ws).getLast hne, ?_, ?_⟩
  · exact List.forall_mem_cons.mpr ⟨hb, hws⟩ _ (List.getLast_mem hne)
  · rw [List.getLast?_append_of_ne_nil l hne, List.getLast?_eq_some_getLast hne]

/-- What a file that makes the parser overrun its buffer ends with. -/
theorem Overruns.last {bytes : List UInt8} (h : Overruns bytes) :
    ∃ x ∈ ([58, 92, 34] ++ JSON_SPACES : List UInt8), bytes.getLast? = some x := by
  obtain ⟨ws, items, tail, rfl, -, -, htail⟩ := h
  have hspaces : ∀ {ws : List UInt8}, Spaces ws → ∀ x ∈ ws,
      x ∈ ([58, 92, 34] ++ JSON_SPACES : List UInt8) :=
    fun hws x hx => List.mem_append_right _ (hws x hx)
  have hnil : ∀ x ∈ ([] : List UInt8), x ∈ ([58, 92, 34] ++ JSON_SPACES : List UInt8) :=
    fun _ h => absurd h List.not_mem_nil
  rw [← List.cons_append, ← List.append_assoc]
  generalize ws ++ 123 :: items.flatten = front
  cases htail with
  | value hl =>
    obtain @⟨ws, k, ws', ws'', -, -, -, hws''⟩ := hl
    have := exists_last (l := front ++ (ws ++ 34 :: (k ++ 34 :: ws'))) (b := 58) (by decide)
      (hspaces hws'')
    simpa only [List.append_assoc, List.cons_append] using this
  | @escape l body hl hbody =>
    have := exists_last (l := front ++ (l ++ 34 :: body)) (b := 92) (by decide) hnil
    simpa only [List.append_assoc, List.cons_append] using this
  | @quote l body ws hl hbody hws =>
    have := exists_last (l := front ++ (l ++ 34 :: body)) (b := 34) (by decide) (hspaces hws)
    simpa only [List.append_assoc, List.cons_append] using this

/-- With a file that leaves room in the buffer, the parser stays inside. -/
theorem inside_of_short {storage : Storage} {f : BootFile} (hpath : storage.path.bytes.length ≤ 244)
    (hlength : f.content.length ≤ 254) : ¬ Overruns ((f.buffer storage).take 255) := by
  intro h
  obtain ⟨x, hx, hlast⟩ := h.last
  have hsealed := (f.buffer_sealed storage).length
  have hpos : (f.buffer storage)[254]? = some 0 := by
    rw [BootFile.buffer, List.take_of_length_le (by omega),
      List.getElem?_append_right (by omega), List.getElem?_drop, Storage.bootPath,
      List.getElem?_append_right (by simp [BOOT_JSON]; omega), List.getElem?_replicate,
      if_pos (by simp [BOOT_JSON]; omega)]
  rw [List.getLast?_eq_getElem?, List.length_take, hsealed] at hlast
  rw [List.getElem?_take_of_lt (by decide)] at hlast
  cases hpos.symm.trans hlast
  exact absurd hx (by decide)

end OlivePiccolo.RubicAgent
