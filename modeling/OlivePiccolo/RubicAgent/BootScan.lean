import OlivePiccolo.RubicAgent.BootJson

/-!
# The rounds of the boot file's parser

What each part of a round does, by what stands in the buffer from its pointer on. The parser writes
NULs behind its pointer only.
-/

namespace OlivePiccolo.RubicAgent

open Dialog Mem

/-- The buffer: 256 bytes, of which the last one is NUL. -/
structure Sealed (m : Mem) : Prop where
  length : m.length = 256
  last : m[255]? = some 0

/-- Spaces. -/
def Spaces (ws : List UInt8) : Prop := ∀ x ∈ ws, x ∈ JSON_SPACES

/-- What can stand in a string that is a key. -/
def IsKey (k : List UInt8) : Prop := ∀ x ∈ k, x ≠ 0 ∧ x ≠ 34

/-- What can stand in a string that is a value: a backslash hides the byte behind it. -/
inductive StringBody : List UInt8 → Prop
  | nil : StringBody []
  | byte {b : UInt8} {l : List UInt8} (hb : b ≠ 0 ∧ b ≠ 34 ∧ b ≠ 92) (h : StringBody l) :
      StringBody (b :: l)
  | escape (b : UInt8) {l : List UInt8} (h : StringBody l) : StringBody (92 :: b :: l)

/-- What a value that is no string is skipped with. -/
def IsRest (l : List UInt8) : Prop :=
  ∀ x ∈ l, x ≠ 0 ∧ x ∉ ([123, 125, 91, 93, 44] : List UInt8)

section Scan

variable {m : Mem} {p : ℕ} {ws rest back : List UInt8} {b : UInt8}

namespace Sealed

theorem drop_split (h : Sealed m) (hp : p ≤ 255) : ∃ l, m.drop p = l ++ [0] := by
  have hlast : m.drop 255 = [0] := by
    obtain ⟨hlt, hzero⟩ := List.getElem?_eq_some_iff.mp h.last
    rw [List.drop_eq_getElem_cons hlt, hzero, List.drop_of_length_le (by rw [h.length])]
  refine ⟨(m.drop p).take (255 - p), ?_⟩
  rw [← hlast, show 255 = p + (255 - p) by omega, ← List.drop_drop, Nat.add_sub_cancel_left,
    List.take_append_drop]

theorem zero_mem (h : Sealed m) (hp : p ≤ 255) : 0 ∈ m.drop p := by
  obtain ⟨l, hl⟩ := h.drop_split hp
  rw [hl]
  exact List.mem_append_right _ List.mem_cons_self

theorem le_of_drop (h : Sealed m) (hdrop : m.drop p = b :: back) : p ≤ 255 := by
  have := lt_of_drop hdrop
  rw [h.length] at this
  omega

/-- A byte that is not NUL is not the last one. -/
theorem back_ne_nil (h : Sealed m) (hdrop : m.drop p = b :: back) (hb : b ≠ 0) : back ≠ [] := by
  rintro rfl
  obtain ⟨l, hl⟩ := h.drop_split (h.le_of_drop hdrop)
  rw [hdrop] at hl
  have hlast := congrArg List.getLast? hl
  rw [List.getLast?_singleton, List.getLast?_concat] at hlast
  exact hb (Option.some.inj hlast)

theorem set (h : Sealed m) (q : ℕ) : Sealed (m.set q 0) := by
  refine ⟨by rw [List.length_set, h.length], ?_⟩
  rw [List.getElem?_set]
  have hlength := h.length
  split_ifs with hq
  · rfl
  · omega
  · exact h.last

end Sealed

theorem poke_eq {q : ℕ} (h : q < m.length) (c : UInt8) : m.poke q c = some (m.set q c) := by
  rw [poke, if_pos ⟨Int.natCast_nonneg _, by rwa [Int.toNat_natCast]⟩, Int.toNat_natCast]

theorem zero_not_space : (0 : UInt8) ∉ JSON_SPACES := by decide

/-- Spaces are skipped. -/
theorem strskip_eq (h : m.drop p = ws ++ b :: back) (hws : Spaces ws) (hb : b ∉ JSON_SPACES)
    (h0 : 0 ∈ m.drop p) : strskip m p JSON_SPACES = some (p + ws.length) := by
  rw [strskip]
  cases ws with
  | nil =>
    obtain ⟨front, b', back', hbreak, hfront, hb'⟩ := exists_break JSON_SPACES h0
    have hpbrk : ∃ first, m.strpbrk p JSON_SPACES = some first ∧ first ≠ some p := by
      by_cases hzero : b' = 0
      · rw [hzero] at hbreak
        exact ⟨none, strpbrk_missing hbreak hfront, fun h => by cases h⟩
      · have hspace := hb'.resolve_left hzero
        refine ⟨_, strpbrk_found hbreak hfront hzero hspace, fun heq => ?_⟩
        -- the first byte would be a space
        have hnil : front = [] := List.length_eq_zero_iff.mp (by have := Option.some.inj heq; omega)
        rw [hnil, h] at hbreak
        exact hb ((List.cons.inj hbreak).1 ▸ hspace)
    obtain ⟨first, hfirst, hne⟩ := hpbrk
    rw [hfirst, Option.bind_some, if_neg hne]
    rfl
  | cons x ws =>
    have hx : x ∈ JSON_SPACES := hws x List.mem_cons_self
    have hx0 : x ≠ 0 := by
      rintro rfl
      exact zero_not_space hx
    rw [strpbrk_head h hx0 hx, Option.bind_some, if_pos rfl, strspn_eq h hws hb]
    rfl

/-- Behind spaces there is another byte. -/
theorem Sealed.exists_skip (hm : Sealed m) (hp : p ≤ 255) :
    ∃ ws b back, m.drop p = ws ++ b :: back ∧ Spaces ws ∧ b ∉ JSON_SPACES :=
  exists_span zero_not_space (hm.zero_mem hp)

/-! ## Strings -/

theorem strpbrk_next {set : List UInt8} (h : m.drop p = b :: back) (hb : b ≠ 0 ∧ b ∉ set) :
    m.strpbrk p set = m.strpbrk (p + 1) set := by
  have hback : m.drop (p + 1) = back := by
    rw [← List.drop_drop, h]
    rfl
  rw [strpbrk, strpbrk, h, hback, breakIn, if_neg hb.1, if_neg hb.2]
  cases breakIn set back with
  | none => rfl
  | some n =>
    cases n with
    | none => rfl
    | some n =>
      show some (some (p + (n + 1))) = some (some (p + 1 + n))
      rw [Nat.add_right_comm, Nat.add_assoc]

theorem stringLoop_byte (h : m.drop p = b :: back) (hb : b ≠ 0 ∧ b ≠ 34 ∧ b ≠ 92) (rounds : ℕ) :
    stringLoop m rounds p = stringLoop m rounds (p + 1) := by
  cases rounds with
  | zero => rfl
  | succ rounds =>
    have hset : b ∉ ([92, 34] : List UInt8) := by simp [hb]
    rw [stringLoop, stringLoop, strpbrk_next h ⟨hb.1, hset⟩]

theorem stringLoop_escape (h : m.drop p = 92 :: back) (rounds : ℕ) :
    stringLoop m (rounds + 1) p = stringLoop m rounds (p + 2) := by
  rw [stringLoop, strpbrk_head h (by decide) (by decide)]
  show access m[p]? >>= _ = _
  rw [getElem?_of_drop h]
  rfl

/-- The loop goes to the end of the bytes of a string. -/
theorem stringLoop_body {body : List UInt8} (hbody : StringBody body) (h : m.drop p = body ++ back)
    {rounds : ℕ} (hrounds : 256 < p + rounds) (hm : m.length ≤ 256) :
    ∃ rounds', 256 < p + body.length + rounds' ∧
      stringLoop m rounds p = stringLoop m rounds' (p + body.length) := by
  induction hbody generalizing p rounds with
  | nil => exact ⟨rounds, hrounds, rfl⟩
  | @byte b l hb hl ih =>
    have hnext : m.drop (p + 1) = l ++ back := by
      rw [← List.drop_drop, h]
      rfl
    obtain ⟨rounds', hrounds', heq⟩ := ih hnext (show 256 < p + 1 + rounds by omega)
    refine ⟨rounds', ?_, ?_⟩
    · rw [List.length_cons]
      omega
    · rw [stringLoop_byte h hb, heq, List.length_cons, Nat.add_right_comm, Nat.add_assoc]
  | @escape b l hl ih =>
    have hlt := lt_of_drop h
    obtain ⟨r, rfl⟩ : ∃ r, rounds = r + 1 := ⟨rounds - 1, by omega⟩
    have hnext : m.drop (p + 2) = l ++ back := by
      rw [← List.drop_drop, h]
      rfl
    obtain ⟨rounds', hrounds', heq⟩ := ih hnext (show 256 < p + 2 + r by omega)
    refine ⟨rounds', ?_, ?_⟩
    · rw [List.length_cons, List.length_cons]
      omega
    · rw [stringLoop_escape h, heq, List.length_cons, List.length_cons]
      congr 1
      omega

/-- The string ends at a quote. -/
theorem stringLoop_quote {body : List UInt8} (hm : Sealed m) (hp : 0 < p)
    (hbody : StringBody body) (h : m.drop p = body ++ 34 :: back) :
    stringLoop m 256 p = .ret (some (p + body.length)) := by
  obtain ⟨rounds, hrounds, heq⟩ := stringLoop_body hbody h (show 256 < p + 256 by omega)
    (Nat.le_of_eq hm.length)
  have hend := drop_add h
  have hle := hm.le_of_drop hend
  obtain ⟨r, rfl⟩ : ∃ r, rounds = r + 1 := ⟨rounds - 1, by omega⟩
  rw [heq, stringLoop, strpbrk_head hend (by decide) (by decide)]
  show access m[_]? >>= _ = _
  rw [getElem?_of_drop hend]
  rfl

/-- The string does not end before a NUL. -/
theorem stringLoop_nul {body : List UInt8} (hm : Sealed m) (hp : 0 < p)
    (hbody : StringBody body) (h : m.drop p = body ++ 0 :: back) :
    stringLoop m 256 p = .ret none := by
  obtain ⟨rounds, hrounds, heq⟩ := stringLoop_body hbody h (show 256 < p + 256 by omega)
    (Nat.le_of_eq hm.length)
  have hend := drop_add h
  have hle := hm.le_of_drop hend
  obtain ⟨r, rfl⟩ : ∃ r, rounds = r + 1 := ⟨rounds - 1, by omega⟩
  have hmissing : m.strpbrk (p + body.length) [92, 34] = some none :=
    strpbrk_missing (l := []) hend fun _ hx => absurd hx List.not_mem_nil
  rw [heq, stringLoop, hmissing]
  rfl

/-- The last byte of the buffer is hidden by a backslash. -/
theorem stringLoop_outside (hm : Sealed m) (hp : 0 < p) (hle : p ≤ 255)
    (hbody : StringBody (m.drop p)) : stringLoop m 256 p = .fault := by
  obtain ⟨rounds, hrounds, heq⟩ := stringLoop_body hbody (List.append_nil _).symm
    (show 256 < p + 256 by omega) (Nat.le_of_eq hm.length)
  have hlength := hm.length
  rw [List.length_drop] at hrounds heq
  obtain ⟨r, rfl⟩ : ∃ r, rounds = r + 1 := ⟨rounds - 1, by omega⟩
  rw [heq, stringLoop, strpbrk_outside (by omega)]
  rfl

/-- A string goes to a quote, to a NUL, or to the end of the bytes. -/
theorem exists_body (l : List UInt8) :
    (∃ body back, StringBody body ∧ l = body ++ 34 :: back) ∨
      (∃ body back, StringBody body ∧ l = body ++ 0 :: back) ∨ StringBody l ∨
      ∃ body, StringBody body ∧ l = body ++ [92] := by
  match l with
  | [] => exact .inr (.inr (.inl .nil))
  | b :: l =>
    by_cases h92 : b = 92
    · subst h92
      match l with
      | [] => exact .inr (.inr (.inr ⟨[], .nil, rfl⟩))
      | x :: l =>
        rcases exists_body l with ⟨body, back, hbody, rfl⟩ | ⟨body, back, hbody, rfl⟩ | hbody |
          ⟨body, hbody, rfl⟩
        · exact .inl ⟨92 :: x :: body, back, .escape x hbody, rfl⟩
        · exact .inr (.inl ⟨92 :: x :: body, back, .escape x hbody, rfl⟩)
        · exact .inr (.inr (.inl (.escape x hbody)))
        · exact .inr (.inr (.inr ⟨92 :: x :: body, .escape x hbody, rfl⟩))
    by_cases h0 : b = 0
    · exact .inr (.inl ⟨[], l, .nil, by rw [h0]; rfl⟩)
    by_cases h34 : b = 34
    · exact .inl ⟨[], l, .nil, by rw [h34]; rfl⟩
    have hb : b ≠ 0 ∧ b ≠ 34 ∧ b ≠ 92 := ⟨h0, h34, h92⟩
    rcases exists_body l with ⟨body, back, hbody, rfl⟩ | ⟨body, back, hbody, rfl⟩ | hbody |
      ⟨body, hbody, rfl⟩
    · exact .inl ⟨b :: body, back, .byte hb hbody, rfl⟩
    · exact .inr (.inl ⟨b :: body, back, .byte hb hbody, rfl⟩)
    · exact .inr (.inr (.inl (.byte hb hbody)))
    · exact .inr (.inr (.inr ⟨b :: body, .byte hb hbody, rfl⟩))
termination_by l.length

end Scan

/-! ## The parts of a round -/

section Round

variable {s : Parse} {runtimes : List CString} {ws ws' ws'' k body t back : List UInt8}
  {b c x y : UInt8}

theorem access_byte {m : Mem} {p : ℕ} {α : Type} (h : m.drop p = b :: back)
    (f : UInt8 → Dialog BootSaid BootReply α) : (access m[p]? >>= f) = f b := by
  rw [getElem?_of_drop h]
  rfl

theorem access_some {α β : Type} {o : Access α} {a : α} (h : o = some a)
    (f : α → Dialog BootSaid BootReply β) : (access o >>= f) = f a := by
  rw [h]
  rfl

theorem access_none {α β : Type} {o : Access α} (h : o = none)
    (f : α → Dialog BootSaid BootReply β) : (access o >>= f) = .fault := by
  rw [h]
  rfl

theorem separator_closed (h : s.buffer.drop s.input = 125 :: back) :
    s.separator = .ret (.closed s) := by
  rw [Parse.separator, access_byte h, if_pos rfl]
  rfl

theorem separator_second (h : s.buffer.drop s.input = x :: y :: back) (hx : x ≠ 125) :
    s.separator =
      if y ≠ 44 then .ret (.syntaxError s) else .ret (.again { s with input := s.input + 2 }) := by
  have hsecond : s.buffer.drop (s.input + 1) = y :: back := drop_add (l := [x]) h
  rw [Parse.separator, access_byte h, if_neg hx, access_byte hsecond]
  rfl

theorem separator_outside (h : s.buffer.drop s.input = [x]) (hx : x ≠ 125) :
    s.separator = .fault := by
  have hend : s.buffer[s.input + 1]? = none := by
    have hdrop : s.buffer.drop (s.input + 1) = [] := drop_add (l := [x]) h
    rw [List.getElem?_eq_none_iff]
    exact List.drop_eq_nil_iff.mp hdrop
  rw [Parse.separator, access_byte h, if_neg hx, access_none hend]

/-! ### Values -/

theorem value_other (h : s.buffer.drop s.input = c :: (t ++ x :: back)) (hc : c ≠ 34)
    (ht : IsRest t) (hx : x ∈ ([123, 125, 91, 93, 44] : List UInt8)) (key : ℕ) :
    s.value runtimes key = Parse.separator { s with input := s.input + 1 + t.length } := by
  have hx0 : x ≠ 0 := by
    rintro rfl
    exact absurd hx (by decide)
  have hfound := strpbrk_found (drop_add (l := [c]) h) ht hx0 hx
  rw [Parse.value, access_byte h, if_pos hc]
  exact access_some hfound _

theorem value_other_nul (h : s.buffer.drop s.input = c :: (t ++ 0 :: back)) (hc : c ≠ 34)
    (ht : IsRest t) (key : ℕ) : s.value runtimes key = .ret (.syntaxError s) := by
  rw [Parse.value, access_byte h, if_pos hc]
  exact access_some (strpbrk_missing (drop_add (l := [c]) h) ht) _

theorem value_other_outside (h : s.buffer.drop s.input = [c]) (hc : c ≠ 34) (key : ℕ) :
    s.value runtimes key = .fault := by
  have hdrop : s.buffer.drop (s.input + 1) = [] := drop_add (l := [c]) h
  rw [Parse.value, access_byte h, if_pos hc]
  exact access_none (strpbrk_outside (List.drop_eq_nil_iff.mp hdrop) _) _

theorem value_string_nul (hm : Sealed s.buffer)
    (h : s.buffer.drop s.input = 34 :: (body ++ 0 :: back)) (hbody : StringBody body) (key : ℕ) :
    s.value runtimes key = .ret (.syntaxError s) := by
  rw [Parse.value, access_byte h, if_neg (not_not.mpr rfl),
    stringLoop_nul hm (Nat.succ_pos _) hbody (drop_add (l := [34]) h)]
  rfl

theorem value_string_outside (hm : Sealed s.buffer) (h : s.buffer.drop s.input = 34 :: body)
    (hbody : StringBody body) (key : ℕ) : s.value runtimes key = .fault := by
  have hrest : s.buffer.drop (s.input + 1) = body := drop_add (l := [34]) h
  obtain ⟨b, back, hback⟩ := List.exists_cons_of_ne_nil (hm.back_ne_nil h (by decide))
  rw [Parse.value, access_byte h, if_neg (not_not.mpr rfl),
    stringLoop_outside hm (Nat.succ_pos _) (hm.le_of_drop (hrest.trans hback)) (hrest ▸ hbody)]
  rfl

theorem findRuntimeAt_eq {m : Mem} {name : ℕ} {v : CString} (h : m.StringAt name v.bytes) :
    findRuntimeAt m name runtimes = some (findRuntime runtimes (some v)) := by
  induction runtimes with
  | nil => rfl
  | cons runtime runtimes ih =>
    rw [findRuntimeAt, h.strcmpEq runtime.no_nul, Option.bind_some, ih]
    show _ = some ((runtime :: runtimes).findIdx? (· = v))
    rw [List.findIdx?_cons]
    by_cases heq : runtime = v
    · rw [heq, decide_eq_true rfl, decide_eq_true rfl]
      rfl
    · have hbytes : runtime.bytes ≠ v.bytes := fun hb => heq (by
        cases runtime
        cases v
        cases hb
        rfl)
      rw [decide_eq_false hbytes, decide_eq_false heq]
      rfl

/-- The state behind a value that is a string. -/
def Parse.afterString (s : Parse) (runtimes : List CString) (k : List UInt8) (v : CString)
    (quote spaces : ℕ) : Parse where
  buffer := s.buffer.set quote 0
  input := quote + 1 + spaces
  file := if k = FILE then some (s.input + 1) else s.file
  runtime := if k = RUNTIME then findRuntime runtimes (some v) else s.runtime

theorem afterString_drop {v : CString}
    (h : s.buffer.drop s.input = 34 :: (body ++ 34 :: (ws ++ x :: back))) :
    let s' := s.afterString runtimes k v (s.input + 1 + body.length) ws.length
    s'.buffer.drop s'.input = x :: back := by
  show (s.buffer.set (s.input + 1 + body.length) 0).drop
    (s.input + 1 + body.length + 1 + ws.length) = _
  rw [drop_set_of_lt (by omega)]
  exact drop_add (drop_add (l := [34]) (drop_add (drop_add (l := [34]) h)))

theorem value_string (hm : Sealed s.buffer) {key : ℕ} {v : CString}
    (h : s.buffer.drop s.input = 34 :: (body ++ 34 :: (ws ++ x :: back))) (hbody : StringBody body)
    (hws : Spaces ws) (hx : x ∉ JSON_SPACES) (hkey : s.buffer.StringAt key k)
    (hlt : key + k.length < s.input)
    (hval : StringAt (s.buffer.set (s.input + 1 + body.length) 0) (s.input + 1) v.bytes) :
    s.value runtimes key =
      (s.afterString runtimes k v (s.input + 1 + body.length) ws.length).separator := by
  have hrest : s.buffer.drop (s.input + 1) = body ++ 34 :: (ws ++ x :: back) :=
    drop_add (l := [34]) h
  have hquote := drop_add hrest
  have hbehind : (s.buffer.set (s.input + 1 + body.length) 0).drop (s.input + 1 + body.length + 1) =
      ws ++ x :: back := by
    rw [drop_set_of_lt (Nat.lt_succ_self _)]
    exact drop_add (l := [34]) hquote
  obtain ⟨b', back', hback⟩ := List.exists_cons_of_ne_nil
    (List.append_ne_nil_of_right_ne_nil ws (List.cons_ne_nil x back))
  have hzero := (hm.set (s.input + 1 + body.length)).zero_mem
    ((hm.set _).le_of_drop (hbehind.trans hback))
  have hkey' := hkey.of_set (q := s.input + 1 + body.length) (by omega) 0
  have hcmp := hkey'.strcmpEq (show 0 ∉ RUNTIME by decide)
  have hcmp' := hkey'.strcmpEq (show 0 ∉ FILE by decide)
  have hdistinct : RUNTIME ≠ FILE := by decide
  rw [Parse.value, access_byte h, if_neg (not_not.mpr rfl),
    stringLoop_quote hm (Nat.succ_pos _) hbody hrest]
  show s.stringValue runtimes key (s.input + 1) (s.input + 1 + body.length) = _
  rw [Parse.stringValue, access_some (poke_eq (lt_of_drop hquote) 0),
    access_some (strskip_eq hbehind hws hx hzero), access_some hcmp]
  unfold Parse.afterString
  by_cases hr : RUNTIME = k
  · have hf : k ≠ FILE := fun hk => hdistinct (hr.trans hk)
    rw [decide_eq_true hr, if_pos rfl, access_some (findRuntimeAt_eq hval), if_neg hf,
      if_pos hr.symm]
  · rw [decide_eq_false hr, if_neg Bool.false_ne_true, access_some hcmp', if_neg (Ne.symm hr)]
    by_cases hf : FILE = k
    · rw [decide_eq_true hf, if_pos rfl, if_pos hf.symm]
    · rw [decide_eq_false hf, if_neg Bool.false_ne_true, if_neg (Ne.symm hf)]

/-! ### Members -/

theorem member_start (hm : Sealed s.buffer) (h : s.buffer.drop s.input = ws ++ b :: back)
    (hws : Spaces ws) (hb : b ∉ JSON_SPACES) (h34 : b ≠ 34) :
    s.member runtimes = .ret (.syntaxError s) := by
  have hbyte := drop_add h
  have hzero := hm.zero_mem (p := s.input) (by have := hm.le_of_drop hbyte; omega)
  rw [Parse.member, access_some (strskip_eq h hws hb hzero), access_byte hbyte, if_pos h34]
  rfl

/-- A key is behind the spaces. -/
theorem member_key (hm : Sealed s.buffer) (h : s.buffer.drop s.input = ws ++ 34 :: (k ++ b :: back))
    (hws : Spaces ws) :
    s.buffer.drop (s.input + ws.length + 1) = k ++ b :: back ∧
      s.input + ws.length + 1 + k.length ≤ 255 ∧
      strskip s.buffer s.input JSON_SPACES = some (s.input + ws.length) := by
  have hbyte := drop_add h
  have hkey : s.buffer.drop (s.input + ws.length + 1) = k ++ b :: back :=
    drop_add (l := [34]) hbyte
  have hle := hm.le_of_drop (drop_add hkey)
  have hzero := hm.zero_mem (p := s.input) (by omega)
  exact ⟨hkey, hle, strskip_eq h hws (by decide) hzero⟩

theorem member_key_nul (hm : Sealed s.buffer)
    (h : s.buffer.drop s.input = ws ++ 34 :: (k ++ 0 :: back)) (hws : Spaces ws) (hk : IsKey k) :
    s.member runtimes = .ret (.syntaxError s) := by
  obtain ⟨hkey, -, hskip⟩ := member_key hm h hws
  have hmissing : s.buffer.strchr (s.input + ws.length + 1) 34 = some none :=
    strpbrk_missing hkey fun x hx => ⟨(hk x hx).1, by simp [(hk x hx).2]⟩
  rw [Parse.member, access_some hskip, access_byte (drop_add h), if_neg (not_not.mpr rfl)]
  exact access_some hmissing _

/-- What a round does up to the colon. -/
theorem member_colon (runtimes : List CString) (hm : Sealed s.buffer)
    (h : s.buffer.drop s.input = ws ++ 34 :: (k ++ 34 :: (ws' ++ b :: back))) (hws : Spaces ws)
    (hk : IsKey k) (hws' : Spaces ws') (hb : b ∉ JSON_SPACES) :
    let quote := s.input + ws.length + 1 + k.length
    let s' : Parse := { s with buffer := s.buffer.set quote 0 }
    s'.buffer.drop (quote + 1 + ws'.length) = b :: back ∧
    StringAt s'.buffer (s.input + ws.length + 1) k ∧
    s.member runtimes =
      if b ≠ 58 then .ret (.syntaxError s')
      else access (strskip s'.buffer (quote + 1 + ws'.length + 1) JSON_SPACES) >>= fun input =>
        Parse.value { s' with input := input } runtimes (s.input + ws.length + 1) := by
  intro quote s'
  obtain ⟨hkey, hle, hskip⟩ := member_key hm h hws
  have hfound : s.buffer.strchr (s.input + ws.length + 1) 34 = some (some quote) :=
    strpbrk_found hkey (fun x hx => ⟨(hk x hx).1, by simp [(hk x hx).2]⟩) (by decide) (by simp)
  have hquote := drop_add hkey
  have hnul : 0 ∉ k := fun hx => (hk 0 hx).1 rfl
  have hbehind : s'.buffer.drop (quote + 1) = ws' ++ b :: back := by
    show (s.buffer.set quote 0).drop (quote + 1) = _
    rw [drop_set_of_lt (Nat.lt_succ_self _)]
    exact drop_add (l := [34]) hquote
  have hcolon := drop_add hbehind
  have hsealed : Sealed s'.buffer := hm.set quote
  have hzero := hsealed.zero_mem (p := quote + 1) (by have := hsealed.le_of_drop hcolon; omega)
  refine ⟨hcolon, stringAt_set hkey hnul, ?_⟩
  rw [Parse.member, access_some hskip, access_byte (drop_add h), if_neg (not_not.mpr rfl)]
  show access (s.buffer.strchr (s.input + ws.length + 1) 34) >>= _ = _
  rw [access_some hfound]
  show access (s.buffer.poke quote 0) >>= _ = _
  rw [access_some (poke_eq (lt_of_drop hquote) 0), access_some (strskip_eq hbehind hws' hb hzero),
    access_byte hcolon]
  rfl

/-- What a round does up to the value. -/
theorem member_value (runtimes : List CString) (hm : Sealed s.buffer)
    (h : s.buffer.drop s.input =
      ws ++ 34 :: (k ++ 34 :: (ws' ++ 58 :: (ws'' ++ c :: back)))) (hws : Spaces ws)
    (hk : IsKey k) (hws' : Spaces ws') (hws'' : Spaces ws'') (hc : c ∉ JSON_SPACES) :
    let quote := s.input + ws.length + 1 + k.length
    let s' : Parse := { s with
      buffer := s.buffer.set quote 0
      input := quote + 1 + ws'.length + 1 + ws''.length }
    s'.buffer.drop s'.input = c :: back ∧ StringAt s'.buffer (s.input + ws.length + 1) k ∧
      s.member runtimes = s'.value runtimes (s.input + ws.length + 1) := by
  intro quote s'
  obtain ⟨hcolon, hkey, hmember⟩ := member_colon runtimes hm h hws hk hws' (by decide)
  have hbehind := drop_add (l := [58]) hcolon
  have hvalue := drop_add hbehind
  have hsealed : Sealed s'.buffer := hm.set quote
  have hzero := hsealed.zero_mem (p := quote + 1 + ws'.length + 1)
    (by have := hsealed.le_of_drop hvalue; simp only [List.length_singleton] at this; omega)
  refine ⟨hvalue, hkey, ?_⟩
  rw [hmember, if_neg (not_not.mpr rfl)]
  exact access_some (strskip_eq hbehind hws'' hc hzero) _

end Round

end OlivePiccolo.RubicAgent
