import OlivePiccolo.Library.Memory

/-!
# Searches in C strings

`strpbrk`, `strchr`, `strspn` and what a string is up to its NUL, in a block of memory. Each goes
through the bytes from its pointer on, and is `none` if it gets to the end of the block.
-/

namespace OlivePiccolo

namespace Mem

/-- How far the first byte of a set is, or that there is none in front of the NUL. -/
def breakIn (set : List UInt8) : List UInt8 → Access (Option ℕ)
  | [] => none
  | b :: l =>
    if b = 0 then some none
    else if b ∈ set then some (some 0)
    else (breakIn set l).map (Option.map (· + 1))

/-- How many bytes of a set come first. NUL is not in the set. -/
def spanIn (set : List UInt8) : List UInt8 → Access ℕ
  | [] => none
  | b :: l => if b ∈ set then (spanIn set l).map (· + 1) else some 0

/-- The bytes in front of the NUL. -/
def stringIn : List UInt8 → Access (List UInt8)
  | [] => none
  | b :: l => if b = 0 then some [] else (stringIn l).map (b :: ·)

def strpbrk (m : Mem) (p : ℕ) (set : List UInt8) : Access (Option ℕ) :=
  (breakIn set (m.drop p)).map (Option.map (p + ·))

/-- `strchr`, of a byte that is not NUL. -/
def strchr (m : Mem) (p : ℕ) (c : UInt8) : Access (Option ℕ) := m.strpbrk p [c]

def strspn (m : Mem) (p : ℕ) (set : List UInt8) : Access ℕ := spanIn set (m.drop p)

/-- The string at a pointer. -/
def stringAt (m : Mem) (p : ℕ) : Access (List UInt8) := stringIn (m.drop p)

variable {m : Mem} {p : ℕ} {set front back : List UInt8} {b : UInt8}

/-! ## Bytes in front -/

theorem breakIn_found (hfront : ∀ x ∈ front, x ≠ 0 ∧ x ∉ set) (hb : b ≠ 0) (hset : b ∈ set) :
    breakIn set (front ++ b :: back) = some (some front.length) := by
  induction front with
  | nil => rw [List.nil_append, breakIn, if_neg hb, if_pos hset]; rfl
  | cons x front ih =>
    obtain ⟨hx, hfront⟩ := List.forall_mem_cons.mp hfront
    rw [List.cons_append, breakIn, if_neg hx.1, if_neg hx.2, ih hfront]
    rfl

theorem breakIn_missing (hfront : ∀ x ∈ front, x ≠ 0 ∧ x ∉ set) :
    breakIn set (front ++ 0 :: back) = some none := by
  induction front with
  | nil => rw [List.nil_append, breakIn, if_pos rfl]
  | cons x front ih =>
    obtain ⟨hx, hfront⟩ := List.forall_mem_cons.mp hfront
    rw [List.cons_append, breakIn, if_neg hx.1, if_neg hx.2, ih hfront]
    rfl

/-- Up to the first byte of the set, or up to the NUL. -/
theorem exists_break (set : List UInt8) {l : List UInt8} (h : 0 ∈ l) :
    ∃ front b back, l = front ++ b :: back ∧ (∀ x ∈ front, x ≠ 0 ∧ x ∉ set) ∧
      (b = 0 ∨ b ∈ set) := by
  induction l with
  | nil => exact absurd h List.not_mem_nil
  | cons x l ih =>
    by_cases hx : x = 0 ∨ x ∈ set
    · exact ⟨[], x, l, rfl, fun _ hx => absurd hx List.not_mem_nil, hx⟩
    · have hne : x ≠ 0 := fun h => hx (.inl h)
      obtain ⟨front, b, back, rfl, hfront, hb⟩ :=
        ih ((List.mem_cons.mp h).resolve_left hne.symm)
      exact ⟨x :: front, b, back, rfl,
        List.forall_mem_cons.mpr ⟨⟨hne, fun h => hx (.inr h)⟩, hfront⟩, hb⟩

theorem spanIn_eq (hfront : ∀ x ∈ front, x ∈ set) (hb : b ∉ set) :
    spanIn set (front ++ b :: back) = some front.length := by
  induction front with
  | nil => rw [List.nil_append, spanIn, if_neg hb]; rfl
  | cons x front ih =>
    obtain ⟨hx, hfront⟩ := List.forall_mem_cons.mp hfront
    rw [List.cons_append, spanIn, if_pos hx, ih hfront]
    rfl

/-- Up to the first byte that is not in the set. -/
theorem exists_span {l : List UInt8} (hset : 0 ∉ set) (h : 0 ∈ l) :
    ∃ front b back, l = front ++ b :: back ∧ (∀ x ∈ front, x ∈ set) ∧ b ∉ set := by
  induction l with
  | nil => exact absurd h List.not_mem_nil
  | cons x l ih =>
    by_cases hx : x ∈ set
    · have hne : x ≠ 0 := by
        rintro rfl
        exact hset hx
      obtain ⟨front, b, back, rfl, hfront, hb⟩ :=
        ih ((List.mem_cons.mp h).resolve_left hne.symm)
      exact ⟨x :: front, b, back, rfl, List.forall_mem_cons.mpr ⟨hx, hfront⟩, hb⟩
    · exact ⟨[], x, l, rfl, fun _ hx => absurd hx List.not_mem_nil, hx⟩

/-- Bytes are split in one way only at the first that is not in the set. -/
theorem span_unique {front' back' : List UInt8} {b' : UInt8}
    (h : front ++ b :: back = front' ++ b' :: back') (hfront : ∀ x ∈ front, x ∈ set) (hb : b ∉ set)
    (hfront' : ∀ x ∈ front', x ∈ set) (hb' : b' ∉ set) :
    front = front' ∧ b = b' ∧ back = back' := by
  have hspan : spanIn set (front ++ b :: back) = some front.length := spanIn_eq hfront hb
  rw [h, spanIn_eq hfront' hb'] at hspan
  obtain ⟨hf, hback⟩ := List.append_inj h (Option.some.inj hspan).symm
  exact ⟨hf, List.cons.inj hback⟩

theorem stringIn_eq (h : 0 ∉ front) : stringIn (front ++ 0 :: back) = some front := by
  induction front with
  | nil => rw [List.nil_append, stringIn, if_pos rfl]
  | cons x front ih =>
    obtain ⟨hx, hfront⟩ := List.ne_and_not_mem_of_not_mem_cons h
    rw [List.cons_append, stringIn, if_neg hx.symm, ih hfront]
    rfl

/-- Up to the first NUL. -/
theorem exists_string {l : List UInt8} (h : 0 ∈ l) :
    ∃ front back, l = front ++ 0 :: back ∧ 0 ∉ front := by
  obtain ⟨front, b, back, rfl, hfront, hb⟩ := exists_break [] h
  obtain rfl := hb.resolve_right List.not_mem_nil
  exact ⟨front, back, rfl, fun h => (hfront 0 h).1 rfl⟩

/-! ## At a pointer -/

section Pointer

variable {l : List UInt8}

theorem drop_add (h : m.drop p = l ++ back) : m.drop (p + l.length) = back := by
  rw [← List.drop_drop, h, List.drop_left]

theorem getElem?_of_drop (h : m.drop p = b :: back) : m[p]? = some b := by
  have hhead : (m.drop p)[0]? = some b := by rw [h]; rfl
  rwa [List.getElem?_drop, Nat.add_zero] at hhead

theorem lt_of_drop (h : m.drop p = b :: back) : p < m.length :=
  (List.getElem?_eq_some_iff.mp (getElem?_of_drop h)).1

theorem strpbrk_found (h : m.drop p = l ++ b :: back) (hl : ∀ x ∈ l, x ≠ 0 ∧ x ∉ set)
    (hb : b ≠ 0) (hset : b ∈ set) : m.strpbrk p set = some (some (p + l.length)) := by
  rw [strpbrk, h, breakIn_found hl hb hset]
  rfl

/-- The first byte is in the set. -/
theorem strpbrk_head (h : m.drop p = b :: back) (hb : b ≠ 0) (hset : b ∈ set) :
    m.strpbrk p set = some (some p) := by
  rw [strpbrk, h, breakIn, if_neg hb, if_pos hset]
  rfl

theorem strpbrk_missing (h : m.drop p = l ++ 0 :: back) (hl : ∀ x ∈ l, x ≠ 0 ∧ x ∉ set) :
    m.strpbrk p set = some none := by
  rw [strpbrk, h, breakIn_missing hl]
  rfl

theorem strpbrk_outside (h : m.length ≤ p) (set : List UInt8) : m.strpbrk p set = none := by
  rw [strpbrk, List.drop_of_length_le h]
  rfl

theorem strspn_eq (h : m.drop p = l ++ b :: back) (hl : ∀ x ∈ l, x ∈ set) (hb : b ∉ set) :
    m.strspn p set = some l.length := by
  rw [strspn, h, spanIn_eq hl hb]

/-- The string stands at the pointer, with its NUL. -/
def StringAt (m : Mem) (p : ℕ) (s : List UInt8) : Prop :=
  0 ∉ s ∧ ∃ back, m.drop p = s ++ 0 :: back

theorem StringAt.stringAt {s : List UInt8} (h : m.StringAt p s) : m.stringAt p = some s := by
  obtain ⟨hs, back, hdrop⟩ := h
  rw [Mem.stringAt, hdrop, stringIn_eq hs]

theorem StringAt.strcmpEq {s key : List UInt8} (h : m.StringAt p s) (hkey : 0 ∉ key) :
    m.strcmpEq p key = some (decide (key = s)) := by
  obtain ⟨hs, back, hdrop⟩ := h
  have hle : p ≤ m.length := by
    by_contra hlt
    rw [List.drop_of_length_le (by omega)] at hdrop
    exact List.append_ne_nil_of_right_ne_nil s (List.cons_ne_nil 0 back) hdrop.symm
  refine HasAt.strcmpEq (l := back) hs hkey ⟨m.take p, [], ?_, ?_⟩
  · rw [List.append_nil, ← hdrop, List.take_append_drop]
  · rw [List.length_take, Nat.min_eq_left hle]

/-- In front of a NUL there is a string at every pointer. -/
theorem exists_stringAt (h : 0 ∈ m.drop p) : ∃ s, m.StringAt p s := by
  obtain ⟨front, back, hdrop, hfront⟩ := exists_string h
  exact ⟨front, hfront, back, hdrop⟩

/-- A write behind a string. -/
theorem StringAt.of_set {s : List UInt8} {q : ℕ} (h : m.StringAt p s) (hq : p + s.length < q)
    (c : UInt8) : StringAt (m.set q c) p s := by
  obtain ⟨hs, back, hdrop⟩ := h
  refine ⟨hs, back.set (q - p - s.length - 1) c, ?_⟩
  rw [List.drop_set, if_neg (by omega), hdrop, List.set_append_right _ _ (by omega),
    show q - p - s.length = q - p - s.length - 1 + 1 by omega, List.set_cons_succ]
  rfl

/-- A NUL is written behind the bytes of a string. -/
theorem stringAt_set (h : m.drop p = l ++ b :: back) (hl : 0 ∉ l) :
    StringAt (m.set (p + l.length) 0) p l := by
  refine ⟨hl, back, ?_⟩
  rw [List.drop_set, if_neg (by omega), h, Nat.add_sub_cancel_left,
    List.set_append_right _ _ (Nat.le_refl _), Nat.sub_self, List.set_cons_zero]

/-- A write in front of a pointer. -/
theorem drop_set_of_lt {q : ℕ} (h : q < p) (c : UInt8) : (m.set q c).drop p = m.drop p := by
  rw [List.drop_set, if_pos h]

end Pointer

end Mem

end OlivePiccolo
