import Mathlib.Data.List.Basic

/-!
# Texts as literals and copies

A text is written as a list of sequences: some letters, followed by a copy of letters that have been
written before. The copy may run into what it writes itself. Whoever writes sequences along a text,
each with a match of the text that ends there (`Parse`), gets the text back when they are expanded
(`Parse.expand_eq`).
-/

namespace OlivePiccolo.Lz77

variable {α : Type*}

/-- Letters, and a copy of `length` letters from `offset` back. -/
structure Sequence (α : Type*) where
  literals : List α
  offset : ℕ
  length : ℕ
  deriving DecidableEq, Repr

/-- Copy letters one by one. -/
def copyMatch (offset : ℕ) : ℕ → List α → List α
  | 0, dest => dest
  | n + 1, dest => copyMatch offset n (dest ++ dest[dest.length - offset]?.toList)

theorem copyMatch_length {offset : ℕ} (h : 0 < offset) (n : ℕ) (dest : List α)
    (hle : offset ≤ dest.length) : (copyMatch offset n dest).length = dest.length + n := by
  induction n generalizing dest with
  | zero => rfl
  | succ n ih =>
    have hget := List.getElem?_eq_getElem (show dest.length - offset < dest.length by omega)
    have hlength : (dest ++ dest[dest.length - offset]?.toList).length = dest.length + 1 := by
      rw [hget, List.length_append]
      rfl
    rw [copyMatch, ih _ (by omega), hlength]
    omega

/-- What a sequence adds. -/
def Sequence.expand (dest : List α) (s : Sequence α) : List α :=
  copyMatch s.offset s.length (dest ++ s.literals)

def expand (l : List (Sequence α)) : List α := l.foldl Sequence.expand []

/-- The copies start inside of what has been written. -/
def Valid (dest : List α) : List (Sequence α) → Prop
  | [] => True
  | s :: l => 0 < s.offset ∧ s.offset ≤ (dest ++ s.literals).length ∧ Valid (s.expand dest) l

/-- The letters at `pos` are those from `offset` back. -/
structure IsMatch (text : List α) (pos offset length : ℕ) : Prop where
  offset_pos : 0 < offset
  offset_le : offset ≤ pos
  le_length : pos + length ≤ text.length
  same : ∀ i < length, text[pos - offset + i]? = text[pos + i]?

/-- Sequences that have been written along a text, up to a position. -/
inductive Parse (text : List α) : List (Sequence α) → ℕ → Prop
  | nil : Parse text [] 0
  | snoc {l : List (Sequence α)} {start pos offset length : ℕ} : Parse text l start →
      start ≤ pos → IsMatch text pos offset length →
        Parse text (l ++ [⟨(text.drop start).take (pos - start), offset, length⟩]) (pos + length)

variable {text : List α} {l : List (Sequence α)} {start pos offset length : ℕ}

/-- What is left of a match behind its first letter. -/
theorem IsMatch.tail (h : IsMatch text pos offset (length + 1)) :
    IsMatch text (pos + 1) offset length := by
  have hle := h.offset_le
  refine ⟨h.offset_pos, Nat.le_succ_of_le hle, by have := h.le_length; omega, fun i hi => ?_⟩
  have hsame := h.same (i + 1) (Nat.succ_lt_succ hi)
  rw [show pos + 1 - offset + i = pos - offset + (i + 1) by omega, hsame,
    show pos + 1 + i = pos + (i + 1) by omega]

/-- A match is what a copy of it writes. -/
theorem IsMatch.copyMatch_take (h : IsMatch text pos offset length) :
    copyMatch offset length (text.take pos) = text.take (pos + length) := by
  induction length generalizing pos with
  | zero => rfl
  | succ length ih =>
    have hlt : pos < text.length := by
      have := h.le_length
      omega
    have hlen : (text.take pos).length = pos := by
      rw [List.length_take, Nat.min_eq_left (Nat.le_of_lt hlt)]
    have hfirst : (text.take pos)[pos - offset]? = text[pos]? := by
      have hpos := h.offset_pos
      have hle := h.offset_le
      rw [List.getElem?_take_of_lt (by omega)]
      exact h.same 0 (Nat.zero_lt_succ _)
    rw [copyMatch, hlen, hfirst, ← List.take_add_one, ih h.tail, Nat.add_right_comm, Nat.add_assoc]

theorem Parse.le_length (h : Parse text l pos) : pos ≤ text.length := by
  cases h with
  | nil => exact Nat.zero_le _
  | snoc _ _ hmatch => exact hmatch.le_length

/-- The sequences of a text expand to it. -/
theorem Parse.expand_eq (h : Parse text l pos) : expand l = text.take pos := by
  induction h with
  | nil => rfl
  | @snoc l start pos offset length _ hle hmatch ih =>
    have hwritten : text.take start ++ (text.drop start).take (pos - start) = text.take pos := by
      rw [← List.take_add, Nat.add_sub_cancel' hle]
    rw [expand, List.foldl_append, ← expand, ih]
    show copyMatch offset length (text.take start ++ _) = _
    rw [hwritten, hmatch.copyMatch_take]

theorem expand_length {dest : List α} {s : Sequence α} (h : 0 < s.offset)
    (hle : s.offset ≤ (dest ++ s.literals).length) :
    (s.expand dest).length = (dest ++ s.literals).length + s.length := copyMatch_length h _ _ hle

/-- Sequences only add letters. -/
theorem Valid.length_le {dest : List α} {l : List (Sequence α)} (h : Valid dest l) :
    dest.length ≤ (l.foldl Sequence.expand dest).length := by
  induction l generalizing dest with
  | nil => exact Nat.le_refl _
  | cons s l ih =>
    obtain ⟨hpos, hle, hrest⟩ := h
    have hfirst := expand_length hpos hle
    rw [List.length_append] at hfirst
    have hmore := ih hrest
    rw [List.foldl_cons]
    omega

theorem valid_append {dest : List α} {l l' : List (Sequence α)} :
    Valid dest (l ++ l') ↔ Valid dest l ∧ Valid (l.foldl Sequence.expand dest) l' := by
  induction l generalizing dest with
  | nil => exact ⟨fun h => ⟨trivial, h⟩, And.right⟩
  | cons s l ih =>
    rw [List.cons_append, Valid, ih, List.foldl_cons, Valid, and_assoc, and_assoc]

theorem Parse.valid (h : Parse text l pos) : Valid [] l := by
  induction h with
  | nil => trivial
  | @snoc l start pos offset length hparse hle hmatch ih =>
    refine valid_append.mpr ⟨ih, hmatch.offset_pos, ?_, trivial⟩
    have hwritten : l.foldl Sequence.expand [] ++ (text.drop start).take (pos - start) =
        text.take pos := by
      rw [← expand, hparse.expand_eq, ← List.take_add, Nat.add_sub_cancel' hle]
    rw [hwritten, List.length_take]
    have hpos : pos ≤ text.length := Nat.le_trans (Nat.le_add_right _ _) hmatch.le_length
    exact Nat.le_min.mpr ⟨hmatch.offset_le, Nat.le_trans hmatch.offset_le hpos⟩

end OlivePiccolo.Lz77
