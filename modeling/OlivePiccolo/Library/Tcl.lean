import Mathlib.Data.Int.ModEq
import Mathlib.Data.List.Basic
import Mathlib.Tactic.Positivity
import Mathlib.Tactic.Zify
import OlivePiccolo.Library.LittleEndian

/-!
# Strings of Tcl

The commands `string range`, `string first`, `binary scan`, `binary format` and `lsearch` on strings
of bytes. Positions are integers: one in front of the string stands for its start, and one behind
it for its end. `binary scan` assigns the variables in order, and stops where the string is too
short for the next one. `lsearch` takes what it looks for as a pattern (`stringMatch`), which a
plain word is only for itself (`stringMatch_plain`).
-/

namespace OlivePiccolo.Tcl

/-! ## Parts of a string -/

section Range

variable {α : Type*}

/-- `string range s first last`. -/
def stringRange (s : List α) (first last : ℤ) : List α := (s.take (last + 1).toNat).drop first.toNat

/-- `string first c s start`, for one character. -/
def stringFirst [BEq α] (c : α) (s : List α) (start : ℤ) : ℤ :=
  match (s.drop start.toNat).findIdx? (· == c) with
  | some k => start.toNat + k
  | none => -1

theorem stringRange_eq (s : List α) {first : ℤ} {a n : ℕ} (ha : first = a) (last : ℤ)
    (hlast : last = first + n - 1) : stringRange s first last = (s.drop a).take n := by
  subst ha hlast
  have hend : ((a : ℤ) + n - 1 + 1).toNat = a + n := by omega
  rw [stringRange, hend, Int.toNat_natCast, List.drop_take, Nat.add_sub_cancel_left]

end Range

/-! ## Numbers in a string -/

/-- A 16-bit pattern as a signed number. -/
def toInt16 (v : ℕ) : ℤ := (v : ℤ).bmod (2 ^ 16)

/-- The 16-bit number at the start of a string, with its sign. -/
def int16 (s : List UInt8) : ℤ := toInt16 (leNat (s.take 2))

/-- The 32-bit number at the start of a string, with its sign. -/
def int32 (s : List UInt8) : ℤ := toInt32 (leNat (s.take 4))

/-- What `binary scan s i…` reads: `n` numbers, or as many as there are. -/
def scanInts : ℕ → List UInt8 → List ℤ
  | 0, _ => []
  | n + 1, s => if 4 ≤ s.length then int32 s :: scanInts n (s.drop 4) else []

theorem scanInts_getElem? {n i : ℕ} {s : List UInt8} (hi : i < n) (hs : 4 * i + 4 ≤ s.length) :
    (scanInts n s)[i]? = some (int32 (s.drop (4 * i))) := by
  induction n generalizing i s with
  | zero => cases hi
  | succ n ih =>
    rw [scanInts, if_pos (by omega)]
    cases i with
    | zero => rfl
    | succ i =>
      rw [List.getElem?_cons_succ, ih (by omega) (by rw [List.length_drop]; omega), List.drop_drop]
      congr 3
      omega

theorem length_scanInts {n : ℕ} {s : List UInt8} (hs : 4 * n ≤ s.length) :
    (scanInts n s).length = n := by
  induction n generalizing s with
  | zero => rfl
  | succ n ih =>
    rw [scanInts, if_pos (by omega), List.length_cons, ih (by rw [List.length_drop]; omega)]

/-- `binary format`: the low bytes of a number, least significant first. -/
def formatInt (n : ℕ) (v : ℤ) : List UInt8 := leBytes n (v % 256 ^ n).toNat

/-- `binary format` with a count: a list may be longer than that, but not shorter. -/
def formatInts (n count : ℕ) (l : List ℤ) : Option (List UInt8) :=
  if l.length < count then none else some ((l.take count).flatMap (formatInt n))

@[simp] theorem length_formatInt (n : ℕ) (v : ℤ) : (formatInt n v).length = n := leBytes_length ..

theorem leNat_formatInt (n : ℕ) (v : ℤ) : (leNat (formatInt n v) : ℤ) = v % 256 ^ n := by
  have hpos : (0 : ℤ) < 256 ^ n := by positivity
  have hnonneg := Int.emod_nonneg v hpos.ne'
  have hlt := Int.emod_lt_of_pos v hpos
  rw [formatInt, leNat_leBytes]
  · exact Int.toNat_of_nonneg hnonneg
  · zify
    rwa [Int.toNat_of_nonneg hnonneg]

theorem formatInt_leNat {l : List UInt8} {v : ℤ} (h : v = leNat l) : formatInt l.length v = l := by
  have hlt : (leNat l : ℤ) < 256 ^ l.length := by exact_mod_cast leNat_lt l
  rw [formatInt, h, Int.emod_eq_of_lt (Int.natCast_nonneg _) hlt, Int.toNat_natCast, leBytes_leNat]

/-- Two numbers of 16 bits are one of 32 bits. -/
theorem formatInt_two (v w : ℤ) :
    formatInt 2 v ++ formatInt 2 w = formatInt 4 (v % 2 ^ 16 + 2 ^ 16 * (w % 2 ^ 16)) := by
  have hlen : (formatInt 2 v ++ formatInt 2 w).length = 4 := by simp
  rw [← hlen]
  refine (formatInt_leNat ?_).symm
  have hv := leNat_formatInt 2 v
  have hw := leNat_formatInt 2 w
  rw [leNat_append, length_formatInt]
  push_cast
  rw [hv, hw]
  norm_num

theorem slice_formatInt {fields : List ℤ} {k : ℕ} (hk : k < fields.length) :
    ((fields.flatMap (formatInt 4)).drop (4 * k)).take 4 = formatInt 4 fields[k] := by
  induction fields generalizing k with
  | nil => cases hk
  | cons v fields ih =>
    have hlen := length_formatInt 4 v
    rw [List.flatMap_cons]
    cases k with
    | zero =>
      rw [Nat.mul_zero, List.drop_zero, List.take_append_of_le_length hlen.ge,
        List.getElem_cons_zero]
      exact List.take_of_length_le hlen.le
    | succ k =>
      rw [show 4 * (k + 1) = (formatInt 4 v).length + 4 * k by omega, List.drop_length_add_append,
        List.getElem_cons_succ]
      exact ih (Nat.lt_of_succ_lt_succ hk)

theorem toInt32_le (v : ℕ) : toInt32 v ≤ 0x7fffffff := by
  unfold toInt32
  rw [Int.bmod_def]
  split <;> omega

theorem toInt32_modEq (v : ℕ) : toInt32 v ≡ v [ZMOD 2 ^ 32] := by
  unfold toInt32 Int.ModEq
  rw [Int.bmod_def]
  split <;> omega

theorem toInt32_inj {v w : ℕ} (hv : v < 2 ^ 32) (hw : w < 2 ^ 32) :
    toInt32 v = toInt32 w ↔ v = w := by
  refine ⟨fun h => ?_, fun h => by rw [h]⟩
  have hmod := toInt32_modEq v
  rw [h] at hmod
  have heq := hmod.symm.trans (toInt32_modEq w)
  unfold Int.ModEq at heq
  omega

theorem toInt16_of_lt {v : ℕ} (h : v < 2 ^ 15) : toInt16 v = v := by
  unfold toInt16
  rw [Int.bmod_eq_of_le] <;> omega

theorem toInt16_of_ge {v : ℕ} (h : 2 ^ 15 ≤ v) (hv : v < 2 ^ 16) : toInt16 v < 0 := by
  unfold toInt16
  rw [Int.bmod_def]
  omega

/-! ## Patterns -/

/-- The pattern behind a bracket, if the character is in it. -/
def inBracket (c : UInt8) : List UInt8 → Option (List UInt8)
  | [] => none
  | 93 :: _ => none
  | [_, 45] => none
  | a :: 45 :: b :: rest =>
    if a ≤ c ∧ c ≤ b ∨ b ≤ c ∧ c ≤ a then some (rest.dropWhile (· ≠ 93)).tail
    else inBracket c rest
  | a :: rest => if a = c then some (rest.dropWhile (· ≠ 93)).tail else inBracket c rest

theorem inBracket_cons {c a : UInt8} {l : List UInt8} (ha : a ≠ 93) (hone : l ≠ [45])
    (htwo : ∀ b rest, l ≠ 45 :: b :: rest) :
    inBracket c (a :: l) =
      if a = c then some (l.dropWhile (· ≠ 93)).tail else inBracket c l := by
  rw [inBracket]
  · exact ha
  · exact hone
  · exact htwo

theorem inBracket_length {c : UInt8} {p rest : List UInt8} (h : inBracket c p = some rest) :
    rest.length ≤ p.length := by
  have hbehind (l : List UInt8) : (l.dropWhile (· ≠ 93)).tail.length ≤ l.length := by
    rw [List.length_tail]
    exact (Nat.sub_le _ _).trans (List.dropWhile_suffix _).length_le
  induction p using inBracket.induct c with
  | case1 => cases h
  | case2 => simp [inBracket] at h
  | case3 => simp [inBracket] at h
  | case4 a b l hne hin =>
    simp only [inBracket, if_pos hin, Option.some.injEq] at h
    subst h
    exact (hbehind l).trans (by simp only [List.length_cons]; omega)
  | case5 a b l hne hout ih =>
    simp only [inBracket, if_neg hout] at h
    exact (ih h).trans (by simp only [List.length_cons]; omega)
  | case6 l hone htwo hne =>
    rw [inBracket_cons hne hone htwo, if_pos rfl, Option.some.injEq] at h
    subst h
    exact (hbehind l).trans (Nat.le_succ _)
  | case7 a l hne hone htwo hout ih =>
    rw [inBracket_cons hne hone htwo, if_neg hout] at h
    exact (ih h).trans (Nat.le_succ _)

/-- `string match`: the pattern comes first. -/
def stringMatch : List UInt8 → List UInt8 → Bool
  | [], s => s.isEmpty
  | 42 :: p, s => s.tails.any fun t => stringMatch p t
  | _ :: _, [] => false
  | 63 :: p, _ :: s => stringMatch p s
  | 91 :: p, c :: s =>
    match _h : inBracket c p with
    | some rest => stringMatch rest s
    | none => false
  | [92], _ :: _ => false
  | 92 :: a :: p, c :: s => a == c && stringMatch p s
  | a :: p, c :: s => a == c && stringMatch p s
termination_by p => p.length
decreasing_by
  all_goals simp only [List.length_cons]
  all_goals first | omega | exact Nat.lt_succ_of_le (inBracket_length _h)

/-- The characters that have a meaning in a pattern. -/
def special : List UInt8 := [42, 63, 91, 92]

/-- A pattern without special characters stands for itself. -/
theorem stringMatch_plain {p s : List UInt8} (hp : ∀ c ∈ p, c ∉ special) :
    stringMatch p s = true ↔ s = p := by
  induction p generalizing s with
  | nil => rw [stringMatch, List.isEmpty_iff]
  | cons a p ih =>
    have ha := hp a List.mem_cons_self
    simp only [special, List.mem_cons, List.not_mem_nil, or_false, not_or] at ha
    cases s with
    | nil => simp [stringMatch, ha]
    | cons c s =>
      rw [stringMatch, Bool.and_eq_true, beq_iff_eq,
        ih fun c hc => hp c (List.mem_cons_of_mem a hc), List.cons.injEq, eq_comm]
      · exact ha.1
      · exact ha.2.1
      · exact ha.2.2.1
      · exact fun heq _ => ha.2.2.2 heq
      · exact fun _ _ heq _ => ha.2.2.2 heq

/-- `lsearch`: the first element that the pattern matches, or -1. -/
def lsearch (list : List (List UInt8)) (pattern : List UInt8) : ℤ :=
  match list.findIdx? (stringMatch pattern ·) with
  | some k => k
  | none => -1

theorem lsearch_nonneg {list : List (List UInt8)} {pattern : List UInt8} :
    0 ≤ lsearch list pattern ↔ ∃ s ∈ list, stringMatch pattern s = true := by
  unfold lsearch
  cases hfound : list.findIdx? (stringMatch pattern ·) with
  | none =>
    rw [List.findIdx?_eq_none_iff] at hfound
    refine ⟨fun h => absurd h (by decide), fun ⟨s, hs, hmatch⟩ => ?_⟩
    rw [hfound s hs] at hmatch
    cases hmatch
  | some k =>
    obtain ⟨hk, hmatch, -⟩ := List.findIdx?_eq_some_iff_getElem.mp hfound
    exact ⟨fun _ => ⟨_, List.getElem_mem hk, hmatch⟩, fun _ => Int.natCast_nonneg k⟩

end OlivePiccolo.Tcl
