import Mathlib.Data.BitVec
import Mathlib.Data.List.Basic
import Mathlib.Data.Nat.Notation
import Mathlib.Logic.Function.Basic

/-!
# Byte strings laid over a memory

`overlay mem start l` is a memory whose cells from `start` on hold the elements of `l`. A string
that is written in parts is the overlay of the whole (`overlay_append`), and of strings that are
apart from each other each one is still there at the end (`overlays_get`).
-/

namespace OlivePiccolo

variable {w : ℕ} {α : Type*} {mem : BitVec w → α} {start a : BitVec w} {l l' : List α}

/-- The cells from an address on hold a string. -/
def overlay (mem : BitVec w → α) (start : BitVec w) (l : List α) : BitVec w → α :=
  fun a => (l[(a - start).toNat]?).getD (mem a)

theorem overlay_of_le (h : l.length ≤ (a - start).toNat) : overlay mem start l a = mem a := by
  rw [overlay, List.getElem?_eq_none h]
  rfl

theorem overlay_get {i : ℕ} (hi : i < l.length) (hl : l.length ≤ 2 ^ w) :
    overlay mem start l (start + BitVec.ofNat w i) = l[i] := by
  have hindex : (start + BitVec.ofNat w i - start).toNat = i := by
    rw [BitVec.add_comm, BitVec.add_sub_cancel, BitVec.toNat_ofNat, Nat.mod_eq_of_lt (by omega)]
  rw [overlay, hindex, List.getElem?_eq_getElem hi]
  rfl

/-- A cell that is not one of those of the string. -/
theorem overlay_of_ne (h : ∀ i < l.length, a ≠ start + BitVec.ofNat w i) :
    overlay mem start l a = mem a := by
  apply overlay_of_le
  by_contra hlt
  refine h _ (Nat.lt_of_not_le hlt) ?_
  rw [BitVec.ofNat_toNat, BitVec.setWidth_eq, BitVec.add_comm, BitVec.sub_add_cancel]

theorem overlay_singleton [DecidableEq (BitVec w)] {b : α} :
    overlay mem start [b] = Function.update mem start b := by
  funext a
  by_cases h : a = start
  · subst h
    rw [Function.update_self, overlay, BitVec.sub_self]
    rfl
  · rw [Function.update_of_ne h]
    refine overlay_of_ne fun i hi => ?_
    obtain rfl : i = 0 := by
      rw [List.length_singleton] at hi
      omega
    rwa [BitVec.add_zero]

/-- What is written behind a string makes it longer. -/
theorem overlay_append (h : l.length + l'.length ≤ 2 ^ w) :
    overlay (overlay mem start l) (start + BitVec.ofNat w l.length) l' =
      overlay mem start (l ++ l') := by
  funext a
  have hsub : (a - (start + BitVec.ofNat w l.length)).toNat =
      ((a - start).toNat + (2 ^ w - l.length % 2 ^ w)) % 2 ^ w := by
    rw [sub_add_eq_sub_sub, BitVec.toNat_sub (a - start), BitVec.toNat_ofNat, Nat.add_comm]
  have hk := (a - start).isLt
  by_cases hold : (a - start).toNat < l.length
  · rw [overlay_of_le, overlay, overlay, List.getElem?_append_left hold]
    rw [hsub]
    rcases Nat.eq_or_lt_of_le (Nat.le_trans (Nat.le_add_right _ _) h) with heq | hlt
    · omega
    · rw [Nat.mod_eq_of_lt hlt, Nat.mod_eq_of_lt (by omega)]
      omega
  · rw [overlay, overlay, overlay, List.getElem?_append_right (Nat.le_of_not_lt hold), hsub,
      List.getElem?_eq_none (Nat.le_of_not_lt hold)]
    have hmod : ((a - start).toNat + (2 ^ w - l.length % 2 ^ w)) % 2 ^ w =
        (a - start).toNat - l.length := by
      rw [Nat.mod_eq_of_lt (a := l.length) (by omega),
        show (a - start).toNat + (2 ^ w - l.length) = (a - start).toNat - l.length + 2 ^ w by omega,
        Nat.add_mod_right, Nat.mod_eq_of_lt (by omega)]
    rw [hmod]
    rfl

/-! ## Many strings -/

/-- Strings and where they begin, one laid over the other. -/
def overlays (mem : BitVec w → α) (pieces : List (BitVec w × List α)) : BitVec w → α :=
  pieces.foldl (fun m p => overlay m p.1 p.2) mem

/-- Two strings have no cell in common. -/
def Apart (p q : BitVec w × List α) : Prop :=
  ∀ i < p.2.length, ∀ j < q.2.length, p.1 + BitVec.ofNat w i ≠ q.1 + BitVec.ofNat w j

/-- Ranges of numbers that do not overlap are apart. -/
theorem apart_of_le {p q : BitVec w × List α} (hp : p.1.toNat + p.2.length ≤ 2 ^ w)
    (hq : q.1.toNat + q.2.length ≤ 2 ^ w)
    (h : p.1.toNat + p.2.length ≤ q.1.toNat ∨ q.1.toNat + q.2.length ≤ p.1.toNat) :
    Apart p q := by
  intro i hi j hj heq
  have hnat := congrArg BitVec.toNat heq
  rw [BitVec.toNat_add, BitVec.toNat_add, BitVec.toNat_ofNat, BitVec.toNat_ofNat,
    Nat.mod_eq_of_lt (a := i) (by omega), Nat.mod_eq_of_lt (a := j) (by omega),
    Nat.mod_eq_of_lt (by omega), Nat.mod_eq_of_lt (by omega)] at hnat
  omega

theorem overlays_of_ne (pieces : List (BitVec w × List α))
    (h : ∀ p ∈ pieces, ∀ i < p.2.length, a ≠ p.1 + BitVec.ofNat w i) :
    overlays mem pieces a = mem a := by
  induction pieces generalizing mem with
  | nil => rfl
  | cons p pieces ih =>
    rw [overlays, List.foldl_cons, ← overlays, ih fun q hq => h q (List.mem_cons_of_mem p hq)]
    exact overlay_of_ne (h p List.mem_cons_self)

/-- **What stands apart stays.** -/
theorem overlays_get {pieces : List (BitVec w × List α)} (hapart : pieces.Pairwise Apart)
    {p : BitVec w × List α} (hp : p ∈ pieces) {i : ℕ} (hi : i < p.2.length)
    (hl : p.2.length ≤ 2 ^ w) : overlays mem pieces (p.1 + BitVec.ofNat w i) = p.2[i] := by
  induction pieces generalizing mem with
  | nil => exact absurd hp List.not_mem_nil
  | cons q pieces ih =>
    rw [List.pairwise_cons] at hapart
    rw [overlays, List.foldl_cons, ← overlays]
    rcases List.mem_cons.mp hp with rfl | hp
    · rw [overlays_of_ne pieces fun r hr j hj => hapart.1 r hr i hi j hj, overlay_get hi hl]
    · exact ih hapart.2 hp

end OlivePiccolo
