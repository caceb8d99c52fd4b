import Mathlib.Data.Finset.Card
import Mathlib.Data.List.Chain
import Mathlib.Logic.Function.Basic

/-!
# Chains in a table

A table has a number for each of its places: `0` for one that is free, the next place of a chain, or
anything from the size of the table on for the end of a chain. The places are numbered from 2.
`Chains` says that some lists of places are chains of a table and have no place in common. A chain
grows by a place that is free (`Chains.grow`) and shrinks to its front (`Chains.shrink`); the places
that are free are counted (`card_free_of_take`, `card_free_of_release`).
-/

namespace OlivePiccolo.ChainTable

/-- The places are linked one to the next, and the last one ends the chain. -/
def Linked (n : ℕ) (T : ℕ → ℕ) (l : List ℕ) : Prop :=
  l.IsChain (fun c d => T c = d) ∧ ∀ c ∈ l.getLast?, n ≤ T c

/-- The lists are chains, and no place is in two of them. -/
structure Chains {ι : Type*} (n : ℕ) (T : ℕ → ℕ) (q : ι → List ℕ) : Prop where
  linked : ∀ i, Linked n T (q i)
  place : ∀ i, ∀ c ∈ q i, 2 ≤ c ∧ c < n
  nodup : ∀ i, (q i).Nodup
  disjoint : ∀ i j c, c ∈ q i → c ∈ q j → i = j

/-- The table with some places free. -/
def cleared (T : ℕ → ℕ) (l : List ℕ) (c : ℕ) : ℕ := if c ∈ l then 0 else T c

/-- The places that are free. -/
def free (n : ℕ) (T : ℕ → ℕ) : Finset ℕ := (Finset.range n).filter fun c => 2 ≤ c ∧ T c = 0

/-! ## One chain -/

section Linked

variable {n c d u : ℕ} {T T' : ℕ → ℕ} {l l' : List ℕ}

theorem linked_nil : Linked n T [] := by
  refine ⟨.nil, fun c hc => ?_⟩
  cases hc

theorem linked_singleton (h : n ≤ T c) : Linked n T [c] := ⟨.singleton c, by simpa using h⟩

theorem linked_snoc : Linked n T (l ++ [c]) ↔
    (l ++ [c]).IsChain (fun c d => T c = d) ∧ n ≤ T c := by
  simp [Linked]

theorem linked_split : Linked n T (l ++ c :: d :: l') ↔
    (l ++ [c]).IsChain (fun c d => T c = d) ∧ T c = d ∧ Linked n T (d :: l') := by
  unfold Linked
  rw [List.isChain_append_cons_cons, List.getLast?_append_cons, List.getLast?_cons_cons]
  simp only [and_assoc]

/-- The places up to one depend on the table in front of it. -/
theorem path_congr (h : (l ++ [c]).IsChain (fun c d => T c = d)) (hT : ∀ a ∈ l, T' a = T a) :
    (l ++ [c]).IsChain (fun c d => T' c = d) := by
  induction l with
  | nil => exact .singleton c
  | cons a l ih =>
    rw [List.cons_append, List.isChain_cons] at h ⊢
    refine ⟨fun b hb => (hT a List.mem_cons_self).trans (h.1 b hb), ih h.2 fun b hb => ?_⟩
    exact hT b (List.mem_cons_of_mem a hb)

theorem Linked.congr (h : Linked n T l) (hT : ∀ a ∈ l, T' a = T a) : Linked n T' l := by
  rcases List.eq_nil_or_concat' l with rfl | ⟨front, c, rfl⟩
  · exact linked_nil
  · obtain ⟨hpath, hlast⟩ := linked_snoc.mp h
    have hc := hT c (by simp)
    refine linked_snoc.mpr ⟨path_congr hpath fun a ha => hT a (by simp [ha]), ?_⟩
    rwa [hc]

/-- The last place of a chain. -/
theorem Linked.last (h : Linked n T (l ++ [c])) : n ≤ T c := (linked_snoc.mp h).2

/-- A place that is not the last one. -/
theorem Linked.next (h : Linked n T (l ++ c :: d :: l')) : T c = d := (linked_split.mp h).2.1

theorem Linked.back (h : Linked n T (l ++ c :: l')) : Linked n T (c :: l') := by
  refine ⟨h.1.right_of_append, fun a ha => h.2 a ?_⟩
  rwa [List.getLast?_append_cons]

/-- A chain ends at one of its places. -/
theorem Linked.cut (h : Linked n T (l ++ c :: l')) (hT : ∀ a ∈ l, T' a = T a) (hc : n ≤ T' c) :
    Linked n T' (l ++ [c]) := by
  refine linked_snoc.mpr ⟨path_congr ?_ hT, hc⟩
  have hchain := h.1
  rw [List.isChain_split] at hchain
  exact hchain.1

/-- A chain goes on. -/
theorem Linked.extend (h : Linked n T (l ++ [c])) (hT : ∀ a ∈ l, T' a = T a) (hc : T' c = u)
    (hu : n ≤ T' u) : Linked n T' (l ++ [c] ++ [u]) := by
  rw [List.append_assoc]
  exact linked_split.mpr ⟨path_congr (linked_snoc.mp h).1 hT, hc, linked_singleton hu⟩

end Linked

/-! ## Many chains -/

namespace Chains

variable {ι : Type*} {n : ℕ} {T T' : ℕ → ℕ} {q : ι → List ℕ} {i : ι} {c u : ℕ} {l l' : List ℕ}

/-- Places that are free are in no chain. -/
theorem two_le (h : Chains n T q) (hc : c ∈ q i) : 2 ≤ T c := by
  obtain ⟨front, back, hq⟩ := List.append_of_mem hc
  have hlinked := h.linked i
  have hplace := h.place i
  rw [hq] at hlinked hplace
  cases back with
  | nil =>
    have hlast := hlinked.last
    have hc := hplace c (by simp)
    omega
  | cons d back =>
    rw [hlinked.next]
    exact (hplace d (by simp)).1

/-- The chains depend on the table at their places. -/
theorem congr (h : Chains n T q) (hT : ∀ i, ∀ c ∈ q i, T' c = T c) : Chains n T' q :=
  ⟨fun i => (h.linked i).congr (hT i), h.place, h.nodup, h.disjoint⟩

variable [DecidableEq ι]

/-- A chain is another list of places, which are its own ones or in no chain. -/
theorem change (h : Chains n T q) (hlinked : Linked n T' l) (hnodup : l.Nodup)
    (hplace : ∀ c ∈ l, 2 ≤ c ∧ c < n) (hfresh : ∀ c ∈ l, ∀ j, c ∈ q j → j = i)
    (hT : ∀ j, j ≠ i → ∀ c ∈ q j, T' c = T c) : Chains n T' (Function.update q i l) := by
  refine ⟨fun j => ?_, fun j => ?_, fun j => ?_, fun j k c hj hk => ?_⟩
  · by_cases hij : j = i
    · rw [hij, Function.update_self]
      exact hlinked
    · rw [Function.update_of_ne hij]
      exact (h.linked j).congr (hT j hij)
  · by_cases hij : j = i
    · rw [hij, Function.update_self]
      exact hplace
    · rw [Function.update_of_ne hij]
      exact h.place j
  · by_cases hij : j = i
    · rw [hij, Function.update_self]
      exact hnodup
    · rw [Function.update_of_ne hij]
      exact h.nodup j
  · by_cases hij : j = i
    · by_cases hik : k = i
      · exact hij.trans hik.symm
      · rw [hij, Function.update_self] at hj
        rw [Function.update_of_ne hik] at hk
        exact absurd (hfresh c hj k hk) hik
    · rw [Function.update_of_ne hij] at hj
      by_cases hik : k = i
      · rw [hik, Function.update_self] at hk
        exact absurd (hfresh c hk j hj) hij
      · rw [Function.update_of_ne hik] at hk
        exact h.disjoint j k c hj hk

/-- A place that is free begins a chain. -/
theorem start (h : Chains n T q) (hu : 2 ≤ u ∧ u < n) (hfree : T u = 0) (hend : n ≤ T' u)
    (hT : ∀ c, c ≠ u → T' c = T c) : Chains n T' (Function.update q i [u]) := by
  have hfresh (j : ι) (hj : u ∈ q j) : False := by
    have htwo := h.two_le hj
    omega
  refine h.change (l := [u]) (linked_singleton hend) (List.nodup_singleton u)
    ?_ ?_ fun j _ c hc => hT c ?_
  · simpa using hu
  · simpa using fun j hj => (hfresh j hj).elim
  · rintro rfl
    exact hfresh j hc

/-- A chain grows by a place that is free. -/
theorem grow (h : Chains n T q) (hq : q i = l ++ [c]) (hu : 2 ≤ u ∧ u < n) (hfree : T u = 0)
    (hend : n ≤ T' u) (hc : T' c = u) (hT : ∀ a, a ≠ u → a ≠ c → T' a = T a) :
    Chains n T' (Function.update q i (q i ++ [u])) := by
  have hfresh (j : ι) (hj : u ∈ q j) : False := by
    have htwo := h.two_le hj
    omega
  have hlinked := h.linked i
  have hnodup := h.nodup i
  have hci : c ∈ q i := by simp [hq]
  refine h.change ?_ ?_ ?_ ?_ fun j hij a ha => hT a ?_ ?_
  · rw [hq] at hlinked hnodup ⊢
    refine hlinked.extend (fun a ha => hT a ?_ ?_) hc hend
    · rintro rfl
      exact hfresh i (by simp [hq, ha])
    · rintro rfl
      rw [List.nodup_append] at hnodup
      exact hnodup.2.2 a ha a (by simp) rfl
  · rw [List.nodup_append]
    refine ⟨hnodup, List.nodup_singleton u, fun a ha b hb hab => ?_⟩
    obtain rfl : b = u := by simpa using hb
    exact hfresh i (hab ▸ ha)
  · intro a ha
    rcases List.mem_append.mp ha with ha | ha
    · exact h.place i a ha
    · obtain rfl : a = u := by simpa using ha
      exact hu
  · intro a ha j hj
    rcases List.mem_append.mp ha with ha | ha
    · exact h.disjoint j i a hj ha
    · obtain rfl : a = u := by simpa using ha
      exact (hfresh j hj).elim
  · rintro rfl
    exact hfresh j ha
  · rintro rfl
    exact hij (h.disjoint j i a ha hci)

/-- The places of a front of a chain are as for any list that is shorter. -/
theorem shorten (h : Chains n T q) (hq : q i = l ++ l') (hlinked : Linked n T' l)
    (hT : ∀ j, j ≠ i → ∀ c ∈ q j, T' c = T c) : Chains n T' (Function.update q i l) := by
  have hmem (c : ℕ) (hc : c ∈ l) : c ∈ q i := by
    rw [hq]
    exact List.mem_append_left l' hc
  have hnodup := h.nodup i
  rw [hq] at hnodup
  exact h.change hlinked (List.nodup_append.mp hnodup).1 (fun c hc => h.place i c (hmem c hc))
    (fun c hc j hj => h.disjoint j i c hj (hmem c hc)) hT

/-- A chain ends at one of its places, and the ones behind it are in no chain any more. -/
theorem shrink (h : Chains n T q) (hq : q i = l ++ c :: l') (hend : n ≤ T' c)
    (hT : ∀ a, a ∉ c :: l' → T' a = T a) : Chains n T' (Function.update q i (l ++ [c])) := by
  have hlinked := h.linked i
  have hnodup := h.nodup i
  rw [hq] at hlinked hnodup
  rw [List.nodup_append] at hnodup
  have hq' : q i = (l ++ [c]) ++ l' := by rw [hq, List.append_assoc]; rfl
  refine h.shorten hq'
    (hlinked.cut (fun a ha => hT a fun hmem => ?_) hend) fun j hij a ha => hT a fun hmem => ?_
  · exact hnodup.2.2 a ha a hmem rfl
  · refine hij (h.disjoint j i a ha ?_)
    rw [hq]
    exact List.mem_append_right l hmem

/-- All places of a chain are in no chain any more. -/
theorem clear (h : Chains n T q) (hT : ∀ a, a ∉ q i → T' a = T a) :
    Chains n T' (Function.update q i []) :=
  h.shorten (show q i = [] ++ q i from rfl) linked_nil fun j hij a ha =>
    hT a fun hmem => hij (h.disjoint j i a ha hmem)

end Chains

/-! ## Places that are free -/

section Free

variable {n c u v : ℕ} {T T' : ℕ → ℕ}

theorem mem_free : c ∈ free n T ↔ c < n ∧ 2 ≤ c ∧ T c = 0 := by
  rw [free, Finset.mem_filter, Finset.mem_range]

theorem free_congr (hT : ∀ c, 2 ≤ c → c < n → T' c = T c) : free n T' = free n T := by
  ext c
  rw [mem_free, mem_free]
  constructor
  · rintro ⟨hn, htwo, hc⟩
    exact ⟨hn, htwo, by rwa [← hT c htwo hn]⟩
  · rintro ⟨hn, htwo, hc⟩
    exact ⟨hn, htwo, by rwa [hT c htwo hn]⟩

/-- A place is taken. -/
theorem card_free_of_take (hu : 2 ≤ u ∧ u < n) (hfree : T u = 0) (hv : v ≠ 0) :
    (free n (Function.update T u v)).card + 1 = (free n T).card := by
  have herase : free n (Function.update T u v) = (free n T).erase u := by
    ext c
    rw [Finset.mem_erase, mem_free, mem_free, Function.update_apply]
    split_ifs with hc
    · simp [hc, hv]
    · simp [hc]
  have hmem : u ∈ free n T := mem_free.mpr ⟨hu.2, hu.1, hfree⟩
  rw [herase, Finset.card_erase_add_one hmem]

/-- A place is released. -/
theorem card_free_of_release (hu : 2 ≤ u ∧ u < n) (hused : T u ≠ 0) :
    (free n (Function.update T u 0)).card = (free n T).card + 1 := by
  have hback : Function.update (Function.update T u 0) u (T u) = T := by
    rw [Function.update_idem, Function.update_eq_self]
  have htake := card_free_of_take (T := Function.update T u 0) hu (Function.update_self _ _ _) hused
  rw [hback] at htake
  exact htake.symm

theorem cleared_nil (T : ℕ → ℕ) : cleared T [] = T := by
  funext c
  simp [cleared]

theorem cleared_cons (T : ℕ → ℕ) (c : ℕ) (l : List ℕ) :
    cleared T (c :: l) = Function.update (cleared T l) c 0 := by
  funext a
  rw [Function.update_apply]
  by_cases h : a = c
  · simp [cleared, h]
  · simp [cleared, h]

theorem cleared_snoc (T : ℕ → ℕ) (l : List ℕ) (c : ℕ) :
    cleared T (l ++ [c]) = Function.update (cleared T l) c 0 := by
  funext a
  rw [Function.update_apply]
  by_cases h : a = c
  · simp [cleared, h]
  · simp [cleared, h]

/-- Places are released. -/
theorem card_free_cleared {l : List ℕ} (hplace : ∀ c ∈ l, 2 ≤ c ∧ c < n) (hnodup : l.Nodup)
    (hused : ∀ c ∈ l, T c ≠ 0) : (free n (cleared T l)).card = (free n T).card + l.length := by
  induction l with
  | nil => rw [cleared_nil, List.length_nil, Nat.add_zero]
  | cons c l ih =>
    obtain ⟨hnot, hnodup⟩ := List.nodup_cons.mp hnodup
    have hrest := ih (fun a ha => hplace a (List.mem_cons_of_mem c ha)) hnodup
      fun a ha => hused a (List.mem_cons_of_mem c ha)
    have hc : cleared T l c ≠ 0 := by
      rw [cleared, if_neg hnot]
      exact hused c List.mem_cons_self
    rw [cleared_cons, card_free_of_release (hplace c List.mem_cons_self) hc, hrest,
      List.length_cons, Nat.add_assoc]

/-- A place that is not free does not count. -/
theorem free_of_used (hused : T u ≠ 0) (hv : v ≠ 0) :
    free n (Function.update T u v) = free n T := by
  ext c
  rw [mem_free, mem_free, Function.update_apply]
  split_ifs with hc
  · simp [hc, hv, hused]
  · rfl

end Free

end OlivePiccolo.ChainTable
