import Mathlib.Data.List.TakeWhile
import Mathlib.Logic.Function.Basic

/-!
# Linked lists

Lists through one pointer in each node: the memory holds a pointer, or `NULL`, for every `Slot`,
that is the head of a list or the pointer in a node. `Chain` is the list that starts at a slot. A
memory `Represents` a family of lists if each of them is the chain of its head, and no node is on
two of them. Taking the first node off a list and placing one behind the nodes that meet a
condition are the same on the lists.
-/

namespace OlivePiccolo.Links

/-- Where a pointer is stored. -/
inductive Slot (A N : Type*)
  /-- The head of a list. -/
  | head (a : A)
  /-- The pointer in a node. -/
  | follower (n : N)
  deriving DecidableEq

/-- The pointers, `none` for `NULL`. -/
abbrev Memory (A N : Type*) := Slot A N → Option N

variable {A N : Type*}

/-- The nodes from a slot on. -/
def Chain (m : Memory A N) : Slot A N → List N → Prop
  | s, [] => m s = none
  | s, n :: l => m s = some n ∧ Chain m (.follower n) l

/-- The slot behind some nodes. -/
def slotAfter : Slot A N → List N → Slot A N
  | s, [] => s
  | _, n :: l => slotAfter (.follower n) l

/-- Go on to the first node that does not meet the condition, or to the end: the slot that points to
it. A list that does not end takes more than any number of rounds. -/
def seek (m : Memory A N) (p : N → Bool) : ℕ → Slot A N → Option (Slot A N)
  | 0, _ => none
  | fuel + 1, s =>
    match m s with
    | none => some s
    | some n => if p n then seek m p fuel (.follower n) else some s

/-- At most so many nodes from a slot on. -/
def nodes (m : Memory A N) : ℕ → Slot A N → List N
  | 0, _ => []
  | fuel + 1, s =>
    match m s with
    | none => []
    | some n => n :: nodes m fuel (.follower n)

/-- Insert a node behind those that meet the condition. -/
def insertBehind (p : N → Bool) (n : N) (l : List N) : List N := l.takeWhile p ++ n :: l.dropWhile p

/-! ## One list -/

section Chain

variable {m m' : Memory A N} {s s' : Slot A N} {l l' : List N} {n : N}

theorem Chain.unique (h : Chain m s l) (h' : Chain m s l') : l = l' := by
  induction l generalizing s l' with
  | nil =>
    cases l' with
    | nil => rfl
    | cons n l' => exact absurd (h.symm.trans h'.1) (by simp)
  | cons n l ih =>
    cases l' with
    | nil => exact absurd (h'.symm.trans h.1) (by simp)
    | cons n' l' =>
      obtain rfl := Option.some.inj (h.1.symm.trans h'.1)
      rw [ih h.2 h'.2]

theorem Chain.after (h : Chain m s (l ++ l')) : Chain m (slotAfter s l) l' := by
  induction l generalizing s with
  | nil => exact h
  | cons n l ih => exact ih h.2

theorem Chain.of_some (h : Chain m s l) (hs : m s = some n) :
    ∃ l', l = n :: l' ∧ Chain m (.follower n) l' := by
  cases l with
  | nil => exact absurd (hs.symm.trans h) (by simp)
  | cons u l =>
    obtain rfl := Option.some.inj (hs.symm.trans h.1)
    exact ⟨l, rfl, h.2⟩

/-- A list that ends does not come back to a node. -/
theorem Chain.not_mem (h : Chain m (.follower n) l) : n ∉ l := by
  intro hmem
  obtain ⟨front, back, rfl⟩ := List.append_of_mem hmem
  have hback := (Chain.after h).2
  have hlen := congrArg List.length (h.unique hback)
  rw [List.length_append, List.length_cons] at hlen
  omega

theorem Chain.nodup (h : Chain m s l) : l.Nodup := by
  induction l generalizing s with
  | nil => exact List.nodup_nil
  | cons n l ih => exact List.nodup_cons.mpr ⟨h.2.not_mem, ih h.2⟩

/-- A chain depends on what is in its slots only. -/
theorem Chain.congr (h : Chain m s l) (hs : m' s' = m s)
    (hl : ∀ n ∈ l, m' (.follower n) = m (.follower n)) : Chain m' s' l := by
  induction l generalizing s s' with
  | nil => exact hs.trans h
  | cons n l ih =>
    exact ⟨hs.trans h.1, ih h.2 (hl n List.mem_cons_self)
      fun u hu => hl u (List.mem_cons_of_mem n hu)⟩

/-- A slot is that of the head, or of a node in front. -/
theorem slotAfter_cases (s : Slot A N) (l : List N) :
    slotAfter s l = s ∨ ∃ n ∈ l, slotAfter s l = .follower n := by
  induction l generalizing s with
  | nil => exact .inl rfl
  | cons n l ih =>
    rcases ih (.follower n) with h | ⟨u, hu, h⟩
    · exact .inr ⟨n, List.mem_cons_self, h⟩
    · exact .inr ⟨u, List.mem_cons_of_mem n hu, h⟩

theorem Chain.seek (h : Chain m s l) (p : N → Bool) {fuel : ℕ} (hfuel : l.length < fuel) :
    Links.seek m p fuel s = some (slotAfter s (l.takeWhile p)) := by
  induction l generalizing s fuel with
  | nil =>
    obtain ⟨fuel, rfl⟩ : ∃ k, fuel = k + 1 := ⟨fuel - 1, by omega⟩
    have hs : m s = none := h
    rw [Links.seek, hs]
    rfl
  | cons n l ih =>
    rw [List.length_cons] at hfuel
    obtain ⟨fuel, rfl⟩ : ∃ k, fuel = k + 1 := ⟨fuel - 1, by omega⟩
    simp only [Links.seek, h.1, List.takeWhile_cons]
    by_cases hp : p n = true
    · rw [if_pos hp, if_pos hp]
      exact ih h.2 (by omega)
    · rw [if_neg hp, if_neg hp]
      rfl

theorem Chain.nodes (h : Chain m s l) {fuel : ℕ} (hfuel : l.length ≤ fuel) :
    Links.nodes m fuel s = l := by
  induction l generalizing s fuel with
  | nil =>
    have hs : m s = none := h
    cases fuel with
    | zero => rfl
    | succ fuel => rw [Links.nodes, hs]
  | cons n l ih =>
    rw [List.length_cons] at hfuel
    obtain ⟨fuel, rfl⟩ : ∃ k, fuel = k + 1 := ⟨fuel - 1, by omega⟩
    simp only [Links.nodes, h.1]
    rw [ih h.2 (by omega)]

/-- The slot a list starts at is not in one of its nodes. -/
theorem Chain.ne_follower (h : Chain m s l) (hn : n ∈ l) : s ≠ .follower n := by
  rintro rfl
  exact h.not_mem hn

theorem mem_insertBehind {p : N → Bool} {u : N} : u ∈ insertBehind p n l ↔ u = n ∨ u ∈ l := by
  rw [insertBehind, List.mem_append, List.mem_cons, or_left_comm, ← List.mem_append,
    List.takeWhile_append_dropWhile]

/-- Conditions that agree on a list split it at the same node. -/
theorem takeWhile_dropWhile_congr {p p' : N → Bool} (h : ∀ u ∈ l, p u = p' u) :
    l.takeWhile p = l.takeWhile p' ∧ l.dropWhile p = l.dropWhile p' := by
  induction l with
  | nil => exact ⟨rfl, rfl⟩
  | cons n l ih =>
    obtain ⟨htake, hdrop⟩ := ih fun u hu => h u (List.mem_cons_of_mem n hu)
    simp only [List.takeWhile_cons, List.dropWhile_cons, h n List.mem_cons_self, htake, hdrop,
      and_self]

theorem insertBehind_congr {p p' : N → Bool} (h : ∀ u ∈ l, p u = p' u) (n : N) :
    insertBehind p n l = insertBehind p' n l := by
  obtain ⟨htake, hdrop⟩ := takeWhile_dropWhile_congr h
  rw [insertBehind, insertBehind, htake, hdrop]

/-- Behind the nodes with a lower rank, none has one. -/
theorem le_of_mem_dropWhile {f : N → ℕ} {r : ℕ} (h : l.Pairwise fun u v => f u ≤ f v) {u : N}
    (hu : u ∈ l.dropWhile fun v => decide (f v < r)) : r ≤ f u := by
  induction l with
  | nil => cases hu
  | cons v l ih =>
    rw [List.pairwise_cons] at h
    rw [List.dropWhile_cons] at hu
    split_ifs at hu with hv
    · exact ih h.2 hu
    · have hr : r ≤ f v := by simpa using hv
      rcases List.mem_cons.mp hu with rfl | hu
      · exact hr
      · exact Nat.le_trans hr (h.1 u hu)

/-- Inserted behind all nodes with a lower rank, a node keeps a list in order. -/
theorem pairwise_le_insertBehind {f : N → ℕ} (h : l.Pairwise fun u v => f u ≤ f v) (n : N) :
    (insertBehind (fun v => decide (f v < f n)) n l).Pairwise fun u v => f u ≤ f v := by
  have hsplit := List.takeWhile_append_dropWhile (p := fun v => decide (f v < f n)) (l := l)
  have hold := h
  rw [← hsplit, List.pairwise_append] at hold
  rw [insertBehind, List.pairwise_append, List.pairwise_cons]
  refine ⟨hold.1, ⟨fun u hu => le_of_mem_dropWhile h hu, hold.2.1⟩, fun u hu v hv => ?_⟩
  rcases List.mem_cons.mp hv with rfl | hv
  · have hlt : f u < f v := by simpa using List.mem_takeWhile_imp hu
    exact Nat.le_of_lt hlt
  · exact hold.2.2 u hu v hv

end Chain

/-! ## Changes -/

section Changes

variable [DecidableEq A] [DecidableEq N]

/-- Take the node `n` off the list whose first one it is. -/
def take (m : Memory A N) (a : A) (n : N) : Memory A N :=
  Function.update m (.head a) (m (.follower n))

/-- Place the node `n` where the slot points to. -/
def place (m : Memory A N) (s : Slot A N) (n : N) : Memory A N :=
  Function.update (Function.update m (.follower n) (m s)) s (some n)

variable {m : Memory A N} {s t : Slot A N} {l l' : List N} {n : N}

theorem place_self (m : Memory A N) (s : Slot A N) (n : N) : place m s n s = some n :=
  Function.update_self _ _ _

theorem place_follower (hs : s ≠ .follower n) : place m s n (.follower n) = m s := by
  rw [place, Function.update_of_ne hs.symm, Function.update_self]

theorem place_of_ne (hs : t ≠ s) (hn : t ≠ .follower n) : place m s n t = m t := by
  rw [place, Function.update_of_ne hs, Function.update_of_ne hn]

/-- A node is placed between two parts of a list. -/
theorem Chain.place (h : Chain m s (l ++ l')) (hn : n ∉ l ++ l') (hs : s ≠ .follower n) :
    Chain (place m (slotAfter s l) n) s (l ++ n :: l') := by
  induction l generalizing s with
  | nil =>
    refine ⟨place_self m s n, ?_⟩
    cases l' with
    | nil => exact (place_follower hs).trans h
    | cons u l' =>
      have hkeep : ∀ v ∈ u :: l', Links.place m s n (.follower v) = m (.follower v) := fun v hv =>
        place_of_ne (h.ne_follower hv).symm fun heq => hn (Slot.follower.inj heq ▸ hv)
      exact ⟨(place_follower hs).trans h.1, h.2.congr (hkeep u List.mem_cons_self)
        fun v hv => hkeep v (List.mem_cons_of_mem u hv)⟩
  | cons u l ih =>
    have hu : Slot.follower u ≠ (Slot.follower n : Slot A N) := by
      rintro ⟨⟩
      exact hn List.mem_cons_self
    -- the slot is in one of the nodes, not the first one
    have hne : s ≠ slotAfter (.follower u) l := by
      rcases slotAfter_cases (.follower u : Slot A N) l with heq | ⟨v, hv, heq⟩
      · rw [heq]
        exact h.ne_follower List.mem_cons_self
      · rw [heq]
        exact h.ne_follower (List.mem_cons_of_mem u (List.mem_append_left l' hv))
    exact ⟨(place_of_ne hne hs).trans h.1,
      ih h.2 (fun hmem => hn (List.mem_cons_of_mem u hmem)) hu⟩

end Changes

/-! ## Many lists -/

/-- Each list is the chain of its head, and no node is on two of them. -/
structure Represents (m : Memory A N) (q : A → List N) : Prop where
  chain : ∀ a, Chain m (.head a) (q a)
  disjoint : ∀ a b n, n ∈ q a → n ∈ q b → a = b

namespace Represents

variable {m : Memory A N} {q q' : A → List N} {a b : A} {n : N} {l : List N}

theorem nodup (h : Represents m q) (a : A) : (q a).Nodup := (h.chain a).nodup

theorem head_eq (h : Represents m q) (a : A) : m (.head a) = (q a).head? := by
  have hchain := h.chain a
  cases hq : q a with
  | nil =>
    rw [hq] at hchain
    exact hchain
  | cons n l =>
    rw [hq] at hchain
    exact hchain.1

/-- The lists are those of the memory. -/
theorem unique (h : Represents m q) (h' : Represents m q') : q = q' :=
  funext fun a => (h.chain a).unique (h'.chain a)

variable [DecidableEq A] [DecidableEq N]

/-- A store to the pointer of a node on no list. -/
theorem store_follower (h : Represents m q) (hn : ∀ a, n ∉ q a) (v : Option N) :
    Represents (Function.update m (.follower n) v) q := by
  refine ⟨fun a => (h.chain a).congr ?_ fun u hu => ?_, h.disjoint⟩
  · exact Function.update_of_ne (by simp) _ _
  · refine Function.update_of_ne ?_ _ _
    rintro ⟨⟩
    exact hn a hu

/-- A list is made empty. -/
theorem store_head (h : Represents m q) (ha : q a = []) :
    Represents (Function.update m (.head a) none) q := by
  have hsame : Function.update m (.head a) none = m := by
    rw [Function.update_eq_self_iff, h.head_eq a, ha]
    rfl
  rwa [hsame]

/-- The first node is taken off a list. -/
theorem take (h : Represents m q) (hq : q a = n :: l) :
    Represents (take m a n) (Function.update q a l) ∧ ∀ b, n ∉ Function.update q a l b := by
  have hchain := h.chain a
  have hn : n ∈ q a := by
    rw [hq]
    exact List.mem_cons_self
  rw [hq] at hchain
  have hnl := hchain.2.not_mem
  refine ⟨⟨fun b => ?_, fun b c u hb hc => ?_⟩, fun b => ?_⟩
  · by_cases hab : b = a
    · subst hab
      rw [Function.update_self]
      refine hchain.2.congr (Function.update_self _ _ _) fun u hu => ?_
      exact Function.update_of_ne (by simp) _ _
    · rw [Function.update_of_ne hab]
      refine (h.chain b).congr (Function.update_of_ne (fun heq => hab (Slot.head.inj heq)) _ _)
        fun u hu => ?_
      exact Function.update_of_ne (by simp) _ _
  · -- a shorter list
    have hsub (d : A) (hd : u ∈ Function.update q a l d) : u ∈ q d := by
      by_cases had : d = a
      · subst had
        rw [Function.update_self] at hd
        rw [hq]
        exact List.mem_cons_of_mem n hd
      · rwa [Function.update_of_ne had] at hd
    exact h.disjoint b c u (hsub b hb) (hsub c hc)
  · by_cases hab : b = a
    · subst hab
      rwa [Function.update_self]
    · rw [Function.update_of_ne hab]
      exact fun hb => hab (h.disjoint b a n hb hn)

/-- A node on no list is placed behind those that meet a condition. -/
theorem place (h : Represents m q) (hn : ∀ b, n ∉ q b) (p : N → Bool) (a : A) :
    Represents (place m (slotAfter (.head a) ((q a).takeWhile p)) n)
      (Function.update q a (insertBehind p n (q a))) := by
  have hsplit := List.takeWhile_append_dropWhile (p := p) (l := q a)
  refine ⟨fun b => ?_, fun b c u hb hc => ?_⟩
  · by_cases hab : b = a
    · subst hab
      rw [Function.update_self]
      refine Chain.place ?_ ?_ (by simp)
      · rw [hsplit]
        exact h.chain b
      · rw [hsplit]
        exact hn b
    · rw [Function.update_of_ne hab]
      -- the slot belongs to the other list
      have hslot : ∀ t : Slot A N, (t = .head b ∨ ∃ u ∈ q b, t = .follower u) →
          Links.place m (slotAfter (.head a) ((q a).takeWhile p)) n t = m t := by
        intro t ht
        refine place_of_ne ?_ ?_
        · rcases slotAfter_cases (.head a : Slot A N) ((q a).takeWhile p) with heq | ⟨v, hv, heq⟩
          · rw [heq]
            rcases ht with rfl | ⟨u, -, rfl⟩
            · exact fun heq => hab (Slot.head.inj heq)
            · simp
          · rw [heq]
            rcases ht with rfl | ⟨u, hu, rfl⟩
            · simp
            · rintro ⟨⟩
              exact hab (h.disjoint b a _ hu ((List.takeWhile_prefix p).subset hv))
        · rcases ht with rfl | ⟨u, hu, rfl⟩
          · simp
          · rintro ⟨⟩
            exact hn b hu
      exact (h.chain b).congr (hslot _ (.inl rfl)) fun u hu => hslot _ (.inr ⟨u, hu, rfl⟩)
  · have hcases (d : A) (hd : u ∈ Function.update q a (insertBehind p n (q a)) d) :
        (u = n ∧ d = a) ∨ u ∈ q d := by
      by_cases had : d = a
      · subst had
        rw [Function.update_self, mem_insertBehind] at hd
        exact hd.imp_left fun heq => ⟨heq, rfl⟩
      · rw [Function.update_of_ne had] at hd
        exact .inr hd
    rcases hcases b hb with ⟨rfl, rfl⟩ | hb'
    · rcases hcases c hc with ⟨-, rfl⟩ | hc'
      · rfl
      · exact absurd hc' (hn c)
    · rcases hcases c hc with ⟨rfl, rfl⟩ | hc'
      · exact absurd hb' (hn b)
      · exact h.disjoint b c u hb' hc'

end Represents

end OlivePiccolo.Links
