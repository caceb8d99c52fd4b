import Mathlib.Data.List.Basic

/-!
# The first rule that applies

A list of rules answers a request by the first rule that applies to it (`Permits`). A scan that
tests whether a rule grants before it knows that the rule applies can be stopped by a rule that does
not apply at all: `scan` asks every rule that touches the request for its grant, and ends with
success at one that fits. It never permits more than the rules do (`scan_sound`), and it permits as
much just where its way to a fitting rule is clear (`scan_iff_permits`).
-/

namespace OlivePiccolo.FirstMatch

variable {α : Type*} {touches applies fits grants : α → Bool} {rules : List α}

/-- The first rule that applies grants. -/
def Permits (applies grants : α → Bool) (rules : List α) : Prop :=
  (rules.find? applies).any grants = true

instance : Decidable (Permits applies grants rules) :=
  inferInstanceAs (Decidable ((rules.find? applies).any grants = true))

/-- Ask every rule that touches the request, until one fits. -/
def scan (touches fits grants : α → Bool) : List α → Bool
  | [] => false
  | rule :: rules =>
    if touches rule then
      if grants rule then if fits rule then true else scan touches fits grants rules
      else false
    else scan touches fits grants rules

/-- Some rule fits, and all rules up to it that touch the request grant it. -/
def Clear (touches fits grants : α → Bool) (rules : List α) : Prop :=
  ∃ front rule back, rules = front ++ rule :: back ∧ fits rule ∧
    ∀ x ∈ front ++ [rule], touches x → grants x

/-- A rule in front that does not fit but grants does not matter. -/
theorem Clear.cons {rule : α} (h : Clear touches fits grants rules)
    (hrule : touches rule → grants rule) : Clear touches fits grants (rule :: rules) := by
  obtain ⟨front, rule', back, rfl, hfits, hclear⟩ := h
  refine ⟨rule :: front, rule', back, rfl, hfits, fun x hx htouch => ?_⟩
  rcases List.mem_cons.mp hx with rfl | hx
  · exact hrule htouch
  · exact hclear x hx htouch

/-- Behind a rule that does not fit, the way is still clear. -/
theorem Clear.tail {rule : α} (h : Clear touches fits grants (rule :: rules))
    (hrule : ¬ fits rule) : Clear touches fits grants rules := by
  obtain ⟨front, rule', back, heq, hfits, hclear⟩ := h
  cases front with
  | nil =>
    obtain ⟨rfl, -⟩ := List.cons.inj heq
    exact absurd hfits hrule
  | cons x front =>
    obtain ⟨rfl, rfl⟩ := List.cons.inj heq
    exact ⟨front, rule', back, rfl, hfits, fun y hy => hclear y (List.mem_cons_of_mem _ hy)⟩

/-- The first rule is on the way. -/
theorem Clear.head {rule : α} (h : Clear touches fits grants (rule :: rules))
    (htouch : touches rule) : grants rule := by
  obtain ⟨front, rule', back, heq, -, hclear⟩ := h
  cases front with
  | nil =>
    obtain ⟨rfl, -⟩ := List.cons.inj heq
    exact hclear rule (List.mem_singleton_self _) htouch
  | cons x front =>
    obtain ⟨rfl, -⟩ := List.cons.inj heq
    exact hclear rule List.mem_cons_self htouch

/-- What the scan finds. -/
theorem scan_iff (hfits : ∀ x, fits x → touches x) :
    scan touches fits grants rules ↔ Clear touches fits grants rules := by
  induction rules with
  | nil =>
    rw [scan]
    exact ⟨fun h => absurd h (by decide), fun ⟨_, _, _, h, _⟩ => absurd h (by simp)⟩
  | cons rule rules ih =>
    rw [scan]
    split_ifs with htouch hgrants hfit
    · refine ⟨fun _ => ⟨[], rule, rules, rfl, hfit, fun x hx _ => ?_⟩, fun _ => rfl⟩
      rwa [List.mem_singleton.mp hx]
    · exact ih.trans ⟨fun h => h.cons fun _ => hgrants, fun h => h.tail hfit⟩
    · exact ⟨fun h => absurd h (by decide), fun h => absurd (h.head htouch) hgrants⟩
    · refine ih.trans ⟨fun h => h.cons fun h => absurd h htouch, fun h => h.tail fun hf => ?_⟩
      exact htouch (hfits rule hf)

/-- A clear way leads past a rule that applies, so the first of these grants. -/
theorem Clear.permits (h : Clear touches fits grants rules) (hfits : ∀ x, fits x → applies x)
    (happ : ∀ x, applies x → touches x) : Permits applies grants rules := by
  obtain ⟨front, rule, back, rfl, hfit, hclear⟩ := h
  rw [Permits, Option.any_eq_true]
  have hsome : ((front ++ [rule]).find? applies).isSome :=
    List.find?_isSome.mpr ⟨rule, List.mem_append_right _ (List.mem_singleton_self _), hfits _ hfit⟩
  obtain ⟨x, hx⟩ := Option.isSome_iff_exists.mp hsome
  refine ⟨x, ?_, hclear x (List.mem_of_find?_eq_some hx) (happ x (List.find?_some hx))⟩
  rw [← List.singleton_append, ← List.append_assoc, List.find?_append, hx, Option.some_or]

/-- **Soundness.** The scan permits nothing that the rules do not. -/
theorem scan_sound (hfits : ∀ x, fits x → applies x) (happ : ∀ x, applies x → touches x)
    (h : scan touches fits grants rules) : Permits applies grants rules :=
  ((scan_iff fun x hx => happ x (hfits x hx)).mp h).permits hfits happ

/-- **Completeness.** It permits the same if and only if the way is clear for what the rules
permit. -/
theorem scan_iff_permits (hfits : ∀ x, fits x → applies x) (happ : ∀ x, applies x → touches x) :
    (scan touches fits grants rules ↔ Permits applies grants rules) ↔
      (Permits applies grants rules → Clear touches fits grants rules) := by
  rw [scan_iff fun x hx => happ x (hfits x hx)]
  exact ⟨fun h => h.mpr, fun h => ⟨fun hc => hc.permits hfits happ, h⟩⟩

end OlivePiccolo.FirstMatch
