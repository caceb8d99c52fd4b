import Mathlib.Logic.Function.Basic

/-!
# Custody

Resources that come into being and are given up again, and holders that have at most one of them
each. `Custody held alive` says that every resource that is alive has exactly one holder, and that
nothing else is held, so that nothing is leaked and nothing given up twice. It is kept when a holder
acquires a new resource, hands its own on, or gives it up.
-/

namespace OlivePiccolo

variable {η ρ : Type*} {held : η → Option ρ} {alive : ρ → Prop} {h h' : η} {r : ρ}

/-- Every resource that is alive has exactly one holder. -/
structure Custody (held : η → Option ρ) (alive : ρ → Prop) : Prop where
  alive_of_held : ∀ {h r}, held h = some r → alive r
  exists_held : ∀ {r}, alive r → ∃ h, held h = some r
  unique : ∀ {h h' r}, held h = some r → held h' = some r → h = h'

namespace Custody

theorem congr {held' : η → Option ρ} {alive' : ρ → Prop} (c : Custody held alive)
    (hheld : held' = held) (halive : ∀ r, alive' r ↔ alive r) : Custody held' alive' := by
  obtain rfl := hheld
  obtain rfl : alive' = alive := funext fun r => propext (halive r)
  exact c

/-- Nothing is held, and nothing alive. -/
theorem empty (hheld : ∀ h, held h = none) (halive : ∀ r, ¬ alive r) : Custody held alive where
  alive_of_held hr := by rw [hheld] at hr; cases hr
  exists_held hr := absurd hr (halive _)
  unique hr := by rw [hheld] at hr; cases hr

variable [DecidableEq η]

/-- A resource is given up. -/
theorem release (c : Custody held alive) (hr : held h = some r) :
    Custody (Function.update held h none) fun r' => alive r' ∧ r' ≠ r where
  alive_of_held {k r'} hk := by
    rcases eq_or_ne k h with rfl | hne
    · rw [Function.update_self] at hk
      cases hk
    · rw [Function.update_of_ne hne] at hk
      exact ⟨c.alive_of_held hk, fun heq => hne (c.unique (heq ▸ hk) hr)⟩
  exists_held {r'} hr' := by
    obtain ⟨k, hk⟩ := c.exists_held hr'.1
    refine ⟨k, ?_⟩
    rw [Function.update_of_ne, hk]
    rintro rfl
    exact hr'.2 (Option.some.inj (hk.symm.trans hr))
  unique {k k' r'} hk hk' := by
    rcases eq_or_ne k h with rfl | hne
    · rw [Function.update_self] at hk
      cases hk
    · rcases eq_or_ne k' h with rfl | hne'
      · rw [Function.update_self] at hk'
        cases hk'
      · rw [Function.update_of_ne hne] at hk
        rw [Function.update_of_ne hne'] at hk'
        exact c.unique hk hk'

/-- A new resource is acquired. -/
theorem acquire (c : Custody held alive) (hh : held h = none) (hr : ¬ alive r) :
    Custody (Function.update held h (some r)) fun r' => alive r' ∨ r' = r where
  alive_of_held {k r'} hk := by
    rcases eq_or_ne k h with rfl | hne
    · rw [Function.update_self] at hk
      exact .inr (Option.some.inj hk).symm
    · rw [Function.update_of_ne hne] at hk
      exact .inl (c.alive_of_held hk)
  exists_held {r'} hr' := by
    rcases hr' with hr' | rfl
    · obtain ⟨k, hk⟩ := c.exists_held hr'
      refine ⟨k, ?_⟩
      rw [Function.update_of_ne, hk]
      rintro rfl
      rw [hh] at hk
      cases hk
    · exact ⟨h, Function.update_self ..⟩
  unique {k k' r'} hk hk' := by
    rcases eq_or_ne k h with rfl | hne
    · rcases eq_or_ne k' k with rfl | hne'
      · rfl
      · rw [Function.update_self] at hk
        rw [Function.update_of_ne hne', ← hk] at hk'
        exact absurd (c.alive_of_held hk') hr
    · rcases eq_or_ne k' h with rfl | hne'
      · rw [Function.update_self] at hk'
        rw [Function.update_of_ne hne, ← hk'] at hk
        exact absurd (c.alive_of_held hk) hr
      · rw [Function.update_of_ne hne] at hk
        rw [Function.update_of_ne hne'] at hk'
        exact c.unique hk hk'

/-- A resource is handed on. -/
theorem move (c : Custody held alive) (hr : held h = some r) (hh' : held h' = none) :
    Custody (Function.update (Function.update held h none) h' (some r)) alive := by
  have hne : h' ≠ h := by
    rintro rfl
    rw [hr] at hh'
    cases hh'
  have hdead : ¬ (alive r ∧ r ≠ r) := fun hr => hr.2 rfl
  refine ((c.release hr).acquire (by rw [Function.update_of_ne hne, hh']) hdead).congr rfl
    fun r' => ?_
  constructor
  · intro hr'
    rcases eq_or_ne r' r with heq | hne
    · exact .inr heq
    · exact .inl ⟨hr', hne⟩
  · rintro (hr' | rfl)
    · exact hr'.1
    · exact c.alive_of_held hr

end Custody

end OlivePiccolo
