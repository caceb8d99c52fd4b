import Mathlib.Data.List.Basic
import Mathlib.Logic.Function.Basic

/-!
# Ring buffers

A ring of `capacity` cells holds a window of a stream: the element at position `i` of the stream is
in cell `i % capacity`. The window may grow at its end as long as it is no longer than the ring, and
may shrink at its front at any time.
-/

namespace OlivePiccolo

variable {α : Type*}

/-- The cells hold the elements of `stream` from position `start` on. -/
def Window (cells : ℕ → α) (capacity : ℕ) (stream : List α) (start : ℕ) : Prop :=
  ∀ i, start ≤ i → i < stream.length → stream[i]? = some (cells (i % capacity))

/-- Two positions less than a round apart are in different cells. -/
theorem mod_ne_of_lt {capacity i j : ℕ} (hij : i < j) (hj : j < i + capacity) :
    i % capacity ≠ j % capacity := by
  intro h
  have hdvd : capacity ∣ j - i := Nat.dvd_of_mod_eq_zero (Nat.sub_mod_eq_zero_of_mod_eq h.symm)
  have := Nat.le_of_dvd (by omega) hdvd
  omega

/-- The cell behind `n` more positions: the round is over at most once. -/
theorem add_mod_cases {capacity n : ℕ} (start : ℕ) (hn : n < capacity) :
    (start + n) % capacity = start % capacity + n ∨
      (start + n) % capacity + capacity = start % capacity + n := by
  have hlt := Nat.mod_lt start (Nat.zero_lt_of_lt hn)
  rw [← Nat.mod_add_mod]
  by_cases h : start % capacity + n < capacity
  · exact Or.inl (Nat.mod_eq_of_lt h)
  · rw [Nat.mod_eq_sub_mod (Nat.not_lt.mp h), Nat.mod_eq_of_lt (by omega)]
    omega

namespace Window

variable {cells : ℕ → α} {capacity start : ℕ} {stream : List α}

theorem empty (cells : ℕ → α) (capacity : ℕ) : Window cells capacity [] 0 :=
  fun i _ hi => absurd hi (Nat.not_lt_zero i)

/-- One more element, in the cell behind the window. -/
theorem push (h : Window cells capacity stream start) (hroom : stream.length < start + capacity)
    (x : α) :
    Window (Function.update cells (stream.length % capacity) x) capacity (stream ++ [x]) start := by
  intro i hstart hi
  rw [List.length_append, List.length_singleton] at hi
  rcases Nat.lt_succ_iff_lt_or_eq.mp hi with hlt | rfl
  · have hne : i % capacity ≠ stream.length % capacity := mod_ne_of_lt hlt (by omega)
    rw [Function.update_of_ne hne, List.getElem?_append_left hlt]
    exact h i hstart hlt
  · rw [Function.update_self, List.getElem?_append_right (Nat.le_refl _), Nat.sub_self]
    rfl

/-- The elements at the front may be given up. -/
theorem advance (h : Window cells capacity stream start) {start' : ℕ} (hle : start ≤ start') :
    Window cells capacity stream start' :=
  fun i hi => h i (Nat.le_trans hle hi)

/-- A part of the stream is held as well. -/
theorem of_prefix (h : Window cells capacity stream start) {stream' : List α}
    (hp : stream' <+: stream) : Window cells capacity stream' start := by
  intro i hstart hi
  rw [← h i hstart (Nat.lt_of_lt_of_le hi hp.length_le)]
  obtain ⟨rest, rfl⟩ := hp
  rw [List.getElem?_append_left hi]

/-- What is read behind a prefix of the stream makes a longer prefix. -/
theorem snoc_prefix (h : Window cells capacity stream start) {read : List α}
    (hp : read <+: stream) (hstart : start ≤ read.length) (hlt : read.length < stream.length) :
    read ++ [cells (read.length % capacity)] <+: stream := by
  have hget := h read.length hstart hlt
  obtain ⟨rest, rfl⟩ := hp
  rw [List.getElem?_append_right (Nat.le_refl _), Nat.sub_self] at hget
  cases rest with
  | nil => simp at hget
  | cons x rest =>
    rw [List.getElem?_cons_zero, Option.some_inj] at hget
    exact ⟨rest, by rw [← hget, List.append_assoc]; rfl⟩

end Window

end OlivePiccolo
