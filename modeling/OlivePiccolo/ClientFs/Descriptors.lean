import Mathlib.Data.Int.Order.Basic
import Mathlib.Data.Nat.Basic
import Mathlib.Order.Basic
import OlivePiccolo.ClientFs.Table
import OlivePiccolo.Library.Custody

/-!
# Descriptors are closed once

What keeps the table exact is that every open descriptor is in the custody of one slot or of one
worker, and every slot that is allocated in the custody of one worker. A call takes a descriptor out
of its slot in two accesses, a read and a write. As long as the slot still holds the descriptor when
it is overwritten (`Unchanged`), and `fs.close` does not put a number back that the HAL has released
(`Reported`), nothing is closed twice or lost.
-/

namespace OlivePiccolo.ClientFs

open Runs

/-! ## What a worker has in its hands -/

/-- The slot that a worker has allocated. -/
def Pc.slot {n : ℕ} : Pc n → Option (Fin n)
  | .allocPost vfd => vfd
  | .osOpen vfd | .openFailed vfd | .commit vfd _ | .osClose vfd _ | .closeFree vfd => some vfd
  | _ => none

/-- The descriptor that a worker has opened, or has taken out of a slot. -/
def Pc.fd {n : ℕ} : Pc n → Option ℕ
  | .commit _ fd | .closeCanceled _ fd | .osClose _ fd | .cleanClose _ fd => some fd
  | _ => none

/-- The worker has taken `sem_lock`. -/
def Pc.Locked {n : ℕ} : Pc n → Prop
  | .allocRead _ | .allocWrite _ | .allocPost _ => True
  | .cleanIrq _ | .cleanFree _ _ | .cleanClose _ _ | .cleanPost => True
  | _ => False

/-- How many slots `fs.cleanup` has cleaned. -/
def Pc.cleaned {n : ℕ} : Pc n → ℕ
  | .cleanIrq vfd | .cleanFree vfd _ => vfd
  | .cleanClose vfd _ => vfd + 1
  | .cleanPost => n
  | _ => 0

/-- Nothing has to be known of a slot. -/
def Pc.Plain {n : ℕ} : Pc n → Prop
  | .allocWrite _ | .commit _ _ | .restore _ _ => False
  | _ => True

section

variable {n i : ℕ}

@[simp] theorem allocNext_slot : (allocNext n i).slot = none := by
  rw [allocNext]; split_ifs <;> rfl

@[simp] theorem allocNext_fd : (allocNext n i).fd = none := by
  rw [allocNext]; split_ifs <;> rfl

@[simp] theorem allocNext_cleaned : (allocNext n i).cleaned = 0 := by
  rw [allocNext]; split_ifs <;> rfl

@[simp] theorem cleanNext_slot : (cleanNext n i).slot = none := by
  rw [cleanNext]; split_ifs <;> rfl

@[simp] theorem cleanNext_fd : (cleanNext n i).fd = none := by
  rw [cleanNext]; split_ifs <;> rfl

theorem cleanNext_cleaned : (cleanNext n i).cleaned = min i n := by
  rw [cleanNext]
  split_ifs with h
  · exact (Nat.min_eq_left (Nat.le_of_lt h)).symm
  · exact (Nat.min_eq_right (Nat.not_lt.mp h)).symm

theorem Pc.locked_of_cleaned {p : Pc n} (h : 0 < p.cleaned) : p.Locked := by
  cases p <;> trivial

theorem allocNext_plain : (allocNext n i).Plain := by
  rw [allocNext]; split_ifs <;> trivial

/-- The slots in front of the next one, but for the last of them. -/
theorem lt_of_cleanNext {vfd vfd' : Fin n} (hne : vfd' ≠ vfd)
    (h : vfd'.val < (cleanNext n (vfd + 1)).cleaned) : vfd'.val < vfd := by
  rw [cleanNext_cleaned] at h
  exact lt_of_le_of_ne (Nat.lt_succ_iff.mp (lt_of_lt_of_le h (Nat.min_le_left _ _)))
    fun heq => hne (Fin.ext heq)

theorem cleanNext_plain : (cleanNext n i).Plain := by
  rw [cleanNext]; split_ifs <;> trivial

end

/-- The descriptor in a slot. -/
def fdOf (v : ℤ) : Option ℕ := if 0 ≤ v then some v.toNat else none

theorem fdOf_eq_some {v : ℤ} {fd : ℕ} : fdOf v = some fd ↔ v = fd := by
  rw [fdOf, Option.ite_none_right_eq_some, Option.some.injEq]
  omega

theorem fdOf_of_neg {v : ℤ} (h : v < 0) : fdOf v = none := if_neg (not_le.mpr h)

/-- The slot is allocated, and does not hold a descriptor yet or any more. -/
def Busy (v : ℤ) : Prop := v = VFD_ALLOC ∨ v = VFD_CANCELED

theorem Busy.neg {v : ℤ} (h : Busy v) : v < 0 := by
  rcases h with rfl | rfl <;> decide

/-- The slot has been cleaned. -/
def Cleaned (v : ℤ) : Prop := v = VFD_FREE ∨ v = VFD_CANCELED

namespace Table

variable {ι : Type*} {n : ℕ} {s t : Table ι n} {w : ι} {vfd : Fin n} {fd : ℕ} {p : Pc n} {v : ℤ}

theorem isOpen_osOpen (vfd : Fin n) (hfd : s.opened fd = s.closed fd) (fd' : ℕ) :
    (s.osOpen vfd fd).IsOpen fd' ↔ s.IsOpen fd' ∨ fd' = fd := by
  rw [IsOpen, IsOpen, osOpen]
  rcases eq_or_ne fd' fd with rfl | hne
  · simp only [Function.update_self, hfd, or_true, iff_true]
    omega
  · simp only [Function.update_of_ne hne, hne, or_false]

theorem isOpen_osClose (hfd : s.opened fd ≤ s.closed fd + 1) (fd' : ℕ) :
    (s.osClose fd).IsOpen fd' ↔ s.IsOpen fd' ∧ fd' ≠ fd := by
  rw [IsOpen, IsOpen, osClose]
  rcases eq_or_ne fd' fd with rfl | hne
  · simp only [Function.update_self, ne_eq, not_true_eq_false, and_false, iff_false]
    omega
  · simp only [Function.update_of_ne hne, ne_eq, hne, not_false_eq_true, and_true]

variable [DecidableEq ι]

/-- What a step does. -/
inductive Step (s : Table ι n) (w : ι) : Input → Table ι n → Prop
  | start (request : Request) (hpc : s.pc w = .idle) :
      Step s w (.start request) (s.goto w request.entry)
  | allocPend (hpc : s.pc w = .allocPend) (hsem : s.semLock = none) :
      Step s w .none ((s.pend w).goto w (allocNext n 0))
  | allocFound (vfd : Fin n) (hpc : s.pc w = .allocRead vfd) (hv : s.vfdList vfd = VFD_FREE) :
      Step s w .none (s.goto w (.allocWrite vfd))
  | allocSkip (vfd : Fin n) (hpc : s.pc w = .allocRead vfd) :
      Step s w .none (s.goto w (allocNext n (vfd + 1)))
  | allocWrite (vfd : Fin n) (hpc : s.pc w = .allocWrite vfd) :
      Step s w .none ((s.write vfd VFD_ALLOC).goto w (.allocPost (some vfd)))
  | allocFull (hpc : s.pc w = .allocPost none) : Step s w .none (s.post.goto w .idle)
  | allocDone (vfd : Fin n) (hpc : s.pc w = .allocPost (some vfd)) :
      Step s w .none (s.post.goto w (.osOpen vfd))
  | openError (vfd : Fin n) (hpc : s.pc w = .osOpen vfd) :
      Step s w (.opened none) (s.goto w (.openFailed vfd))
  | opened (vfd : Fin n) (fd : ℕ) (hpc : s.pc w = .osOpen vfd) (hfd : s.opened fd ≤ s.closed fd) :
      Step s w (.opened (some fd)) ((s.osOpen vfd fd).goto w (.commit vfd fd))
  | openFailed (vfd : Fin n) (hpc : s.pc w = .openFailed vfd) :
      Step s w .none ((s.write vfd VFD_FREE).goto w .idle)
  | commit (vfd : Fin n) (fd : ℕ) (hpc : s.pc w = .commit vfd fd)
      (hv : s.vfdList vfd = VFD_ALLOC) : Step s w .none ((s.write vfd fd).goto w .idle)
  | cancel (vfd : Fin n) (fd : ℕ) (hpc : s.pc w = .commit vfd fd)
      (hv : s.vfdList vfd ≠ VFD_ALLOC) :
      Step s w .none ((s.write vfd VFD_FREE).goto w (.closeCanceled vfd fd))
  | closeCanceled (vfd : Fin n) (fd : ℕ) (ok : Bool) (hpc : s.pc w = .closeCanceled vfd fd) :
      Step s w (.closed ok) ((s.osClose fd).goto w .idle)
  | getFd (vfd : ℤ) (hpc : s.pc w = .getFd vfd) : Step s w .none (s.goto w (s.getFd vfd))
  | closeAlloc (vfd : Fin n) (fd : ℕ) (hpc : s.pc w = .closeAlloc vfd fd) :
      Step s w .none ((s.write vfd VFD_ALLOC).goto w (.osClose vfd fd))
  | osClose (vfd : Fin n) (fd : ℕ) (hpc : s.pc w = .osClose vfd fd) :
      Step s w (.closed true) ((s.osClose fd).goto w (.closeFree vfd))
  | closeError (vfd : Fin n) (fd : ℕ) (hpc : s.pc w = .osClose vfd fd) :
      Step s w (.closed false) ((s.osClose fd).goto w (.restore vfd fd))
  | restore (vfd : Fin n) (fd : ℕ) (hpc : s.pc w = .restore vfd fd) :
      Step s w .none ((s.write vfd fd).goto w .idle)
  | closeFree (vfd : Fin n) (hpc : s.pc w = .closeFree vfd) :
      Step s w .none ((s.write vfd VFD_FREE).goto w .idle)
  | cleanPend (hpc : s.pc w = .cleanPend) (hsem : s.semLock = none) :
      Step s w .none ((s.pend w).goto w (cleanNext n 0))
  | cleanFound (vfd : Fin n) (hpc : s.pc w = .cleanIrq vfd) (hv : 0 ≤ s.vfdList vfd) :
      Step s w .none (s.goto w (.cleanFree vfd (s.vfdList vfd).toNat))
  | cleanCancel (vfd : Fin n) (hpc : s.pc w = .cleanIrq vfd) (hv : s.vfdList vfd = VFD_ALLOC) :
      Step s w .none ((s.write vfd VFD_CANCELED).goto w (cleanNext n (vfd + 1)))
  | cleanSkip (vfd : Fin n) (hpc : s.pc w = .cleanIrq vfd) (hneg : s.vfdList vfd < 0)
      (hv : s.vfdList vfd ≠ VFD_ALLOC) : Step s w .none (s.goto w (cleanNext n (vfd + 1)))
  | cleanFree (vfd : Fin n) (fd : ℕ) (hpc : s.pc w = .cleanFree vfd fd) :
      Step s w .none ((s.write vfd VFD_FREE).goto w (.cleanClose vfd fd))
  | cleanClose (vfd : Fin n) (fd : ℕ) (ok : Bool) (hpc : s.pc w = .cleanClose vfd fd) :
      Step s w (.closed ok) ((s.osClose fd).goto w (cleanNext n (vfd + 1)))
  | cleanPost (hpc : s.pc w = .cleanPost) : Step s w .none (s.post.goto w .idle)

theorem Step.of_step {e : ι × Input} (h : s.step e = some t) : Step s e.1 e.2 t := by
  obtain ⟨w, input⟩ := e
  simp only [step] at h
  split at h
  case h_1 hpc => cases h; exact .start _ hpc
  case h_2 hpc =>
    split_ifs at h with hsem
    cases h
    exact .allocPend hpc hsem
  case h_3 vfd hpc =>
    split_ifs at h with hv
    · cases h; exact .allocFound vfd hpc hv
    · cases h; exact .allocSkip vfd hpc
  case h_4 vfd hpc => cases h; exact .allocWrite vfd hpc
  case h_5 hpc => cases h; exact .allocFull hpc
  case h_6 vfd hpc => cases h; exact .allocDone vfd hpc
  case h_7 vfd hpc => cases h; exact .openError vfd hpc
  case h_8 vfd fd hpc =>
    split_ifs at h with hfd
    cases h
    exact .opened vfd fd hpc hfd.2
  case h_9 vfd hpc => cases h; exact .openFailed vfd hpc
  case h_10 vfd fd hpc =>
    split_ifs at h with hv
    · cases h; exact .commit vfd fd hpc hv
    · cases h; exact .cancel vfd fd hpc hv
  case h_11 vfd fd ok hpc => cases h; exact .closeCanceled vfd fd ok hpc
  case h_12 vfd hpc => cases h; exact .getFd vfd hpc
  case h_13 vfd fd hpc => cases h; exact .closeAlloc vfd fd hpc
  case h_14 vfd fd ok hpc =>
    cases h
    cases ok with
    | true => exact .osClose vfd fd hpc
    | false => exact .closeError vfd fd hpc
  case h_15 vfd fd hpc => cases h; exact .restore vfd fd hpc
  case h_16 vfd hpc => cases h; exact .closeFree vfd hpc
  case h_17 hpc =>
    split_ifs at h with hsem
    cases h
    exact .cleanPend hpc hsem
  case h_18 vfd hpc =>
    cases h
    by_cases halloc : s.vfdList vfd = VFD_ALLOC
    · rw [if_pos halloc, if_neg (by rw [halloc]; decide)]
      exact .cleanCancel vfd hpc halloc
    · rw [if_neg halloc]
      split_ifs with hv
      · exact .cleanFound vfd hpc hv
      · exact .cleanSkip vfd hpc (not_le.mp hv) halloc
  case h_19 vfd fd hpc => cases h; exact .cleanFree vfd fd hpc
  case h_20 vfd fd ok hpc => cases h; exact .cleanClose vfd fd ok hpc
  case h_21 hpc => cases h; exact .cleanPost hpc
  case h_22 => cases h

/-! ## Custody of descriptors -/

/-- What a slot or a worker holds. -/
def held (s : Table ι n) : Fin n ⊕ ι → Option ℕ
  | .inl vfd => fdOf (s.vfdList vfd)
  | .inr w => (s.pc w).fd

theorem held_goto (s : Table ι n) (w : ι) (p : Pc n) :
    (s.goto w p).held = Function.update s.held (.inr w) p.fd := by
  funext h
  cases h with
  | inl vfd => rw [Function.update_of_ne Sum.inl_ne_inr]; rfl
  | inr w' =>
    rcases eq_or_ne w' w with rfl | hne
    · rw [Function.update_self, held, goto_self]
    · rw [Function.update_of_ne fun h => hne (Sum.inr.inj h), held, goto_of_ne s hne, held]

theorem held_write (s : Table ι n) (vfd : Fin n) (v : ℤ) :
    (s.write vfd v).held = Function.update s.held (.inl vfd) (fdOf v) := by
  funext h
  cases h with
  | inr w => rw [Function.update_of_ne Sum.inr_ne_inl]; rfl
  | inl vfd' =>
    rcases eq_or_ne vfd' vfd with rfl | hne
    · rw [Function.update_self, held, write_self]
    · rw [Function.update_of_ne fun h => hne (Sum.inl.inj h), held, write_of_ne s hne, held]

/-- Every open descriptor is in the custody of one slot or of one worker. -/
def Fds (s : Table ι n) : Prop := Custody s.held s.IsOpen

namespace Fds

theorem goto (h : Fds s) (hp : p.fd = (s.pc w).fd) : Fds (s.goto w p) := by
  refine Custody.congr h ?_ fun _ => Iff.rfl
  rw [held_goto, hp]
  exact Function.update_eq_self (f := s.held) (.inr w)

theorem write (h : Fds s) (hv : fdOf v = fdOf (s.vfdList vfd)) : Fds (s.write vfd v) := by
  refine Custody.congr h ?_ fun _ => Iff.rfl
  rw [held_write, hv]
  exact Function.update_eq_self (f := s.held) (.inl vfd)

/-- A worker takes the descriptor out of a slot. -/
theorem take (h : Fds s) (hslot : s.vfdList vfd = fd) (hw : (s.pc w).fd = none) (hv : v < 0)
    (hp : p.fd = some fd) : Fds ((s.write vfd v).goto w p) := by
  have hheld : s.held (.inl vfd) = some fd := fdOf_eq_some.mpr hslot
  have hnone : s.held (.inr w) = none := hw
  refine Custody.congr (Custody.move h hheld hnone) ?_ fun _ => Iff.rfl
  rw [held_goto, held_write, hp, fdOf_of_neg hv]

/-- A worker puts its descriptor into a slot. -/
theorem put (h : Fds s) (hslot : s.vfdList vfd < 0) (hw : (s.pc w).fd = some fd)
    (hp : p.fd = none) : Fds ((s.write vfd fd).goto w p) := by
  have hheld : s.held (.inr w) = some fd := hw
  have hnone : s.held (.inl vfd) = none := fdOf_of_neg hslot
  refine Custody.congr (Custody.move h hheld hnone) ?_ fun _ => Iff.rfl
  rw [held_goto, held_write, hp, fdOf_eq_some.mpr rfl, Function.update_comm Sum.inl_ne_inr]

/-- A worker opens a descriptor. -/
theorem opened (h : Fds s) (hfd : s.opened fd = s.closed fd) (hw : (s.pc w).fd = none)
    (hp : p.fd = some fd) : Fds ((s.osOpen vfd fd).goto w p) := by
  have hnone : s.held (.inr w) = none := hw
  have hclosed : ¬ s.IsOpen fd := by
    rw [IsOpen, hfd]
    exact Nat.lt_irrefl _
  refine Custody.congr (Custody.acquire h hnone hclosed) ?_ (isOpen_osOpen vfd hfd)
  rw [held_goto, hp]
  rfl

/-- A worker closes its descriptor. -/
theorem closed (h : Fds s) (hfd : s.opened fd ≤ s.closed fd + 1) (hw : (s.pc w).fd = some fd)
    (hp : p.fd = none) : Fds ((s.osClose fd).goto w p) := by
  have hheld : s.held (.inr w) = some fd := hw
  refine Custody.congr (Custody.release h hheld) ?_ (isOpen_osClose hfd)
  rw [held_goto, hp]
  rfl

omit [DecidableEq ι] in
theorem isOpen_slot (h : Fds s) (hslot : s.vfdList vfd = fd) : s.IsOpen fd :=
  Custody.alive_of_held h (show s.held (.inl vfd) = some fd from fdOf_eq_some.mpr hslot)

omit [DecidableEq ι] in
theorem isOpen_worker (h : Fds s) (hw : (s.pc w).fd = some fd) : s.IsOpen fd :=
  Custody.alive_of_held h (show s.held (.inr w) = some fd from hw)

end Fds

/-! ## Custody of slots -/

/-- The slot that a worker has allocated. -/
def owned (s : Table ι n) (w : ι) : Option (Fin n) := (s.pc w).slot

theorem owned_goto (s : Table ι n) (w : ι) (p : Pc n) :
    (s.goto w p).owned = Function.update s.owned w p.slot := by
  funext w'
  rcases eq_or_ne w' w with rfl | hne
  · rw [Function.update_self, owned, goto_self]
  · rw [Function.update_of_ne hne, owned, goto_of_ne s hne, owned]

/-- Every allocated slot is in the custody of one worker. -/
def Slots (s : Table ι n) : Prop := Custody s.owned fun vfd => Busy (s.vfdList vfd)

namespace Slots

theorem goto (h : Slots s) (hp : p.slot = (s.pc w).slot) : Slots (s.goto w p) := by
  refine Custody.congr h ?_ fun _ => Iff.rfl
  rw [owned_goto, hp]
  exact Function.update_eq_self (f := s.owned) w

omit [DecidableEq ι] in
theorem write (h : Slots s) (hv : Busy v ↔ Busy (s.vfdList vfd)) : Slots (s.write vfd v) := by
  refine Custody.congr h rfl fun vfd' => ?_
  rcases eq_or_ne vfd' vfd with rfl | hne
  · rw [write_self, hv]
  · rw [write_of_ne s hne]

/-- A worker allocates a slot. -/
theorem take (h : Slots s) (hslot : ¬ Busy (s.vfdList vfd)) (hw : (s.pc w).slot = none)
    (hv : Busy v) (hp : p.slot = some vfd) : Slots ((s.write vfd v).goto w p) := by
  refine Custody.congr (Custody.acquire h hw hslot) ?_ fun vfd' => ?_
  · rw [owned_goto, hp]
    rfl
  · rcases eq_or_ne vfd' vfd with rfl | hne
    · simp only [goto_vfdList, write_self, hv, or_true]
    · simp only [goto_vfdList, write_of_ne s hne, hne, or_false]

/-- A worker gives its slot back, or puts a descriptor into it. -/
theorem give (h : Slots s) (hw : (s.pc w).slot = some vfd) (hv : ¬ Busy v) (hp : p.slot = none) :
    Slots ((s.write vfd v).goto w p) := by
  refine Custody.congr (Custody.release h hw) ?_ fun vfd' => ?_
  · rw [owned_goto, hp]
    rfl
  · rcases eq_or_ne vfd' vfd with rfl | hne
    · simp only [goto_vfdList, write_self, hv, ne_eq, not_true_eq_false, and_false]
    · simp only [goto_vfdList, write_of_ne s hne, ne_eq, hne, not_false_eq_true, and_true]

omit [DecidableEq ι] in
theorem busy (h : Slots s) (hw : (s.pc w).slot = some vfd) : Busy (s.vfdList vfd) :=
  Custody.alive_of_held h (show s.owned w = some vfd from hw)

end Slots

/-! ## Under the semaphore -/

/-- What holds while a worker has taken `sem_lock`. -/
structure Scan (s : Table ι n) : Prop where
  lock : ∀ w, (s.pc w).Locked → s.semLock = some w
  free : ∀ w vfd, s.pc w = .allocWrite vfd → s.vfdList vfd = VFD_FREE
  cleaned : ∀ w (vfd : Fin n), vfd.val < (s.pc w).cleaned → Cleaned (s.vfdList vfd)

namespace Scan

theorem goto (h : Scan s) (hl : p.Locked → s.semLock = some w)
    (hf : ∀ vfd, p = .allocWrite vfd → s.vfdList vfd = VFD_FREE)
    (hc : ∀ vfd : Fin n, vfd.val < p.cleaned → Cleaned (s.vfdList vfd)) : Scan (s.goto w p) := by
  refine ⟨fun w' => ?_, fun w' vfd => ?_, fun w' vfd => ?_⟩
  all_goals
    rcases eq_or_ne w' w with rfl | hne
    · simp only [goto_self, goto_vfdList]
      first | exact hl | exact hf vfd | exact hc vfd
    · simp only [goto_of_ne s hne, goto_vfdList]
      first | exact h.lock w' | exact h.free w' vfd | exact h.cleaned w' vfd

/-- A step to a place where nothing has been cleaned. -/
theorem plain (h : Scan s) (hl : p.Locked → s.semLock = some w) (hp : p.Plain)
    (hc : p.cleaned = 0) : Scan (s.goto w p) :=
  h.goto hl (fun vfd heq => by subst heq; exact hp.elim) fun vfd hlt => by
    rw [hc] at hlt; exact absurd hlt (Nat.not_lt_zero _)

omit [DecidableEq ι] in
theorem write (h : Scan s) (hf : ∀ w, s.pc w ≠ .allocWrite vfd)
    (hc : Cleaned v ∨ ∀ w, (s.pc w).cleaned ≤ vfd) : Scan (s.write vfd v) := by
  refine ⟨h.lock, fun w vfd' hw => ?_, fun w vfd' hlt => ?_⟩
  · rw [write_of_ne]
    · exact h.free w vfd' hw
    · rintro rfl
      exact hf w hw
  · rcases eq_or_ne vfd' vfd with rfl | hne
    · rw [write_self]
      exact hc.resolve_right fun hle => Nat.not_lt.mpr (hle w) hlt
    · rw [write_of_ne s hne]
      exact h.cleaned w vfd' hlt

omit [DecidableEq ι] in
theorem pend (h : Scan s) (hsem : s.semLock = none) : Scan (s.pend w) := by
  refine ⟨fun w' hl => ?_, h.free, h.cleaned⟩
  have := h.lock w' hl
  rw [hsem] at this
  cases this

/-- The semaphore is given back by the worker that had taken it. -/
theorem post (h : Scan s) (hw : (s.pc w).Locked) (hl : ¬ p.Locked) (hp : p.Plain)
    (hc : p.cleaned = 0) : Scan (s.post.goto w p) := by
  have hgoto : Scan (s.goto w p) := h.plain (fun h => absurd h hl) hp hc
  refine ⟨fun w' hlock => ?_, hgoto.free, hgoto.cleaned⟩
  rcases eq_or_ne w' w with rfl | hne
  · rw [goto_self] at hlock
    exact absurd hlock hl
  · rw [goto_of_ne _ hne] at hlock
    exact absurd (Option.some.inj ((h.lock w' hlock).symm.trans (h.lock w hw))) hne

/-- A worker writes a slot that is not free, and goes on. -/
theorem write_goto (h : Scan s) (hl : p.Locked → (s.pc w).Locked) (hp : p.Plain)
    (hfree : s.vfdList vfd ≠ VFD_FREE) (hv : Cleaned v ∨ ¬ Cleaned (s.vfdList vfd))
    (hself : vfd.val < p.cleaned → Cleaned v)
    (hc : ∀ vfd' : Fin n, vfd' ≠ vfd → vfd'.val < p.cleaned → Cleaned (s.vfdList vfd')) :
    Scan ((s.write vfd v).goto w p) := by
  have hwrite : Scan (s.write vfd v) := by
    refine h.write (fun w' hw' => hfree (h.free w' vfd hw')) (hv.imp_right fun hold w' => ?_)
    exact not_lt.mp fun hlt => hold (h.cleaned w' vfd hlt)
  refine hwrite.goto (fun hlock => h.lock w (hl hlock))
    (fun vfd' heq => by subst heq; exact hp.elim) fun vfd' hlt => ?_
  rcases eq_or_ne vfd' vfd with rfl | hne
  · rw [write_self]
    exact hself hlt
  · rw [write_of_ne s hne]
    exact hc vfd' hne hlt

/-- A worker that has the semaphore writes a slot that it has found free. -/
theorem write_free (h : Scan s) (hw : (s.pc w).Locked) (hp : p.Plain) (hc : p.cleaned = 0) :
    Scan ((s.write vfd v).goto w p) := by
  have hother : ∀ w', (s.pc w').Locked → w' = w := fun w' hlock =>
    Option.some.inj ((h.lock w' hlock).symm.trans (h.lock w hw))
  have hgoto : Scan (s.goto w p) := h.plain (fun _ => h.lock w hw) hp hc
  refine hgoto.write (fun w' hw' => ?_) (.inr fun w' => ?_)
  · rcases eq_or_ne w' w with rfl | hne
    · rw [goto_self] at hw'
      subst hw'
      exact hp.elim
    · rw [goto_of_ne s hne] at hw'
      exact hne (hother w' (by rw [hw']; trivial))
  · rcases eq_or_ne w' w with rfl | hne
    · rw [goto_self, hc]
      exact Nat.zero_le _
    · rw [goto_of_ne s hne]
      exact not_lt.mp fun hlt => hne (hother w' (Pc.locked_of_cleaned (Nat.zero_lt_of_lt hlt)))

end Scan

/-! ## The invariant -/

/-- What is in a slot, and for which slot a descriptor has been obtained. -/
structure Marks (s : Table ι n) : Prop where
  values : ∀ vfd, s.vfdList vfd = VFD_FREE ∨ Busy (s.vfdList vfd) ∨ 0 ≤ s.vfdList vfd
  slot : ∀ (vfd : Fin n) (fd : ℕ), s.vfdList vfd = fd → s.obtained fd = some vfd
  commit : ∀ w vfd fd, s.pc w = .commit vfd fd → s.obtained fd = some vfd
  not_restore : ∀ w vfd fd, s.pc w ≠ .restore vfd fd

namespace Marks

theorem goto (h : Marks s) (hc : ∀ vfd fd, p = .commit vfd fd → s.obtained fd = some vfd)
    (hr : ∀ vfd fd, p ≠ .restore vfd fd) : Marks (s.goto w p) := by
  refine ⟨h.values, h.slot, fun w' vfd fd => ?_, fun w' vfd fd => ?_⟩
  all_goals
    rcases eq_or_ne w' w with rfl | hne
    · rw [goto_self]
      first | exact hc vfd fd | exact hr vfd fd
    · rw [goto_of_ne s hne]
      first | exact h.commit w' vfd fd | exact h.not_restore w' vfd fd

theorem plain (h : Marks s) (hp : p.Plain) : Marks (s.goto w p) :=
  h.goto (fun vfd fd heq => by subst heq; exact hp.elim) fun vfd fd heq => by
    subst heq; exact hp.elim

omit [DecidableEq ι] in
theorem write (h : Marks s) (hv : v = VFD_FREE ∨ Busy v ∨ 0 ≤ v)
    (ho : ∀ fd : ℕ, v = fd → s.obtained fd = some vfd) : Marks (s.write vfd v) := by
  refine ⟨fun vfd' => ?_, fun vfd' fd => ?_, h.commit, h.not_restore⟩
  all_goals
    rcases eq_or_ne vfd' vfd with rfl | hne
    · rw [write_self]
      first | exact hv | exact ho fd
    · rw [write_of_ne s hne]
      first | exact h.values vfd' | exact h.slot vfd' fd

omit [DecidableEq ι] in
/-- A mark that is not a descriptor. -/
theorem write_neg (h : Marks s) (hv : v = VFD_FREE ∨ Busy v) : Marks (s.write vfd v) := by
  refine h.write (by rcases hv with hv | hv <;> tauto) fun fd heq => ?_
  have hneg : v < 0 := by
    rcases hv with rfl | hv
    · decide
    · exact hv.neg
  omega

end Marks

/-- What holds in every state. -/
structure Inv (s : Table ι n) : Prop where
  fds : Fds s
  slots : Slots s
  scan : Scan s
  marks : Marks s
  count : ∀ fd, s.closed fd ≤ s.opened fd ∧ s.opened fd ≤ s.closed fd + 1

/-- The slot still holds the descriptor that has been read from it when it is overwritten. -/
def Unchanged (s : Table ι n) (e : ι × Input) : Prop :=
  match s.pc e.1 with
  | .closeAlloc vfd fd | .cleanFree vfd fd => s.vfdList vfd = fd
  | _ => True

/-- `close` does not report an error to `fs.close`. -/
def Reported (s : Table ι n) (e : ι × Input) : Prop :=
  match s.pc e.1 with
  | .osClose _ _ => e.2 ≠ .closed false
  | _ => True

omit [DecidableEq ι] in
theorem Inv.initial : Inv (initial ι n) where
  fds := Custody.empty (fun h => by cases h <;> rfl) fun _ => Nat.lt_irrefl 0
  slots := Custody.empty (fun _ => rfl) fun _ h => by rcases h with h | h <;> cases h
  scan := ⟨fun _ h => h.elim, fun _ _ h => (by cases h), fun _ _ h => absurd h (Nat.not_lt_zero _)⟩
  marks := ⟨fun _ => .inl rfl, fun _ _ h => (by cases h), fun _ _ _ h => (by cases h),
    fun _ _ _ h => by cases h⟩
  count _ := ⟨le_rfl, Nat.zero_le _⟩

section

variable {e : ι × Input}

theorem entry_plain (request : Request) : (request.entry : Pc n).Plain := by
  cases request <;> trivial

omit [DecidableEq ι] in
theorem getFd_plain (s : Table ι n) (vfd : ℤ) : (s.getFd vfd).Plain := by
  rw [getFd]; split_ifs <;> trivial

variable {q : Pc n} {input : Input}

section Count

variable (h : ∀ fd, s.closed fd ≤ s.opened fd ∧ s.opened fd ≤ s.closed fd + 1)

include h

omit [DecidableEq ι] in
theorem count_osOpen (vfd : Fin n) (hfd : s.opened fd = s.closed fd) (fd' : ℕ) :
    (s.osOpen vfd fd).closed fd' ≤ (s.osOpen vfd fd).opened fd' ∧
      (s.osOpen vfd fd).opened fd' ≤ (s.osOpen vfd fd).closed fd' + 1 := by
  have hcount := h fd'
  rw [osOpen]
  rcases eq_or_ne fd' fd with rfl | hne
  · simp only [Function.update_self]
    omega
  · simp only [Function.update_of_ne hne]
    exact hcount

omit [DecidableEq ι] in
theorem count_osClose (hopen : s.closed fd < s.opened fd) (fd' : ℕ) :
    (s.osClose fd).closed fd' ≤ (s.osClose fd).opened fd' ∧
      (s.osClose fd).opened fd' ≤ (s.osClose fd).closed fd' + 1 := by
  have hcount := h fd'
  rw [osClose]
  rcases eq_or_ne fd' fd with rfl | hne
  · simp only [Function.update_self]
    omega
  · simp only [Function.update_of_ne hne]
    exact hcount

end Count

/-- A step that changes nothing but the place of a worker. -/
theorem Inv.goto (h : Inv s) (hpc : s.pc w = q) (hslot : p.slot = q.slot) (hfd : p.fd = q.fd)
    (hl : p.Locked → q.Locked) (hp : p.Plain)
    (hc : ∀ vfd : Fin n, vfd.val < p.cleaned → Cleaned (s.vfdList vfd)) : Inv (s.goto w p) := by
  subst hpc
  exact ⟨h.fds.goto hfd, h.slots.goto hslot,
    h.scan.goto (fun hlock => h.scan.lock w (hl hlock)) (fun vfd heq => by subst heq; exact hp.elim)
      hc, h.marks.plain hp, h.count⟩

/-- A step that takes the semaphore. -/
theorem Inv.pend (h : Inv s) (hpc : s.pc w = q) (hsem : s.semLock = none) (hslot : p.slot = q.slot)
    (hfd : p.fd = q.fd) (hp : p.Plain) (hc : p.cleaned = 0) : Inv ((s.pend w).goto w p) := by
  subst hpc
  exact ⟨Fds.goto (s := s.pend w) h.fds hfd, Slots.goto (s := s.pend w) h.slots hslot,
    (h.scan.pend hsem).plain (fun _ => rfl) hp hc,
    Marks.plain (s := s.pend w) ⟨h.marks.values, h.marks.slot, h.marks.commit,
      h.marks.not_restore⟩ hp, h.count⟩

/-- A step that gives the semaphore back. -/
theorem Inv.post (h : Inv s) (hpc : s.pc w = q) (hw : q.Locked) (hslot : p.slot = q.slot)
    (hfd : p.fd = q.fd) (hl : ¬ p.Locked) (hp : p.Plain) (hc : p.cleaned = 0) :
    Inv (s.post.goto w p) := by
  subst hpc
  exact ⟨Fds.goto (s := s.post) h.fds hfd, Slots.goto (s := s.post) h.slots hslot,
    h.scan.post hw hl hp hc,
    Marks.plain (s := s.post) ⟨h.marks.values, h.marks.slot, h.marks.commit,
      h.marks.not_restore⟩ hp, h.count⟩

/-- A step that closes a descriptor. -/
theorem Inv.closed (h : Inv s) (hpc : s.pc w = q) (hw : q.fd = some fd) (hslot : p.slot = q.slot)
    (hfd : p.fd = none) (hl : p.Locked → q.Locked) (hp : p.Plain)
    (hc : p.cleaned = q.cleaned ∨ p.cleaned = 0) : Inv ((s.osClose fd).goto w p) := by
  subst hpc
  refine ⟨h.fds.closed (h.count fd).2 hw hfd, Slots.goto (s := s.osClose fd) h.slots hslot,
    Scan.goto (s := s.osClose fd) ⟨h.scan.lock, h.scan.free, h.scan.cleaned⟩
      (fun hlock => h.scan.lock w (hl hlock)) (fun vfd heq => by subst heq; exact hp.elim)
      fun vfd hlt => ?_,
    Marks.plain (s := s.osClose fd) ⟨h.marks.values, h.marks.slot, h.marks.commit,
      h.marks.not_restore⟩ hp, count_osClose h.count (h.fds.isOpen_worker hw)⟩
  rcases hc with hc | hc
  · exact h.scan.cleaned w vfd (hc ▸ hlt)
  · rw [hc] at hlt
    exact absurd hlt (Nat.not_lt_zero _)

/-- A step that gives a slot back. -/
theorem Inv.give (h : Inv s) (hpc : s.pc w = q) (hw : q.slot = some vfd) (hslot : p.slot = none)
    (hfd : p.fd = q.fd) (hl : p.Locked → q.Locked) (hp : p.Plain) (hc : p.cleaned = 0) :
    Inv ((s.write vfd VFD_FREE).goto w p) := by
  subst hpc
  have hbusy := h.slots.busy hw
  have hnone : fdOf VFD_FREE = fdOf (s.vfdList vfd) := (fdOf_of_neg hbusy.neg).symm
  have hnot : ¬ Busy VFD_FREE := by rintro (h | h) <;> cases h
  have hfree : s.vfdList vfd ≠ VFD_FREE := fun heq => hnot (heq ▸ hbusy)
  refine ⟨(h.fds.write hnone).goto hfd, h.slots.give hw hnot hslot,
    h.scan.write_goto hl hp hfree (.inl (.inl rfl)) (fun _ => .inl rfl) fun vfd' _ hlt => ?_,
    (h.marks.write_neg (.inl rfl)).plain hp, h.count⟩
  rw [hc] at hlt
  exact absurd hlt (Nat.not_lt_zero _)

/-- A number that is opened has been obtained for the slot, and no other slot had it. -/
theorem Inv.marks_opened (h : Inv s) (hfd : s.opened fd = s.closed fd) :
    Marks ((s.osOpen vfd fd).goto w (.commit vfd fd)) := by
  have hne : ∀ {fd'}, s.IsOpen fd' → fd' ≠ fd := by
    rintro fd' hopen rfl
    rw [IsOpen, hfd] at hopen
    exact lt_irrefl _ hopen
  have hopened : Marks (s.osOpen vfd fd) := by
    refine ⟨h.marks.values, fun vfd' fd' hslot => ?_, fun w' vfd' fd' hw' => ?_,
      h.marks.not_restore⟩
    · rw [osOpen_obtained_of_ne s (hne (h.fds.isOpen_slot hslot))]
      exact h.marks.slot vfd' fd' hslot
    · have hheld : (s.pc w').fd = some fd' := by rw [show s.pc w' = _ from hw']; rfl
      rw [osOpen_obtained_of_ne s (hne (h.fds.isOpen_worker hheld))]
      exact h.marks.commit w' vfd' fd' hw'
  refine hopened.goto (fun vfd' fd' heq => ?_) fun _ _ heq => by cases heq
  cases heq
  exact Function.update_self ..

/-- A step that opens a descriptor. -/
theorem Inv.opened (h : Inv s) (hpc : s.pc w = .osOpen vfd) (hfd : s.opened fd = s.closed fd) :
    Inv ((s.osOpen vfd fd).goto w (.commit vfd fd)) := by
  have hpc' : (s.osOpen vfd fd).pc w = .osOpen vfd := hpc
  exact ⟨h.fds.opened hfd (by rw [hpc]; rfl) rfl,
    Slots.goto (s := s.osOpen vfd fd) h.slots (by rw [hpc']; rfl),
    Scan.goto (s := s.osOpen vfd fd) ⟨h.scan.lock, h.scan.free, h.scan.cleaned⟩ False.elim
      (fun _ heq => by cases heq) fun _ hlt => absurd hlt (Nat.not_lt_zero _),
    h.marks_opened hfd, count_osOpen h.count vfd hfd⟩

/-- A descriptor in a slot is neither free nor busy nor cleaned. -/
theorem fd_ne {v : ℤ} (h : v = fd) : v ≠ VFD_FREE ∧ ¬ Busy v ∧ ¬ Cleaned v := by
  have hv : 0 ≤ v := by omega
  refine ⟨?_, fun hbusy => absurd hbusy.neg (not_lt.mpr hv), ?_⟩
  · rintro rfl
    exact absurd hv (by decide)
  · rintro (rfl | rfl) <;> exact absurd hv (by decide)

/-- A step that puts a descriptor into its slot. -/
theorem Inv.commit (h : Inv s) (hpc : s.pc w = .commit vfd fd) (hv : s.vfdList vfd = VFD_ALLOC) :
    Inv ((s.write vfd fd).goto w .idle) := by
  obtain ⟨-, hbusy, -⟩ := fd_ne (rfl : (fd : ℤ) = fd)
  have hfree : s.vfdList vfd ≠ VFD_FREE := by rw [hv]; decide
  have hclean : ¬ Cleaned (s.vfdList vfd) := by
    rw [hv]
    rintro (heq | heq) <;> cases heq
  have hmark : ∀ fd' : ℕ, (fd : ℤ) = fd' → s.obtained fd' = some vfd := fun fd' heq => by
    obtain rfl := Int.natCast_inj.mp heq
    exact h.marks.commit w vfd fd hpc
  exact ⟨h.fds.put (by rw [hv]; decide) (by rw [hpc]; rfl) rfl,
    h.slots.give (by rw [hpc]; rfl) hbusy rfl,
    h.scan.write_goto False.elim trivial hfree (.inr hclean)
      (fun hlt => absurd hlt (Nat.not_lt_zero _)) fun _ _ hlt => absurd hlt (Nat.not_lt_zero _),
    (h.marks.write (.inr (.inr (Int.natCast_nonneg fd))) hmark).plain trivial, h.count⟩

/-- A step of `cleanup` that cancels a slot. -/
theorem Inv.cancelSlot (h : Inv s) (hpc : s.pc w = .cleanIrq vfd)
    (hv : s.vfdList vfd = VFD_ALLOC) :
    Inv ((s.write vfd VFD_CANCELED).goto w (cleanNext n (vfd + 1))) := by
  have hnone : fdOf VFD_CANCELED = fdOf (s.vfdList vfd) := by rw [hv]; rfl
  have hbusy : Busy VFD_CANCELED ↔ Busy (s.vfdList vfd) :=
    iff_of_true (.inr rfl) (by rw [hv]; exact .inl rfl)
  have hclean := h.scan.cleaned w
  rw [hpc] at hclean
  refine ⟨(h.fds.write hnone).goto (by rw [write_pc, hpc, cleanNext_fd]; rfl),
    (h.slots.write hbusy).goto (by rw [write_pc, hpc, cleanNext_slot]; rfl),
    h.scan.write_goto (fun _ => by rw [hpc]; trivial) cleanNext_plain (by rw [hv]; decide)
      (.inl (.inr rfl)) (fun _ => .inr rfl) fun vfd' hne hlt => hclean vfd' ?_,
    (h.marks.write_neg (.inr (.inr rfl))).plain cleanNext_plain, h.count⟩
  exact lt_of_cleanNext hne hlt

/-- A step of `cleanup` that takes the descriptor out of a slot. -/
theorem Inv.freeSlot (h : Inv s) (hpc : s.pc w = .cleanFree vfd fd) (hv : s.vfdList vfd = fd) :
    Inv ((s.write vfd VFD_FREE).goto w (.cleanClose vfd fd)) := by
  obtain ⟨hfree, hbusy, hclean⟩ := fd_ne hv
  have hnot : ¬ Busy VFD_FREE := by rintro (heq | heq) <;> cases heq
  have hcleaned := h.scan.cleaned w
  rw [hpc] at hcleaned
  refine ⟨h.fds.take hv (by rw [hpc]; rfl) (by decide) rfl,
    (h.slots.write (iff_of_false hnot hbusy)).goto (by rw [write_pc, hpc]; rfl),
    h.scan.write_goto (fun _ => by rw [hpc]; trivial) trivial hfree (.inr hclean)
      (fun _ => .inl rfl) fun vfd' hne hlt => hcleaned vfd' ?_,
    (h.marks.write_neg (.inl rfl)).plain trivial, h.count⟩
  exact lt_of_le_of_ne (Nat.lt_succ_iff.mp hlt) fun heq => hne (Fin.ext heq)

/-- **Each step** keeps the invariant, if the slots are unchanged and no error is reported. -/
theorem Inv.step (h : Inv s) (hstep : Step s w input t) (hu : Unchanged s (w, input))
    (hr : Reported s (w, input)) : Inv t := by
  have hzero : ∀ {q : Pc n} {P : Fin n → Prop}, q.cleaned = 0 → ∀ vfd : Fin n,
      vfd.val < q.cleaned → P vfd := fun hq vfd hlt => by
    rw [hq] at hlt; exact absurd hlt (Nat.not_lt_zero _)
  cases hstep with
  | start request hpc =>
    refine h.goto hpc ?_ ?_ ?_ (entry_plain request) (hzero ?_)
    all_goals
      cases request
      all_goals first | rfl | exact False.elim
  | allocPend hpc hsem =>
    exact h.pend hpc hsem allocNext_slot allocNext_fd allocNext_plain allocNext_cleaned
  | allocFound vfd hpc hv =>
    have hlock : s.semLock = some w := h.scan.lock w (by rw [hpc]; trivial)
    exact ⟨h.fds.goto (by rw [hpc]; rfl), h.slots.goto (by rw [hpc]; rfl),
      h.scan.goto (fun _ => hlock) (fun vfd' heq => by cases heq; exact hv) (hzero rfl),
      h.marks.goto (fun _ _ heq => by cases heq) fun _ _ heq => (by cases heq), h.count⟩
  | allocSkip vfd hpc =>
    exact h.goto hpc allocNext_slot allocNext_fd (fun _ => trivial) allocNext_plain
      (hzero allocNext_cleaned)
  | allocWrite vfd hpc =>
    have hfree := h.scan.free w vfd hpc
    have hnone : fdOf VFD_ALLOC = fdOf (s.vfdList vfd) := by rw [hfree]; rfl
    refine ⟨(h.fds.write hnone).goto (by rw [write_pc, hpc]; rfl),
      h.slots.take ?_ (by rw [hpc]; rfl) (.inl rfl) rfl,
      h.scan.write_free (by rw [hpc]; trivial) trivial rfl,
      (h.marks.write_neg (.inr (.inl rfl))).plain trivial, h.count⟩
    rw [hfree]
    rintro (heq | heq) <;> cases heq
  | allocFull hpc => exact h.post hpc trivial rfl rfl id trivial rfl
  | allocDone vfd hpc => exact h.post hpc trivial rfl rfl id trivial rfl
  | openError vfd hpc => exact h.goto hpc rfl rfl id trivial (hzero rfl)
  | opened vfd fd hpc hfd => exact h.opened hpc (le_antisymm hfd (h.count fd).1)
  | openFailed vfd hpc => exact h.give hpc rfl rfl rfl id trivial rfl
  | commit vfd fd hpc hv => exact h.commit hpc hv
  | cancel vfd fd hpc hv => exact h.give hpc rfl rfl rfl id trivial rfl
  | closeCanceled vfd fd ok hpc => exact h.closed hpc rfl rfl rfl id trivial (.inr rfl)
  | getFd vfd hpc =>
    refine h.goto hpc ?_ ?_ ?_ (getFd_plain s vfd) (hzero ?_)
    all_goals
      rw [getFd]
      split_ifs
      all_goals first | rfl | exact False.elim
  | closeAlloc vfd fd hpc =>
    rw [Unchanged, hpc] at hu
    obtain ⟨hfree, hbusy, hclean⟩ := fd_ne hu
    exact ⟨h.fds.take hu (by rw [hpc]; rfl) (by decide) rfl,
      h.slots.take hbusy (by rw [hpc]; rfl) (.inl rfl) rfl,
      h.scan.write_goto False.elim trivial hfree (.inr hclean)
        (fun hlt => absurd hlt (Nat.not_lt_zero _)) fun _ _ hlt => absurd hlt (Nat.not_lt_zero _),
      (h.marks.write_neg (.inr (.inl rfl))).plain trivial, h.count⟩
  | osClose vfd fd hpc => exact h.closed hpc rfl rfl rfl id trivial (.inr rfl)
  | closeError vfd fd hpc =>
    rw [Reported, hpc] at hr
    exact absurd rfl hr
  | restore vfd fd hpc => exact absurd hpc (h.marks.not_restore w vfd fd)
  | closeFree vfd hpc => exact h.give hpc rfl rfl rfl id trivial rfl
  | cleanPend hpc hsem =>
    refine h.pend hpc hsem cleanNext_slot cleanNext_fd cleanNext_plain ?_
    rw [cleanNext_cleaned, Nat.zero_min]
  | cleanFound vfd hpc hv =>
    refine h.goto hpc rfl rfl (fun _ => trivial) trivial fun vfd' hlt => ?_
    exact h.scan.cleaned w vfd' (by rw [hpc]; exact hlt)
  | cleanCancel vfd hpc hv => exact h.cancelSlot hpc hv
  | cleanSkip vfd hpc hneg hv =>
    refine h.goto hpc cleanNext_slot cleanNext_fd (fun _ => trivial) cleanNext_plain
      fun vfd' hlt => ?_
    rcases eq_or_ne vfd' vfd with rfl | hne
    · rcases h.marks.values vfd' with hfree | hbusy | hfd
      · exact .inl hfree
      · exact .inr (hbusy.resolve_left hv)
      · exact absurd hneg (not_lt.mpr hfd)
    · exact h.scan.cleaned w vfd' (by rw [hpc]; exact lt_of_cleanNext hne hlt)
  | cleanFree vfd fd hpc =>
    rw [Unchanged, hpc] at hu
    exact h.freeSlot hpc hu
  | cleanClose vfd fd ok hpc =>
    refine h.closed hpc rfl cleanNext_slot cleanNext_fd (fun _ => trivial) cleanNext_plain (.inl ?_)
    rw [cleanNext_cleaned]
    exact Nat.min_eq_left vfd.isLt
  | cleanPost hpc => exact h.post hpc trivial rfl rfl id trivial rfl

end

end Table

end OlivePiccolo.ClientFs
