import Mathlib.Data.Fintype.Basic
import OlivePiccolo.ClientFs.Descriptors

/-!
# Runs of the file system's requests

Concurrent calls close every descriptor exactly once, as long as the slots are unchanged when they
are overwritten: in between, another call that has read the same slot closes the same descriptor.
Calls that come one after the other cannot disturb each other. There, it is the error of a device
that spoils the table: `fs.close` puts the number back, which the HAL has released.
-/

namespace OlivePiccolo.ClientFs

open Runs

namespace Table

variable {ι : Type*} {n : ℕ} {s t : Table ι n} {w : ι} {fd : ℕ} [DecidableEq ι] {input : Input}
  {e : ι × Input}

/-! ## What a step does to a slot -/

/-- A slot that is cancelled stays so until it is free. -/
theorem Inv.canceled (h : Inv s) (hstep : Step s w input t) (hu : Unchanged s (w, input))
    {vfd : Fin n} (hv : s.vfdList vfd = VFD_CANCELED) :
    t.vfdList vfd = VFD_CANCELED ∨ t.vfdList vfd = VFD_FREE := by
  have hwrite : ∀ {vfd' : Fin n} {v : ℤ}, (vfd' = vfd → v = VFD_FREE) →
      (s.write vfd' v).vfdList vfd = VFD_CANCELED ∨ (s.write vfd' v).vfdList vfd = VFD_FREE := by
    intro vfd' v hfree
    rcases eq_or_ne vfd vfd' with rfl | hne
    · rw [write_self]
      exact .inr (hfree rfl)
    · rw [write_of_ne s hne]
      exact .inl hv
  have hfd : ∀ {vfd' : Fin n} {fd : ℕ}, s.vfdList vfd' = fd → vfd' ≠ vfd := by
    rintro vfd' fd hslot rfl
    exact (fd_ne hslot).2.1 (.inr hv)
  cases hstep with
  | allocWrite vfd' hpc =>
    refine hwrite fun heq => ?_
    have hfree := h.scan.free w vfd' hpc
    rw [heq, hv] at hfree
    cases hfree
  | commit vfd' fd hpc hslot =>
    refine hwrite fun heq => ?_
    rw [heq, hv] at hslot
    cases hslot
  | closeAlloc vfd' fd hpc =>
    rw [Unchanged, hpc] at hu
    exact hwrite fun heq => absurd heq (hfd hu)
  | restore vfd' fd hpc => exact absurd hpc (h.marks.not_restore w vfd' fd)
  | cleanCancel vfd' hpc hslot =>
    refine hwrite fun heq => ?_
    rw [heq, hv] at hslot
    cases hslot
  | openFailed vfd' hpc => exact hwrite fun _ => rfl
  | cancel vfd' fd hpc hslot => exact hwrite fun _ => rfl
  | closeFree vfd' hpc => exact hwrite fun _ => rfl
  | cleanFree vfd' fd hpc => exact hwrite fun _ => rfl
  | _ => exact .inl hv

/-- A descriptor comes into a slot when its worker finds the slot allocated. -/
theorem Inv.slot_cases (h : Inv s) (hstep : Step s w input t) {vfd : Fin n} {fd : ℕ}
    (hslot : t.vfdList vfd = fd) : s.vfdList vfd = fd ∨
      s.pc w = .commit vfd fd ∧ s.vfdList vfd = VFD_ALLOC := by
  have hwrite : ∀ {vfd' : Fin n} {v : ℤ}, v < 0 → (s.write vfd' v).vfdList vfd = fd →
      s.vfdList vfd = fd := by
    intro vfd' v hneg hslot
    rcases eq_or_ne vfd vfd' with rfl | hne
    · rw [write_self] at hslot
      omega
    · rwa [write_of_ne s hne] at hslot
  cases hstep with
  | commit vfd' fd' hpc hv =>
    rcases eq_or_ne vfd vfd' with rfl | hne
    · rw [goto_vfdList, write_self, Int.natCast_inj] at hslot
      exact .inr ⟨hslot ▸ hpc, hv⟩
    · rw [goto_vfdList, write_of_ne s hne] at hslot
      exact .inl hslot
  | restore vfd' fd' hpc => exact absurd hpc (h.marks.not_restore w vfd' fd')
  | allocWrite vfd' hpc => exact .inl (hwrite (by decide) hslot)
  | openFailed vfd' hpc => exact .inl (hwrite (by decide) hslot)
  | cancel vfd' fd' hpc hv => exact .inl (hwrite (by decide) hslot)
  | closeAlloc vfd' fd' hpc => exact .inl (hwrite (by decide) hslot)
  | closeFree vfd' hpc => exact .inl (hwrite (by decide) hslot)
  | cleanCancel vfd' hpc hv => exact .inl (hwrite (by decide) hslot)
  | cleanFree vfd' fd' hpc => exact .inl (hwrite (by decide) hslot)
  | _ => exact .inl hslot

/-- A worker comes to the end of `fs.open` with a number that was not in use. -/
theorem commit_cases (hstep : Step s w input t) {w' : ι} {vfd : Fin n} {fd : ℕ}
    (hpc' : t.pc w' = .commit vfd fd) :
    s.pc w' = .commit vfd fd ∨ s.opened fd ≤ s.closed fd := by
  rcases eq_or_ne w' w with rfl | hne
  · cases hstep with
    | opened vfd' fd' hpc hfd =>
      rw [goto_self] at hpc'
      cases hpc'
      exact .inr hfd
    | start request hpc => rw [goto_self] at hpc'; cases request <;> cases hpc'
    | allocPend hpc hsem => rw [goto_self] at hpc'; exact (hpc' ▸ allocNext_plain).elim
    | allocSkip vfd' hpc => rw [goto_self] at hpc'; exact (hpc' ▸ allocNext_plain).elim
    | getFd vfd' hpc =>
      rw [goto_self] at hpc'
      have hplain := getFd_plain s vfd'
      rw [hpc'] at hplain
      exact hplain.elim
    | cleanPend hpc hsem => rw [goto_self] at hpc'; exact (hpc' ▸ cleanNext_plain).elim
    | cleanCancel vfd' hpc hv => rw [goto_self] at hpc'; exact (hpc' ▸ cleanNext_plain).elim
    | cleanSkip vfd' hpc hneg hv => rw [goto_self] at hpc'; exact (hpc' ▸ cleanNext_plain).elim
    | cleanClose vfd' fd' ok hpc => rw [goto_self] at hpc'; exact (hpc' ▸ cleanNext_plain).elim
    | _ => rw [goto_self] at hpc'; cases hpc'
  · cases hstep
    all_goals
      rw [goto_of_ne _ hne] at hpc'
      exact .inl hpc'

/-- The counters do not go back. -/
theorem counters_le (hstep : Step s w input t) (fd : ℕ) :
    s.opened fd ≤ t.opened fd ∧ s.closed fd ≤ t.closed fd := by
  have hclose : ∀ fd', s.closed fd ≤ (s.osClose fd').closed fd := by
    intro fd'
    rcases eq_or_ne fd fd' with rfl | hne
    · rw [osClose_closed_self]
      exact Nat.le_succ _
    · rw [osClose_closed_of_ne s hne]
  cases hstep with
  | opened vfd fd' hpc hfd =>
    refine ⟨?_, le_rfl⟩
    rcases eq_or_ne fd fd' with rfl | hne
    · exact (Nat.le_succ _).trans (osOpen_opened_self s vfd fd).ge
    · exact (osOpen_opened_of_ne s hne vfd).ge
  | closeCanceled vfd fd' ok hpc => exact ⟨le_rfl, hclose fd'⟩
  | osClose vfd fd' hpc => exact ⟨le_rfl, hclose fd'⟩
  | closeError vfd fd' hpc => exact ⟨le_rfl, hclose fd'⟩
  | cleanClose vfd fd' ok hpc => exact ⟨le_rfl, hclose fd'⟩
  | _ => exact ⟨le_rfl, le_rfl⟩

/-! ## After a cleanup -/

/-- What had been opened up to some time is in no slot any more, and a worker that still has it finds
its slot cancelled. -/
structure Doomed (before : ℕ → ℕ) (s : Table ι n) : Prop where
  opened : ∀ fd, before fd ≤ s.opened fd
  slot : ∀ (vfd : Fin n) (fd : ℕ), s.vfdList vfd = fd → before fd ≤ s.closed fd
  commit : ∀ w vfd fd, s.pc w = .commit vfd fd → s.closed fd < before fd →
    s.vfdList vfd = VFD_CANCELED

omit [DecidableEq ι] in
/-- When `fs.cleanup` has come to its end. -/
theorem Inv.doomed (h : Inv s) (hpc : s.pc w = .cleanPost) : Doomed s.opened s where
  opened _ := le_rfl
  slot vfd fd hslot := by
    have hclean := h.scan.cleaned w vfd (by rw [hpc]; exact vfd.isLt)
    exact absurd hclean (fd_ne hslot).2.2
  commit w' vfd fd hw' _ := by
    have hclean := h.scan.cleaned w vfd (by rw [hpc]; exact vfd.isLt)
    have hbusy : Busy (s.vfdList vfd) := h.slots.busy (w := w') (by rw [hw']; rfl)
    refine hclean.resolve_left fun hfree => ?_
    rw [hfree] at hbusy
    rcases hbusy with heq | heq <;> cases heq

theorem Doomed.step {before : ℕ → ℕ} (hd : Doomed before s) (h : Inv s)
    (hstep : Step s w input t) (hu : Unchanged s (w, input)) (ht : Inv t) : Doomed before t where
  opened fd := (hd.opened fd).trans (counters_le hstep fd).1
  slot vfd fd hslot := by
    refine le_trans ?_ (counters_le hstep fd).2
    obtain hslot | ⟨hpc, halloc⟩ := h.slot_cases hstep hslot
    · exact hd.slot vfd fd hslot
    · refine not_lt.mp fun hlt => ?_
      rw [hd.commit w vfd fd hpc hlt] at halloc
      cases halloc
  commit w' vfd fd hw' hlt := by
    have hlt' := (counters_le hstep fd).2.trans_lt hlt
    obtain hpc | hfd := commit_cases hstep hw'
    · refine (h.canceled hstep hu (hd.commit w' vfd fd hpc hlt')).resolve_right fun hfree => ?_
      have hbusy : Busy (t.vfdList vfd) := ht.slots.busy (w := w') (by rw [hw']; rfl)
      rw [hfree] at hbusy
      rcases hbusy with heq | heq <;> cases heq
    · exact absurd (hd.opened fd) (not_le.mpr (hfd.trans_lt hlt'))

omit [DecidableEq ι] in
/-- When no call is in progress, it has all been closed. -/
theorem Doomed.closed {before : ℕ → ℕ} (hd : Doomed before s) (h : Inv s) (hq : s.Quiet) (fd : ℕ) :
    before fd ≤ s.closed fd := by
  refine not_lt.mp fun hlt => ?_
  obtain ⟨holder, hheld⟩ := h.fds.exists_held (r := fd) (hlt.trans_le (hd.opened fd))
  cases holder with
  | inl vfd => exact not_lt.mpr (hd.slot vfd fd (fdOf_eq_some.mp hheld)) hlt
  | inr w =>
    rw [held, hq w] at hheld
    cases hheld

/-! ## Concurrent calls -/

/-- `close` never fails. -/
def NeverFails (_ : Table ι n) (e : ι × Input) : Prop := e.2 ≠ .closed false

/-- Every descriptor is closed at most once, and once a cleanup has come to its end and no call is in
progress, at least once. No slot holds a descriptor that is closed, and one that is cancelled becomes
free. -/
structure ClosedOnce (ok : Table ι n → ι × Input → Prop) (s : Table ι n) : Prop where
  at_most : ∀ fd, s.closed fd ≤ s.opened fd
  after_cleanup : ∀ w es t, s.pc w = .cleanPost → Path Table.step ok s es t → t.Quiet →
    ∀ fd, s.opened fd ≤ t.closed fd
  slot : ∀ (vfd : Fin n) (fd : ℕ), s.vfdList vfd = fd → s.IsOpen fd
  canceled : ∀ e t vfd, ok s e → s.step e = some t → s.vfdList vfd = VFD_CANCELED →
    t.vfdList vfd = VFD_CANCELED ∨ t.vfdList vfd = VFD_FREE
  quiet : s.Quiet → ∀ vfd, s.vfdList vfd = VFD_FREE ∨ 0 ≤ s.vfdList vfd

/-- A step that never fails and finds its slot unchanged. -/
def Careful (s : Table ι n) (e : ι × Input) : Prop := NeverFails s e ∧ Unchanged s e

omit [DecidableEq ι] in
theorem NeverFails.reported (h : NeverFails s e) : Reported s e := by
  rw [Reported]
  split
  · exact h
  · trivial

theorem Inv.careful_step (h : Inv s) (hok : Careful s e) (hstep : s.step e = some t) : Inv t :=
  h.step (.of_step hstep) hok.2 hok.1.reported

theorem Inv.closedOnce (h : Inv s) : ClosedOnce Careful s where
  at_most fd := (h.count fd).1
  after_cleanup w es t hpc hpath hq := by
    have hdoomed : Inv t ∧ Doomed s.opened t := by
      refine hpath.invariant (I := fun t => Inv t ∧ Doomed s.opened t) ⟨h, h.doomed hpc⟩ ?_
      rintro u e v ⟨hu, hd⟩ hok hstep
      have hv := hu.careful_step hok hstep
      exact ⟨hv, hd.step hu (.of_step hstep) hok.2 hv⟩
    exact hdoomed.2.closed hdoomed.1 hq
  slot _ _ hslot := h.fds.isOpen_slot hslot
  canceled e t vfd hok hstep hv := h.canceled (.of_step hstep) hok.2 hv
  quiet hq vfd := by
    obtain hfree | hbusy | hfd := h.marks.values vfd
    · exact .inl hfree
    · obtain ⟨w, hw⟩ := h.slots.exists_held hbusy
      rw [owned, hq w] at hw
      cases hw
    · exact .inr hfd

/-! ## Calls one after the other -/

/-- A request is begun when no other one is in progress. -/
def Sequential (s : Table ι n) (e : ι × Input) : Prop := ∀ request, e.2 = .start request → s.Quiet

/-- What is in the table are the numbers of different descriptors that are in use, each of them
obtained for its slot. -/
structure Faithful (s : Table ι n) : Prop where
  distinct : ∀ vfd vfd', 0 ≤ s.vfdList vfd → s.vfdList vfd = s.vfdList vfd' → vfd = vfd'
  isOpen : ∀ (vfd : Fin n) (fd : ℕ), s.vfdList vfd = fd → s.IsOpen fd
  obtained : ∀ (vfd : Fin n) (fd : ℕ), s.vfdList vfd = fd → s.obtained fd = some vfd

omit [DecidableEq ι] in
theorem Inv.faithful (h : Inv s) : Faithful s where
  distinct vfd vfd' hpos heq := by
    obtain ⟨fd, hfd⟩ := Int.eq_ofNat_of_zero_le hpos
    have hobtained := h.marks.slot vfd fd hfd
    rw [h.marks.slot vfd' fd (heq ▸ hfd)] at hobtained
    exact (Option.some.inj hobtained).symm
  isOpen _ _ hslot := h.fds.isOpen_slot hslot
  obtained := h.marks.slot

/-- One worker at most is in a call, and a slot is as it has been read. -/
structure Alone (s : Table ι n) : Prop where
  one : ∀ w w', s.pc w ≠ .idle → s.pc w' ≠ .idle → w = w'
  read : ∀ w vfd fd, s.pc w = .closeAlloc vfd fd ∨ s.pc w = .cleanFree vfd fd → s.vfdList vfd = fd

omit [DecidableEq ι] in
theorem Alone.unchanged (h : Alone s) (e : ι × Input) : Unchanged s e := by
  rw [Unchanged]
  split
  · next hpc => exact h.read _ _ _ (.inl hpc)
  · next hpc => exact h.read _ _ _ (.inr hpc)
  · trivial

omit [DecidableEq ι] in
theorem getFd_read {v : ℤ} {vfd : Fin n} (h : s.getFd v = .closeAlloc vfd fd) :
    s.vfdList vfd = fd := by
  rw [getFd] at h
  split_ifs at h with hrange hneg
  cases h
  omega

/-- A worker that steps was in a call, or none was. -/
theorem Step.busy (hstep : Step s w input t) :
    s.pc w ≠ .idle ∨ ∃ request, input = .start request := by
  cases hstep with
  | start request hpc => exact .inr ⟨request, rfl⟩
  | _ => exact .inl fun hidle => by simp_all

theorem Step.pc_of_ne (hstep : Step s w input t) {w' : ι} (hne : w' ≠ w) : t.pc w' = s.pc w' := by
  cases hstep
  all_goals exact goto_of_ne _ hne _

/-- What a worker is about to overwrite it has read in this step. -/
theorem Step.read (hstep : Step s w input t) {vfd : Fin n}
    (hpc' : t.pc w = .closeAlloc vfd fd ∨ t.pc w = .cleanFree vfd fd) : t.vfdList vfd = fd := by
  cases hstep with
  | getFd v hpc =>
    rw [goto_self] at hpc'
    rcases hpc' with hpc' | hpc'
    · exact getFd_read hpc'
    · rw [Table.getFd] at hpc'
      split_ifs at hpc'
  | cleanFound vfd' hpc hv =>
    rw [goto_self] at hpc'
    rcases hpc' with hpc' | hpc'
    · cases hpc'
    · cases hpc'
      exact (Int.toNat_of_nonneg hv).symm
  | start request hpc => rw [goto_self] at hpc'; cases request <;> rcases hpc' with h | h <;> cases h
  | _ =>
    rw [goto_self] at hpc'
    rcases hpc' with h | h
    all_goals
      first
      | cases h
      | (rw [allocNext] at h; split_ifs at h)
      | (rw [cleanNext] at h; split_ifs at h)

theorem Alone.step (h : Alone s) (hstep : Step s w input t) (hseq : Sequential s (w, input)) :
    Alone t := by
  have honly : ∀ w', t.pc w' ≠ .idle → w' = w := by
    intro w' hw'
    by_contra hne
    rw [hstep.pc_of_ne hne] at hw'
    rcases hstep.busy with hw | ⟨request, hstart⟩
    · exact hne (h.one w' w hw' hw)
    · exact hw' (hseq request hstart w')
  refine ⟨fun w' w'' hw' hw'' => (honly w' hw').trans (honly w'' hw'').symm, fun w' vfd fd hw' => ?_⟩
  obtain rfl : w' = w := honly w' (by
    rcases hw' with hw' | hw' <;> rw [hw'] <;> exact fun h => by cases h)
  exact hstep.read hw'

end Table

/-- **Concurrent calls.** As long as every slot is unchanged when a call overwrites the descriptor
that it has read there, descriptors are closed exactly once. -/
theorem closed_once {ι : Type*} [DecidableEq ι] {n : ℕ} {es : List (ι × Input)} {s : Table ι n}
    (h : Path Table.step Table.Careful (Table.initial ι n) es s) :
    s.ClosedOnce Table.Careful := by
  have hinv : s.Inv := h.invariant .initial fun _ _ _ hI hok hstep => hI.careful_step hok hstep
  exact hinv.closedOnce

/-! ## A descriptor that is closed twice -/

namespace Table

variable {ι : Type*} {n : ℕ}

instance (s : Table ι n) (e : ι × Input) : Decidable (NeverFails s e) :=
  inferInstanceAs (Decidable (_ ≠ _))

instance (s : Table ι n) (e : ι × Input) : Decidable (Unchanged s e) := by
  rw [Unchanged]; split <;> infer_instance

instance (s : Table ι n) (e : ι × Input) : Decidable (Reported s e) := by
  rw [Reported]; split <;> infer_instance

instance (s : Table ι n) (e : ι × Input) : Decidable (Careful s e) :=
  inferInstanceAs (Decidable (_ ∧ _))

end Table

/-- A worker opens a file, in the first slot, and gets number 3. -/
def openThree : List (Fin 2 × Input) :=
  [(0, .start .fsOpen), (0, .none), (0, .none), (0, .none), (0, .none), (0, .opened (some 3)),
    (0, .none)]

/-- `closed_once` of a run in which the file is closed, and a second worker cleans up. -/
theorem closed_once_cleanup : ∃ es s,
    Path Table.step Table.Careful (Table.initial (Fin 2) 1) es s ∧ s.pc 1 = .cleanPost ∧
      s.ClosedOnce Table.Careful := by
  have hrun : (exec Table.step Table.Careful (Table.initial (Fin 2) 1)
      (openThree ++ [(0, .start (.fsClose 0)), (0, .none), (0, .none), (0, .closed true),
        (1, .start .fsCleanup), (1, .none), (1, .none)])).isSome = true := by decide
  exact ⟨_, _, path_get hrun, rfl, closed_once (path_get hrun)⟩

/-- Two workers close the file: both read the slot before one of them overwrites it. -/
def closeTwice : List (Fin 2 × Input) :=
  openThree ++ [(0, .start (.fsClose 0)), (1, .start (.fsClose 0)), (0, .none), (1, .none), (0, .none),
    (1, .none), (0, .closed true), (1, .closed true)]

theorem closeTwice_runs : (exec Table.step Table.NeverFails (Table.initial (Fin 2) 1)
    closeTwice).isSome = true := by decide

/-- The number is closed twice. -/
theorem not_closed_once : ¬ ∀ (ι : Type) (_ : DecidableEq ι) (n : ℕ) (es : List (ι × Input))
    (s : Table ι n), Path Table.step Table.NeverFails (Table.initial ι n) es s →
    s.ClosedOnce Table.NeverFails := by
  intro hall
  have hclosed := (hall (Fin 2) inferInstance 1 _ _ (path_get closeTwice_runs)).at_most 3
  exact absurd hclosed (by decide)

/-- **Calls one after the other.** As long as no device reports an error to `fs.close`, the table is
exact after every request. -/
theorem table_faithful {ι : Type*} [DecidableEq ι] {n : ℕ} {es : List (ι × Input)} {s : Table ι n}
    (h : Path Table.step (fun s e => s.Sequential e ∧ s.Reported e) (Table.initial ι n) es s) :
    s.Faithful := by
  have hinv : s.Inv ∧ s.Alone := by
    refine h.invariant (I := fun s => s.Inv ∧ s.Alone)
      ⟨.initial, fun _ _ h _ => absurd rfl h, fun _ _ _ h => by rcases h with h | h <;> cases h⟩ ?_
    rintro s e t ⟨hI, halone⟩ ⟨hseq, hr⟩ hstep
    have hstep := Table.Step.of_step hstep
    exact ⟨hI.step hstep (halone.unchanged e) hr, halone.step hstep hseq⟩
  exact hinv.1.faithful

/-! ## A number that is put back -/

namespace Table

variable {ι : Type*} {n : ℕ}

instance (s : Table ι n) [Fintype ι] : Decidable s.Quiet :=
  inferInstanceAs (Decidable (∀ _, _ = _))

instance (s : Table ι n) [Fintype ι] (e : ι × Input) : Decidable (Sequential s e) :=
  match he : e.2 with
  | .start _ => decidable_of_iff s.Quiet ⟨fun h _ _ => h, fun h => h _ he⟩
  | .none | .opened _ | .closed _ => .isTrue fun _ h => by rw [he] at h; cases h

end Table

/-- `table_faithful` of a run in which the file is closed. -/
theorem table_faithful_close : ∃ es s,
    Path Table.step (fun s e => s.Sequential e ∧ s.Reported e) (Table.initial (Fin 2) 1) es s ∧
      s.vfdList 0 = VFD_FREE ∧ s.Faithful := by
  have hrun : (exec Table.step (fun s e => s.Sequential e ∧ s.Reported e)
      (Table.initial (Fin 2) 1) (openThree ++ [(0, .start (.fsClose 0)), (0, .none), (0, .none),
        (0, .closed true), (0, .none)])).isSome = true := by decide
  exact ⟨_, _, path_get hrun, rfl, table_faithful (path_get hrun)⟩

/-- The file is closed, and its device reports an error. -/
theorem closeError_runs : (exec Table.step Table.Sequential (Table.initial (Fin 2) 1)
    (openThree ++ [(0, .start (.fsClose 0)), (0, .none), (0, .none), (0, .closed false),
      (0, .none)])).isSome = true := by decide

/-- The slot holds a number that is not in use any more. -/
theorem not_table_faithful : ¬ ∀ (ι : Type) (_ : DecidableEq ι) (n : ℕ) (es : List (ι × Input))
    (s : Table ι n), Path Table.step Table.Sequential (Table.initial ι n) es s → s.Quiet →
    s.Faithful := by
  intro hall
  have hopen := (hall (Fin 2) inferInstance 1 _ _ (path_get closeError_runs) (by decide)).isOpen 0 3
    (by decide)
  exact absurd hopen (by decide)

end OlivePiccolo.ClientFs
