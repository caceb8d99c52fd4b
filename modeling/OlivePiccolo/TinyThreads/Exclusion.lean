import OlivePiccolo.TinyThreads.System

/-!
# Mutual exclusion of the mutexes

`pthread_mutex_unlock` hands a mutex over in two halves: it clears `owner` and readies the first
waiter, and the waiter writes `owner` itself when it is switched to (`Kernel.finish`), without
looking at it again. Between the halves the mutex is free, so another `lock` may take it, and then
two threads hold it (`not_mutex_exclusion`).

`mutex_exclusion`: as long as no `lock` or `trylock` takes a free mutex while a readied waiter is
still on its way (`NoneReadied`), at most one thread holds the mutex and its `unlock` returns 0.
The invariant is `MutexInv`: an owned mutex has exactly its owner as holder and no readied waiter;
a free one has no holder and at most one readied waiter.
-/

namespace OlivePiccolo.TinyThreads

open Runs

/-- A thread that an `unlock` has moved out of the waiter list, and that has not yet come back from
the switch inside its own `lock`. -/
def Readied (m : MutexId) (s : State) (t : Tid) : Prop :=
  s.cont t = some (.lock m) ∧ t ∉ s.kernel.queue (.mutex m)

/-- A mutex nobody holds or waits for, in a consistent scheduler. -/
structure Unlocked (idle : Tid) (m : MutexId) (s : State) : Prop where
  sched : Sched idle s.kernel
  owner : s.kernel.owner m = none
  waiter : s.kernel.queue (.mutex m) = []
  cont : ∀ t, s.cont t ≠ some (.lock m) ∧ s.cont t ≠ some (.trylock m)
  holds : ∀ t, s.holds t m = false

/-- At most one thread holds the mutex, and the `unlock` of a holder succeeds. -/
def Excludes (m : MutexId) (s : State) : Prop :=
  (∀ t u, s.holds t m = true → s.holds u m = true → t = u) ∧
    ∀ t, s.holds t m = true → s.kernel.running = t → (s.kernel.tthCsMutexUnlock m).2 = .zero

/-- The condition on a step: a call that finds the mutex free finds no readied waiter. -/
def NoneReadied (m : MutexId) (s : State) (e : Event) : Prop :=
  e = .call (.lock m) ∨ e = .call (.trylock m) → s.kernel.owner m = none → ∀ t, ¬ Readied m s t

/-! ## The two halves of the hand-over -/

namespace State

variable (s : State) (c : Call)

@[simp] theorem makeCall_kernel : (s.makeCall c).kernel = (s.kernel.begin c).1 := by
  unfold makeCall; split <;> rename_i h <;> simp [h]

theorem makeCall_cont_none (h : (s.kernel.begin c).2 = none) :
    (s.makeCall c).cont = Function.update s.cont s.kernel.running (some c) := by
  unfold makeCall; split <;> rename_i hb <;> simp [hb] at h ⊢

theorem makeCall_cont_some {code : Code} (h : (s.kernel.begin c).2 = some code) :
    (s.makeCall c).cont = s.cont := by
  unfold makeCall; split <;> rename_i hb <;> simp [hb] at h ⊢

theorem makeCall_holds_none (h : (s.kernel.begin c).2 = none) :
    (s.makeCall c).holds = onCall s.holds s.kernel.running c := by
  unfold makeCall; split <;> rename_i hb <;> simp [hb] at h ⊢

theorem makeCall_holds_some {code : Code} (h : (s.kernel.begin c).2 = some code) :
    (s.makeCall c).holds =
      onReturn (onCall s.holds s.kernel.running c) s.kernel.running c code := by
  unfold makeCall; split <;> rename_i hb <;> simp [hb] at h ⊢; rw [h]

/-- Calls on other objects do not change who holds `m`. -/
theorem onCall_frame {holds : Tid → MutexId → Bool} {t : Tid} {c : Call} {m : MutexId}
    (hc : ¬ Kernel.uses m c) (u : Tid) : onCall holds t c u m = holds u m := by
  cases c with
  | unlock m' =>
    have hne : m ≠ m' := fun e => hc e.symm
    by_cases hu : u = t
    · subst hu; simp [onCall, Function.update_of_ne hne]
    · simp [onCall, Function.update_of_ne hu]
  | _ => rfl

theorem onReturn_frame {holds : Tid → MutexId → Bool} {t : Tid} {c : Call} {code : Code}
    {m : MutexId} (hc : ¬ Kernel.uses m c) (u : Tid) : onReturn holds t c code u m = holds u m := by
  cases c with
  | lock m' | trylock m' =>
    have hne : m ≠ m' := fun e => hc e.symm
    by_cases hu : u = t
    · subst hu; cases code <;> simp [onReturn, Function.update_of_ne hne]
    · cases code <;> simp [onReturn, Function.update_of_ne hu]
  | _ => cases code <;> rfl

end State

open State

/-! ## The invariant -/

/-- The invariant of one mutex. -/
structure MutexInv (m : MutexId) (s : State) : Prop where
  /-- Waiters are suspended in their `lock`. -/
  waiting : ∀ t ∈ s.kernel.queue (.mutex m), s.cont t = some (.lock m)
  /-- `trylock` never waits. -/
  no_try : ∀ t, s.cont t ≠ some (.trylock m)
  owned : ∀ o, s.kernel.owner m = some o →
    (∀ t, s.holds t m = true ↔ t = o) ∧ ∀ t, ¬ Readied m s t
  free : s.kernel.owner m = none →
    (∀ t, s.holds t m = false) ∧ ∀ t u, Readied m s t → Readied m s u → t = u

theorem Unlocked.mutexInv {idle : Tid} {m : MutexId} {s : State} (h : Unlocked idle m s) :
    MutexInv m s where
  waiting := by rw [h.waiter]; exact fun t ht => absurd ht List.not_mem_nil
  no_try t := (h.cont t).2
  owned o ho := by rw [h.owner] at ho; cases ho
  free _ := ⟨h.holds, fun t _ ht _ => absurd ht.1 (h.cont t).1⟩

theorem MutexInv.excludes {m : MutexId} {s : State} (h : MutexInv m s) : Excludes m s := by
  rcases ho : s.kernel.owner m with _ | o
  · have hn := (h.free ho).1
    exact ⟨fun t _ ht => absurd ht (by simp [hn]), fun t ht => absurd ht (by simp [hn])⟩
  · have hh := (h.owned o ho).1
    refine ⟨fun t u ht hu => ((hh t).1 ht).trans ((hh u).1 hu).symm, fun t ht hr => ?_⟩
    have hto := (hh t).1 ht
    unfold Kernel.tthCsMutexUnlock
    rw [if_neg (by rw [ho, hr, hto]; simp)]

/-- A step that leaves the mutex, its waiters, its holders and the suspended `lock` calls alone
keeps its invariant. -/
theorem MutexInv.frame {m : MutexId} {s s' : State} (h : MutexInv m s)
    (ho : s'.kernel.owner m = s.kernel.owner m)
    (hq : s'.kernel.queue (.mutex m) = s.kernel.queue (.mutex m))
    (hl : ∀ t, s'.cont t = some (.lock m) ↔ s.cont t = some (.lock m))
    (ht : ∀ t, s'.cont t ≠ some (.trylock m)) (hh : ∀ t, s'.holds t m = s.holds t m) :
    MutexInv m s' := by
  have hr : ∀ t, Readied m s' t ↔ Readied m s t := fun t => by unfold Readied; rw [hl, hq]
  refine ⟨fun t hm => (hl t).2 (h.waiting t (hq ▸ hm)), ht, fun o hoo => ?_, fun hn => ?_⟩
  · obtain ⟨h1, h2⟩ := h.owned o (ho ▸ hoo)
    exact ⟨fun t => by rw [hh]; exact h1 t, fun t => by rw [hr]; exact h2 t⟩
  · obtain ⟨h1, h2⟩ := h.free (ho ▸ hn)
    exact ⟨fun t => by rw [hh]; exact h1 t, fun t u => by rw [hr, hr]; exact h2 t u⟩

section Calls

variable {idle : Tid} {m : MutexId} {s : State}

/-- Taking a free mutex when no waiter is readied. -/
theorem MutexInv.take (h : MutexInv m s) (ho : s.kernel.owner m = none)
    (hn : ∀ t, ¬ Readied m s t) {s' : State} (hk : s'.kernel = s.kernel.takeMutex m)
    (hc : s'.cont = s.cont)
    (hh : s'.holds = Function.update s.holds s.kernel.running
      (Function.update (s.holds s.kernel.running) m true)) : MutexInv m s' := by
  have hq : s'.kernel.queue = s.kernel.queue := by rw [hk]; rfl
  have how : s'.kernel.owner m = some s.kernel.running := by rw [hk]; simp [Kernel.takeMutex]
  refine ⟨fun t hm => ?_, fun t => ?_, fun o hoo => ⟨fun t => ?_, fun t ht => ?_⟩, fun hnn => ?_⟩
  · rw [hc]; exact h.waiting t (hq ▸ hm)
  · rw [hc]; exact h.no_try t
  · rw [how, Option.some.injEq] at hoo
    subst hoo
    by_cases ht : t = s.kernel.running
    · subst ht; simp [hh]
    · simp [hh, (h.free ho).1 t, ht]
  · exact hn t ⟨by rw [← hc]; exact ht.1, by rw [← hq]; exact ht.2⟩
  · rw [how] at hnn; cases hnn

/-- A `lock` of a mutex that another thread owns: the caller joins the waiters. -/
theorem MutexInv.wait (h : MutexInv m s) (hs : Sched idle s.kernel) (h0 : s.kernel.intLevel = 0)
    (ho : (s.kernel.owner m).isSome) {s' : State}
    (hk : s'.kernel = (s.kernel.tthCsMove .ready (.mutex m) .mutex).execSwitch)
    (hc : s'.cont = Function.update s.cont s.kernel.running (some (.lock m)))
    (hh : s'.holds = s.holds) : MutexInv m s' := by
  obtain ⟨rest, hr⟩ := hs.ready_eq h0
  have hmem : ∀ t, t ∈ s'.kernel.queue (.mutex m) ↔
      t = s.kernel.running ∨ t ∈ s.kernel.queue (.mutex m) := by
    intro t
    rw [hk, Kernel.execSwitch_queue, Kernel.mem_tthCsMove hs.wf _ hr]
    by_cases ht : t = s.kernel.running <;> simp [ht]
  have how : s'.kernel.owner m = s.kernel.owner m := by rw [hk]; simp
  -- only the caller's continuation changes, and the caller is now a waiter
  have hcont : ∀ t, t ≠ s.kernel.running → s'.cont t = s.cont t :=
    fun t ht => by rw [hc, Function.update_of_ne ht]
  have hrd : ∀ t, Readied m s' t → Readied m s t := by
    rintro t ⟨h1, h2⟩
    rw [hmem, not_or] at h2
    exact ⟨by rw [← hcont t h2.1]; exact h1, h2.2⟩
  refine ⟨fun t hm => ?_, fun t => ?_, fun o hoo => ?_, fun hnn => ?_⟩
  · by_cases ht : t = s.kernel.running
    · rw [hc, ht, Function.update_self]
    · rw [hcont t ht]
      exact h.waiting t (((hmem t).1 hm).resolve_left ht)
  · by_cases ht : t = s.kernel.running
    · rw [hc, ht, Function.update_self]; simp
    · rw [hcont t ht]; exact h.no_try t
  · obtain ⟨h1, h2⟩ := h.owned o (how ▸ hoo)
    exact ⟨fun t => by rw [hh]; exact h1 t, fun t ht => h2 t (hrd t ht)⟩
  · rw [how] at hnn; rw [hnn] at ho; cases ho

/-- The unlock by the owner: nobody holds the mutex, and at most the first waiter is readied. -/
theorem MutexInv.release (h : MutexInv m s) (hs : Sched idle s.kernel)
    (ho : s.kernel.owner m = some s.kernel.running) {s' : State}
    (hq : s'.kernel.queue = (s.kernel.tthCsMove (.mutex m) .ready .ready).queue)
    (how : s'.kernel.owner m = none)
    (hl : ∀ t, s'.cont t = some (.lock m) ↔ s.cont t = some (.lock m))
    (ht : ∀ t, s'.cont t ≠ some (.trylock m))
    (hh : ∀ t, s'.holds t m = (if t = s.kernel.running then false else s.holds t m)) :
    MutexInv m s' := by
  obtain ⟨hold, hnone⟩ := h.owned _ ho
  have hheld : ∀ t, s'.holds t m = false := by
    intro t
    rw [hh]
    by_cases htr : t = s.kernel.running
    · rw [if_pos htr]
    · rw [if_neg htr]
      exact Bool.eq_false_iff.2 fun hcon => htr ((hold t).1 hcon)
  rcases hw : s.kernel.queue (.mutex m) with _ | ⟨w, rest⟩
  · have hqe : s'.kernel.queue = s.kernel.queue := by rw [hq, Kernel.tthCsMove_nil _ _ hw]
    refine ⟨fun t hm => (hl t).2 (h.waiting t (hqe ▸ hm)), ht,
      fun o hoo => absurd hoo (by rw [how]; simp), fun _ => ⟨hheld, fun t u htt _ => ?_⟩⟩
    exact absurd ⟨(hl t).1 htt.1, hqe ▸ htt.2⟩ (hnone t)
  · have hmem : ∀ t, t ∈ s'.kernel.queue (.mutex m) ↔ t ≠ w ∧ t ∈ s.kernel.queue (.mutex m) := by
      intro t
      rw [hq, Kernel.mem_tthCsMove hs.wf _ hw]
      simp
    have hrd : ∀ t, Readied m s' t → t = w := by
      rintro t ⟨h1, h2⟩
      by_contra hne
      exact hnone t ⟨(hl t).1 h1, fun hm => h2 ((hmem t).2 ⟨hne, hm⟩)⟩
    exact ⟨fun t hm => (hl t).2 (h.waiting t ((hmem t).1 hm).2), ht,
      fun o hoo => absurd hoo (by rw [how]; simp),
      fun _ => ⟨hheld, fun t u htt huu => (hrd t htt).trans (hrd u huu).symm⟩⟩

/-- A readied waiter comes back from its switch and takes the mutex. -/
theorem MutexInv.comeBack (h : MutexInv m s) (hr : Readied m s s.kernel.running) {s' : State}
    (hk : s'.kernel = s.kernel.takeMutex m)
    (hc : s'.cont = Function.update s.cont s.kernel.running none)
    (hh : s'.holds = Function.update s.holds s.kernel.running
      (Function.update (s.holds s.kernel.running) m true)) : MutexInv m s' := by
  have ho : s.kernel.owner m = none := by
    rcases ho : s.kernel.owner m with _ | o
    · rfl
    · exact absurd hr ((h.owned o ho).2 _)
  obtain ⟨hheld, hone⟩ := h.free ho
  have hq : s'.kernel.queue = s.kernel.queue := by rw [hk]; rfl
  have how : s'.kernel.owner m = some s.kernel.running := by rw [hk]; simp [Kernel.takeMutex]
  have hcont : ∀ t, t ≠ s.kernel.running → s'.cont t = s.cont t :=
    fun t ht => by rw [hc, Function.update_of_ne ht]
  refine ⟨fun t hm => ?_, fun t => ?_, fun o hoo => ⟨fun t => ?_, fun t ht => ?_⟩, fun hnn => ?_⟩
  · rw [hq] at hm
    rw [hcont t fun e => hr.2 (e ▸ hm)]
    exact h.waiting t hm
  · by_cases ht : t = s.kernel.running
    · rw [hc, ht, Function.update_self]; simp
    · rw [hcont t ht]; exact h.no_try t
  · rw [how, Option.some.injEq] at hoo
    subst hoo
    by_cases ht : t = s.kernel.running
    · subst ht; simp [hh]
    · simp [hh, hheld t, ht]
  · -- the one that was readied has taken it, and there was no other
    have hne : t ≠ s.kernel.running := by
      rintro rfl
      have := ht.1
      rw [hc, Function.update_self] at this
      cases this
    exact hne (hone t _ ⟨by rw [← hcont t hne]; exact ht.1, by rw [← hq]; exact ht.2⟩ hr)
  · rw [how] at hnn; cases hnn

/-- A call on another object. -/
theorem MutexInv.call_other (h : MutexInv m s) {c : Call} (hr : s.cont s.kernel.running = none)
    (hc : ¬ Kernel.uses m c) (htry : ∀ m', c ≠ .trylock m' ∨ (s.kernel.begin c).2 ≠ none) :
    MutexInv m (s.makeCall c) := by
  obtain ⟨ho, hq⟩ := s.kernel.begin_frame hc
  rcases hb : (s.kernel.begin c).2 with _ | code
  · have hcont := s.makeCall_cont_none c hb
    refine h.frame (by simpa using ho) (by simpa using hq) (fun t => ?_) (fun t => ?_) (fun t => ?_)
    · rw [hcont]
      by_cases ht : t = s.kernel.running
      · subst ht
        rw [Function.update_self, hr, Option.some.injEq]
        exact ⟨fun e => absurd (by rw [e]; rfl) hc, fun e => by cases e⟩
      · rw [Function.update_of_ne ht]
    · rw [hcont]
      by_cases ht : t = s.kernel.running
      · subst ht
        rw [Function.update_self, ne_eq, Option.some.injEq]
        exact (htry m).resolve_right fun hn => hn hb
      · rw [Function.update_of_ne ht]
        exact h.no_try t
    · rw [s.makeCall_holds_none c hb]
      exact onCall_frame hc t
  · have hcont := s.makeCall_cont_some c hb
    refine h.frame (by simpa using ho) (by simpa using hq) (fun t => by rw [hcont])
      (fun t => by rw [hcont]; exact h.no_try t) (fun t => ?_)
    rw [s.makeCall_holds_some c hb, onReturn_frame hc, onCall_frame hc]

/-- `pthread_mutex_lock`. -/
theorem MutexInv.call_lock (h : MutexInv m s) (hs : Sched idle s.kernel)
    (h0 : s.kernel.intLevel = 0) (hn : s.kernel.owner m = none → ∀ t, ¬ Readied m s t) :
    MutexInv m (s.makeCall (.lock m)) := by
  rcases hs.begin_lock h0 m with ⟨-, hb⟩ | ⟨hsome, hb⟩ | ⟨hnone, hb⟩
  · have hcont := s.makeCall_cont_some (.lock m) (congrArg Prod.snd hb)
    have hhold := s.makeCall_holds_some (.lock m) (congrArg Prod.snd hb)
    exact h.frame (by simp [hb]) (by simp [hb]) (fun t => by rw [hcont])
      (fun t => by rw [hcont]; exact h.no_try t) (fun t => by rw [hhold]; rfl)
  · exact h.wait hs h0 hsome (by simp [hb]) (s.makeCall_cont_none _ (congrArg Prod.snd hb))
      (s.makeCall_holds_none _ (congrArg Prod.snd hb))
  · exact h.take hnone (hn hnone) (by simp [hb]) (s.makeCall_cont_some _ (congrArg Prod.snd hb))
      (s.makeCall_holds_some _ (congrArg Prod.snd hb))

/-- `pthread_mutex_trylock`. -/
theorem MutexInv.call_trylock (h : MutexInv m s)
    (hn : s.kernel.owner m = none → ∀ t, ¬ Readied m s t) :
    MutexInv m (s.makeCall (.trylock m)) := by
  by_cases hnone : s.kernel.owner m = none
  · have hb : s.kernel.begin (.trylock m) = (s.kernel.takeMutex m, some .zero) := by
      simp [Kernel.begin, Kernel.tthCsMutexLock, hnone]
    exact h.take hnone (hn hnone) (by simp [hb]) (s.makeCall_cont_some _ (congrArg Prod.snd hb))
      (s.makeCall_holds_some _ (congrArg Prod.snd hb))
  · -- owned by the caller or by another thread: an error code, and nothing changes
    obtain ⟨code, hb, hne⟩ : ∃ code, s.kernel.begin (.trylock m) = (s.kernel, some code) ∧
        code ≠ .zero := by
      by_cases hself : s.kernel.owner m = some s.kernel.running
      · exact ⟨.EDEADLK, by simp [Kernel.begin, Kernel.tthCsMutexLock, hself], by simp⟩
      · exact ⟨.EBUSY, by
          simp [Kernel.begin, Kernel.tthCsMutexLock, hself, Option.isSome_iff_ne_none, hnone],
          by simp⟩
    have hcont := s.makeCall_cont_some (.trylock m) (congrArg Prod.snd hb)
    have hhold := s.makeCall_holds_some (.trylock m) (congrArg Prod.snd hb)
    refine h.frame (by simp [hb]) (by simp [hb]) (fun t => by rw [hcont])
      (fun t => by rw [hcont]; exact h.no_try t) (fun t => ?_)
    rw [hhold]
    cases code <;> first | exact absurd rfl hne | rfl

/-- `pthread_mutex_unlock`. -/
theorem MutexInv.call_unlock (h : MutexInv m s) (hs : Sched idle s.kernel)
    (hr : s.cont s.kernel.running = none) : MutexInv m (s.makeCall (.unlock m)) := by
  have hcall : ∀ t, onCall s.holds s.kernel.running (.unlock m) t m =
      if t = s.kernel.running then false else s.holds t m := by
    intro t
    by_cases ht : t = s.kernel.running
    · subst ht; simp [onCall]
    · simp [onCall, ht]
  by_cases hown : s.kernel.owner m = some s.kernel.running
  · have hb : s.kernel.begin (.unlock m) =
        ((s.kernel.dropMutex m).tthCsMove (.mutex m) .ready .ready).switchThen .zero := by
      simp [Kernel.begin, Kernel.pthreadMutexUnlock, Kernel.tthCsMutexUnlock, hown]
    have hq : (s.makeCall (.unlock m)).kernel.queue =
        (s.kernel.tthCsMove (.mutex m) .ready .ready).queue := by
      rw [makeCall_kernel, hb, Kernel.switchThen_queue, Kernel.tthCsMove_dropMutex_queue]
    have how : (s.makeCall (.unlock m)).kernel.owner m = none := by
      rw [makeCall_kernel, hb, Kernel.switchThen_owner]
      simp [Kernel.dropMutex]
    rcases hcode : (s.kernel.begin (.unlock m)).2 with _ | code
    · have hcont := s.makeCall_cont_none _ hcode
      refine h.release hs hown hq how (fun t => ?_) (fun t => ?_) (fun t => ?_)
      · rw [hcont]
        by_cases ht : t = s.kernel.running
        · subst ht; simp [hr]
        · rw [Function.update_of_ne ht]
      · rw [hcont]
        by_cases ht : t = s.kernel.running
        · subst ht; simp
        · rw [Function.update_of_ne ht]; exact h.no_try t
      · rw [s.makeCall_holds_none _ hcode]; exact hcall t
    · have hcont := s.makeCall_cont_some _ hcode
      refine h.release hs hown hq how (fun t => by rw [hcont])
        (fun t => by rw [hcont]; exact h.no_try t) (fun t => ?_)
      rw [s.makeCall_holds_some _ hcode]; exact hcall t
  · have hb : s.kernel.begin (.unlock m) = (s.kernel, some .EPERM) := by
      simp [Kernel.begin, Kernel.pthreadMutexUnlock, Kernel.tthCsMutexUnlock, hown]
    have hcont := s.makeCall_cont_some _ (congrArg Prod.snd hb)
    refine h.frame (by simp [hb]) (by simp [hb]) (fun t => by rw [hcont])
      (fun t => by rw [hcont]; exact h.no_try t) (fun t => ?_)
    rw [s.makeCall_holds_some _ (congrArg Prod.snd hb)]
    show onCall s.holds s.kernel.running (.unlock m) t m = s.holds t m
    rw [hcall]
    by_cases ht : t = s.kernel.running
    · -- the caller did not hold the mutex: its holder is its owner
      rw [if_pos ht, ht]
      rcases ho : s.kernel.owner m with _ | o
      · exact ((h.free ho).1 _).symm
      · refine (Bool.eq_false_iff.2 fun hcon => ?_).symm
        exact hown (by rw [ho, ((h.owned o ho).1 _).1 hcon])
    · rw [if_neg ht]

end Calls

/-! ## Runs -/

/-- Every event keeps the invariant of the mutex. -/
theorem mutexInv_step {idle : Tid} {m : MutexId} {s t : State} {e : Event}
    (h : MutexInv m s) (hs : Sched idle s.kernel) (hok : NoneReadied m s e)
    (hst : s.step idle e = some t) : MutexInv m t := by
  cases e with
  | call c =>
    simp only [State.step, Option.ite_none_right_eq_some, Option.some.injEq] at hst
    obtain ⟨⟨h0, hr, -⟩, rfl⟩ := hst
    by_cases hc : Kernel.uses m c
    · cases c with
      | lock m' => cases hc; exact h.call_lock hs h0 (hok (Or.inl rfl))
      | trylock m' => cases hc; exact h.call_trylock (hok (Or.inr rfl))
      | unlock m' => cases hc; exact h.call_unlock hs hr
      | _ => exact absurd hc id
    · refine h.call_other hr hc fun m' => ?_
      by_cases he : c = .trylock m'
      · subst he
        refine Or.inr ?_
        simp only [Kernel.begin, Kernel.tthCsMutexLock, Bool.false_eq_true, ↓reduceIte]
        split_ifs <;> simp
      · exact Or.inl he
  | finish =>
    simp only [State.step, Option.ite_none_right_eq_some, Option.map_eq_some_iff] at hst
    obtain ⟨h0, c, hc, rfl⟩ := hst
    by_cases huse : c = .lock m
    · subst huse
      obtain ⟨rest, hq⟩ := hs.ready_eq h0
      refine h.comeBack ⟨hc, fun hm => ?_⟩ rfl rfl rfl
      have hrun : s.kernel.running ∈ s.kernel.queue .ready := by rw [hq]; exact List.mem_cons_self
      exact absurd (hs.wf.disjoint _ _ _ hm hrun) (by simp)
    · have hcont : ∀ u, (s.finishCall c).cont u = some (.lock m) ↔ s.cont u = some (.lock m) := by
        intro u
        by_cases hu : u = s.kernel.running
        · subst hu; simp [State.finishCall, hc, huse]
        · simp [State.finishCall, Function.update_of_ne hu]
      refine h.frame ?_ ?_ hcont (fun u => ?_) (fun u => ?_)
      · cases c with
        | lock m' =>
          have hne : m ≠ m' := fun e => huse (by rw [e])
          simp [State.finishCall, Kernel.finish, Kernel.takeMutex, Function.update_of_ne hne]
        | _ => rfl
      · cases c <;> rfl
      · by_cases hu : u = s.kernel.running
        · subst hu; simp [State.finishCall]
        · simpa [State.finishCall, Function.update_of_ne hu] using h.no_try u
      · show State.onReturn s.holds s.kernel.running c .zero u m = s.holds u m
        cases c with
        | lock m' => exact onReturn_frame (fun e => huse (by rw [show m' = m from e])) u
        | trylock m' =>
          by_cases hm : m' = m
          · subst hm; exact absurd hc (h.no_try _)
          · exact onReturn_frame (c := .trylock m') hm u
        | _ => rfl
  | intEnter =>
    simp only [State.step, Option.ite_none_right_eq_some, Option.some.injEq] at hst
    obtain ⟨-, rfl⟩ := hst
    exact h.frame rfl rfl (fun _ => Iff.rfl) h.no_try fun _ => rfl
  | intPost sem =>
    simp only [State.step, Option.ite_none_right_eq_some, Option.some.injEq] at hst
    obtain ⟨-, rfl⟩ := hst
    obtain ⟨ho, hq⟩ := s.kernel.begin_frame (m := m) (c := .semPost sem) id
    exact h.frame ho hq (fun _ => Iff.rfl) h.no_try fun _ => rfl
  | intTick =>
    simp only [State.step, Option.ite_none_right_eq_some, Option.some.injEq] at hst
    obtain ⟨-, rfl⟩ := hst
    obtain ⟨ho, hq⟩ := s.kernel.begin_frame (m := m) (c := .yield) id
    by_cases hrr : s.kernel.roundRobin s.kernel.running
    · refine h.frame ?_ ?_ (fun _ => Iff.rfl) h.no_try fun _ => rfl <;>
        simp only [State.tick, hrr, ↓reduceIte]
      · exact ho
      · exact hq
    · refine h.frame ?_ ?_ (fun _ => Iff.rfl) h.no_try fun _ => rfl <;> simp [State.tick, hrr]
  | intExit =>
    simp only [State.step, Option.ite_none_right_eq_some, Option.some.injEq] at hst
    obtain ⟨-, rfl⟩ := hst
    exact h.frame (by simp) (by simp) (fun _ => Iff.rfl) h.no_try fun _ => rfl

/-- **Mutual exclusion.** From an unlocked mutex, in every run in which no call takes the free
mutex while a readied waiter is on its way, at most one thread holds it at a time, and that
thread's `unlock` returns 0. -/
theorem mutex_exclusion (idle : Tid) (m : MutexId) (s₀ : State) (es : List Event) (s : State)
    (h₀ : Unlocked idle m s₀) (h : Path (State.step idle) (NoneReadied m) s₀ es s) :
    Excludes m s := by
  have hinv : Sched idle s.kernel ∧ MutexInv m s :=
    h.invariant (I := fun s => Sched idle s.kernel ∧ MutexInv m s) ⟨h₀.sched, h₀.mutexInv⟩
      fun s e t hI hok hst => ⟨sched_step hI.1 hst, mutexInv_step hI.2 hI.1 hok hst⟩
  exact hinv.2.excludes

/-- Two ready threads of one priority and the idle thread, nothing locked. -/
def twoReady : State where
  kernel :=
    { queue := fun a => if a = .ready then [1, 2, 0] else []
      running := 1
      intLevel := 0
      schedpriority := fun t => if t = 0 then 0 else 50
      roundRobin := fun _ => true
      waitstate := fun _ => .ready
      owner := fun _ => none
      value := fun _ => 0 }
  cont := fun _ => none
  holds := fun _ _ => false

theorem twoReady_unlocked (m : MutexId) : Unlocked 0 m twoReady where
  sched :=
    { wf :=
        { nodup := fun a => by unfold twoReady; dsimp only; split_ifs <;> decide
          disjoint := fun a b t ha hb => by
            unfold twoReady at ha hb
            dsimp only at ha hb
            split_ifs at ha hb with h1 h2
            · rw [h1, h2]
            all_goals simp at ha hb }
      idle_ready := by decide
      head_runs := fun _ => rfl }
  owner := rfl
  waiter := rfl
  cont _ := ⟨by simp [twoReady], by simp [twoReady]⟩
  holds _ := rfl

/-- Thread 2 waits for the mutex of thread 1 and gets it when thread 1 unlocks it and yields. -/
theorem mutex_exclusion_handover : ∃ es s,
    Path (State.step 0) (NoneReadied 0) twoReady es s ∧ s.holds 2 0 = true ∧ Excludes 0 s := by
  -- the first call finds the mutex free and nobody readied, the second finds it owned
  have hlock : Path (State.step 0) (NoneReadied 0) twoReady [.call (.lock 0)] _ :=
    .single (fun _ _ t ht => absurd ht.1 (by simp [twoReady])) rfl
  have hwait := (hlock.snoc (e := .call .yield) (fun h => by simp at h) rfl).snoc
    (e := .call (.lock 0)) (fun _ h => by cases h) rfl
  have hrun := (((hwait.snoc (e := .finish) (fun h => by simp at h) rfl).snoc
    (e := .call (.unlock 0)) (fun h => by simp at h) rfl).snoc
    (e := .call .yield) (fun h => by simp at h) rfl).snoc
    (e := .finish) (fun h => by simp at h) rfl
  exact ⟨_, _, hrun, rfl, mutex_exclusion 0 0 twoReady _ _ (twoReady_unlocked 0) hrun⟩

/-- Without the condition, two threads can hold the mutex: thread 1 unlocks it, locks it again
before the readied thread 2 has run, and yields. -/
theorem not_mutex_exclusion : ¬ ∀ (idle : Tid) (m : MutexId) (s₀ : State) (es : List Event)
    (s : State), Unlocked idle m s₀ → Path (State.step idle) anyStep s₀ es s → Excludes m s := by
  intro h
  have hrun : (exec (State.step 0) anyStep twoReady [.call (.lock 0), .call .yield, .call (.lock 0),
      .finish, .call (.unlock 0), .call (.lock 0), .call .yield, .finish]).isSome = true := by decide
  have := (h 0 0 twoReady _ _ (twoReady_unlocked 0) (path_get hrun)).1 1 2 rfl rfl
  exact absurd this (by decide)

end OlivePiccolo.TinyThreads
