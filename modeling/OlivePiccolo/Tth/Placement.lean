import OlivePiccolo.Tth.System

/-!
# Where the threads are

Every live thread is on exactly one list, and a thread that has ended on none or on `tth_detach`
(`Places`). The threads are about to use other threads' objects, to join, insert or free them: these
are there then, and in the state they are taken to be in (`Uses`). Both are kept by what the calls
do with the lists.
-/

namespace OlivePiccolo.Tth

open Links

/-- The states of a thread that has started and has not ended. -/
def WaitState.live : WaitState → Bool
  | .inval | .join | .dead => false
  | _ => true

/-- A live thread. -/
def Threads.Live (th : Threads) (t : Tid) : Prop := t ∈ th.objects ∧ (th.waitstate t).live = true

/-- The lists of live threads that do not wait for another thread to end. -/
def Anchor.plain : Anchor → Bool
  | .detach | .thread _ => false
  | _ => true

/-- The thread goes on without doing anything with the lists. -/
def Cont.plain : Cont → Bool
  | .returns _ | .relock _ => true
  | _ => false

/-- The thread that one is about to join. -/
def joining (cont : Tid → Option Cont) (u : Tid) : Option Tid := (cont u).bind Cont.joins

/-- Live threads are on the lists, but for `tth_detach`. -/
structure Places (th : Threads) (q : Anchor → List Tid) : Prop where
  lists : Lists th q
  idle_ready : tthIdleThread ∈ q .ready
  priority : ∀ t ∈ th.objects, (th.schedpriority t = 0 ↔ t = tthIdleThread)
  live : ∀ t, (∃ a, a ≠ .detach ∧ t ∈ q a) ↔ th.Live t
  dead : ∀ t ∈ q .detach, th.waitstate t = .dead
  dead_detached : ∀ t ∈ th.objects, th.waitstate t = .dead → th.detached t = true

/-- The objects that the threads are about to use. -/
structure Uses (th : Threads) (cont : Tid → Option Cont) (q : Anchor → List Tid) : Prop where
  /-- Threads wait for another one to end inside their `pthread_join`, one at most. -/
  waiting : ∀ u t, u ∈ q (.thread t) → cont u = some (.join t)
  one_waiter : ∀ u v t, u ∈ q (.thread t) → v ∈ q (.thread t) → u = v
  target : ∀ u t, u ∈ q (.thread t) →
    t ∈ th.objects ∧ th.detached t = false ∧ th.waitstate t ≠ .join
  /-- A thread that is joined is waited for, or has ended. -/
  joins : ∀ u t, joining cont u = some t →
    t ∈ th.objects ∧ (u ∈ q (.thread t) ∨ th.waitstate t = .join)
  joins_unique : ∀ u v t, th.autostack t = true → joining cont u = some t →
    joining cont v = some t → u = v
  insert : ∀ u t, cont u = some (.insert t) → t ∈ th.objects ∧ th.waitstate t = .inval
  insert_unique : ∀ u v t, cont u = some (.insert t) → cont v = some (.insert t) → u = v
  freeStack : ∀ u t, cont u = some (.freeStack t) →
    u = tthIdleThread ∧ t ∈ th.objects ∧ th.waitstate t = .dead ∧ t ∉ q .detach
  cont_live : ∀ u, (cont u).isSome → th.Live u
  idle_cont : ∀ c m, cont tthIdleThread ≠ some (.condWait c m)

/-- Where the threads are. -/
structure Placed (th : Threads) (cont : Tid → Option Cont) (q : Anchor → List Tid) : Prop extends
  Places th q, Uses th cont q

/-- What a move changes of the threads: the wait state of one of them. -/
structure Threads.Waits (th th' : Threads) (t : Tid) (w : WaitState) : Prop where
  waitstate : th'.waitstate = Function.update th.waitstate t w
  detached : th'.detached = th.detached
  schedpriority : th'.schedpriority = th.schedpriority
  autostack : th'.autostack = th.autostack
  objects : th'.objects = th.objects

section Basics

variable {th th' : Threads} {cont : Tid → Option Cont} {q : Anchor → List Tid} {a dst : Anchor}
  {t u : Tid} {w : WaitState}

theorem Threads.waits_arrive (th : Threads) (t : Tid) (w : WaitState) (link : Memory Anchor Tid) :
    th.Waits (th.arrive t w link) t w := ⟨rfl, rfl, rfl, rfl, rfl⟩

theorem Threads.Waits.self (h : th.Waits th' t w) : th'.waitstate t = w := by
  rw [h.waitstate, Function.update_self]

theorem Threads.Waits.of_ne (h : th.Waits th' t w) (hu : u ≠ t) :
    th'.waitstate u = th.waitstate u := by
  rw [h.waitstate, Function.update_of_ne hu]

theorem Threads.Waits.live_of_ne (h : th.Waits th' t w) (hu : u ≠ t) : th'.Live u ↔ th.Live u := by
  rw [Threads.Live, Threads.Live, h.objects, h.of_ne hu]

theorem Threads.Live.ne_of_waitstate (h : th.Live t) (hu : (th.waitstate u).live = false) :
    u ≠ t := by
  rintro rfl
  rw [h.2] at hu
  cases hu

theorem Anchor.plain_ne_detach (h : dst.plain = true) : dst ≠ .detach := by
  rintro rfl
  cases h

theorem Anchor.plain_ne_thread (h : dst.plain = true) (t : Tid) : dst ≠ .thread t := by
  rintro rfl
  cases h

theorem Cont.uses_of_joins {c : Cont} (h : c.joins = some t) : c.uses = some t := by
  cases c <;> first | exact h | cases h

/-- An object is used by a thread that joins, inserts or frees it. -/
theorem uses_cases (h : (cont u).bind Cont.uses = some t) :
    joining cont u = some t ∨ cont u = some (.insert t) ∨ cont u = some (.freeStack t) := by
  obtain ⟨c, hc, huse⟩ := Option.bind_eq_some_iff.mp h
  rw [joining, hc]
  cases c with
  | join | free => exact .inl huse
  | insert =>
    cases huse
    exact .inr (.inl rfl)
  | freeStack =>
    cases huse
    exact .inr (.inr rfl)
  | returns | relock | condWait => cases huse

theorem Cont.joins_of_plain {c : Cont} (h : c.plain = true) : c.joins = none := by
  cases c <;> first | rfl | cases h

theorem Places.live_of_mem (h : Places th q) (ha : a ≠ .detach) (ht : t ∈ q a) : th.Live t :=
  (h.live t).mp ⟨a, ha, ht⟩

/-- A thread is on one list only. -/
theorem Places.not_mem (h : Places th q) {b : Anchor} (ht : t ∈ q a) (hab : a ≠ b) : t ∉ q b :=
  fun hb => hab (h.lists.links.disjoint _ _ t ht hb)

/-- A thread that is not live is on no list, but for `tth_detach`. -/
theorem Places.off (h : Places th q) (hw : (th.waitstate t).live = false)
    (hd : t ∉ q .detach) (a : Anchor) : t ∉ q a := by
  intro ha
  by_cases had : a = .detach
  · subst had
    exact hd ha
  · exact (h.live_of_mem had ha).ne_of_waitstate hw rfl

/-- No other thread is ready if the idle thread is the first one. -/
theorem Places.eq_idle (h : Places th q) (hhead : (q .ready).head? = some tthIdleThread)
    (hu : u ∈ q .ready) : u = tthIdleThread := by
  obtain ⟨rest, hq⟩ := List.head?_eq_some_iff.mp hhead
  have hordered := h.lists.ordered .ready (by simp)
  have hzero := (h.priority _ (h.lists.mem_objects _ _ h.idle_ready)).mpr rfl
  rw [hq, List.pairwise_cons] at hordered
  have hobj := h.lists.mem_objects _ _ hu
  rw [hq, List.mem_cons] at hu
  rcases hu with rfl | hu
  · rfl
  · rcases hordered.1 u hu with hlt | ⟨heq, -⟩
    · rw [hzero] at hlt
      exact absurd hlt (Nat.not_lt_zero _)
    · exact (h.priority u hobj).mp (heq.symm.trans hzero)

end Basics

/-! ## A thread changes its list -/

section Moved

variable {th th' : Threads} {cont : Tid → Option Cont} {q q' : Anchor → List Tid}
  {src dst : Anchor} {t u : Tid} {w : WaitState}

/-- A live thread moves to a list of live threads. -/
theorem Places.moved (h : Places th q) (hobj : t ∈ th.objects) (hdetach : t ∉ q .detach)
    (hdst : dst ≠ .detach) (hw : w.live = true) (hidle : t = tthIdleThread → dst = .ready)
    (hwaits : th.Waits th' t w) (hlists : Lists th' q') (hmoved : Moved q q' t (some dst)) :
    Places th' q' := by
  have hlive' : th'.Live t := ⟨hwaits.objects ▸ hobj, by rw [hwaits.self, hw]⟩
  refine ⟨hlists, ?_, ?_, fun u => ?_, fun u hu => ?_, fun u hu hdead => ?_⟩
  · rw [hmoved]
    by_cases heq : tthIdleThread = t
    · exact .inl ⟨heq, congrArg some (hidle heq.symm)⟩
    · exact .inr ⟨heq, h.idle_ready⟩
  · rw [hwaits.objects, hwaits.schedpriority]
    exact h.priority
  · by_cases hu : u = t
    · subst hu
      exact iff_of_true ⟨dst, hdst, (hmoved dst u).mpr (.inl ⟨rfl, rfl⟩)⟩ hlive'
    · rw [hwaits.live_of_ne hu, ← h.live u]
      refine exists_congr fun a => and_congr_right fun _ => ?_
      rw [hmoved]
      simp [hu]
  · rcases (hmoved _ u).mp hu with ⟨-, heq⟩ | ⟨hut, hu⟩
    · exact absurd (Option.some.inj heq) hdst
    · rw [hwaits.of_ne hut]
      exact h.dead u hu
  · rw [hwaits.detached]
    have hut : u ≠ t := hlive'.ne_of_waitstate (by rw [hdead]; rfl)
    rw [hwaits.of_ne hut] at hdead
    exact h.dead_detached u (hwaits.objects ▸ hu) hdead

/-- Only the wait state of a live thread changes, and the lists that are not plain do not. -/
theorem Uses.moved (h : Uses th cont q) (ht : th.Live t ∨ th.waitstate t = .inval)
    (hinsert : ∀ u, cont u ≠ some (.insert t)) (hw : w.live = true) (hwaits : th.Waits th' t w)
    (hsame : ∀ a, a.plain = false → ∀ u, u ∈ q' a ↔ u ∈ q a) : Uses th' cont q' := by
  have hne : ∀ u, th.waitstate u = .join ∨ th.waitstate u = .dead → u ≠ t := by
    rintro u hu rfl
    rcases ht with hlive | hinval
    · rcases hu with hu | hu <;> exact hlive.ne_of_waitstate (by rw [hu]; rfl) rfl
    · rcases hu with hu | hu <;> · rw [hinval] at hu; cases hu
  have hself : th'.waitstate t = w := hwaits.self
  refine ⟨?_, ?_, ?_, ?_, ?_, ?_, h.insert_unique, ?_, ?_, h.idle_cont⟩
  · exact fun u t' hu => h.waiting u t' ((hsame _ rfl u).mp hu)
  · exact fun u v t' hu hv => h.one_waiter u v t' ((hsame _ rfl u).mp hu) ((hsame _ rfl v).mp hv)
  · intro u t' hu
    obtain ⟨hobj, hdet, hjoin⟩ := h.target u t' ((hsame _ rfl u).mp hu)
    refine ⟨hwaits.objects ▸ hobj, hwaits.detached ▸ hdet, ?_⟩
    by_cases htt : t' = t
    · subst htt
      rw [hself]
      rintro rfl
      cases hw
    · rwa [hwaits.of_ne htt]
  · intro u t' hu
    obtain ⟨hobj, hcases⟩ := h.joins u t' hu
    refine ⟨hwaits.objects ▸ hobj, hcases.imp (hsame _ rfl u).mpr fun hjoin => ?_⟩
    rw [hwaits.of_ne (hne t' (.inl hjoin)), hjoin]
  · rw [hwaits.autostack]
    exact h.joins_unique
  · intro u t' hu
    obtain ⟨hobj, hinval⟩ := h.insert u t' hu
    have htt : t' ≠ t := by
      rintro rfl
      exact hinsert u hu
    refine ⟨hwaits.objects ▸ hobj, ?_⟩
    rw [hwaits.of_ne htt, hinval]
  · intro u t' hu
    obtain ⟨heq, hobj, hdead, hoff⟩ := h.freeStack u t' hu
    refine ⟨heq, hwaits.objects ▸ hobj, ?_, fun hmem => hoff ((hsame _ rfl t').mp hmem)⟩
    rw [hwaits.of_ne (hne t' (.inr hdead)), hdead]
  · intro u hu
    have hlive := h.cont_live u hu
    by_cases hut : u = t
    · subst hut
      exact ⟨hwaits.objects ▸ hlive.1, by rw [hself, hw]⟩
    · exact (hwaits.live_of_ne hut).mpr hlive

/-- What is not plain keeps its threads when one moves between plain lists. -/
theorem Moved.same (hmoved : Moved q q' t (some dst)) (hdst : dst.plain = true)
    (ht : ∀ a, a.plain = false → t ∉ q a) :
    ∀ a, a.plain = false → ∀ u, u ∈ q' a ↔ u ∈ q a := by
  intro a ha u
  rw [hmoved]
  constructor
  · rintro (⟨-, heq⟩ | ⟨-, hu⟩)
    · cases heq
      rw [hdst] at ha
      cases ha
    · exact hu
  · refine fun hu => .inr ⟨?_, hu⟩
    rintro rfl
    exact ht a ha hu

/-- A move between plain lists. -/
theorem Placed.moved (h : Placed th cont q) (hsrc : src.plain = true) (ht : t ∈ q src)
    (hdst : dst.plain = true) (hw : w.live = true) (hidle : t = tthIdleThread → dst = .ready)
    (hwaits : th.Waits th' t w) (hlists : Lists th' q') (hmoved : Moved q q' t (some dst)) :
    Placed th' cont q' := by
  have hoff : ∀ a, a.plain = false → t ∉ q a := by
    intro a ha
    refine h.not_mem ht ?_
    rintro rfl
    rw [hsrc] at ha
    cases ha
  have hlive := h.live_of_mem (Anchor.plain_ne_detach hsrc) ht
  have hinsert : ∀ u, cont u ≠ some (.insert t) := fun u hu =>
    hlive.ne_of_waitstate (by rw [(h.insert u t hu).2]; rfl) rfl
  exact ⟨h.toPlaces.moved hlive.1 (hoff _ rfl) (Anchor.plain_ne_detach hdst) hw hidle hwaits hlists
    hmoved, h.toUses.moved (.inl hlive) hinsert hw hwaits (hmoved.same hdst hoff)⟩

/-- What a move between plain lists keeps. -/
structure Kept (th th' : Threads) (q q' : Anchor → List Tid) : Prop where
  live : ∀ u, th.Live u → th'.Live u
  waiting : ∀ u t, u ∈ q' (.thread t) → u ∈ q (.thread t)

theorem Kept.refl (th : Threads) (q : Anchor → List Tid) : Kept th th q q :=
  ⟨fun _ h => h, fun _ _ h => h⟩

theorem Kept.trans {th'' : Threads} {q'' : Anchor → List Tid} (h : Kept th th' q q')
    (h' : Kept th' th'' q' q'') : Kept th th'' q q'' :=
  ⟨fun u hu => h'.live u (h.live u hu), fun u t hu => h.waiting u t (h'.waiting u t hu)⟩

theorem Threads.Waits.kept (h : th.Waits th' t w) (hw : w.live = true)
    (hdst : dst.plain = true) (hmoved : Moved q q' t (some dst)) : Kept th th' q q' := by
  constructor
  · intro u hu
    by_cases hut : u = t
    · subst hut
      exact ⟨h.objects ▸ hu.1, by rw [h.self, hw]⟩
    · exact (h.live_of_ne hut).mpr hu
  · intro u t' hu
    rcases (hmoved _ u).mp hu with ⟨-, heq⟩ | ⟨-, hu⟩
    · exact absurd (Option.some.inj heq) (Anchor.plain_ne_thread hdst t')
    · exact hu

/-- `tth_cs_move` between plain lists. -/
theorem Placed.move (h : Placed th cont q) (src dst : Anchor) (w : WaitState)
    (hsrc : src.plain = true) (hdst : dst.plain = true) (hw : w.live = true)
    (hidle : (q src).head? = some tthIdleThread → dst = .ready) :
    ∃ th' q', th.tthCsMove src (some dst) w = some th' ∧ Placed th' cont q' ∧ Kept th th' q q' ∧
      (dst = .ready → ∀ u ∈ q .ready, u ∈ q' .ready) ∧
        (src ≠ dst → q' src = (q src).tail) := by
  cases hq : q src with
  | nil =>
    exact ⟨th, q, h.lists.move_nil hq (some dst) w, h, Kept.refl th q, fun _ _ hu => hu,
      fun _ => hq⟩
  | cons t rest =>
    obtain ⟨link, q', hmove, hlists, hmoved, hrest⟩ := h.lists.move hq dst w
    have ht : t ∈ q src := by
      rw [hq]
      exact List.mem_cons_self
    have hidle' : t = tthIdleThread → dst = .ready := by
      rintro rfl
      exact hidle (by rw [hq]; rfl)
    have hwaits := th.waits_arrive t w link
    refine ⟨_, q', hmove, h.moved hsrc ht hdst hw hidle' hwaits hlists hmoved,
      hwaits.kept hw hdst hmoved, ?_, hrest⟩
    rintro rfl u hu
    rw [hmoved]
    by_cases hut : u = t
    · exact .inl ⟨hut, rfl⟩
    · exact .inr ⟨hut, hu⟩

/-- `tth_cs_move` to `tth_ready`. -/
theorem Placed.wake (h : Placed th cont q) (src : Anchor) (hsrc : src.plain = true) :
    ∃ th' q', th.tthCsMove src (some .ready) .ready = some th' ∧ Placed th' cont q' ∧
      Kept th th' q q' ∧ (∀ u ∈ q .ready, u ∈ q' .ready) ∧
        (src ≠ .ready → q' src = (q src).tail) := by
  obtain ⟨th', q', hmove, hp, hkept, hready, hrest⟩ :=
    h.move src .ready .ready hsrc rfl rfl fun _ => rfl
  exact ⟨th', q', hmove, hp, hkept, hready rfl, hrest⟩

end Moved

/-! ## A thread goes on somewhere else -/

section SetCont

variable {th : Threads} {cont : Tid → Option Cont} {q : Anchor → List Tid} {t u v : Tid}
  {c : Option Cont}

/-- Where a thread goes on, after one of them has been given another place. -/
theorem cont_cases {d : Cont} (h : Function.update cont u c v = some d) :
    (v = u ∧ c = some d) ∨ (v ≠ u ∧ cont v = some d) := by
  by_cases hvu : v = u
  · subst hvu
    rw [Function.update_self] at h
    exact .inl ⟨rfl, h⟩
  · rw [Function.update_of_ne hvu] at h
    exact .inr ⟨hvu, h⟩

theorem joining_cases (h : joining (Function.update cont u c) v = some t) :
    (v = u ∧ c.bind Cont.joins = some t) ∨ (v ≠ u ∧ joining cont v = some t) := by
  obtain ⟨d, hd, ht⟩ := Option.bind_eq_some_iff.mp h
  exact (cont_cases hd).imp (And.imp_right fun hc => Option.bind_eq_some_iff.mpr ⟨d, hc, ht⟩)
    (And.imp_right fun hc => Option.bind_eq_some_iff.mpr ⟨d, hc, ht⟩)

theorem Placed.setCont (h : Placed th cont q) (hlive : c.isSome → th.Live u)
    (hoff : ∀ t, u ∉ q (.thread t))
    (hjoin : ∀ t, c.bind Cont.joins = some t → t ∈ th.objects ∧ th.waitstate t = .join ∧
      (th.autostack t = true → ∀ v, v ≠ u → joining cont v ≠ some t))
    (hinsert : ∀ t, c = some (.insert t) → t ∈ th.objects ∧ th.waitstate t = .inval ∧
      ∀ v, v ≠ u → cont v ≠ some (.insert t))
    (hfree : ∀ t, c = some (.freeStack t) →
      u = tthIdleThread ∧ t ∈ th.objects ∧ th.waitstate t = .dead ∧ t ∉ q .detach)
    (hidle : u = tthIdleThread → ∀ d m, c ≠ some (.condWait d m)) :
    Placed th (Function.update cont u c) q := by
  refine ⟨h.toPlaces, ?_, h.one_waiter, h.target, ?_, ?_, ?_, ?_, ?_, ?_, ?_⟩
  · intro v t hv
    have hvu : v ≠ u := by
      rintro rfl
      exact hoff t hv
    rw [Function.update_of_ne hvu]
    exact h.waiting v t hv
  · intro v t hv
    rcases joining_cases hv with ⟨rfl, hc⟩ | ⟨-, hold⟩
    · exact ⟨(hjoin t hc).1, .inr (hjoin t hc).2.1⟩
    · exact h.joins v t hold
  · intro v v' t ht hv hv'
    rcases joining_cases hv with ⟨rfl, hc⟩ | ⟨hvu, hold⟩ <;>
      rcases joining_cases hv' with ⟨rfl, hc'⟩ | ⟨hvu', hold'⟩
    · rfl
    · exact absurd hold' ((hjoin t hc).2.2 ht v' hvu')
    · exact absurd hold ((hjoin t hc').2.2 ht v hvu)
    · exact h.joins_unique v v' t ht hold hold'
  · intro v t hv
    rcases cont_cases hv with ⟨-, hc⟩ | ⟨-, hold⟩
    · exact ⟨(hinsert t hc).1, (hinsert t hc).2.1⟩
    · exact h.insert v t hold
  · intro v v' t hv hv'
    rcases cont_cases hv with ⟨rfl, hc⟩ | ⟨hvu, hold⟩ <;>
      rcases cont_cases hv' with ⟨rfl, hc'⟩ | ⟨hvu', hold'⟩
    · rfl
    · exact absurd hold' ((hinsert t hc).2.2 v' hvu')
    · exact absurd hold ((hinsert t hc').2.2 v hvu)
    · exact h.insert_unique v v' t hold hold'
  · intro v t hv
    rcases cont_cases hv with ⟨rfl, hc⟩ | ⟨-, hold⟩
    · exact hfree t hc
    · exact h.freeStack v t hold
  · intro v hv
    obtain ⟨d, hd⟩ := Option.isSome_iff_exists.mp hv
    rcases cont_cases hd with ⟨rfl, hc⟩ | ⟨-, hold⟩
    · exact hlive (Option.isSome_iff_exists.mpr ⟨d, hc⟩)
    · exact h.cont_live v (Option.isSome_iff_exists.mpr ⟨d, hold⟩)
  · intro d m hd
    rcases cont_cases hd with ⟨hu, hc⟩ | ⟨-, hold⟩
    · exact hidle hu.symm d m hc
    · exact h.idle_cont d m hold

/-- Where it goes on, the thread does not do anything with the lists. -/
theorem Placed.setCont_plain (h : Placed th cont q) (hc : ∀ d, c = some d → d.plain = true)
    (hlive : c.isSome → th.Live u) (hoff : ∀ t, u ∉ q (.thread t)) :
    Placed th (Function.update cont u c) q := by
  refine h.setCont hlive hoff (fun t ht => ?_) (fun t ht => ?_) (fun t ht => ?_) fun _ d m hd => ?_
  · obtain ⟨d, rfl, hd⟩ := Option.bind_eq_some_iff.mp ht
    rw [Cont.joins_of_plain (hc d rfl)] at hd
    cases hd
  · cases hc _ ht
  · cases hc _ ht
  · cases hc _ hd

end SetCont

end OlivePiccolo.Tth
