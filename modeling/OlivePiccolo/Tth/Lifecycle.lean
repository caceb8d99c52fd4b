import OlivePiccolo.Tth.Placement

/-!
# The life of a thread

A thread is created, becomes ready, ends, is joined or reclaimed, and its memory is freed. Each of
these steps keeps the threads in their places (`Placed`).
-/

namespace OlivePiccolo.Tth

open Links

section Create

variable {k : Kernel} {th : Threads} {cont : Tid → Option Cont} {q : Anchor → List Tid} {t u : Tid}

/-- Nothing is said of an object that is not in use. -/
theorem Placed.ne_of_not_mem (h : Placed th cont q) (ht : t ∉ th.objects) :
    (∀ a, t ∉ q a) ∧ q (.thread t) = [] ∧ cont t = none := by
  refine ⟨fun a ha => ht (h.lists.mem_objects a t ha), ?_, ?_⟩
  · refine List.eq_nil_iff_forall_not_mem.mpr fun u hu => ht (h.target u t hu).1
  · cases hc : cont t with
    | none => rfl
    | some c => exact absurd (h.cont_live t (by rw [hc]; rfl)).1 ht

/-- `pthread_create`: the new object. -/
theorem Placed.create (h : Placed k.toThreads cont q) {attr : Attr} (ht : t ∉ k.objects)
    (hprio : 1 ≤ attr.schedpriority) :
    Placed (k.pthreadCreate (some t) attr).1.toThreads cont q := by
  obtain ⟨hoff, hnil, -⟩ := h.ne_of_not_mem ht
  have hne : ∀ u ∈ k.objects, u ≠ t := fun u hu heq => ht (heq ▸ hu)
  have hnem : ∀ a, ∀ u ∈ q a, u ≠ t := fun a u hu heq => hoff a (heq ▸ hu)
  -- the other threads are as before
  have hlive : ∀ u, u ≠ t → ((k.pthreadCreate (some t) attr).1.Live u ↔ k.Live u) := by
    intro u hu
    simp only [Kernel.pthreadCreate, Threads.Live, List.mem_cons, hu, false_or,
      Function.update_of_ne hu]
  have hlists : Lists (k.pthreadCreate (some t) attr).1.toThreads q := by
    refine ⟨(h.lists.links.store_head hnil).store_follower hoff none, fun a ha => ?_,
      h.lists.stamped, fun a u hu => List.mem_cons_of_mem t (h.lists.mem_objects a u hu)⟩
    refine (h.lists.ordered a ha).imp_of_mem fun {u v} hu hv huv => ?_
    simp only [Threads.Before, Kernel.pthreadCreate, Function.update_of_ne (hnem a u hu),
      Function.update_of_ne (hnem a v hv)]
    exact huv
  have hold {β : Type} (f : Tid → β) (x : β) : ∀ u ∈ k.objects, Function.update f t x u = f u :=
    fun u hu => Function.update_of_ne (hne u hu) _ _
  refine ⟨⟨hlists, h.idle_ready, fun u hu => ?_, fun u => ?_, fun u hu => ?_, fun u hu hdead => ?_⟩,
    h.waiting, h.one_waiter, fun u v hu => ?_, fun u v hu => ?_, fun u u' v hauto hu hu' => ?_,
    fun u v hu => ?_, h.insert_unique, fun u v hu => ?_, fun u hu => ?_, h.idle_cont⟩
  · show Function.update k.schedpriority t attr.schedpriority u = 0 ↔ _
    rcases List.mem_cons.mp hu with rfl | hu
    · rw [Function.update_self]
      have hidle := hnem _ _ h.idle_ready
      exact iff_of_false (by omega) hidle.symm
    · rw [hold _ _ u hu]
      exact h.priority u hu
  · by_cases hut : u = t
    · subst hut
      refine iff_of_false (not_exists.mpr fun a ha => hoff a ha.2) fun hlive => ?_
      have hwait := hlive.2
      simp only [Kernel.pthreadCreate, Function.update_self] at hwait
      cases hwait
    · rw [hlive u hut]
      exact h.live u
  · show Function.update k.waitstate t .inval u = .dead
    rw [hold _ _ u (h.lists.mem_objects _ u hu)]
    exact h.dead u hu
  · change Function.update k.waitstate t .inval u = .dead at hdead
    rcases List.mem_cons.mp hu with rfl | hu
    · rw [Function.update_self] at hdead
      cases hdead
    · rw [hold _ _ u hu] at hdead
      show Function.update k.detached t attr.detached u = true
      rw [hold _ _ u hu]
      exact h.dead_detached u hu hdead
  · obtain ⟨hobj, hdet, hjoin⟩ := h.target u v hu
    refine ⟨List.mem_cons_of_mem t hobj, ?_, ?_⟩
    · exact (hold k.detached _ v hobj).trans hdet
    · exact fun heq => hjoin ((hold k.waitstate _ v hobj).symm.trans heq)
  · obtain ⟨hobj, hcases⟩ := h.joins u v hu
    exact ⟨List.mem_cons_of_mem t hobj, hcases.imp_right fun hjoin =>
      (hold k.waitstate _ v hobj).trans hjoin⟩
  · have hobj := (h.joins u v hu).1
    change Function.update k.autostack t attr.autostack v = true at hauto
    rw [hold _ _ v hobj] at hauto
    exact h.joins_unique u u' v hauto hu hu'
  · obtain ⟨hobj, hinval⟩ := h.insert u v hu
    exact ⟨List.mem_cons_of_mem t hobj, (hold k.waitstate _ v hobj).trans hinval⟩
  · obtain ⟨heq, hobj, hdead, hd⟩ := h.freeStack u v hu
    exact ⟨heq, List.mem_cons_of_mem t hobj, (hold k.waitstate _ v hobj).trans hdead, hd⟩
  · have hu' := h.cont_live u hu
    exact (hlive u (hne u hu'.1)).mpr hu'

/-- `pthread_create`: the new thread becomes ready. -/
theorem Placed.put (h : Placed th cont q) (hobj : t ∈ th.objects) (hinval : th.waitstate t = .inval)
    (hinsert : ∀ u, cont u ≠ some (.insert t)) :
    ∃ th' q', th.tthCsPut t (some .ready) .ready = some th' ∧ Placed th' cont q' ∧
      Kept th th' q q' := by
  have hlive : (th.waitstate t).live = false := by rw [hinval]; rfl
  have hdetach : t ∉ q .detach := fun hd => by
    have hdead := h.dead t hd
    rw [hinval] at hdead
    cases hdead
  have hoff := h.off hlive hdetach
  obtain ⟨link, hput, hlists⟩ := h.lists.put hoff hobj .ready .ready
  have hwaits := th.waits_arrive t .ready link
  have hmoved : Moved q (Function.update q .ready (insertBehind (th.notLower t) t (q .ready))) t
      (some .ready) := by
    intro a u
    rw [mem_put, Option.some.injEq, eq_comm (a := a)]
    refine or_congr_right ⟨fun hu => ⟨?_, hu⟩, fun hu => hu.2⟩
    rintro rfl
    exact hoff a hu
  exact ⟨_, _, hput, ⟨h.toPlaces.moved hobj hdetach (by simp) rfl (fun _ => rfl) hwaits hlists hmoved,
    h.toUses.moved (.inr hinval) hinsert rfl hwaits (hmoved.same rfl fun a _ => hoff a)⟩,
    hwaits.kept rfl rfl hmoved⟩

end Create

/-! ## Joining -/

section Join

variable {th th' : Threads} {cont : Tid → Option Cont} {q q' : Anchor → List Tid} {t u : Tid}

/-- What the threads are about to do, when one waits for another one to end. -/
theorem Uses.join (h : Uses th cont q) (hlive : th.Live u)
    (hoff : ∀ t, u ∉ q (.thread t)) (hobj : t ∈ th.objects) (hdetached : th.detached t = false)
    (hnone : q (.thread t) = []) (hstate : th.waitstate t ≠ .join)
    (hwaits : th.Waits th' u .thread)
    (hthread : ∀ v t', v ∈ q' (.thread t') ↔ (v = u ∧ t' = t) ∨ v ∈ q (.thread t'))
    (hdetach : ∀ v, v ∈ q' .detach → v ∈ q .detach) :
    Uses th' (Function.update cont u (some (.join t))) q' := by
  -- nobody else joins this thread
  have hjoins : ∀ v, joining cont v ≠ some t := by
    intro v hv
    rcases (h.joins v t hv).2 with hmem | hjoin
    · rw [hnone] at hmem
      cases hmem
    · exact hstate hjoin
  have hold : ∀ v c, Function.update cont u (some (.join t)) v = some c → c ≠ .join t →
      cont v = some c := by
    intro v c hv hc
    rcases cont_cases hv with ⟨-, heq⟩ | ⟨-, hv⟩
    · exact absurd (Option.some.inj heq).symm hc
    · exact hv
  -- what has been in a state that is not live is in that state
  have hsame : ∀ v, (th.waitstate v).live = false → th'.waitstate v = th.waitstate v := fun v hv =>
    hwaits.of_ne (hlive.ne_of_waitstate hv)
  refine ⟨?_, ?_, ?_, ?_, ?_, ?_, ?_, ?_, ?_, ?_⟩
  · intro v t' hv
    rcases (hthread v t').mp hv with ⟨rfl, rfl⟩ | hv
    · exact Function.update_self _ _ _
    · rw [Function.update_of_ne (ne_of_mem_of_not_mem hv (hoff t'))]
      exact h.waiting v t' hv
  · intro v v' t' hv hv'
    rcases (hthread v t').mp hv with ⟨rfl, rfl⟩ | hv
    · rcases (hthread v' t').mp hv' with ⟨rfl, -⟩ | hv'
      · rfl
      · rw [hnone] at hv'
        cases hv'
    · rcases (hthread v' t').mp hv' with ⟨rfl, rfl⟩ | hv'
      · rw [hnone] at hv
        cases hv
      · exact h.one_waiter v v' t' hv hv'
  · intro v t' hv
    have hfacts : t' ∈ th.objects ∧ th.detached t' = false ∧ th.waitstate t' ≠ .join := by
      rcases (hthread v t').mp hv with ⟨rfl, rfl⟩ | hv
      · exact ⟨hobj, hdetached, hstate⟩
      · exact h.target v t' hv
    refine ⟨hwaits.objects ▸ hfacts.1, hwaits.detached ▸ hfacts.2.1, ?_⟩
    by_cases htu : t' = u
    · subst htu
      rw [hwaits.self]
      simp
    · rw [hwaits.of_ne htu]
      exact hfacts.2.2
  · intro v t' hv
    rw [hwaits.objects]
    rcases joining_cases hv with ⟨rfl, ⟨⟩⟩ | ⟨-, hold⟩
    · exact ⟨hobj, .inl ((hthread v t).mpr (.inl ⟨rfl, rfl⟩))⟩
    · obtain ⟨hobj', hcases⟩ := h.joins v t' hold
      refine ⟨hobj', hcases.imp (fun hv => (hthread v t').mpr (.inr hv)) fun hjoin => ?_⟩
      rw [hsame t' (by rw [hjoin]; rfl), hjoin]
  · intro v v' t' hauto hv hv'
    rw [hwaits.autostack] at hauto
    rcases joining_cases hv with ⟨rfl, ⟨⟩⟩ | ⟨-, hold⟩
    · rcases joining_cases hv' with ⟨rfl, -⟩ | ⟨-, hold'⟩
      · rfl
      · exact absurd hold' (hjoins v')
    · rcases joining_cases hv' with ⟨rfl, ⟨⟩⟩ | ⟨-, hold'⟩
      · exact absurd hold (hjoins v)
      · exact h.joins_unique v v' t' hauto hold hold'
  · intro v t' hv
    obtain ⟨hobj', hinval⟩ := h.insert v t' (hold v _ hv (by simp))
    refine ⟨hwaits.objects ▸ hobj', ?_⟩
    rw [hsame t' (by rw [hinval]; rfl), hinval]
  · intro v v' t' hv hv'
    exact h.insert_unique v v' t' (hold v _ hv (by simp)) (hold v' _ hv' (by simp))
  · intro v t' hv
    obtain ⟨heq, hobj', hdead, hd⟩ := h.freeStack v t' (hold v _ hv (by simp))
    refine ⟨heq, hwaits.objects ▸ hobj', ?_, fun hmem => hd (hdetach t' hmem)⟩
    rw [hsame t' (by rw [hdead]; rfl), hdead]
  · intro v hv
    by_cases hvu : v = u
    · subst hvu
      exact ⟨hwaits.objects ▸ hlive.1, by rw [hwaits.self]; rfl⟩
    · rw [Function.update_of_ne hvu] at hv
      exact (hwaits.live_of_ne hvu).mpr (h.cont_live v hv)
  · exact fun c m hc => h.idle_cont c m (hold _ _ hc (by simp))

/-- `pthread_join` of a thread that has not ended. -/
theorem Placed.join (h : Placed th cont q) (hhead : (q .ready).head? = some u)
    (hidle : u ≠ tthIdleThread) (hobj : t ∈ th.objects) (hdetached : th.detached t = false)
    (hnone : q (.thread t) = []) (hstate : th.waitstate t ≠ .join) :
    ∃ th' q', th.tthCsMove .ready (some (.thread t)) .thread = some th' ∧
      Placed th' (Function.update cont u (some (.join t))) q' := by
  obtain ⟨rest, hq⟩ := List.head?_eq_some_iff.mp hhead
  obtain ⟨link, q', hmove, hlists, hmoved, -⟩ := h.lists.move hq (.thread t) .thread
  have hu : u ∈ q .ready := by
    rw [hq]
    exact List.mem_cons_self
  have hlive : th.Live u := h.live_of_mem (by simp) hu
  have hoff : ∀ t', u ∉ q (.thread t') := fun t' => h.not_mem hu (by simp)
  have hwaits := th.waits_arrive u .thread link
  have hplaces := h.toPlaces.moved hlive.1 (h.not_mem hu (by simp)) (by simp) rfl
    (fun heq => absurd heq hidle) hwaits hlists hmoved
  refine ⟨_, q', hmove, hplaces, h.toUses.join hlive hoff hobj hdetached hnone hstate
    hwaits (fun v t' => ?_) fun v hv => ?_⟩
  · rw [hmoved]
    constructor
    · rintro (⟨rfl, heq⟩ | ⟨-, hv⟩)
      · cases heq
        exact .inl ⟨rfl, rfl⟩
      · exact .inr hv
    · rintro (⟨rfl, rfl⟩ | hv)
      · exact .inl ⟨rfl, rfl⟩
      · exact .inr ⟨ne_of_mem_of_not_mem hv (hoff t'), hv⟩
  · rcases (hmoved _ v).mp hv with ⟨-, heq⟩ | ⟨-, hv⟩
    · cases heq
    · exact hv

/-- `pthread_detach`. -/
theorem Placed.detach (h : Placed th cont q) (hnone : q (.thread t) = []) :
    Placed { th with detached := Function.update th.detached t true } cont q := by
  refine ⟨⟨⟨h.lists.links, h.lists.ordered, h.lists.stamped, h.lists.mem_objects⟩, h.idle_ready,
    h.priority, h.live, h.dead, fun u hu hdead => ?_⟩, h.waiting, h.one_waiter, fun u t' hu => ?_,
    h.joins, h.joins_unique, h.insert, h.insert_unique, h.freeStack, h.cont_live, h.idle_cont⟩
  · show Function.update th.detached t true u = true
    by_cases hut : u = t
    · subst hut
      rw [Function.update_self]
    · rw [Function.update_of_ne hut]
      exact h.dead_detached u hu hdead
  · obtain ⟨hobj, hdet, hjoin⟩ := h.target u t' hu
    refine ⟨hobj, ?_, hjoin⟩
    show Function.update th.detached t true t' = false
    have htt : t' ≠ t := by
      rintro rfl
      rw [hnone] at hu
      cases hu
    rwa [Function.update_of_ne htt]

end Join

/-! ## The end -/

section Exit

variable {th th' : Threads} {cont : Tid → Option Cont} {q q' : Anchor → List Tid} {t : Tid}
  {w : WaitState}

/-- A thread ends: it goes nowhere, or to `tth_detach`. -/
theorem Places.ended {dst : Option Anchor} (h : Places th q) (hidle : t ≠ tthIdleThread)
    (hdst : (dst = none ∧ w = .join) ∨ (dst = some .detach ∧ w = .dead ∧ th.detached t = true))
    (hwaits : th.Waits th' t w) (hlists : Lists th' q') (hmoved : Moved q q' t dst) :
    Places th' q' := by
  have hw : w.live = false := by
    rcases hdst with ⟨-, rfl⟩ | ⟨-, rfl, -⟩ <;> rfl
  refine ⟨hlists, (hmoved _ _).mpr (.inr ⟨hidle.symm, h.idle_ready⟩), ?_, fun u => ?_,
    fun u hu => ?_, fun u hu hdead => ?_⟩
  · rw [hwaits.objects, hwaits.schedpriority]
    exact h.priority
  · by_cases hut : u = t
    · subst hut
      refine iff_of_false ?_ fun hlive => ?_
      · rintro ⟨a, ha, hmem⟩
        rcases (hmoved a u).mp hmem with ⟨-, heq⟩ | ⟨hne, -⟩
        · rcases hdst with ⟨rfl, -⟩ | ⟨rfl, -, -⟩
          · cases heq
          · cases heq
            exact ha rfl
        · exact hne rfl
      · have hwait := hlive.2
        rw [hwaits.self, hw] at hwait
        cases hwait
    · rw [hwaits.live_of_ne hut, ← h.live u]
      refine exists_congr fun a => and_congr_right fun _ => ?_
      rw [hmoved]
      simp [hut]
  · rcases (hmoved _ u).mp hu with ⟨rfl, heq⟩ | ⟨hut, hu⟩
    · rcases hdst with ⟨rfl, -⟩ | ⟨-, rfl, -⟩
      · cases heq
      · exact hwaits.self
    · rw [hwaits.of_ne hut]
      exact h.dead u hu
  · rw [hwaits.detached]
    by_cases hut : u = t
    · subst hut
      rw [hwaits.self] at hdead
      rcases hdst with ⟨-, rfl⟩ | ⟨-, -, hdet⟩
      · cases hdead
      · exact hdet
    · rw [hwaits.of_ne hut] at hdead
      exact h.dead_detached u (hwaits.objects ▸ hu) hdead

/-- What the threads are about to do, when one has ended and nobody waits for it any more. -/
theorem Uses.ended (h : Uses th cont q) (hlive : th.Live t) (hoff : ∀ u, t ∉ q (.thread u))
    (hdetached : th'.detached = th.detached) (hautostack : th'.autostack = th.autostack)
    (hobjects : th'.objects = th.objects)
    (hstate : ∀ v, v ≠ t → th'.waitstate v = th.waitstate v ∨
      ((th.waitstate v).live = true ∧ (th'.waitstate v).live = true))
    (hend : th'.waitstate t = .join ∨ (th'.waitstate t = .dead ∧ q (.thread t) = []))
    (hthread : ∀ u v, v ∈ q' (.thread u) ↔ v ∈ q (.thread u) ∧ u ≠ t)
    (hdetach : ∀ v, v ≠ t → v ∈ q' .detach → v ∈ q .detach) :
    Uses th' (Function.update cont t none) q' := by
  -- what has been in a state that is not live is in that state
  have hsame : ∀ v, (th.waitstate v).live = false → th'.waitstate v = th.waitstate v := by
    intro v hv
    rcases hstate v (hlive.ne_of_waitstate hv) with heq | ⟨hv', -⟩
    · exact heq
    · rw [hv] at hv'
      cases hv'
  have hold : ∀ v c, Function.update cont t none v = some c → v ≠ t ∧ cont v = some c :=
    fun v c hv => (cont_cases hv).resolve_left fun hnone => by cases hnone.2
  have hjoins : ∀ v u, joining (Function.update cont t none) v = some u → joining cont v = some u :=
    fun v u hv => ((joining_cases hv).resolve_left fun hnone => by cases hnone.2).2
  refine ⟨?_, ?_, ?_, ?_, ?_, ?_, ?_, ?_, ?_, fun c m hc => h.idle_cont c m (hold _ _ hc).2⟩
  · intro v u hv
    have hv := ((hthread u v).mp hv).1
    rw [Function.update_of_ne (ne_of_mem_of_not_mem hv (hoff u))]
    exact h.waiting v u hv
  · exact fun v v' u hv hv' => h.one_waiter v v' u ((hthread u v).mp hv).1 ((hthread u v').mp hv').1
  · intro v u hv
    obtain ⟨hv, hut⟩ := (hthread u v).mp hv
    obtain ⟨hobj, hdet, hjoin⟩ := h.target v u hv
    refine ⟨hobjects ▸ hobj, hdetached ▸ hdet, ?_⟩
    rcases hstate u hut with heq | ⟨-, hlive'⟩
    · rwa [heq]
    · intro heq
      rw [heq] at hlive'
      cases hlive'
  · intro v u hv
    obtain ⟨hobj, hcases⟩ := h.joins v u (hjoins v u hv)
    refine ⟨hobjects ▸ hobj, ?_⟩
    rcases hcases with hmem | hjoin
    · by_cases hut : u = t
      · subst hut
        rcases hend with hend | ⟨-, hnil⟩
        · exact .inr hend
        · rw [hnil] at hmem
          cases hmem
      · exact .inl ((hthread u v).mpr ⟨hmem, hut⟩)
    · rw [hsame u (by rw [hjoin]; rfl), hjoin]
      exact .inr rfl
  · intro v v' u hauto hv hv'
    rw [hautostack] at hauto
    exact h.joins_unique v v' u hauto (hjoins v u hv) (hjoins v' u hv')
  · intro v u hv
    obtain ⟨hobj, hinval⟩ := h.insert v u (hold v _ hv).2
    refine ⟨hobjects ▸ hobj, ?_⟩
    rw [hsame u (by rw [hinval]; rfl), hinval]
  · exact fun v v' u hv hv' => h.insert_unique v v' u (hold v _ hv).2 (hold v' _ hv').2
  · intro v u hv
    obtain ⟨heq, hobj, hdead, hd⟩ := h.freeStack v u (hold v _ hv).2
    have hnotlive : (th.waitstate u).live = false := by rw [hdead]; rfl
    refine ⟨heq, hobjects ▸ hobj, ?_,
      fun hmem => hd (hdetach u (hlive.ne_of_waitstate hnotlive) hmem)⟩
    rw [hsame u hnotlive, hdead]
  · intro v hv
    obtain ⟨c, hc⟩ := Option.isSome_iff_exists.mp hv
    obtain ⟨hvt, hc⟩ := hold v c hc
    have hv := h.cont_live v (by rw [hc]; rfl)
    refine ⟨hobjects ▸ hv.1, ?_⟩
    rcases hstate v hvt with heq | ⟨-, hlive'⟩
    · rw [heq]
      exact hv.2
    · exact hlive'

/-- `pthread_exit` of a detached thread. -/
theorem Placed.exit_detached (h : Placed th cont q) (hhead : (q .ready).head? = some t)
    (hidle : t ≠ tthIdleThread) (hdetached : th.detached t = true) :
    ∃ th' q', th.tthCsMove .ready (some .detach) .dead = some th' ∧
      Placed th' (Function.update cont t none) q' := by
  obtain ⟨rest, hq⟩ := List.head?_eq_some_iff.mp hhead
  obtain ⟨link, q', hmove, hlists, hmoved, -⟩ := h.lists.move hq .detach .dead
  have ht : t ∈ q .ready := by
    rw [hq]
    exact List.mem_cons_self
  have hlive : th.Live t := h.live_of_mem (by simp) ht
  have hwaits := th.waits_arrive t .dead link
  have hnil : q (.thread t) = [] := by
    refine List.eq_nil_iff_forall_not_mem.mpr fun u hu => ?_
    have hdet := (h.target u t hu).2.1
    rw [hdetached] at hdet
    cases hdet
  have hoff : ∀ u, t ∉ q (.thread u) := fun u => h.not_mem ht (by simp)
  refine ⟨_, q', hmove, h.toPlaces.ended hidle (.inr ⟨rfl, rfl, hdetached⟩) hwaits hlists hmoved,
    h.toUses.ended hlive hoff rfl rfl rfl (fun v hv => .inl (hwaits.of_ne hv))
      (.inr ⟨hwaits.self, hnil⟩) (fun u v => ?_) fun v hv hmem => ?_⟩
  · rw [hmoved]
    constructor
    · rintro (⟨-, heq⟩ | ⟨-, hv⟩)
      · cases heq
      · refine ⟨hv, ?_⟩
        rintro rfl
        rw [hnil] at hv
        cases hv
    · exact fun hv => .inr ⟨ne_of_mem_of_not_mem hv.1 (hoff u), hv.1⟩
  · rcases (hmoved _ v).mp hmem with ⟨heq, -⟩ | ⟨-, hmem⟩
    · exact absurd heq hv
    · exact hmem

/-- `pthread_exit` of a joinable thread. -/
theorem Placed.exit_joinable (h : Placed th cont q) (hhead : (q .ready).head? = some t)
    (hidle : t ≠ tthIdleThread) :
    ∃ th' th'' q', th.tthCsMove .ready none .join = some th' ∧
      th'.tthCsMove (.thread t) (some .ready) .ready = some th'' ∧
        Placed th'' (Function.update cont t none) q' := by
  obtain ⟨rest, hq⟩ := List.head?_eq_some_iff.mp hhead
  obtain ⟨link, q', hmove, hlists, hmoved⟩ := h.lists.move_off hq .join
  have ht : t ∈ q .ready := by
    rw [hq]
    exact List.mem_cons_self
  have hlive : th.Live t := h.live_of_mem (by simp) ht
  have hoff : ∀ u, t ∉ q (.thread u) := fun u => h.not_mem ht (by simp)
  set th' := { th with waitstate := Function.update th.waitstate t .join, link := link } with hth'
  have hwaits : th.Waits th' t .join := ⟨rfl, rfl, rfl, rfl, rfl⟩
  have hplaces : Places th' q' := h.toPlaces.ended hidle (.inl ⟨rfl, rfl⟩) hwaits hlists hmoved
  have hmem : ∀ a v, v ∈ q' a ↔ v ≠ t ∧ v ∈ q a := by
    intro a v
    rw [hmoved]
    simp
  cases hq' : q' (.thread t) with
  | nil =>
    refine ⟨th', th', q', hmove, hlists.move_nil hq' _ _, hplaces, h.toUses.ended hlive hoff rfl rfl
      rfl (fun v hv => .inl (hwaits.of_ne hv)) (.inl hwaits.self) (fun u v => ?_)
        fun v _ hv => ((hmem _ v).mp hv).2⟩
    constructor
    · intro hv
      refine ⟨((hmem _ v).mp hv).2, ?_⟩
      rintro rfl
      rw [hq'] at hv
      cases hv
    · exact fun hv => (hmem _ v).mpr ⟨ne_of_mem_of_not_mem hv.1 (hoff u), hv.1⟩
  | cons u rest' =>
    -- the waiter becomes ready
    obtain ⟨link', q'', hmove', hlists', hmoved', -⟩ := hlists.move hq' .ready .ready
    have hu' : u ∈ q' (.thread t) := by
      rw [hq']
      exact List.mem_cons_self
    obtain ⟨hut, hu⟩ := (hmem _ u).mp hu'
    have hulive' : th'.Live u := hplaces.live_of_mem (by simp) hu'
    have hulive : th.Live u := h.live_of_mem (by simp) hu
    have hwaits' := th'.waits_arrive u .ready link'
    have hplaces' := hplaces.moved hulive'.1 (hplaces.not_mem hu' (by simp)) (by simp) rfl
      (fun _ => rfl) hwaits' hlists' hmoved'
    refine ⟨th', _, q'', hmove, hmove', hplaces', h.toUses.ended hlive hoff rfl rfl rfl
      (fun v hv => ?_) (.inl ?_) (fun v v' => ?_) fun v hv hmem' => ?_⟩
    · by_cases hvu : v = u
      · subst hvu
        exact .inr ⟨hulive.2, by rw [hwaits'.self]; rfl⟩
      · exact .inl ((hwaits'.of_ne hvu).trans (hwaits.of_ne hv))
    · rw [hwaits'.of_ne hut.symm, hwaits.self]
    · rw [hmoved', hmem]
      constructor
      · rintro (⟨-, heq⟩ | ⟨hne, -, hv⟩)
        · cases heq
        · refine ⟨hv, ?_⟩
          rintro rfl
          exact hne (h.one_waiter v' u v hv hu)
      · rintro ⟨hv, hvt⟩
        refine .inr ⟨?_, ne_of_mem_of_not_mem hv (hoff v), hv⟩
        rintro rfl
        have heq := h.lists.links.disjoint _ _ _ hu hv
        cases heq
        exact hvt rfl
    · rcases (hmoved' _ v).mp hmem' with ⟨-, heq⟩ | ⟨-, hmem'⟩
      · cases heq
      · exact ((hmem _ v).mp hmem').2

end Exit

/-! ## Memory that is freed -/

section Free

variable {th : Threads} {cont : Tid → Option Cont} {q : Anchor → List Tid} {t : Tid}

/-- `tth_idle` takes a thread off `tth_detach`. -/
theorem Placed.reclaim (h : Placed th cont q) {rest : List Tid} (hq : q .detach = t :: rest) :
    Placed { th with link := take th.link .detach t }
      (Function.update cont tthIdleThread (some (.freeStack t)))
        (Function.update q .detach rest) := by
  obtain ⟨hlists, hoff⟩ := h.lists.take hq
  have ht : t ∈ q .detach := by
    rw [hq]
    exact List.mem_cons_self
  have hother : ∀ a, a ≠ .detach → Function.update q .detach rest a = q a := fun a ha =>
    Function.update_of_ne ha _ _
  have hsub : ∀ u ∈ Function.update q .detach rest .detach, u ∈ q .detach := fun u hu =>
    ((h.lists.mem_take hq).mp hu).2
  have hidle := h.idle_ready
  have hplaced : Placed { th with link := take th.link .detach t } cont
      (Function.update q .detach rest) := by
    refine ⟨⟨hlists, ?_, h.priority, fun u => ?_, fun u hu => h.dead u (hsub u hu),
      h.dead_detached⟩, ?_, ?_, ?_, ?_, h.joins_unique, h.insert, h.insert_unique, ?_, h.cont_live,
      h.idle_cont⟩
    · rwa [hother .ready (by simp)]
    · refine Iff.trans ?_ (h.live u)
      refine exists_congr fun a => and_congr_right fun ha => ?_
      rw [hother a ha]
    · intro u t'
      rw [hother _ (by simp)]
      exact h.waiting u t'
    · intro u v t'
      rw [hother _ (by simp)]
      exact h.one_waiter u v t'
    · intro u t'
      rw [hother _ (by simp)]
      exact h.target u t'
    · intro u t'
      rw [hother _ (by simp)]
      exact h.joins u t'
    · intro u t' hu
      obtain ⟨heq, hobj, hdead, hd⟩ := h.freeStack u t' hu
      exact ⟨heq, hobj, hdead, fun hmem => hd (hsub t' hmem)⟩
  refine hplaced.setCont (fun _ => h.live_of_mem (by simp) hidle) (fun u => ?_) (fun u hu => ?_)
    (fun u hu => ?_) (fun u hu => ?_) fun _ d m hd => by cases hd
  · rw [hother _ (by simp)]
    exact h.not_mem hidle (by simp)
  · cases hu
  · cases hu
  · cases hu
    exact ⟨rfl, h.lists.mem_objects _ _ ht, h.dead t ht, hoff _⟩

/-- An object that nobody is about to use is not in use any more. -/
theorem Placed.remove (h : Placed th cont q) (hlive : (th.waitstate t).live = false)
    (hdetach : t ∉ q .detach) (huse : ∀ u, (cont u).bind Cont.uses ≠ some t)
    (hwaiting : ∀ u, u ∉ q (.thread t)) :
    Placed { th with objects := th.objects.filter (· ≠ t) } cont q := by
  have hoff := h.off hlive hdetach
  have hobj : ∀ u, u ∈ th.objects.filter (· ≠ t) ↔ u ∈ th.objects ∧ u ≠ t := by
    intro u
    rw [List.mem_filter, decide_eq_true_iff]
  have hne : ∀ u v c, cont u = some c → c.uses = some v → v ≠ t := by
    rintro u v c hu hv rfl
    exact huse u (by rw [hu, Option.bind_some, hv])
  have hliveIff : ∀ u, (Threads.Live { th with objects := th.objects.filter (· ≠ t) } u ↔
      th.Live u) := by
    intro u
    rw [Threads.Live, hobj]
    constructor
    · exact fun hu => ⟨hu.1.1, hu.2⟩
    · intro hu
      refine ⟨⟨hu.1, ?_⟩, hu.2⟩
      rintro rfl
      exact hu.ne_of_waitstate hlive rfl
  refine ⟨⟨⟨h.lists.links, h.lists.ordered, h.lists.stamped, fun a u hu => ?_⟩, h.idle_ready,
    fun u hu => h.priority u ((hobj u).mp hu).1, fun u => (h.live u).trans (hliveIff u).symm, h.dead,
    fun u hu => h.dead_detached u ((hobj u).mp hu).1⟩, h.waiting, h.one_waiter, fun u v hu => ?_,
    fun u v hu => ?_, h.joins_unique, fun u v hu => ?_, h.insert_unique, fun u v hu => ?_,
    fun u hu => (hliveIff u).mpr (h.cont_live u hu), h.idle_cont⟩
  · exact (hobj u).mpr ⟨h.lists.mem_objects a u hu, ne_of_mem_of_not_mem hu (hoff a)⟩
  · obtain ⟨hv, hdet, hjoin⟩ := h.target u v hu
    refine ⟨(hobj v).mpr ⟨hv, ?_⟩, hdet, hjoin⟩
    rintro rfl
    exact hwaiting u hu
  · obtain ⟨hv, hcases⟩ := h.joins u v hu
    obtain ⟨c, hc, hjoins⟩ := Option.bind_eq_some_iff.mp hu
    exact ⟨(hobj v).mpr ⟨hv, hne u v c hc (Cont.uses_of_joins hjoins)⟩, hcases⟩
  · obtain ⟨hv, hinval⟩ := h.insert u v hu
    exact ⟨(hobj v).mpr ⟨hv, hne u v _ hu rfl⟩, hinval⟩
  · obtain ⟨heq, hv, hdead, hd⟩ := h.freeStack u v hu
    exact ⟨heq, (hobj v).mpr ⟨hv, hne u v _ hu rfl⟩, hdead, hd⟩

end Free

end OlivePiccolo.Tth
