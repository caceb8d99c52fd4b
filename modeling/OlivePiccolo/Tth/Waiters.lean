import OlivePiccolo.Tth.Moves

/-!
# The waiters of an object

An event that is not about a list leaves its threads alone: the list stays as it is, and none of them
gets another wait state or arrives anew. As all lists run through the same pointers, this rests on the
lists being disjoint (`Threads.Quiet`). It holds of the sleeping threads, and of the waiters of a
mutex, a semaphore or a condition (`Scheduled.exec_quietAt`).
-/

namespace OlivePiccolo.Tth

open Links

/-! ## Moves of other threads -/

/-- The list at `a` stays as it is, and so do its threads. -/
def Threads.Quiet (a : Anchor) (th th' : Threads) : Prop :=
  ∀ q, Lists th q → (∃ q', Lists th' q' ∧ q' a = q a) ∧
    ∀ t ∈ q a, th'.waitstate t = th.waitstate t ∧ th'.arrived t = th.arrived t

/-- What the lists depend on stays as it is. -/
structure Threads.Unmoved (th th' : Threads) : Prop where
  link : th'.link = th.link
  waitstate : th'.waitstate = th.waitstate
  arrived : th'.arrived = th.arrived

namespace Threads

variable {a src : Anchor} {dst : Option Anchor} {th th' th'' : Threads} {w : WaitState}

theorem Quiet.refl (a : Anchor) (th : Threads) : Quiet a th th :=
  fun q hq => ⟨⟨q, hq, rfl⟩, fun _ _ => ⟨rfl, rfl⟩⟩

theorem Quiet.trans (h : Quiet a th th') (h' : Quiet a th' th'') : Quiet a th th'' := by
  intro q hq
  obtain ⟨⟨q', hq', ha⟩, hsame⟩ := h q hq
  obtain ⟨⟨q'', hq'', ha'⟩, hsame'⟩ := h' q' hq'
  refine ⟨⟨q'', hq'', ha'.trans ha⟩, fun t ht => ?_⟩
  obtain ⟨hw, harr⟩ := hsame t ht
  obtain ⟨hw', harr'⟩ := hsame' t (by rw [ha]; exact ht)
  exact ⟨hw'.trans hw, harr'.trans harr⟩

/-- `tth_cs_move` between other lists. -/
theorem Quiet.of_move (hmove : th.tthCsMove src dst w = some th') (hsrc : a ≠ src)
    (hdst : dst ≠ some a) : Quiet a th th' := by
  intro q hq
  cases hlist : q src with
  | nil =>
    rw [hq.move_nil hlist] at hmove
    cases hmove
    exact Quiet.refl a th q hq
  | cons t rest =>
    obtain ⟨htake, ht⟩ := hq.take hlist
    have hmem : t ∈ q src := by rw [hlist]; exact List.mem_cons_self
    have hne : ∀ u ∈ q a, u ≠ t := by
      rintro u hu rfl
      exact hsrc (hq.links.disjoint _ _ u hu hmem)
    cases dst with
    | none =>
      have hoff : th.tthCsMove src none w = some
          { th with
            waitstate := Function.update th.waitstate t w
            link := Function.update (take th.link src t) (.follower t) none } := by
        rw [Threads.tthCsMove, hq.links.head_eq, hlist]
        rfl
      cases hoff.symm.trans hmove
      refine ⟨⟨_, ⟨htake.links.store_follower ht none, htake.ordered, htake.stamped,
        htake.mem_objects⟩, Function.update_of_ne hsrc _ _⟩, fun u hu => ⟨?_, rfl⟩⟩
      exact Function.update_of_ne (hne u hu) _ _
    | some d =>
      obtain ⟨link, hput, hlists⟩ := htake.put ht (hq.mem_objects src t hmem) d w
      have hall : th.tthCsMove src (some d) w = some (th.arrive t w link) := by
        rw [Threads.tthCsMove, hq.links.head_eq, hlist]
        exact hput
      cases hall.symm.trans hmove
      have had : a ≠ d := fun heq => hdst (congrArg some heq.symm)
      refine ⟨⟨_, hlists, ?_⟩, fun u hu => ⟨?_, ?_⟩⟩
      · rw [Function.update_of_ne had, Function.update_of_ne hsrc]
      · exact (th.waits_arrive t w link).of_ne (hne u hu)
      · exact arrive_arrived_of_ne (hne u hu)

theorem Unmoved.refl (th : Threads) : Unmoved th th := ⟨rfl, rfl, rfl⟩

end Threads

/-- What an event leaves behind that is not about the list at `a`. -/
def Kernel.QuietAt (a : Anchor) (k k' : Kernel) : Prop :=
  k.toThreads.Quiet a k'.toThreads ∨ k.toThreads.Unmoved k'.toThreads

/-- What a call leaves behind is quiet at `a`. -/
def QuietCallAt (a : Anchor) (k : Kernel) (o : Option (Kernel × Outcome)) : Prop :=
  ∀ r, o = some r → k.QuietAt a r.1

section Moves

variable {a : Anchor} {k k' : Kernel} {src : Anchor} {on : Anchor → Prop} {th th' : Threads}

/-- Moves between other lists. -/
theorem Threads.Moves.quiet (h : th.Moves on th') (ha : a ≠ .ready) (hon : ¬ on a) :
    th.Quiet a th' := by
  have hne : ∀ {b : Anchor}, b = .ready ∨ on b → a ≠ b := by
    rintro b hb rfl
    exact hb.elim ha hon
  induction h with
  | refl => exact .refl a th
  | move _ hsrc hdst _ hmove ih =>
    exact ih.trans (.of_move hmove (hne hsrc) fun heq => hne hdst (Option.some.inj heq).symm)

theorem MovesCall.quietCallAt {o : Option (Kernel × Outcome)} (h : MovesCall on k o)
    (ha : a ≠ .ready) (hon : ¬ on a) : QuietCallAt a k o := fun r hr =>
  .inl ((h r hr).1.quiet ha hon)

/-- The threads that meet the condition, up to the first one that does not. -/
theorem Lists.moveWhile {q : Anchor → List Tid} (hsrc : src ≠ .ready) (p : Kernel → Tid → Bool)
    (hp : ∀ k th u, p { k with toThreads := th } u = p k u) {fuel : ℕ} (h : Lists k.toThreads q)
    (hloop : Kernel.moveWhile p src fuel k = some k') :
    ∃ q', Lists k'.toThreads q' ∧ q' src = (q src).dropWhile (p k) ∧
      (∀ u ∈ (q src).takeWhile (p k), u ∈ q' .ready) ∧ ∀ u ∈ q .ready, u ∈ q' .ready := by
  induction fuel generalizing k q with
  | zero => cases hloop
  | succ fuel ih =>
    have hhead := h.links.head_eq src
    rw [Kernel.moveWhile, hhead] at hloop
    cases hq : q src with
    | nil =>
      rw [hq] at hloop
      cases hloop
      exact ⟨q, h, hq, fun u hu => absurd hu List.not_mem_nil, fun _ hu => hu⟩
    | cons t rest =>
      simp only [hq, List.head?_cons] at hloop
      by_cases hpt : p k t = true
      · rw [if_pos hpt] at hloop
        obtain ⟨link, q1, hmove, hlists, hmoved, hrest⟩ := h.move hq .ready .ready
        rw [tthCsMove_eq hmove, Option.bind_some] at hloop
        obtain ⟨q', hlists', hdrop, htake, hready⟩ := ih hlists hloop
        have hpk : p { k with toThreads := k.toThreads.arrive t .ready link } = p k :=
          funext fun u => hp k _ u
        rw [hrest hsrc, hpk] at hdrop htake
        refine ⟨q', hlists', ?_, fun u hu => ?_, fun u hu => ?_⟩
        · rw [hdrop, List.dropWhile_cons, if_pos hpt]
        · rw [List.takeWhile_cons, if_pos hpt] at hu
          rcases List.mem_cons.mp hu with rfl | hu
          · exact hready u ((hmoved _ u).mpr (.inl ⟨rfl, rfl⟩))
          · exact htake u hu
        · refine hready u ((hmoved _ u).mpr ?_)
          by_cases hut : u = t
          · exact .inl ⟨hut, rfl⟩
          · exact .inr ⟨hut, hu⟩
      · rw [if_neg hpt] at hloop
        cases hloop
        refine ⟨q, h, ?_, fun u hu => ?_, fun _ hu => hu⟩
        · rw [List.dropWhile_cons, if_neg hpt, hq]
        · rw [List.takeWhile_cons, if_neg hpt] at hu
          cases hu

end Moves

/-! ## The calls -/

/-- The list is one of threads that wait, or sleep. -/
structure Anchor.Waits (a : Anchor) : Prop where
  plain : a.plain = true
  ne_ready : a ≠ .ready

/-- The call is about the list at `a`. -/
def Call.touches (a : Anchor) : Call → Prop
  | .usleep _ => a = .sleeping
  | .semInit sem _ _ | .semPost sem | .semWait sem => a = .sem sem
  | .mutexInit m | .mutexLock m | .mutexUnlock m => a = .mutex m
  | .condInit c | .condBroadcast c | .condSignal c => a = .cond c
  | .condWait c m => a = .cond c ∨ a = .mutex m
  | _ => False

section Calls

variable {a : Anchor} {k k' : Kernel} {cont : Tid → Option Cont} {q : Anchor → List Tid}

theorem Anchor.Waits.ne_detach (ha : a.Waits) : a ≠ .detach := Anchor.plain_ne_detach ha.plain

theorem Anchor.Waits.ne_thread (ha : a.Waits) (t : Tid) : a ≠ .thread t :=
  Anchor.plain_ne_thread ha.plain t

theorem Anchor.Waits.some_ne_ready (ha : a.Waits) : some Anchor.ready ≠ some a := fun heq =>
  ha.ne_ready (Option.some.inj heq).symm

/-- A list of threads that wait is one that the call is about. -/
theorem Call.touches_of_lists (ha : a.Waits) {c : Call} (h : c.lists a) : c.touches a := by
  cases c with
  | join t => exact absurd h (ha.ne_thread t)
  | create | exit | detach | usleep | idle | semInit | mutexInit | condInit => cases h
  | _ => exact h

/-- A call that changes no list. -/
theorem quietCallAt_same {o : Outcome} (hth : k'.toThreads = k.toThreads) :
    QuietCallAt a k (some (k', o)) := by
  rintro r ⟨⟩
  right
  rw [hth]
  exact .refl _

theorem quietCallAt_exit (ha : a.Waits) (k : Kernel) (retval : BitVec 32) :
    QuietCallAt a k (k.pthreadExit retval) := by
  have hdetach : some Anchor.detach ≠ some a := fun heq => ha.ne_detach (Option.some.inj heq).symm
  rw [Kernel.pthreadExit]
  dsimp only
  split_ifs
  · intro p hp
    obtain ⟨k1, hmove, rfl⟩ := Option.map_eq_some_iff.mp hp
    obtain ⟨th, hth, rfl⟩ := Option.map_eq_some_iff.mp hmove
    left
    rw [tthCsSwitch_toThreads]
    exact .of_move hth ha.ne_ready hdetach
  · intro p hp
    obtain ⟨k1, hmove, hrest⟩ := Option.bind_eq_some_iff.mp hp
    obtain ⟨k2, hmove', rfl⟩ := Option.map_eq_some_iff.mp hrest
    obtain ⟨th, hth, rfl⟩ := Option.map_eq_some_iff.mp hmove
    obtain ⟨th', hth', rfl⟩ := Option.map_eq_some_iff.mp hmove'
    have hquiet := Threads.Quiet.of_move hth ha.ne_ready fun heq => by cases heq
    left
    rw [tthCsSwitch_toThreads]
    exact hquiet.trans (.of_move hth' (ha.ne_thread _) ha.some_ne_ready)

theorem quietCallAt_detach (k : Kernel) (t : Tid) : QuietCallAt a k (k.pthreadDetach t) := by
  rw [Kernel.pthreadDetach]
  split_ifs
  · exact quietCallAt_same rfl
  · intro r hr
    cases hr
  · rintro r ⟨⟩
    exact .inr ⟨rfl, rfl, rfl⟩

/-- `pthread_create`, up to its critical section. -/
theorem Scheduled.create_quietAt (h : Scheduled k cont q) (a : Anchor) {object : Option Tid}
    {attr : Attr} (hvalid : (Call.create object attr).Valid k) :
    QuietCallAt a k (some (k.pthreadCreate object attr)) := by
  cases object with
  | none => exact quietCallAt_same rfl
  | some t =>
    rintro r ⟨⟩
    refine .inl fun q' hq' => ?_
    obtain rfl := h.placed.lists.links.unique hq'.links
    refine ⟨⟨q, (h.placed.create hvalid.1 hvalid.2.1).lists, rfl⟩, fun u hu => ⟨?_, rfl⟩⟩
    have hne : u ≠ t := by
      rintro rfl
      exact hvalid.1 (hq'.mem_objects _ u hu)
    exact Function.update_of_ne hne _ _

/-- The critical section of `pthread_create`. -/
theorem Scheduled.insert_quietAt (h : Scheduled k cont q) (ha : a ≠ .ready) {u t : Tid}
    (hcont : cont u = some (.insert t)) : QuietCallAt a k (k.insertObject t) := by
  intro p hp
  obtain ⟨hobj, hinval⟩ := h.placed.insert u t hcont
  have hlive : (k.waitstate t).live = false := by rw [hinval]; rfl
  have hdetach : t ∉ q .detach := by
    intro hd
    cases hinval.symm.trans (h.placed.dead t hd)
  have hoff := h.placed.off hlive hdetach
  obtain ⟨link, hput, hlists⟩ := h.placed.lists.put hoff hobj .ready .ready
  rw [Kernel.insertObject, hput] at hp
  cases hp
  left
  rw [switchThen_fst, tthCsSwitch_toThreads]
  intro q' hq'
  obtain rfl := h.placed.lists.links.unique hq'.links
  refine ⟨⟨_, hlists, Function.update_of_ne ha _ _⟩, fun v hv => ?_⟩
  have hne : v ≠ t := ne_of_mem_of_not_mem hv (hoff _)
  exact ⟨Function.update_of_ne hne _ _, Threads.arrive_arrived_of_ne hne⟩

theorem Scheduled.usleep_quietAt (h : Scheduled k cont q) (h0 : k.intLevel = 0) (ha : a.Waits)
    (hne : a ≠ .sleeping) (us : BitVec 32) : QuietCallAt a k (k.usleep us) := by
  rw [Kernel.usleep]
  split_ifs
  · exact (@movesCall_move_then (fun _ => False) k _ _ _ _ (.inl rfl) (.inl rfl) rfl).quietCallAt
      ha.ne_ready id
  · exact quietCallAt_same rfl
  · intro p hp
    obtain ⟨rest, hq⟩ := List.head?_eq_some_iff.mp (h.head h0)
    obtain ⟨htake, hoff⟩ := h.placed.lists.take hq
    have hobj := (h.placed.live_of_mem (by simp) h.running_ready).1
    have hstamped := h.placed.lists.stamped _ _ h.running_ready
    have hasleep : Lists (k.fallAsleep us).toThreads (Function.update q .ready rest) :=
      ⟨htake.links, htake.ordered, htake.stamped, htake.mem_objects⟩
    obtain ⟨slot, hseek, hlists⟩ := hasleep.sleep hoff hobj hstamped
      ((k.fallAsleep us).wakesEarlier us)
    obtain ⟨slot', hseek', rfl⟩ := Option.map_eq_some_iff.mp hp
    cases hseek.symm.trans hseek'
    left
    rw [switchThen_fst, tthCsSwitch_toThreads]
    intro q' hq'
    obtain rfl := h.placed.lists.links.unique hq'.links
    refine ⟨⟨_, hlists, ?_⟩, fun v hv => ⟨?_, rfl⟩⟩
    · rw [Function.update_of_ne hne, Function.update_of_ne ha.ne_ready]
    · have hnev : v ≠ k.running := by
        rintro rfl
        exact h.placed.not_mem h.running_ready ha.ne_ready.symm hv
      exact Function.update_of_ne hnev _ _

/-- `tth_idle`, up to `free(stack)`. -/
theorem Scheduled.idle_quietAt (h : Scheduled k cont q) (ha : a ≠ .detach) :
    QuietCallAt a k (some k.tthIdle) := by
  have hhead := h.placed.lists.links.head_eq .detach
  rw [Kernel.tthIdle]
  cases hq : q .detach with
  | nil =>
    rw [hq] at hhead
    rw [hhead]
    exact quietCallAt_same rfl
  | cons t rest =>
    rw [hq] at hhead
    rw [hhead]
    rintro r ⟨⟩
    refine .inl fun q' hq' => ?_
    obtain rfl := h.placed.lists.links.unique hq'.links
    exact ⟨⟨_, (h.placed.lists.take hq).1, Function.update_of_ne ha _ _⟩, fun _ _ => ⟨rfl, rfl⟩⟩

/-- **A call that is not about a list** leaves its threads alone. -/
theorem Scheduled.call_quietAt (h : Scheduled k cont q) (h0 : k.intLevel = 0) (ha : a.Waits)
    {c : Call} (hvalid : c.Valid k) (hother : ¬ c.touches a) : QuietCallAt a k (k.call c) := by
  cases hspecial : c.special with
  | false =>
    exact (call_moves hvalid hspecial).quietCallAt ha.ne_ready fun hlists =>
      hother (Call.touches_of_lists ha hlists)
  | true =>
    cases c with
    | create object attr => exact h.create_quietAt a hvalid
    | exit retval => exact quietCallAt_exit ha k retval
    | detach t => exact quietCallAt_detach k t
    | usleep us => exact h.usleep_quietAt h0 ha hother us
    | idle => exact h.idle_quietAt ha.ne_detach
    | _ => cases hspecial

/-- Going on with a call is about a list only behind the switch of `pthread_cond_wait`. -/
def Cont.touches (a : Anchor) : Cont → Prop
  | .condWait _ m => a = .mutex m
  | _ => False

/-- So does going on with a call. -/
theorem Scheduled.resume_quietAt (h : Scheduled k cont q) (ha : a.Waits) {u : Tid} {c : Cont}
    (hc : cont u = some c) (hother : ¬ c.touches a) : QuietCallAt a k (k.resume c) := by
  cases hspecial : c.special with
  | false =>
    refine (resume_moves hspecial).quietCallAt ha.ne_ready fun hlists => hother ?_
    cases c with
    | join t => exact absurd hlists (ha.ne_thread t)
    | _ => exact hlists
  | true =>
    cases c with
    | insert t => exact h.insert_quietAt ha.ne_ready hc
    | free t _ | freeStack t =>
      intro p hp
      obtain ⟨k1, hfree, rfl⟩ := Option.map_eq_some_iff.mp hp
      rw [Kernel.freeObject] at hfree
      split_ifs at hfree
      · cases hfree
        exact .inr ⟨rfl, rfl, rfl⟩
      · cases hfree
        exact .inr (.refl _)
    | _ => cases hspecial

end Calls

/-! ## The events -/

/-- The event is about the list at `a`. -/
def Event.touches (s : State) (a : Anchor) : Event → Prop
  | .call c => c.touches a
  | .resume => ∃ c, s.cont s.kernel.running = some c ∧ c.touches a
  | .intPost sem => a = .sem sem
  | .intTick => a = .sleeping
  | _ => False

section Events

variable {a : Anchor} {s s' : State} {q : Anchor → List Tid} {k k' : Kernel} {usPerTick : ℕ}

/-- **An event that is not about a list** leaves its threads alone. -/
theorem Scheduled.exec_quietAt (h : Scheduled s.kernel s.cont q) {ticksPerSec : ℕ} {e : Event}
    (ha : a.Waits) (henabled : Enabled s e) (hother : ¬ e.touches s a)
    (hexec : s.exec ticksPerSec e = some s') : s.kernel.QuietAt a s'.kernel := by
  cases e with
  | call c =>
    obtain ⟨r, hcall, rfl⟩ := Option.map_eq_some_iff.mp hexec
    rw [settle_kernel]
    exact h.call_quietAt henabled.1 ha henabled.2.2.1 hother r hcall
  | resume =>
    obtain ⟨c, hc, hresume⟩ := Option.bind_eq_some_iff.mp hexec
    obtain ⟨r, hr, rfl⟩ := Option.map_eq_some_iff.mp hresume
    rw [settle_kernel]
    exact h.resume_quietAt ha hc (fun htouch => hother ⟨c, hc, htouch⟩) r hr
  | intEnter | intExit =>
    exact .inl ((exec_moves henabled rfl hexec).quiet ha.ne_ready id)
  | intPost | intTick =>
    exact .inl ((exec_moves henabled rfl hexec).quiet ha.ne_ready hother)
  | release t =>
    cases hexec
    exact .inr ⟨rfl, rfl, rfl⟩

/-- What a quiet event means for the lists before and after it. -/
theorem Kernel.QuietAt.lists {q' : Anchor → List Tid} (h : k.QuietAt a k')
    (hq : Lists k.toThreads q) (hq' : Lists k'.toThreads q') :
    q' a = q a ∧ ∀ t ∈ q a, k'.waitstate t = k.waitstate t ∧ k'.arrived t = k.arrived t := by
  rcases h with hquiet | hsame
  · obtain ⟨⟨q'', hq'', hlist⟩, hfields⟩ := hquiet q hq
    obtain rfl := hq''.links.unique hq'.links
    exact ⟨hlist, hfields⟩
  · have hlinks := hq'.links
    rw [hsame.link] at hlinks
    obtain rfl := hlinks.unique hq.links
    exact ⟨rfl, fun t _ => ⟨by rw [hsame.waitstate], by rw [hsame.arrived]⟩⟩

/-- None of the waiters gets another wait state. -/
theorem Kernel.QuietAt.waitstate (h : k.QuietAt a k') (hq : Lists k.toThreads q) :
    ∀ t ∈ q a, k'.waitstate t = k.waitstate t := by
  rcases h with hquiet | hsame
  · exact fun t ht => ((hquiet q hq).2 t ht).1
  · exact fun t _ => by rw [hsame.waitstate]

end Events

/-! ## The waiters of a semaphore -/

/-- An event that is not about a semaphore: its value stays as well. -/
structure Kernel.Quiet (sem : SemId) (k k' : Kernel) : Prop where
  threads : k.toThreads.Quiet (.sem sem) k'.toThreads ∨ k.toThreads.Unmoved k'.toThreads
  value : k'.value sem = k.value sem

section Semaphores

variable {sem : SemId} {k k' : Kernel} {s s' : State} {q : Anchor → List Tid} {e : Event}

theorem Anchor.waits_sem (sem : SemId) : (Anchor.sem sem).Waits := ⟨rfl, nofun⟩

theorem Event.not_touches (hother : ¬ e.about sem) : ¬ e.touches s (.sem sem) := by
  intro htouch
  cases e with
  | call c =>
    cases c with
    | semInit | semPost | semWait => exact hother (Anchor.sem.inj htouch).symm
    | condWait => rcases htouch with h | h <;> cases h
    | _ => cases htouch
  | resume =>
    obtain ⟨c, -, hc⟩ := htouch
    cases c <;> cases hc
  | intPost => exact hother (Anchor.sem.inj htouch).symm
  | _ => cases htouch

/-- **An event that is not about a semaphore** leaves its value and its waiters alone. -/
theorem Scheduled.exec_quiet (h : Scheduled s.kernel s.cont q) {ticksPerSec : ℕ}
    (henabled : Enabled s e) (hother : ¬ e.about sem) (hexec : s.exec ticksPerSec e = some s') :
    s.kernel.Quiet sem s'.kernel := by
  refine ⟨h.exec_quietAt (Anchor.waits_sem sem) henabled (Event.not_touches hother) hexec, ?_⟩
  by_cases htick : e = .intTick
  · subst htick
    obtain ⟨k, htick, rfl⟩ := Option.map_eq_some_iff.mp hexec
    have hsteady : Kernel.Steady (fun _ => False) (fun _ => False) _ k := steady_intTick htick
    exact hsteady.value sem id
  · exact (exec_steady hexec htick).value sem hother

/-- What a quiet event means for the lists before and after it. -/
theorem Kernel.Quiet.lists {q' : Anchor → List Tid} (h : k.Quiet sem k')
    (hq : Lists k.toThreads q) (hq' : Lists k'.toThreads q') :
    q' (.sem sem) = q (.sem sem) ∧ ∀ t ∈ q (.sem sem),
      k'.waitstate t = k.waitstate t ∧ k'.arrived t = k.arrived t :=
  Kernel.QuietAt.lists h.threads hq hq'

/-- None of the waiters gets another wait state. -/
theorem Kernel.Quiet.waitstate (h : k.Quiet sem k') (hq : Lists k.toThreads q) :
    ∀ t ∈ q (.sem sem), k'.waitstate t = k.waitstate t :=
  Kernel.QuietAt.waitstate h.threads hq

theorem tthCsSwitch_value (k : Kernel) : k.tthCsSwitch.value = k.value := by
  rw [Kernel.tthCsSwitch]
  split_ifs <;> rfl

end Semaphores

end OlivePiccolo.Tth
