import OlivePiccolo.Tth.Variables

/-!
# What the calls do with the lists

Most calls do nothing with the threads but take the first ones of lists and put them into other lists:
one or several `tth_cs_move` between `tth_ready` and the lists that the call is about
(`Threads.Moves`, `call_moves`). What such moves keep holds of all of these calls, of what is left of
them behind a switch, and of interrupts.
-/

namespace OlivePiccolo.Tth

open Links

/-- Moves between `tth_ready` and the lists `on`; the threads stay alive. -/
inductive Threads.Moves (on : Anchor → Prop) (th : Threads) : Threads → Prop
  | refl : Moves on th th
  | move {th' th'' : Threads} {src dst : Anchor} {w : WaitState} :
      Moves on th th' → src = .ready ∨ on src → dst = .ready ∨ on dst → w.live = true →
        th'.tthCsMove src (some dst) w = some th'' → Moves on th th''

/-- The lists that a call is about, next to `tth_ready`. -/
def Call.lists : Call → Anchor → Prop
  | .join t, a => a = .thread t
  | .semPost sem, a | .semWait sem, a => a = .sem sem
  | .mutexLock m, a | .mutexUnlock m, a => a = .mutex m
  | .condBroadcast c, a | .condSignal c, a => a = .cond c
  | .condWait c m, a => a = .cond c ∨ a = .mutex m
  | _, _ => False

/-- The calls that create a thread or put it to sleep, change its `detachstate` or end it, and that of
the idle thread. -/
def Call.special : Call → Bool
  | .create _ _ | .exit _ | .detach _ | .usleep _ | .idle => true
  | _ => false

/-- The same for going on with a call. -/
def Cont.lists : Cont → Anchor → Prop
  | .condWait _ m, a => a = .mutex m
  | .join t, a => a = .thread t
  | _, _ => False

def Cont.special : Cont → Bool
  | .free _ _ | .insert _ | .freeStack _ => true
  | _ => false

/-- Where the thread goes on, it uses only the objects of threads that the call is about. -/
def Outcome.UsesOn (on : Anchor → Prop) (o : Outcome) : Prop :=
  ∀ t, o.next.bind Cont.uses = some t → on (.thread t)

/-- What a call leaves behind has come about by moves. -/
def MovesCall (on : Anchor → Prop) (k : Kernel) (o : Option (Kernel × Outcome)) : Prop :=
  ∀ r, o = some r → k.toThreads.Moves on r.1.toThreads ∧ r.2.UsesOn on

namespace Threads

variable {on on' : Anchor → Prop} {th th' th'' : Threads}

theorem Moves.trans (h : Moves on th th') (h' : Moves on th' th'') : Moves on th th'' := by
  induction h' with
  | refl => exact h
  | move _ hsrc hdst hw hmove ih => exact .move ih hsrc hdst hw hmove

theorem Moves.single {src dst : Anchor} {w : WaitState} (hsrc : src = .ready ∨ on src)
    (hdst : dst = .ready ∨ on dst) (hw : w.live = true)
    (hmove : th.tthCsMove src (some dst) w = some th') : Moves on th th' :=
  .move .refl hsrc hdst hw hmove

/-- What does not depend on the lists stays as it is. -/
theorem Moves.fields (h : Moves on th th') : th'.detached = th.detached ∧
    th'.schedpriority = th.schedpriority ∧ th'.autostack = th.autostack ∧
      th'.objects = th.objects := by
  induction h with
  | refl => exact ⟨rfl, rfl, rfl, rfl⟩
  | @move th1 th2 src dst w _ _ _ _ hmove ih =>
    rw [Threads.tthCsMove] at hmove
    split at hmove
    · cases hmove
      exact ih
    · rw [Threads.tthCsPut] at hmove
      obtain ⟨slot, -, rfl⟩ := Option.map_eq_some_iff.mp hmove
      exact ih

end Threads

/-! ## The calls -/

section Calls

variable {on : Anchor → Prop} {k k' : Kernel} {src dst : Anchor} {w : WaitState}

theorem moves_move (hsrc : src = .ready ∨ on src) (hdst : dst = .ready ∨ on dst)
    (hw : w.live = true) (hmove : k.tthCsMove src (some dst) w = some k') :
    k.toThreads.Moves on k'.toThreads := by
  obtain ⟨th, hth, rfl⟩ := Option.map_eq_some_iff.mp hmove
  exact .single hsrc hdst hw hth

theorem usesOn_result (r : Result) : (Outcome.result r).UsesOn on := nofun

theorem usesOn_switchThen (k : Kernel) (r : Result) : (k.switchThen r).2.UsesOn on := by
  rw [Kernel.switchThen]
  split_ifs <;>
  · intro t ht
    cases ht

theorem movesCall_same {o : Outcome} (hth : k'.toThreads = k.toThreads) (ho : o.UsesOn on) :
    MovesCall on k (some (k', o)) := by
  rintro r ⟨⟩
  rw [hth]
  exact ⟨.refl, ho⟩

/-- A call that returns, and has done nothing with the threads. -/
theorem movesCall_result {r : Result} (hth : k'.toThreads = k.toThreads) :
    MovesCall on k (some (k', .result r)) :=
  movesCall_same hth (usesOn_result r)

/-- A move, and a switch. -/
theorem movesCall_move_then {r : Result} (hsrc : src = .ready ∨ on src)
    (hdst : dst = .ready ∨ on dst) (hw : w.live = true) :
    MovesCall on k ((k.tthCsMove src (some dst) w).map fun k => k.switchThen r) := by
  intro p hp
  obtain ⟨k', hmove, rfl⟩ := Option.map_eq_some_iff.mp hp
  refine ⟨?_, usesOn_switchThen k' r⟩
  rw [switchThen_fst, tthCsSwitch_toThreads]
  exact moves_move hsrc hdst hw hmove

theorem movesCall_move_cont {o : Outcome} (hsrc : src = .ready ∨ on src)
    (hdst : dst = .ready ∨ on dst) (hw : w.live = true) (ho : o.UsesOn on) :
    MovesCall on k ((k.tthCsMove src (some dst) w).map fun k => (k.tthCsSwitch, o)) := by
  intro p hp
  obtain ⟨k', hmove, rfl⟩ := Option.map_eq_some_iff.mp hp
  refine ⟨?_, ho⟩
  rw [tthCsSwitch_toThreads]
  exact moves_move hsrc hdst hw hmove

theorem moves_moveWhile (p : Kernel → Tid → Bool) (hsrc : on src) {fuel : ℕ}
    (hloop : Kernel.moveWhile p src fuel k = some k') : k.toThreads.Moves on k'.toThreads := by
  induction fuel generalizing k with
  | zero => cases hloop
  | succ fuel ih =>
    rw [Kernel.moveWhile] at hloop
    split at hloop
    · cases hloop
      exact .refl
    · split_ifs at hloop
      · obtain ⟨k1, hmove, hrest⟩ := Option.bind_eq_some_iff.mp hloop
        exact (moves_move (.inr hsrc) (.inl rfl) rfl hmove).trans (ih hrest)
      · cases hloop
        exact .refl

theorem movesCall_mutexLock (k : Kernel) {m : MutexId} {wait : Bool}
    (hon : wait = true → on (.mutex m)) : MovesCall on k (k.tthCsMutexLock m wait) := by
  rw [Kernel.tthCsMutexLock]
  split_ifs with _ _ hwait
  · exact movesCall_result rfl
  · exact movesCall_move_cont (.inl rfl) (.inr (hon hwait)) rfl fun t ht => by cases ht
  · exact movesCall_result rfl
  · exact movesCall_result rfl

/-- `tth_cs_mutex_unlock` up to its switch. -/
theorem moves_mutexUnlock {m : MutexId} (hon : on (.mutex m)) {r : Kernel × Option Errno}
    (hr : k.tthCsMutexUnlock m = some r) : k.toThreads.Moves on r.1.toThreads := by
  rw [Kernel.tthCsMutexUnlock] at hr
  split_ifs at hr
  · cases hr
    exact .refl
  · obtain ⟨k1, hmove, rfl⟩ := Option.map_eq_some_iff.mp hr
    exact moves_move (k := k.dropMutex m) (.inr hon) (.inl rfl) rfl hmove

theorem movesCall_mutexUnlock (k : Kernel) {m : MutexId} (hon : on (.mutex m)) :
    MovesCall on k (k.pthreadMutexUnlock m) := by
  intro p hp
  obtain ⟨⟨k1, e⟩, hunlock, rfl⟩ := Option.map_eq_some_iff.mp hp
  have hmoves := moves_mutexUnlock hon hunlock
  cases e with
  | some e => exact ⟨hmoves, usesOn_result _⟩
  | none =>
    refine ⟨?_, usesOn_switchThen k1 .zero⟩
    show k.toThreads.Moves on (k1.switchThen .zero).1.toThreads
    rw [switchThen_fst, tthCsSwitch_toThreads]
    exact hmoves

theorem movesCall_condBroadcast (k : Kernel) {c : CondId} (hon : on (.cond c)) :
    MovesCall on k (k.pthreadCondBroadcast c) := by
  intro p hp
  obtain ⟨k1, hloop, rfl⟩ := Option.map_eq_some_iff.mp hp
  refine ⟨?_, usesOn_switchThen k1 .zero⟩
  rw [switchThen_fst, tthCsSwitch_toThreads]
  exact moves_moveWhile _ hon hloop

theorem movesCall_condWait (k : Kernel) {c : CondId} {m : MutexId} (hcond : on (.cond c))
    (hmutex : on (.mutex m)) : MovesCall on k (k.pthreadCondWait c m) := by
  intro p hp
  obtain ⟨⟨k1, e⟩, hunlock, hrest⟩ := Option.bind_eq_some_iff.mp hp
  have hmoves := moves_mutexUnlock hmutex hunlock
  cases e with
  | some e =>
    cases hrest
    exact ⟨hmoves, usesOn_result _⟩
  | none =>
    obtain ⟨k2, hmove, rfl⟩ := Option.map_eq_some_iff.mp hrest
    refine ⟨?_, nofun⟩
    show k.toThreads.Moves on k2.tthCsSwitch.toThreads
    rw [tthCsSwitch_toThreads]
    exact hmoves.trans (moves_move (.inl rfl) (.inr hcond) rfl hmove)

theorem movesCall_joined (k : Kernel) {t : Tid} (hon : on (.thread t)) :
    MovesCall on k (k.joined t) := by
  rw [Kernel.joined]
  split_ifs
  · refine movesCall_same rfl ?_
    rintro u ⟨⟩
    exact hon
  · intro r hr
    cases hr

theorem movesCall_join (k : Kernel) {t : Tid} (hon : on (.thread t)) :
    MovesCall on k (k.pthreadJoin t) := by
  rw [Kernel.pthreadJoin]
  split_ifs
  · exact movesCall_result rfl
  · exact movesCall_result rfl
  · refine movesCall_move_cont (.inl rfl) (.inr hon) rfl ?_
    rintro u ⟨⟩
    exact hon
  · exact movesCall_joined k hon

/-- A list that is empty is initialised. -/
theorem movesCall_init {b : Anchor} {r : Result} (hb : k.link (.head b) = none)
    (hth : k'.toThreads = { k.toThreads with link := Function.update k.link (.head b) none }) :
    MovesCall on k (some (k', .result r)) := by
  have hsame : Function.update k.link (.head b) none = k.link :=
    Function.update_eq_self_iff.mpr hb.symm
  exact movesCall_result (by rw [hth, hsame])

theorem movesCall_semPost (k : Kernel) {sem : SemId} (hon : on (.sem sem)) :
    MovesCall on k (k.semPost sem) := by
  rw [Kernel.semPost]
  split_ifs
  · exact movesCall_move_then (.inr hon) (.inl rfl) rfl
  · exact movesCall_result rfl
  · exact movesCall_result rfl

/-- **Calls move threads.** -/
theorem call_moves {c : Call} (hvalid : c.Valid k) (hc : c.special = false) :
    MovesCall c.lists k (k.call c) := by
  cases c with
  | create | exit | detach | usleep | idle => cases hc
  | join t => exact movesCall_join k rfl
  | yield => exact movesCall_move_then (.inl rfl) (.inl rfl) rfl
  | semInit sem pshared value =>
    show MovesCall _ k (some (k.semInit sem pshared value))
    rw [Kernel.semInit]
    split_ifs
    · exact movesCall_result rfl
    · exact movesCall_result rfl
    · exact movesCall_init hvalid rfl
  | semDestroy sem =>
    show MovesCall _ k (k.semDestroy sem)
    rw [Kernel.semDestroy]
    split_ifs
    · intro r hr
      cases hr
    · exact movesCall_result rfl
  | semGetvalue sem => exact movesCall_result rfl
  | semPost sem => exact movesCall_semPost k rfl
  | semWait sem =>
    show MovesCall _ k (k.semWait sem)
    rw [Kernel.semWait]
    split_ifs
    · exact movesCall_result rfl
    · exact movesCall_move_then (.inl rfl) (.inr rfl) rfl
  | semTrywait sem =>
    show MovesCall _ k (some (k.semTrywait sem))
    rw [Kernel.semTrywait]
    split_ifs
    · exact movesCall_result rfl
    · exact movesCall_result rfl
  | mutexInit m => exact movesCall_init hvalid rfl
  | mutexDestroy m =>
    show MovesCall _ k (some (k.pthreadMutexDestroy m))
    rw [Kernel.pthreadMutexDestroy]
    split_ifs
    · exact movesCall_result rfl
    · exact movesCall_result rfl
  | mutexLock m => exact movesCall_mutexLock k fun _ => rfl
  | mutexTrylock m => exact movesCall_mutexLock k (by simp)
  | mutexUnlock m => exact movesCall_mutexUnlock k rfl
  | condInit c => exact movesCall_init hvalid rfl
  | condDestroy c => exact movesCall_result rfl
  | condBroadcast c => exact movesCall_condBroadcast k rfl
  | condSignal c => exact movesCall_move_then (.inr rfl) (.inl rfl) rfl
  | condWait c m => exact movesCall_condWait k (.inl rfl) (.inr rfl)

theorem resume_moves {c : Cont} (hc : c.special = false) : MovesCall c.lists k (k.resume c) := by
  cases c with
  | returns r => exact movesCall_result rfl
  | relock m => exact movesCall_result rfl
  | condWait c m => exact movesCall_mutexLock k fun _ => rfl
  | join t => exact movesCall_joined k rfl
  | free | insert | freeStack => cases hc

/-- The end of `tth_int_tick`. -/
theorem preempt_moves {usPerTick : ℕ} (h : State.preempt k usPerTick = some k') :
    k.toThreads.Moves on k'.toThreads := by
  simp only [State.preempt] at h
  split_ifs at h
  · cases h
    exact .refl
  · obtain ⟨p, hyield, rfl⟩ := Option.map_eq_some_iff.mp h
    obtain ⟨k1, hmove, rfl⟩ := Option.map_eq_some_iff.mp hyield
    rw [switchThen_fst, tthCsSwitch_toThreads]
    exact moves_move (k := { k with
      preemptionUs := (k.preemptionUs + usPerTick).bmod (2 ^ 32) - preemptionInterval * 1000 })
        (.inl rfl) (.inl rfl) rfl hmove
  · cases h
    exact .refl

theorem intTick_moves (hon : on .sleeping) {ticksPerSec : ℕ}
    (h : State.tthIntTick k ticksPerSec = some k') : k.toThreads.Moves on k'.toThreads := by
  obtain ⟨k1, htick, hpreempt⟩ := Option.bind_eq_some_iff.mp h
  have hmoves := moves_moveWhile (k := { k with
    time := k.time + BitVec.ofNat 32 (1000000 / ticksPerSec) }) _ hon htick
  exact hmoves.trans (preempt_moves hpreempt)

end Calls

/-! ## Events -/

/-- The lists that an event is about, next to `tth_ready`. -/
def Event.lists (s : State) : Event → Anchor → Prop
  | .call c, a => c.lists a
  | .resume, a => ∃ c, s.cont s.kernel.running = some c ∧ c.lists a
  | .intPost sem, a => a = .sem sem
  | .intTick, a => a = .sleeping
  | _, _ => False

/-- The events that do more than moves. -/
def Event.special (s : State) : Event → Bool
  | .call c => c.special
  | .resume => (s.cont s.kernel.running).any Cont.special
  | .release _ => true
  | _ => false

/-- **Events move threads.** -/
theorem exec_moves {s s' : State} {ticksPerSec : ℕ} {e : Event} (henabled : Enabled s e)
    (he : e.special s = false) (hexec : s.exec ticksPerSec e = some s') :
    s.kernel.toThreads.Moves (e.lists s) s'.kernel.toThreads := by
  cases e with
  | call c =>
    obtain ⟨r, hcall, rfl⟩ := Option.map_eq_some_iff.mp hexec
    rw [settle_kernel]
    exact (call_moves henabled.2.2.1 he r hcall).1
  | resume =>
    obtain ⟨c, hc, hresume⟩ := Option.bind_eq_some_iff.mp hexec
    obtain ⟨r, hr, rfl⟩ := Option.map_eq_some_iff.mp hresume
    rw [settle_kernel]
    have hspecial : c.special = false := by simpa [Event.special, hc] using he
    have hlists : Event.lists s .resume = c.lists := by
      funext a
      simp [Event.lists, hc]
    rw [hlists]
    exact (resume_moves hspecial r hr).1
  | intEnter =>
    obtain ⟨k, henter, rfl⟩ := Option.map_eq_some_iff.mp hexec
    rw [State.tthIntEnter, Option.ite_none_right_eq_some] at henter
    cases henter.2
    exact .refl
  | intPost sem =>
    obtain ⟨r, hpost, rfl⟩ := Option.map_eq_some_iff.mp hexec
    have hon : Event.lists s (.intPost sem) (.sem sem) := rfl
    exact (movesCall_semPost s.kernel hon r hpost).1
  | intTick =>
    obtain ⟨k, htick, rfl⟩ := Option.map_eq_some_iff.mp hexec
    exact intTick_moves rfl htick
  | intExit =>
    obtain ⟨k, hexit, rfl⟩ := Option.map_eq_some_iff.mp hexec
    rw [State.tthIntExit] at hexit
    split_ifs at hexit
    cases hexit
    show s.kernel.toThreads.Moves _ (Kernel.tthCsSwitch _).toThreads
    rw [tthCsSwitch_toThreads]
    exact .refl
  | release t => cases he

end OlivePiccolo.Tth
