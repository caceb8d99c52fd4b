import Mathlib.Data.BitVec
import OlivePiccolo.Tth.Waiters

/-!
# Sleeping threads

`usleep` and `tth_sleep_tick` compare times on a clock of 32 bits that wraps around. What a sleeping
thread has left is `timeout - tth_time` on that clock. It is between 1 and 1000000 as long as the
thread sleeps, and the threads are on the list in this order (`Sleeping`), whatever the clock says.
So a tick finds those that are due in front of the others (`Sleeping.step`), and a thread wakes with
the first tick that is not before the end of its sleep (`usleep_wakes`).
-/

namespace OlivePiccolo.Tth

open Links

/-- What a sleeping thread has left. -/
def Kernel.remaining (k : Kernel) (t : Tid) : ℕ := (k.shared t - k.time).toNat

/-- The threads on a list sleep, and are in order. -/
structure Sleeping (k : Kernel) (l : List Tid) : Prop where
  ordered : l.Pairwise fun t u => k.remaining t ≤ k.remaining u
  remaining_pos : ∀ t ∈ l, 0 < k.remaining t
  remaining_le : ∀ t ∈ l, k.remaining t ≤ 1000000

/-- How far the clock goes on. -/
def Event.elapsed (usPerTick : ℕ) : Event → ℕ
  | .intTick => usPerTick
  | _ => 0

section Preemption

variable {k k' : Kernel} {q q' : Anchor → List Tid} {usPerTick : ℕ}

/-- Preemption leaves the threads ready that are. -/
theorem Lists.preempt (h : Lists k.toThreads q)
    (hpreempt : State.preempt k usPerTick = some k') (h' : Lists k'.toThreads q') :
    ∀ u ∈ q .ready, u ∈ q' .ready := by
  simp only [State.preempt] at hpreempt
  split_ifs at hpreempt
  · cases hpreempt
    obtain rfl := h.links.unique h'.links
    exact fun _ hu => hu
  · obtain ⟨p, hyield, rfl⟩ := Option.map_eq_some_iff.mp hpreempt
    obtain ⟨k1, hmove, rfl⟩ := Option.map_eq_some_iff.mp hyield
    obtain ⟨th, hth, rfl⟩ := Option.map_eq_some_iff.mp hmove
    rw [switchThen_fst, tthCsSwitch_toThreads] at h'
    intro u hu
    obtain ⟨t, rest, hq⟩ := List.exists_cons_of_ne_nil (List.ne_nil_of_mem hu)
    obtain ⟨link, q1, hmove', hlists, hmoved, -⟩ := h.move hq .ready .ready
    cases hmove'.symm.trans hth
    obtain rfl := hlists.links.unique h'.links
    refine (hmoved _ u).mpr ?_
    by_cases hut : u = t
    · exact .inl ⟨hut, rfl⟩
    · exact .inr ⟨hut, hu⟩
  · cases hpreempt
    obtain rfl := h.links.unique h'.links
    exact fun _ hu => hu

end Preemption

/-! ## The clock -/

section Clock

/-- On the clock, a time that is near and not in the past is compared as a number. -/
theorem toInt_sub_ofNat {r : BitVec 32} {n : ℕ} (hr : r.toNat ≤ 1000000) (hn : n ≤ 1000000) :
    (r - BitVec.ofNat 32 n).toInt = (r.toNat : ℤ) - n := by
  rw [BitVec.toInt_eq_toNat_bmod, BitVec.toNat_sub, BitVec.toNat_ofNat,
    Nat.mod_eq_of_lt (a := n) (by omega)]
  simp only [Int.bmod]
  omega

theorem toNat_sub_ofNat {r : BitVec 32} {n : ℕ} (hn : n ≤ r.toNat) :
    (r - BitVec.ofNat 32 n).toNat = r.toNat - n := by
  have hr := r.isLt
  rw [BitVec.toNat_sub, BitVec.toNat_ofNat, Nat.mod_eq_of_lt (a := n) (by omega)]
  omega

variable {k k' : Kernel} {t : Tid} {n : ℕ}

theorem remaining_tick (ht : k'.shared t = k.shared t)
    (htime : k'.time = k.time + BitVec.ofNat 32 n) (hn : n ≤ k.remaining t) :
    k'.remaining t = k.remaining t - n := by
  rw [Kernel.remaining, ht, htime, sub_add_eq_sub_sub, toNat_sub_ofNat hn]
  rfl

theorem timedOut_iff (hle : k.remaining t ≤ 1000000) (hn : n ≤ 1000000) :
    Kernel.timedOut { k with time := k.time + BitVec.ofNat 32 n } t = true ↔
      k.remaining t ≤ n := by
  rw [Kernel.timedOut, decide_eq_true_iff]
  show (k.shared t - (k.time + BitVec.ofNat 32 n)).toInt ≤ 0 ↔ _
  rw [sub_add_eq_sub_sub, toInt_sub_ofNat hle hn, Kernel.remaining]
  omega

end Clock

/-! ## The events -/

section Events

variable {k k' : Kernel} {s s' : State} {q q' : Anchor → List Tid} {e : Event}
  {ticksPerSec : ℕ} {us : BitVec 32} {l : List Tid}

/-- The threads on the list stay, and so does what they have left. -/
theorem Sleeping.congr (h : Sleeping k l) (hsame : ∀ t ∈ l, k'.remaining t = k.remaining t) :
    Sleeping k' l := by
  refine ⟨h.ordered.imp_of_mem fun {t u} ht hu htu => ?_, fun t ht => ?_, fun t ht => ?_⟩
  · rw [hsame t ht, hsame u hu]
    exact htu
  · rw [hsame t ht]
    exact h.remaining_pos t ht
  · rw [hsame t ht]
    exact h.remaining_le t ht

/-- In front of the first thread that is not due are those that are. -/
theorem Sleeping.due {p : Tid → Bool} (h : Sleeping k l) (usPerTick : ℕ)
    (hp : ∀ t ∈ l, p t = true ↔ k.remaining t ≤ usPerTick) :
    (∀ t ∈ l, k.remaining t ≤ usPerTick → t ∈ l.takeWhile p) ∧
      ∀ t ∈ l.dropWhile p, usPerTick < k.remaining t := by
  have hlt : ∀ t ∈ l, p t = decide (k.remaining t < usPerTick + 1) := fun t ht => by
    rw [Bool.eq_iff_iff, hp t ht, decide_eq_true_iff, Nat.lt_succ_iff]
  have hdrop : ∀ t ∈ l.dropWhile p, usPerTick < k.remaining t := by
    rw [(takeWhile_dropWhile_congr hlt).2]
    exact fun t ht => le_of_mem_dropWhile h.ordered ht
  refine ⟨fun t ht hle => ?_, hdrop⟩
  have hsplit := List.takeWhile_append_dropWhile (p := p) (l := l)
  rw [← hsplit, List.mem_append] at ht
  exact ht.resolve_right fun hmem => absurd hle (Nat.not_le.mpr (hdrop t hmem))

/-- A tick wakes the threads that are due. -/
theorem Sleeping.tick (h : Lists k.toThreads q) (hs : Sleeping k (q .sleeping))
    (hn : 1000000 / ticksPerSec ≤ 1000000) (htick : State.tthIntTick k ticksPerSec = some k')
    (h' : Lists k'.toThreads q') :
    Sleeping k' (q' .sleeping) ∧ ∀ t ∈ q .sleeping,
      (k.remaining t ≤ 1000000 / ticksPerSec → t ∈ q' .ready) ∧
      (1000000 / ticksPerSec < k.remaining t → t ∈ q' .sleeping ∧
        k'.remaining t = k.remaining t - 1000000 / ticksPerSec) := by
  have hsteady : Kernel.Steady (fun _ => False) (fun _ => False)
      { k with time := k.time + BitVec.ofNat 32 (1000000 / ticksPerSec) } k' := steady_intTick htick
  obtain ⟨k1, hloop, hpreempt⟩ := Option.bind_eq_some_iff.mp htick
  obtain ⟨q1, h1, hdrop, htake, -⟩ :=
    Lists.moveWhile (k := { k with time := k.time + BitVec.ofNat 32 (1000000 / ticksPerSec) })
      (q := q) (by simp) Kernel.timedOut (fun _ _ _ => rfl) h hloop
  have hready := h1.preempt hpreempt h'
  have hmoves : k1.toThreads.Moves (fun _ => False) k'.toThreads := preempt_moves hpreempt
  have hlist : q' .sleeping = q1 .sleeping :=
    (Kernel.QuietAt.lists (.inl (hmoves.quiet (by simp) id)) h1 h').1
  obtain ⟨hdue, hlate⟩ := hs.due (1000000 / ticksPerSec) fun t ht =>
    timedOut_iff (hs.remaining_le t ht) hn
  have hremaining : ∀ t, 1000000 / ticksPerSec < k.remaining t →
      k'.remaining t = k.remaining t - 1000000 / ticksPerSec := fun t ht =>
    remaining_tick (hsteady.shared t id) hsteady.time ht.le
  rw [hlist, hdrop]
  refine ⟨⟨?_, fun t ht => ?_, fun t ht => ?_⟩, fun t ht => ⟨fun hle => ?_, fun hlt => ⟨?_, ?_⟩⟩⟩
  · refine (hs.ordered.sublist (List.dropWhile_sublist _)).imp_of_mem fun {t u} ht hu htu => ?_
    rw [hremaining t (hlate t ht), hremaining u (hlate u hu)]
    exact Nat.sub_le_sub_right htu _
  · rw [hremaining t (hlate t ht)]
    exact Nat.sub_pos_of_lt (hlate t ht)
  · rw [hremaining t (hlate t ht)]
    exact (Nat.sub_le _ _).trans (hs.remaining_le t ((List.dropWhile_sublist _).subset ht))
  · exact hready t (htake t (hdue t ht hle))
  · have hsplit := List.takeWhile_append_dropWhile (p := Kernel.timedOut
      { k with time := k.time + BitVec.ofNat 32 (1000000 / ticksPerSec) }) (l := q .sleeping)
    rw [← hsplit, List.mem_append] at ht
    refine ht.resolve_left fun hmem => ?_
    have hmemq : t ∈ q .sleeping := (List.takeWhile_prefix _).subset hmem
    have hle := (timedOut_iff (hs.remaining_le t hmemq) hn).mp (List.mem_takeWhile_imp hmem)
    exact absurd hlt (Nat.not_lt.mpr hle)
  · exact hremaining t hlt

/-- Where `usleep` puts its caller. -/
theorem Scheduled.usleep_lists {cont : Tid → Option Cont} (h : Scheduled k cont q)
    (h0 : k.intLevel = 0) (hpos : 1 ≤ us.toNat) (hle : us.toNat ≤ 1000000)
    {r : Kernel × Outcome} (hr : k.usleep us = some r) (h' : Lists r.1.toThreads q') :
    q' .sleeping = insertBehind ((k.fallAsleep us).wakesEarlier us) k.running (q .sleeping) ∧
      r.1.shared = Function.update k.shared k.running (k.time + us) ∧ r.1.time = k.time := by
  obtain ⟨rest, hq⟩ := List.head?_eq_some_iff.mp (h.head h0)
  obtain ⟨htake, hoff⟩ := h.placed.lists.take hq
  have hobj := (h.placed.live_of_mem (by simp) h.running_ready).1
  have hstamped := h.placed.lists.stamped _ _ h.running_ready
  have hasleep : Lists (k.fallAsleep us).toThreads (Function.update q .ready rest) :=
    ⟨htake.links, htake.ordered, htake.stamped, htake.mem_objects⟩
  obtain ⟨slot, hseek, hlists⟩ := hasleep.sleep hoff hobj hstamped
    ((k.fallAsleep us).wakesEarlier us)
  have hzero : us ≠ 0 := by
    rintro rfl
    exact absurd hpos (by decide)
  rw [Kernel.usleep, if_neg hzero, if_neg (Nat.not_lt.mpr hle)] at hr
  obtain ⟨slot', hseek', rfl⟩ := Option.map_eq_some_iff.mp hr
  cases hseek.symm.trans hseek'
  have hsteady := @steady_switchThen (fun _ => False) (fun _ => False)
    { k.fallAsleep us with link := place (k.fallAsleep us).link slot k.running } .zero
  rw [switchThen_fst, tthCsSwitch_toThreads] at h'
  obtain rfl := hlists.links.unique h'.links
  refine ⟨?_, funext fun t => hsteady.shared t id, hsteady.time⟩
  rw [Function.update_self, Function.update_of_ne (by simp)]

/-- The caller of `usleep` sleeps, in its place. -/
theorem Sleeping.usleep {cont : Tid → Option Cont} (h : Scheduled k cont q)
    (hs : Sleeping k (q .sleeping)) (h0 : k.intLevel = 0) (hpos : 1 ≤ us.toNat)
    (hle : us.toNat ≤ 1000000) {r : Kernel × Outcome} (hr : k.usleep us = some r)
    (h' : Lists r.1.toThreads q') :
    Sleeping r.1 (q' .sleeping) ∧
      (k.running ∈ q' .sleeping ∧ r.1.remaining k.running = us.toNat) ∧
      ∀ t ∈ q .sleeping, t ∈ q' .sleeping ∧ r.1.remaining t = k.remaining t := by
  obtain ⟨hlist, hshared, htime⟩ := h.usleep_lists h0 hpos hle hr h'
  have hself : r.1.remaining k.running = us.toNat := by
    rw [Kernel.remaining, hshared, htime, Function.update_self, add_sub_cancel_left]
  have hne : ∀ t ∈ q .sleeping, t ≠ k.running := by
    rintro t ht rfl
    exact h.placed.not_mem h.running_ready (by simp) ht
  have hother : ∀ t ∈ q .sleeping, r.1.remaining t = k.remaining t := by
    intro t ht
    rw [Kernel.remaining, hshared, htime, Function.update_of_ne (hne t ht)]
    rfl
  have hsame := hs.congr hother
  have htest : insertBehind ((k.fallAsleep us).wakesEarlier us) k.running (q .sleeping) =
      insertBehind (fun t => decide (r.1.remaining t < r.1.remaining k.running)) k.running
        (q .sleeping) := by
    refine insertBehind_congr (fun t ht => ?_) _
    rw [hother t ht, hself]
    show decide (Function.update k.shared k.running (k.time + us) t - k.time < us) = _
    rw [Function.update_of_ne (hne t ht)]
    rfl
  rw [hlist, htest]
  refine ⟨⟨pairwise_le_insertBehind hsame.ordered _, fun t ht => ?_, fun t ht => ?_⟩,
    ⟨mem_insertBehind.mpr (.inl rfl), hself⟩, fun t ht => ⟨mem_insertBehind.mpr (.inr ht),
      hother t ht⟩⟩
  · rcases mem_insertBehind.mp ht with rfl | ht
    · rw [hself]
      exact hpos
    · exact hsame.remaining_pos t ht
  · rcases mem_insertBehind.mp ht with rfl | ht
    · rw [hself]
      exact hle
    · exact hsame.remaining_le t ht

/-- What an event means for the sleeping threads. -/
structure SleepStep (k k' : Kernel) (elapsed : ℕ) (q q' : Anchor → List Tid) : Prop where
  sleeping : Sleeping k' (q' .sleeping)
  wakes : ∀ t ∈ q .sleeping, k.remaining t ≤ elapsed → t ∈ q' .ready
  sleeps : ∀ t ∈ q .sleeping, elapsed < k.remaining t →
    t ∈ q' .sleeping ∧ k'.remaining t = k.remaining t - elapsed

/-- No time has gone by. -/
theorem Sleeping.step_of_stay (hs : Sleeping k (q .sleeping)) (hs' : Sleeping k' (q' .sleeping))
    (hstay : ∀ t ∈ q .sleeping, t ∈ q' .sleeping ∧ k'.remaining t = k.remaining t) :
    SleepStep k k' 0 q q' :=
  ⟨hs', fun t ht hle => absurd (hs.remaining_pos t ht) (Nat.not_lt.mpr hle), fun t ht _ => hstay t ht⟩

theorem Sleeping.step_of_quiet (hs : Sleeping k (q .sleeping)) (hquiet : k.QuietAt .sleeping k')
    (h : Lists k.toThreads q) (h' : Lists k'.toThreads q') (htime : k'.time = k.time)
    (hshared : ∀ t ∈ q .sleeping, k'.shared t = k.shared t) : SleepStep k k' 0 q q' := by
  have hlist := (hquiet.lists h h').1
  have hsame : ∀ t ∈ q .sleeping, k'.remaining t = k.remaining t := fun t ht => by
    rw [Kernel.remaining, htime, hshared t ht]
    rfl
  refine hs.step_of_stay ?_ fun t ht => ⟨?_, hsame t ht⟩
  · rw [hlist]
    exact hs.congr hsame
  · rwa [hlist]

/-- A call of `usleep` that does not put its caller to sleep. -/
theorem usleep_quietAt (hout : ¬ (1 ≤ us.toNat ∧ us.toNat ≤ 1000000)) :
    QuietCallAt .sleeping k (k.usleep us) := by
  rw [Kernel.usleep]
  split_ifs with hzero hlarge
  · exact (@movesCall_move_then (fun _ => False) k _ _ _ _ (.inl rfl) (.inl rfl) rfl).quietCallAt
      (by simp) id
  · exact quietCallAt_same rfl
  · refine absurd ⟨?_, Nat.not_lt.mp hlarge⟩ hout
    exact Nat.pos_of_ne_zero fun heq => hzero (BitVec.eq_of_toNat_eq heq)

/-- Nobody writes the time-outs of the threads that sleep. -/
theorem Scheduled.not_stores (h : Scheduled s.kernel s.cont q) (henabled : Enabled s e) {t : Tid}
    (ht : t ∈ q .sleeping) : ¬ e.stores s t := by
  have hrunning : s.kernel.running ≠ t := by
    rintro rfl
    exact h.placed.not_mem h.running_ready (by simp) ht
  intro hstores
  cases e with
  | call c =>
    cases c with
    | create object attr =>
      cases object with
      | none => exact hstores
      | some u =>
        obtain rfl : u = t := hstores
        exact henabled.2.2.1.1 (h.placed.lists.mem_objects _ _ ht)
    | exit | usleep => exact hrunning hstores
    | _ => exact hstores
  | _ => exact hstores

/-- **An event, for the sleeping threads.** A tick wakes those that are due, and no other event wakes
any of them. -/
theorem Sleeping.exec (h : Scheduled s.kernel s.cont q) (hs : Sleeping s.kernel (q .sleeping))
    (henabled : Enabled s e) (hexec : s.exec ticksPerSec e = some s')
    (h' : Lists s'.kernel.toThreads q') :
    SleepStep s.kernel s'.kernel (e.elapsed (1000000 / ticksPerSec)) q q' := by
  have hstores := fun t (ht : t ∈ q .sleeping) => h.not_stores henabled ht
  by_cases htick : e = .intTick
  · subst htick
    obtain ⟨k, htick, rfl⟩ := Option.map_eq_some_iff.mp hexec
    obtain ⟨hsleeping, hstep⟩ := hs.tick h.placed.lists (Nat.div_le_self _ _) htick h'
    exact ⟨hsleeping, fun t ht => (hstep t ht).1, fun t ht => (hstep t ht).2⟩
  · have hsteady := exec_steady hexec htick
    have helapsed : e.elapsed (1000000 / ticksPerSec) = 0 := by
      cases e <;> first | rfl | exact absurd rfl htick
    rw [helapsed]
    by_cases htouch : e.touches s .sleeping
    · -- the call is one of `usleep`
      cases e with
      | call c =>
        obtain ⟨r, hcall, rfl⟩ := Option.map_eq_some_iff.mp hexec
        rw [settle_kernel] at h' hsteady ⊢
        cases c with
        | usleep us =>
          by_cases hus : 1 ≤ us.toNat ∧ us.toNat ≤ 1000000
          · obtain ⟨hsleeping, -, hstay⟩ := hs.usleep h henabled.1 hus.1 hus.2 hcall h'
            exact hs.step_of_stay hsleeping hstay
          · exact hs.step_of_quiet (usleep_quietAt hus r hcall) h.placed.lists h' hsteady.time
              fun t ht => hsteady.shared t (hstores t ht)
        | condWait c m => rcases htouch with heq | heq <;> cases heq
        | _ => cases htouch
      | resume =>
        obtain ⟨c, -, hc⟩ := htouch
        cases c <;> cases hc
      | intTick => exact absurd rfl htick
      | _ => cases htouch
    · exact hs.step_of_quiet (h.exec_quietAt ⟨rfl, by simp⟩ henabled htouch hexec) h.placed.lists h'
        hsteady.time fun t ht => hsteady.shared t (hstores t ht)

end Events

/-! ## Runs -/

/-- The state after `tth_initialize`, with any time on the clock. -/
def State.initAt (time : BitVec 32) : State := { State.init with kernel.time := time }

/-- The invariant of a state and its sleeping threads. -/
def SleepInv (s : State) : Prop :=
  ∃ q, Scheduled s.kernel s.cont q ∧ Sleeping s.kernel (q .sleeping)

section Runs

variable {s s' s'' : State} {e : Event} {ticksPerSec : ℕ} {es : List Event} {t : Tid} {n : ℕ}

theorem sleepInv_initAt (time : BitVec 32) : SleepInv (State.initAt time) :=
  ⟨initLists, ⟨placed_init, List.mem_cons_self, fun _ => rfl⟩, .nil, nofun, nofun⟩

theorem SleepInv.step (h : SleepInv s) (henabled : Enabled s e) (hlate : ¬ LateJoin s e)
    (hexec : s.exec ticksPerSec e = some s') : SleepInv s' := by
  obtain ⟨q, hsched, hs⟩ := h
  obtain ⟨q', hsched'⟩ := hsched.exec henabled hlate hexec
  exact ⟨q', hsched', (hs.exec hsched henabled hexec hsched'.placed.lists).sleeping⟩

/-- A thread sleeps, and has this time left. -/
def Asleep (s : State) (t : Tid) (left : ℕ) : Prop :=
  ∃ q, Scheduled s.kernel s.cont q ∧ Sleeping s.kernel (q .sleeping) ∧ t ∈ q .sleeping ∧
    s.kernel.remaining t = left

/-- As long as the ticks do not make up the time that is left, the thread sleeps on. -/
theorem Asleep.path (h : Asleep s t n)
    (hpath : Runs.Path (State.exec ticksPerSec) (fun s e => Enabled s e ∧ ¬ LateJoin s e) s es s')
    (hlt : es.count .intTick * (1000000 / ticksPerSec) < n) :
    Asleep s' t (n - es.count .intTick * (1000000 / ticksPerSec)) := by
  induction hpath with
  | nil => simpa using h
  | @snoc es s1 s2 e _ hok hexec ih =>
    have hcount : (es ++ [e]).count .intTick * (1000000 / ticksPerSec) =
        es.count .intTick * (1000000 / ticksPerSec) + e.elapsed (1000000 / ticksPerSec) := by
      rw [List.count_append, Nat.add_mul]
      cases e <;> simp [Event.elapsed]
    rw [hcount] at hlt ⊢
    obtain ⟨q, hsched, hs, ht, hleft⟩ := ih (by omega)
    obtain ⟨q', hsched'⟩ := hsched.exec hok.1 hok.2 hexec
    have hstep := hs.exec hsched hok.1 hexec hsched'.placed.lists
    obtain ⟨ht', hleft'⟩ := hstep.sleeps t ht (by omega)
    exact ⟨q', hsched', hstep.sleeping, ht', by rw [hleft', hleft]; omega⟩

/-- The tick that makes up the time that is left wakes the thread. -/
theorem Asleep.wakes (h : Asleep s t n) (hle : n ≤ 1000000 / ticksPerSec)
    (henabled : Enabled s .intTick) :
    ∃ s', s.exec ticksPerSec .intTick = some s' ∧ t ∈ s'.kernel.list .ready ∧
      t ∉ s'.kernel.list .sleeping := by
  obtain ⟨q, hsched, hs, ht, hleft⟩ := h
  obtain ⟨s', hexec, q', hsched'⟩ := Inv.step ⟨q, hsched⟩ ticksPerSec henabled id id
  have hready := (hs.exec hsched henabled hexec hsched'.placed.lists).wakes t ht (by
    rw [hleft]
    exact hle)
  refine ⟨s', hexec, ?_, ?_⟩
  · rwa [hsched'.placed.lists.list_eq]
  · rw [hsched'.placed.lists.list_eq]
    exact hsched'.placed.not_mem hready (by simp)

/-- The number of ticks that a time takes, rounded up. -/
def ticksOf (us usPerTick : ℕ) : ℕ := (us + usPerTick - 1) / usPerTick

theorem lt_ticksOf {us usPerTick c : ℕ} (hT : 1 ≤ usPerTick) (h : c < ticksOf us usPerTick) :
    c * usPerTick < us := by
  have hle := (Nat.le_div_iff_mul_le hT).mp (Nat.succ_le_of_lt h)
  rw [Nat.succ_mul] at hle
  omega

theorem le_ticksOf_mul (us : ℕ) {usPerTick : ℕ} (hT : 1 ≤ usPerTick) :
    us ≤ ticksOf us usPerTick * usPerTick := by
  have hdiv := Nat.div_add_mod (us + usPerTick - 1) usPerTick
  have hmod := Nat.mod_lt (us + usPerTick - 1) hT
  rw [ticksOf, Nat.mul_comm]
  omega

/-- **Sleep.** Whatever the clock says and whichever threads sleep: behind `usleep`, the threads are on
the list in the order of the time that they have left, and the caller is among them until the tick
with which its time is over, the one that the time takes rounded up to ticks, whatever happens in
between. That one makes it ready. -/
theorem usleep_wakes (ticksPerSec : ℕ) (hT : 1 ≤ 1000000 / ticksPerSec) (time : BitVec 32)
    (h : Runs.Path (State.exec ticksPerSec) (fun s e => Enabled s e ∧ ¬ LateJoin s e)
      (State.initAt time) es s)
    {us : BitVec 32} (hpos : 1 ≤ us.toNat) (hle : us.toNat ≤ 1000000)
    (henabled : Enabled s (.call (.usleep us))) :
    ∃ s', s.exec ticksPerSec (.call (.usleep us)) = some s' ∧
      (s'.kernel.list .sleeping).Pairwise
        (fun t u => s'.kernel.remaining t ≤ s'.kernel.remaining u) ∧
      ∀ fs s'', Runs.Path (State.exec ticksPerSec) (fun s e => Enabled s e ∧ ¬ LateJoin s e)
          s' fs s'' →
        (fs.count .intTick < ticksOf us.toNat (1000000 / ticksPerSec) →
          s.kernel.running ∈ s''.kernel.list .sleeping) ∧
        (fs.count .intTick + 1 = ticksOf us.toNat (1000000 / ticksPerSec) →
          Enabled s'' .intTick → ∃ s3, s''.exec ticksPerSec .intTick = some s3 ∧
            s.kernel.running ∈ s3.kernel.list .ready ∧
            s.kernel.running ∉ s3.kernel.list .sleeping) := by
  obtain ⟨q, hsched, hs⟩ := h.invariant (sleepInv_initAt time) fun _ _ _ hinv hok hexec =>
    hinv.step hok.1 hok.2 hexec
  obtain ⟨s', hexec, q', hsched'⟩ := Inv.step ⟨q, hsched⟩ ticksPerSec henabled id id
  obtain ⟨r, hcall, rfl⟩ := Option.map_eq_some_iff.mp hexec
  obtain ⟨hsleeping, ⟨hcaller, hleft⟩, -⟩ := hs.usleep hsched henabled.1 hpos hle hcall (by
    have hlists := hsched'.placed.lists
    rwa [settle_kernel] at hlists)
  have hasleep : Asleep (State.settle { s with cont := State.started s.cont (.usleep us) }
      s.kernel.running r) s.kernel.running us.toNat := by
    refine ⟨q', hsched', ?_, hcaller, ?_⟩
    · rw [settle_kernel]
      exact hsleeping
    · rw [settle_kernel]
      exact hleft
  refine ⟨_, hexec, ?_, fun fs s'' hpath => ⟨fun hlt => ?_, fun heq htick => ?_⟩⟩
  · rw [hsched'.placed.lists.list_eq, settle_kernel]
    exact hsleeping.ordered
  · obtain ⟨q'', hsched'', -, ht, -⟩ := hasleep.path hpath (lt_ticksOf hT hlt)
    rwa [hsched''.placed.lists.list_eq]
  · refine (hasleep.path hpath (lt_ticksOf hT (by omega))).wakes ?_ htick
    have hmul := le_ticksOf_mul us.toNat hT
    rw [← heq, Nat.succ_mul] at hmul
    omega

/-- The default thread sleeps for 5 ms, and thread 2 runs. -/
def firstSleeper : List Event :=
  [.call (.create (some 2) joinable), .resume, .call (.usleep 5000)]

/-- `usleep_wakes` for a second sleeper, with a clock that is about to wrap around. -/
theorem usleep_wakes_second : ∃ s, Runs.Path (State.exec 1000)
      (fun s e => Enabled s e ∧ ¬ LateJoin s e) (State.initAt 0xfffff800) firstSleeper s ∧
    s.kernel.running = 2 ∧ ∃ s', s.exec 1000 (.call (.usleep 2500)) = some s' ∧
      (s'.kernel.list .sleeping).Pairwise
        (fun t u => s'.kernel.remaining t ≤ s'.kernel.remaining u) ∧
      ∀ fs s'', Runs.Path (State.exec 1000) (fun s e => Enabled s e ∧ ¬ LateJoin s e) s' fs s'' →
        (fs.count .intTick < 3 → s.kernel.running ∈ s''.kernel.list .sleeping) ∧
        (fs.count .intTick + 1 = 3 → Enabled s'' .intTick →
          ∃ s3, s''.exec 1000 .intTick = some s3 ∧ s.kernel.running ∈ s3.kernel.list .ready ∧
            s.kernel.running ∉ s3.kernel.list .sleeping) :=
  ⟨_, Runs.path_get (by decide), by decide,
    usleep_wakes 1000 (by decide) 0xfffff800 (Runs.path_get (by decide)) (by decide) (by decide)
      (by decide)⟩

end Runs

end OlivePiccolo.Tth
