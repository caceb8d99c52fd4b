import Mathlib.Data.List.Nodup
import OlivePiccolo.Tth.Waiters

/-!
# Semaphores

A semaphore neither loses nor invents units. What has happened to it is kept in a log, from what can
be seen of the threads: the calls that return 0 at once, and the waiters that get ready. In every run
without a late join, the initial value and the posts make up the value and the waits that have been
granted, and the waiters are granted in order (`semaphores_sound`). A late join has the memory of a
waiting thread freed; the thread that is created there next gets ready without a unit
(`not_semaphores_sound`).
-/

namespace OlivePiccolo.Tth

open Links

/-! ## The log of a semaphore -/

/-- What has happened to a semaphore since `sem_init`. -/
structure SemLog where
  initial : ℕ
  /-- The calls of `sem_post` that have returned 0. -/
  posts : ℕ
  /-- The calls of `sem_wait` and `sem_trywait` that have got a unit. -/
  granted : ℕ
  /-- The threads that wait, in the order of their arrival. -/
  waiting : List Tid
  deriving DecidableEq

/-- `sem_post` returns 0. -/
def Kernel.posted (k : Kernel) (sem : SemId) : Bool :=
  match k.semPost sem with
  | none | some (_, .result (.minusOne _)) => false
  | some _ => true

namespace SemLog

/-- The waiting threads that are ready again have been granted. -/
def wake (l : SemLog) (k' : Kernel) : SemLog :=
  { l with
    granted := l.granted + (l.waiting.filter fun t => k'.waitstate t = .ready).length
    waiting := l.waiting.filter fun t => k'.waitstate t ≠ .ready }

/-- The log after an event. -/
def after (l : SemLog) (s s' : State) (sem : SemId) : Event → SemLog
  | .call (.semInit sem' _ value) =>
    if sem' = sem ∧ s'.result s.kernel.running = some .zero then ⟨value, 0, 0, []⟩
    else l.wake s'.kernel
  | .call (.semWait sem') =>
    if sem' = sem then
      if s'.result s.kernel.running = some .zero then
        { l.wake s'.kernel with granted := (l.wake s'.kernel).granted + 1 }
      else { l.wake s'.kernel with waiting := (l.wake s'.kernel).waiting ++ [s.kernel.running] }
    else l.wake s'.kernel
  | .call (.semTrywait sem') =>
    if sem' = sem ∧ s'.result s.kernel.running = some .zero then
      { l.wake s'.kernel with granted := (l.wake s'.kernel).granted + 1 }
    else l.wake s'.kernel
  | .call (.semPost sem') | .intPost sem' =>
    if sem' = sem ∧ s.kernel.posted sem = true then
      { l.wake s'.kernel with posts := (l.wake s'.kernel).posts + 1 }
    else l.wake s'.kernel
  | _ => l.wake s'.kernel

end SemLog

/-- A state with the logs of its semaphores. -/
structure Logged where
  state : State
  log : SemId → SemLog

namespace Logged

def init : Logged := ⟨State.init, fun _ => ⟨0, 0, 0, []⟩⟩

/-- What an event does, with the logs. -/
def exec (ticksPerSec : ℕ) (s : Logged) (e : Event) : Option Logged :=
  (s.state.exec ticksPerSec e).map fun s' => ⟨s', fun sem => (s.log sem).after s.state s' sem e⟩

end Logged

/-! ## What is asked of it -/

/-- Of two waiting threads, the first one has the higher priority; or an equal one, and has come
first. -/
def Outranks (k : Kernel) (waiting : List Tid) (t u : Tid) : Prop :=
  k.schedpriority u < k.schedpriority t ∨
    k.schedpriority t = k.schedpriority u ∧ [t, u].Sublist waiting

/-- Units are neither lost nor invented. -/
structure SemSound (k : Kernel) (sem : SemId) (l : SemLog) : Prop where
  value_le : k.value sem ≤ semValueMax
  value_zero : k.link (.head (.sem sem)) ≠ none → k.value sem = 0
  conserved : l.initial + l.posts = k.value sem + l.granted
  /-- The threads that wait are those on the list. -/
  waiters : ∃ w, Chain k.link (.head (.sem sem)) w ∧ w.Perm l.waiting

/-- The semaphores are sound, and the next threads that are granted outrank those that go on
waiting. -/
structure Logged.Sound (ticksPerSec : ℕ) (s : Logged) : Prop where
  units : ∀ sem, SemSound s.state.kernel sem (s.log sem)
  order : ∀ e s', Enabled s.state e → s.state.exec ticksPerSec e = some s' →
    ∀ sem, ∀ t ∈ (s.log sem).waiting, s'.kernel.waitstate t = .ready →
      ∀ u ∈ (s.log sem).waiting, s'.kernel.waitstate u ≠ .ready →
        Outranks s.state.kernel (s.log sem).waiting t u

/-! ## The invariant -/

/-- What holds of a semaphore with the waiters `w`. -/
structure SemInv (k : Kernel) (sem : SemId) (l : SemLog) (w : List Tid) : Prop where
  value_le : k.value sem ≤ semValueMax
  value_zero : w ≠ [] → k.value sem = 0
  conserved : l.initial + l.posts = k.value sem + l.granted
  waiters : w.Perm l.waiting
  waitstate : ∀ t ∈ w, k.waitstate t = .sem
  arrived : l.waiting.Pairwise fun t u => k.arrived t < k.arrived u

section

variable {k k' : Kernel} {sem : SemId} {l : SemLog} {w w' : List Tid} {s s' : State} {e : Event}

/-- What has arrived first comes first. -/
theorem pair_sublist {f : Tid → ℕ} {l : List Tid} (h : l.Pairwise fun t u => f t < f u) {t u : Tid}
    (ht : t ∈ l) (hu : u ∈ l) (hlt : f t < f u) : [t, u].Sublist l := by
  induction l with
  | nil => cases ht
  | cons v l ih =>
    rw [List.pairwise_cons] at h
    rcases List.mem_cons.mp hu with heq | hu'
    · -- nothing in the list has arrived before its first thread
      rw [heq] at hlt
      rcases List.mem_cons.mp ht with rfl | ht'
      · exact absurd hlt (lt_irrefl _)
      · exact absurd hlt (h.1 t ht').not_gt
    · rcases List.mem_cons.mp ht with rfl | ht'
      · exact (List.singleton_sublist.mpr hu').cons_cons t
      · exact (ih h.2 ht' hu').cons v

/-- As long as no waiter gets ready, the log stays as it is. -/
theorem SemLog.wake_same (h : ∀ t ∈ l.waiting, k'.waitstate t ≠ .ready) : l.wake k' = l := by
  have hnone : (l.waiting.filter fun t => decide (k'.waitstate t = .ready)) = [] :=
    List.filter_eq_nil_iff.mpr fun t ht => by simpa using h t ht
  have hall : (l.waiting.filter fun t => decide (k'.waitstate t ≠ .ready)) = l.waiting :=
    List.filter_eq_self.mpr fun t ht => by simpa using h t ht
  rw [SemLog.wake, hnone, hall]
  rfl

theorem SemLog.after_of_not_about (h : ¬ e.about sem) : l.after s s' sem e = l.wake s'.kernel := by
  cases e with
  | call c =>
    cases c with
    | semInit sem' pshared value => exact if_neg fun hand => h hand.1
    | semWait sem' => exact if_neg h
    | semTrywait sem' => exact if_neg fun hand => h hand.1
    | semPost sem' => exact if_neg fun hand => h hand.1
    | _ => rfl
  | intPost sem' => exact if_neg fun hand => h hand.1
  | _ => rfl

/-- The waiters stay, and so does what is counted. -/
theorem SemInv.same (h : SemInv k sem l w) (hvalue : k'.value sem = k.value sem)
    (hfields : ∀ t ∈ w, k'.waitstate t = k.waitstate t ∧ k'.arrived t = k.arrived t) :
    SemInv k' sem l w where
  value_le := by rw [hvalue]; exact h.value_le
  value_zero := by rw [hvalue]; exact h.value_zero
  conserved := by rw [hvalue]; exact h.conserved
  waiters := h.waiters
  waitstate t ht := (hfields t ht).1.trans (h.waitstate t ht)
  arrived := h.arrived.imp_of_mem fun {t u} ht hu htu => by
    rw [(hfields t (h.waiters.mem_iff.mpr ht)).2, (hfields u (h.waiters.mem_iff.mpr hu)).2]
    exact htu

theorem SemInv.not_ready (h : SemInv k sem l w)
    (hfields : ∀ t ∈ w, k'.waitstate t = k.waitstate t) : ∀ t ∈ l.waiting,
      k'.waitstate t ≠ .ready := by
  intro t ht
  have hw := h.waiters.mem_iff.mpr ht
  rw [hfields t hw, h.waitstate t hw]
  exact nofun

end

/-! ## The calls of a semaphore -/

/-- What an event means for a semaphore: the invariant is kept, and the waiters that are granted
outrank the other ones. -/
structure SemStep (k k' : Kernel) (sem : SemId) (l l' : SemLog) (w' : List Tid) : Prop where
  inv : SemInv k' sem l' w'
  order : ∀ t ∈ l.waiting, k'.waitstate t = .ready → ∀ u ∈ l.waiting, k'.waitstate u ≠ .ready →
    Outranks k l.waiting t u

section Calls

variable {s s' : State} {q q' : Anchor → List Tid} {k k' : Kernel} {sem : SemId} {l l' : SemLog}
  {t : Tid} {w rest : List Tid} {r : Kernel × Outcome}

/-- One of the waiters has got ready. -/
theorem SemLog.wake_one (hnodup : l.waiting.Nodup) (ht : t ∈ l.waiting)
    (hready : k.waitstate t = .ready) (hothers : ∀ u ∈ l.waiting, u ≠ t → k.waitstate u ≠ .ready) :
    l.wake k = { l with granted := l.granted + 1, waiting := l.waiting.filter (· ≠ t) } := by
  have hiff : ∀ u ∈ l.waiting, k.waitstate u = .ready ↔ u = t := fun u hu =>
    ⟨fun h => by_contra fun hne => hothers u hu hne h, fun h => h ▸ hready⟩
  have hone : (l.waiting.filter fun u => decide (k.waitstate u = .ready)).length = 1 := by
    rw [List.filter_congr fun u hu => decide_eq_decide.mpr (hiff u hu),
      ← List.countP_eq_length_filter]
    exact List.count_eq_one_of_mem hnodup ht
  have hrest : (l.waiting.filter fun u => decide (k.waitstate u ≠ .ready)) =
      l.waiting.filter (· ≠ t) :=
    List.filter_congr fun u hu => decide_eq_decide.mpr (not_congr (hiff u hu))
  rw [SemLog.wake, hone, hrest]

/-- No waiter gets ready. -/
theorem SemInv.step_of_not_ready (h : SemInv k sem l w)
    (hfields : ∀ t ∈ w, k'.waitstate t = k.waitstate t) {w' : List Tid}
    (hinv : SemInv k' sem l' w') : SemStep k k' sem l l' w' :=
  ⟨hinv, fun t ht hready => absurd hready (h.not_ready hfields t ht)⟩

/-- The threads stay as they are. -/
theorem SemInv.counted (h : SemInv k sem l w) (hth : k'.toThreads = k.toThreads)
    (hle : k'.value sem ≤ semValueMax) (hzero : w ≠ [] → k'.value sem = 0)
    (hconserved : l'.initial + l'.posts = k'.value sem + l'.granted)
    (hwaiting : l'.waiting = l.waiting) : SemStep k k' sem l l' w := by
  refine h.step_of_not_ready (fun t _ => by rw [hth]) ⟨hle, hzero, hconserved, ?_, fun t ht => ?_, ?_⟩
  · rw [hwaiting]
    exact h.waiters
  · rw [hth]
    exact h.waitstate t ht
  · rw [hwaiting, hth]
    exact h.arrived

theorem SemInv.wake_eq (h : SemInv k sem l w) (hth : k'.toThreads = k.toThreads) :
    l.wake k' = l :=
  SemLog.wake_same (h.not_ready fun t _ => by rw [hth])

/-- An event that does nothing with the semaphore. -/
theorem SemInv.unchanged (h : SemInv k sem l w) (hth : k'.toThreads = k.toThreads)
    (hvalue : k'.value = k.value) : SemStep k k' sem l (l.wake k') w := by
  rw [h.wake_eq hth]
  refine h.counted hth ?_ ?_ ?_ rfl <;> rw [hvalue]
  · exact h.value_le
  · exact h.value_zero
  · exact h.conserved

/-- A unit is taken. -/
theorem SemInv.taken (h : SemInv k sem l w) (hpos : 0 < k.value sem)
    (hth : k'.toThreads = k.toThreads)
    (hvalue : k'.value = Function.update k.value sem (k.value sem - 1)) :
    SemStep k k' sem l { l.wake k' with granted := (l.wake k').granted + 1 } w := by
  have hself : k'.value sem = k.value sem - 1 := by rw [hvalue, Function.update_self]
  rw [h.wake_eq hth]
  refine h.counted hth ?_ (fun hw => ?_) ?_ rfl <;> rw [hself]
  · exact (Nat.sub_le _ _).trans h.value_le
  · rw [h.value_zero hw]
  · show l.initial + l.posts = k.value sem - 1 + (l.granted + 1)
    rw [h.conserved]
    omega

/-- The value is raised. -/
theorem SemInv.raised (h : SemInv k sem l w) (hw : w = []) (hmax : k.value sem ≠ semValueMax)
    (hth : k'.toThreads = k.toThreads)
    (hvalue : k'.value = Function.update k.value sem (k.value sem + 1)) :
    SemStep k k' sem l { l.wake k' with posts := (l.wake k').posts + 1 } w := by
  have hself : k'.value sem = k.value sem + 1 := by rw [hvalue, Function.update_self]
  rw [h.wake_eq hth]
  refine h.counted hth ?_ (absurd hw) ?_ rfl
  · rw [hself]
    exact Nat.lt_of_le_of_ne h.value_le hmax
  · show l.initial + (l.posts + 1) = k'.value sem + l.granted
    rw [hself, ← Nat.add_assoc, h.conserved]
    omega

/-- The unit is handed to the first waiter. -/
theorem SemInv.handed (h : Lists k.toThreads q) (hinv : SemInv k sem l (q (.sem sem)))
    (hq : q (.sem sem) = t :: rest) {link : Memory Anchor Tid}
    (hth : k'.toThreads = k.toThreads.arrive t .ready link) (hvalue : k'.value = k.value) :
    SemStep k k' sem l { l.wake k' with posts := (l.wake k').posts + 1 } rest := by
  have hnodup : (t :: rest).Nodup := hq ▸ h.links.nodup (.sem sem)
  have hwaiters : (t :: rest).Perm l.waiting := hq ▸ hinv.waiters
  have hordered := h.ordered (.sem sem) (by simp)
  rw [hq, List.pairwise_cons] at hordered
  rw [List.nodup_cons] at hnodup
  have hwaits : k.toThreads.Waits k'.toThreads t .ready := hth ▸ k.waits_arrive t .ready link
  have hself : k'.waitstate t = .ready := hwaits.self
  have hwaitstate : ∀ u, u ≠ t → k'.waitstate u = k.waitstate u := fun _ hu => hwaits.of_ne hu
  have harrived : ∀ u, u ≠ t → k'.arrived u = k.arrived u := fun u hu => by
    rw [hth, Threads.arrive_arrived_of_ne hu]
  have hsem : ∀ u ∈ l.waiting, k.waitstate u = .sem := fun u hu =>
    hinv.waitstate u (hinv.waiters.mem_iff.mpr hu)
  have hothers : ∀ u ∈ l.waiting, u ≠ t → k'.waitstate u ≠ .ready := fun u hu hne => by
    rw [hwaitstate u hne, hsem u hu]
    exact nofun
  have hmem : t ∈ l.waiting := hwaiters.mem_iff.mp List.mem_cons_self
  have hlnodup : l.waiting.Nodup := hwaiters.nodup_iff.mp (List.nodup_cons.mpr hnodup)
  have hrest : ∀ u ∈ rest, u ≠ t := fun u hu heq => hnodup.1 (heq ▸ hu)
  have hfirst : ∀ u ∈ l.waiting, k'.waitstate u = .ready → u = t := fun u hu hready =>
    by_contra fun hne => hothers u hu hne hready
  rw [SemLog.wake_one hlnodup hmem hself hothers]
  have hzero : k.value sem = 0 := hinv.value_zero (by rw [hq]; exact List.cons_ne_nil t rest)
  refine ⟨⟨?_, fun _ => ?_, ?_, ?_, fun u hu => ?_, ?_⟩, fun u hu hready v hv hnot => ?_⟩
  · rw [hvalue]
    exact hinv.value_le
  · rw [hvalue, hzero]
  · show l.initial + (l.posts + 1) = k'.value sem + (l.granted + 1)
    rw [hvalue, ← Nat.add_assoc, hinv.conserved, Nat.add_assoc]
  · -- the list and the log have the same threads left
    refine (List.perm_ext_iff_of_nodup hnodup.2 (hlnodup.filter _)).mpr fun u => ?_
    rw [List.mem_filter, ← hwaiters.mem_iff, List.mem_cons, decide_eq_true_iff]
    exact ⟨fun hu => ⟨.inr hu, hrest u hu⟩, fun hu => hu.1.resolve_left hu.2⟩
  · rw [hwaitstate u (hrest u hu)]
    exact hsem u (hwaiters.mem_iff.mp (List.mem_cons_of_mem t hu))
  · refine (hinv.arrived.sublist List.filter_sublist).imp_of_mem fun {u v} hu hv huv => ?_
    have hut : u ≠ t := of_decide_eq_true (List.mem_filter.mp hu).2
    have hvt : v ≠ t := of_decide_eq_true (List.mem_filter.mp hv).2
    rw [harrived u hut, harrived v hvt]
    exact huv
  · obtain rfl := hfirst u hu hready
    have hne : v ≠ u := by
      rintro rfl
      exact hnot hself
    have hvrest := (List.mem_cons.mp (hwaiters.mem_iff.mpr hv)).resolve_left hne
    rcases hordered.1 v hvrest with hlower | ⟨heq, hlt⟩
    · exact .inl hlower
    · exact .inr ⟨heq, pair_sublist hinv.arrived hu hv hlt⟩

/-- `sem_post`, also that of an interrupt. -/
theorem SemInv.post (h : Lists k.toThreads q) (hinv : SemInv k sem l (q (.sem sem)))
    (hpost : k.semPost sem = some r) (h' : Lists r.1.toThreads q') :
    SemStep k r.1 sem l (if k.posted sem = true then
      { l.wake r.1 with posts := (l.wake r.1).posts + 1 } else l.wake r.1) (q' (.sem sem)) := by
  have hhead := h.links.head_eq (.sem sem)
  have hposted : k.posted sem = match r.2 with
      | .result (.minusOne _) => false
      | _ => true := by
    rw [Kernel.posted, hpost]
    obtain ⟨k', o⟩ := r
    rcases o with (_ | _ | _ | _ | _) | _ | _ <;> rfl
  cases hq : q (.sem sem) with
  | nil =>
    rw [hq, List.head?_nil] at hhead
    have hpost' := hpost
    rw [Kernel.semPost, hhead, Option.isSome_none, if_neg Bool.false_ne_true] at hpost'
    by_cases hmax : k.value sem = semValueMax
    · rw [if_pos hmax] at hpost'
      cases hpost'
      obtain rfl := h.links.unique h'.links
      rw [hposted]
      exact hinv.unchanged rfl rfl
    · rw [if_neg hmax] at hpost'
      cases hpost'
      obtain rfl := h.links.unique h'.links
      rw [hposted, if_pos rfl]
      exact hinv.raised hq hmax rfl rfl
  | cons t rest =>
    rw [hq, List.head?_cons] at hhead
    obtain ⟨link, q'', hmove, hlists, -, hrest⟩ := h.move hq .ready .ready
    have hpost' := hpost
    rw [Kernel.semPost, hhead, Option.isSome_some, if_pos rfl, tthCsMove_eq hmove,
      Option.map_some] at hpost'
    cases hpost'
    have hth : (Kernel.switchThen { k with toThreads := k.toThreads.arrive t .ready link }
        .zero).1.toThreads = k.toThreads.arrive t .ready link := by
      rw [switchThen_fst, tthCsSwitch_toThreads]
    rw [hth] at h'
    obtain rfl := hlists.links.unique h'.links
    have htrue : k.posted sem = true := by
      rw [hposted, Kernel.switchThen]
      split_ifs <;> rfl
    rw [htrue, if_pos rfl, hrest (by simp)]
    refine hinv.handed h hq hth ?_
    rw [switchThen_fst, tthCsSwitch_value]

/-- The caller of `sem_wait` waits. -/
theorem SemInv.blocked (h : Lists k.toThreads q) (hinv : SemInv k sem l (q (.sem sem)))
    (hzero : k.value sem = 0) (hq : q .ready = t :: rest) {link : Memory Anchor Tid}
    (hth : k'.toThreads = k.toThreads.arrive t .sem link) (hvalue : k'.value = k.value)
    (h' : Lists k'.toThreads q') (hmoved : Moved q q' t (some (.sem sem))) :
    SemStep k k' sem l { l.wake k' with waiting := (l.wake k').waiting ++ [t] } (q' (.sem sem)) := by
  have hready : t ∈ q .ready := by
    rw [hq]
    exact List.mem_cons_self
  have hoff : t ∉ q (.sem sem) := fun hmem => by
    cases h.links.disjoint _ _ t hready hmem
  have hne : ∀ u ∈ l.waiting, u ≠ t := fun u hu heq =>
    hoff (heq ▸ hinv.waiters.mem_iff.mpr hu)
  have hwaits : k.toThreads.Waits k'.toThreads t .sem := hth ▸ k.waits_arrive t .sem link
  have hwaitstate : ∀ u, u ≠ t → k'.waitstate u = k.waitstate u := fun _ hu => hwaits.of_ne hu
  have harrived : ∀ u, u ≠ t → k'.arrived u = k.arrived u := fun u hu => by
    rw [hth, Threads.arrive_arrived_of_ne hu]
  have hfields : ∀ u ∈ q (.sem sem), k'.waitstate u = k.waitstate u := fun u hu =>
    hwaitstate u (ne_of_mem_of_not_mem hu hoff)
  rw [SemLog.wake_same (hinv.not_ready hfields)]
  refine hinv.step_of_not_ready hfields ⟨?_, fun _ => ?_, ?_, ?_, fun u hu => ?_, ?_⟩
  · rw [hvalue]
    exact hinv.value_le
  · rw [hvalue, hzero]
  · rw [hvalue]
    exact hinv.conserved
  · have hnodup : (l.waiting ++ [t]).Nodup :=
      List.nodup_append.mpr ⟨hinv.waiters.nodup_iff.mp (h.links.nodup _), List.nodup_singleton t,
        fun u hu v hv => by
          rw [List.mem_singleton.mp hv]
          exact hne u hu⟩
    refine (List.perm_ext_iff_of_nodup (h'.links.nodup _) hnodup).mpr fun u => ?_
    rw [hmoved, List.mem_append, List.mem_singleton, ← hinv.waiters.mem_iff]
    constructor
    · rintro (⟨hu, -⟩ | ⟨-, hu⟩)
      · exact .inr hu
      · exact .inl hu
    · rintro (hu | hu)
      · exact .inr ⟨ne_of_mem_of_not_mem hu hoff, hu⟩
      · exact .inl ⟨hu, rfl⟩
  · rcases (hmoved _ u).mp hu with ⟨rfl, -⟩ | ⟨hut, hu⟩
    · exact hwaits.self
    · rw [hwaitstate u hut]
      exact hinv.waitstate u hu
  · refine List.pairwise_append.mpr ⟨hinv.arrived.imp_of_mem fun {u v} hu hv huv => ?_,
      List.pairwise_singleton _ _, fun u hu v hv => ?_⟩
    · rw [harrived u (hne u hu), harrived v (hne v hv)]
      exact huv
    · obtain rfl := List.mem_singleton.mp hv
      have hself : k'.arrived v = k.arrivals := by
        rw [hth, Threads.arrive_arrived]
      rw [harrived u (hne u hu), hself]
      exact h.stamped _ u (hinv.waiters.mem_iff.mpr hu)

/-- What `sem_wait` does, in the log. -/
theorem SemInv.wait {cont : Tid → Option Cont} (h : Scheduled k cont q) (h0 : k.intLevel = 0)
    (hinv : SemInv k sem l (q (.sem sem))) (hwait : k.semWait sem = some r)
    (h' : Lists r.1.toThreads q') :
    SemStep k r.1 sem l (if r.2 = .result .zero then
      { l.wake r.1 with granted := (l.wake r.1).granted + 1 } else
      { l.wake r.1 with waiting := (l.wake r.1).waiting ++ [k.running] }) (q' (.sem sem)) := by
  rw [Kernel.semWait] at hwait
  by_cases hpos : 0 < k.value sem
  · rw [if_pos hpos] at hwait
    cases hwait
    obtain rfl := h.placed.lists.links.unique h'.links
    rw [if_pos rfl]
    exact hinv.taken hpos rfl rfl
  · rw [if_neg hpos] at hwait
    obtain ⟨rest, hq⟩ := List.head?_eq_some_iff.mp (h.head h0)
    obtain ⟨link, q'', hmove, hlists, hmoved, hrest⟩ := h.placed.lists.move hq (.sem sem) .sem
    rw [tthCsMove_eq hmove, Option.map_some] at hwait
    cases hwait
    have hth : (Kernel.switchThen { k with toThreads := k.toThreads.arrive k.running .sem link }
        .zero).1.toThreads = k.toThreads.arrive k.running .sem link := by
      rw [switchThen_fst, tthCsSwitch_toThreads]
    rw [hth] at h'
    obtain rfl := hlists.links.unique h'.links
    -- the caller is not ready any more, so another thread runs
    have hneeds : Kernel.needsSwitch
        { k with toThreads := k.toThreads.arrive k.running .sem link } = true := by
      have hnot : link (.head .ready) ≠ some k.running := by
        intro hhead
        have hrunning : k.running ∈ q'' .ready :=
          List.mem_of_mem_head? ((hlists.links.head_eq .ready).symm.trans hhead)
        rcases (hmoved _ _).mp hrunning with ⟨-, heq⟩ | ⟨hne, -⟩
        · cases heq
        · exact hne rfl
      simp only [Kernel.needsSwitch, Threads.arrive, h0, beq_self_eq_true, Bool.true_and, bne_iff_ne]
      exact hnot
    have hnext : ¬ (Kernel.switchThen { k with
        toThreads := k.toThreads.arrive k.running .sem link } .zero).2 = .result .zero := by
      rw [Kernel.switchThen, if_pos hneeds]
      intro heq
      cases heq
    rw [if_neg hnext]
    refine hinv.blocked h.placed.lists (Nat.eq_zero_of_not_pos hpos) hq hth ?_ ?_ hmoved
    · rw [switchThen_fst, tthCsSwitch_value]
    · rw [hth]
      exact hlists

/-- What `sem_trywait` does, in the log. -/
theorem SemInv.trywait (h : Lists k.toThreads q) (hinv : SemInv k sem l (q (.sem sem)))
    (h' : Lists (k.semTrywait sem).1.toThreads q') :
    SemStep k (k.semTrywait sem).1 sem l (if (k.semTrywait sem).2 = .result .zero then
      { l.wake (k.semTrywait sem).1 with granted := (l.wake (k.semTrywait sem).1).granted + 1 }
      else l.wake (k.semTrywait sem).1) (q' (.sem sem)) := by
  rw [Kernel.semTrywait] at h' ⊢
  by_cases hpos : 0 < k.value sem
  · rw [if_pos hpos] at h' ⊢
    obtain rfl := h.links.unique h'.links
    rw [if_pos rfl]
    exact hinv.taken hpos rfl rfl
  · rw [if_neg hpos] at h' ⊢
    obtain rfl := h.links.unique h'.links
    rw [if_neg fun heq => by cases heq]
    exact hinv.unchanged rfl rfl

/-- What `sem_init` does, in the log. -/
theorem SemInv.start (h : Lists k.toThreads q) (hinv : SemInv k sem l (q (.sem sem)))
    (hnone : k.link (.head (.sem sem)) = none) {pshared : Bool} {value : ℕ}
    (h' : Lists (k.semInit sem pshared value).1.toThreads q') :
    SemStep k (k.semInit sem pshared value).1 sem l
      (if (k.semInit sem pshared value).2 = .result .zero then ⟨value, 0, 0, []⟩
      else l.wake (k.semInit sem pshared value).1) (q' (.sem sem)) := by
  rw [Kernel.semInit] at h' ⊢
  by_cases hmax : semValueMax < value
  · rw [if_pos hmax] at h' ⊢
    obtain rfl := h.links.unique h'.links
    rw [if_neg fun heq => by cases heq]
    exact hinv.unchanged rfl rfl
  · rw [if_neg hmax] at h' ⊢
    cases pshared with
    | true =>
      obtain rfl := h.links.unique h'.links
      exact hinv.unchanged rfl rfl
    | false =>
      have hsame : Function.update k.link (.head (.sem sem)) none = k.link :=
        Function.update_eq_self_iff.mpr hnone.symm
      have hlinks := h'.links
      simp only [Bool.false_eq_true, if_false, hsame] at hlinks
      obtain rfl := h.links.unique hlinks
      have hnil : q (.sem sem) = [] :=
        List.head?_eq_none_iff.mp ((h.links.head_eq (.sem sem)).symm.trans hnone)
      have hself : Function.update k.value sem value sem = value := Function.update_self _ _ _
      show SemStep k _ sem l ⟨value, 0, 0, []⟩ _
      refine hinv.step_of_not_ready ?_ ⟨?_, absurd hnil, ?_, ?_, ?_, ?_⟩
      · exact fun _ _ => rfl
      · show Function.update k.value sem value sem ≤ semValueMax
        rw [hself]
        exact Nat.not_lt.mp hmax
      · show value + 0 = Function.update k.value sem value sem + 0
        rw [hself]
      · rw [hnil]
      · rw [hnil]
        intro t ht
        cases ht
      · exact .nil

end Calls

/-! ## The events -/

/-- What a call returns at once. -/
def Outcome.returned : Outcome → Option Result
  | .result r => some r
  | _ => none

section Events

variable {s s' : State} {q q' : Anchor → List Tid} {sem : SemId} {l : SemLog} {ticksPerSec : ℕ}
  {e : Event}

theorem settle_result (s : State) (t : Tid) (r : Kernel × Outcome) :
    (s.settle t r).result t = r.2.returned := by
  obtain ⟨k, o⟩ := r
  cases o <;> exact Function.update_self _ _ _

theorem Outcome.returned_iff {o : Outcome} {r : Result} : o.returned = some r ↔ o = .result r := by
  cases o with
  | result r' => rw [Outcome.returned, Option.some.injEq, Outcome.result.injEq]
  | cont c => exact ⟨nofun, nofun⟩
  | gone => exact ⟨nofun, nofun⟩

/-- **An event, in the log of a semaphore.** -/
theorem SemInv.exec (h : Scheduled s.kernel s.cont q)
    (hinv : SemInv s.kernel sem l (q (.sem sem))) (henabled : Enabled s e)
    (hexec : s.exec ticksPerSec e = some s') (h' : Lists s'.kernel.toThreads q') :
    SemStep s.kernel s'.kernel sem l (l.after s s' sem e) (q' (.sem sem)) := by
  by_cases habout : e.about sem
  · cases e with
    | call c =>
      obtain ⟨r, hcall, rfl⟩ := Option.map_eq_some_iff.mp hexec
      have hres (o : Result) : (State.settle { s with cont := State.started s.cont c }
          s.kernel.running r).result s.kernel.running = some o ↔ r.2 = .result o := by
        rw [settle_result, Outcome.returned_iff]
      rw [settle_kernel] at h' ⊢
      cases c with
      | semInit sem' pshared value =>
        obtain rfl : sem' = sem := habout
        cases hcall
        simp only [SemLog.after, hres, true_and, settle_kernel]
        exact hinv.start h.placed.lists henabled.2.2.1 h'
      | semPost sem' =>
        obtain rfl : sem' = sem := habout
        simp only [SemLog.after, true_and, settle_kernel]
        exact hinv.post h.placed.lists hcall h'
      | semWait sem' =>
        obtain rfl : sem' = sem := habout
        simp only [SemLog.after, hres, if_true, settle_kernel]
        exact hinv.wait h henabled.1 hcall h'
      | semTrywait sem' =>
        obtain rfl : sem' = sem := habout
        cases hcall
        simp only [SemLog.after, hres, true_and, settle_kernel]
        exact hinv.trywait h.placed.lists h'
      | _ => exact habout.elim
    | intPost sem' =>
      obtain rfl : sem' = sem := habout
      obtain ⟨r, hpost, rfl⟩ := Option.map_eq_some_iff.mp hexec
      simp only [SemLog.after, true_and]
      exact hinv.post h.placed.lists hpost h'
    | _ => exact habout.elim
  · have hquiet := h.exec_quiet henabled habout hexec
    obtain ⟨hlist, hfields⟩ := hquiet.lists h.placed.lists h'
    have hwait : ∀ t ∈ q (.sem sem), s'.kernel.waitstate t = s.kernel.waitstate t :=
      fun t ht => (hfields t ht).1
    rw [SemLog.after_of_not_about habout, SemLog.wake_same (hinv.not_ready hwait), hlist]
    exact hinv.step_of_not_ready hwait (hinv.same hquiet.value hfields)

end Events

/-! ## Runs -/

/-- The invariant of a state with its logs. -/
def Logged.Inv (s : Logged) : Prop :=
  ∃ q, Scheduled s.state.kernel s.state.cont q ∧
    ∀ sem, SemInv s.state.kernel sem (s.log sem) (q (.sem sem))

namespace Logged

variable {s s' : Logged} {e : Event} {ticksPerSec : ℕ}

theorem inv_init : Logged.init.Inv :=
  ⟨initLists, ⟨placed_init, List.mem_cons_self, fun _ => rfl⟩, fun _ =>
    ⟨Nat.zero_le _, fun _ => rfl, rfl, .nil, nofun, .nil⟩⟩

/-- Every event keeps the invariant. -/
theorem Inv.step (h : s.Inv) (henabled : Enabled s.state e) (hlate : ¬ LateJoin s.state e)
    (hexec : s.exec ticksPerSec e = some s') : s'.Inv := by
  obtain ⟨q, hsched, hsem⟩ := h
  obtain ⟨state', hstate, rfl⟩ := Option.map_eq_some_iff.mp hexec
  have hcrash : ¬ Crashes s.state e := fun hcrash => by
    cases (exec_of_crashes ticksPerSec hcrash).symm.trans hstate
  obtain ⟨next, hnext, q', hsched'⟩ :=
    Tth.Inv.step ⟨q, hsched⟩ ticksPerSec henabled hlate hcrash
  cases hnext.symm.trans hstate
  exact ⟨q', hsched', fun sem =>
    ((hsem sem).exec hsched henabled hstate hsched'.placed.lists).inv⟩

/-- A late join is not about a semaphore. -/
theorem not_lateJoin {s : State} {sem : SemId} (habout : e.about sem) : ¬ LateJoin s e := by
  cases e with
  | call c => cases c <;> first | exact id | exact habout.elim
  | _ => exact id

theorem Inv.sound (h : s.Inv) : s.Sound ticksPerSec := by
  obtain ⟨q, hsched, hsem⟩ := h
  constructor
  · intro sem
    have hinv := hsem sem
    have hhead := hsched.placed.lists.links.head_eq (.sem sem)
    refine ⟨hinv.value_le, fun hwaiter => hinv.value_zero ?_, hinv.conserved, q (.sem sem),
      hsched.placed.lists.links.chain _, hinv.waiters⟩
    intro hnil
    rw [hnil] at hhead
    exact hwaiter hhead
  · intro e state' henabled hexec sem
    have hinv := hsem sem
    by_cases habout : e.about sem
    · have hcrash : ¬ Crashes s.state e := fun hcrash => by
        cases (exec_of_crashes ticksPerSec hcrash).symm.trans hexec
      obtain ⟨next, hnext, q', hsched'⟩ :=
        Tth.Inv.step ⟨q, hsched⟩ ticksPerSec henabled (not_lateJoin habout) hcrash
      cases hnext.symm.trans hexec
      exact (hinv.exec hsched henabled hexec hsched'.placed.lists).order
    · have hquiet := hsched.exec_quiet henabled habout hexec
      intro t ht hready
      have hfields := hquiet.waitstate hsched.placed.lists
      exact absurd hready (hinv.not_ready hfields t ht)

end Logged

/-- **Semaphores** neither lose nor invent units. In every run without a late join, the value is in
range, and it is 0 while threads wait; the initial value and the posts make up the value and the
waits that have been granted; and the next threads that are granted outrank the other ones. -/
theorem semaphores_sound (ticksPerSec : ℕ) {es : List Event} {s : Logged}
    (h : Runs.Path (Logged.exec ticksPerSec) (fun s e => Enabled s.state e ∧ ¬ LateJoin s.state e)
      Logged.init es s) : s.Sound ticksPerSec :=
  Logged.Inv.sound (h.invariant Logged.inv_init fun _ _ _ hinv hok hexec =>
    hinv.step hok.1 hok.2 hexec)

/-- The default thread waits for a unit, and gets it from a thread with a lower priority. -/
def waitOnce : List Event :=
  [.call (.semInit 0 false 0), .call (.create (some 2) { joinable with schedpriority := 5 }),
    .resume, .call (.semWait 0), .call (.semPost 0)]

theorem semaphores_sound_wait : ∃ s, Runs.Path (Logged.exec 1000)
    (fun s e => Enabled s.state e ∧ ¬ LateJoin s.state e) Logged.init waitOnce s ∧ s.Sound 1000 ∧
      s.log 0 = ⟨0, 1, 1, []⟩ :=
  ⟨_, Runs.path_get (by decide), semaphores_sound 1000 (Runs.path_get (by decide)), by decide⟩

/-- Thread 2 is freed by the default thread and once more by thread 3, as in `joinTwice`. In between,
its memory becomes a thread that waits for the semaphore. The thread that is created there next is
ready, and nobody has posted. -/
def waitFreed : List Event :=
  [.call (.semInit 0 false 0), .call (.create (some 2) joinable), .resume,
    .call (.create (some 3) joinable), .resume, .call .yield, .call .yield, .call (.join 2), .resume,
    .call .yield, .resume, .call (.exit 0), .resume, .call (.join 2), .resume,
    .call (.create (some 2) { joinable with schedpriority := 20 }), .resume, .call (.semWait 0),
    .resume, .call .yield, .resume, .resume, .call (.create (some 2) joinable), .resume]

theorem not_semaphores_sound : ¬ ∀ es s, Runs.Path (Logged.exec 1000) (fun s e => Enabled s.state e)
    Logged.init es s → s.Sound 1000 := by
  intro hclaim
  have hpath : Runs.Path (Logged.exec 1000) (fun s e => Enabled s.state e) Logged.init waitFreed _ :=
    Runs.path_get (by decide +kernel)
  have hconserved := ((hclaim waitFreed _ hpath).units 0).conserved
  revert hconserved
  decide +kernel

end OlivePiccolo.Tth
