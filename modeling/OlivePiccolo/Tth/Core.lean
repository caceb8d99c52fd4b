import Mathlib.Algebra.Group.Nat.Defs
import Mathlib.Data.List.Perm.Subperm
import OlivePiccolo.Library.Links

/-!
# The core of TinyThreads

All lists of TinyThreads run through the one pointer `follower` of a thread. This is the memory with
these pointers, and what `tth_core.h` does with it: `tth_cs_move` takes the first thread off a list
and puts it into another one behind all threads whose priority is not lower, `tth_cs_switch` runs
the first thread of `tth_ready`. On the lists that the memory represents (`Lists`), a move is a
list operation, and keeps them in order.
-/

namespace OlivePiccolo.Tth

open Links

/-- A thread, by the address of its `tth_thread`. -/
abbrev Tid := ℕ

abbrev MutexId := ℕ

abbrev SemId := ℕ

abbrev CondId := ℕ

/-- The heads of the lists: `tth_ready`, `tth_sleeping`, `tth_detach`, and the `waiter` of a thread,
a mutex, a semaphore and a condition. -/
inductive Anchor
  | ready
  | sleeping
  | detach
  | thread (t : Tid)
  | mutex (m : MutexId)
  | sem (s : SemId)
  | cond (c : CondId)
  deriving DecidableEq, Repr

/-- `waitstate`; that of the threads that are there from the start is not initialised (`zero`). -/
inductive WaitState
  | zero
  | inval
  | ready
  | join
  | dead
  | thread
  | mutex
  | sem
  | cond
  | sleep
  deriving DecidableEq, Repr

/-- The threads: their lists, and what decides on their places there. -/
structure Threads where
  /-- The heads, and the `follower` of the threads. -/
  link : Memory Anchor Tid
  /-- `detachstate == PTHREAD_CREATE_DETACHED`. -/
  detached : Tid → Bool
  schedpriority : Tid → ℕ
  waitstate : Tid → WaitState
  /-- `autostack` is not `NULL`. -/
  autostack : Tid → Bool
  /-- The threads whose memory is in use. -/
  objects : List Tid
  /-- Not in the source: the number of arrivals so far, and the arrival of each thread. -/
  arrivals : ℕ
  arrived : Tid → ℕ

/-- The variables of the kernel, of its mutexes and semaphores, and the other ones of the threads. -/
structure Kernel extends Threads where
  /-- `schedpolicy == SCHED_RR`. -/
  roundRobin : Tid → Bool
  /-- `retval` or `timeout`. -/
  shared : Tid → BitVec 32
  running : Tid
  intLevel : ℕ
  time : BitVec 32
  preemptionUs : ℤ
  owner : MutexId → Option Tid
  value : SemId → ℕ

/-! ## The code -/

namespace Threads

/-- A list without a circle has no more threads than there are. -/
def fuel (th : Threads) : ℕ := th.objects.length + 1

/-- The test for going on in the loop of `tth_cs_move`. -/
def notLower (th : Threads) (target next : Tid) : Bool :=
  th.schedpriority target ≤ th.schedpriority next

/-- The target arrives on a list. -/
def arrive (th : Threads) (target : Tid) (w : WaitState) (link : Memory Anchor Tid) : Threads :=
  { th with
    waitstate := Function.update th.waitstate target w
    link := link
    arrivals := th.arrivals + 1
    arrived := Function.update th.arrived target th.arrivals }

/-- `tth_cs_move`, with the target off its list. -/
def tthCsPut (th : Threads) (target : Tid) (dst : Option Anchor) (w : WaitState) :
    Option Threads :=
  match dst with
  | some dst =>
    (seek th.link (th.notLower target) th.fuel (.head dst)).map fun slot =>
      th.arrive target w (place th.link slot target)
  | none =>
    some { th with
      waitstate := Function.update th.waitstate target w
      link := Function.update th.link (.follower target) none }

/-- `tth_cs_move`: `none` if the loop does not end. -/
def tthCsMove (th : Threads) (src : Anchor) (dst : Option Anchor) (w : WaitState) :
    Option Threads :=
  match th.link (.head src) with
  | none => some th
  | some target => tthCsPut { th with link := take th.link src target } target dst w

/-- Of two threads on a list, the first one has the higher priority; or an equal one, and has arrived
first. -/
def Before (th : Threads) (t u : Tid) : Prop :=
  th.schedpriority u < th.schedpriority t ∨
    th.schedpriority t = th.schedpriority u ∧ th.arrived t < th.arrived u

end Threads

namespace Kernel

/-- `tth_cs_move`. -/
def tthCsMove (k : Kernel) (src : Anchor) (dst : Option Anchor) (w : WaitState) : Option Kernel :=
  (k.toThreads.tthCsMove src dst w).map fun th => { k with toThreads := th }

/-- The test of `tth_cs_switch`. -/
def needsSwitch (k : Kernel) : Bool :=
  k.intLevel == 0 && k.link (.head .ready) != some k.running

/-- `tth_cs_exec_switch`, `tth_int_context_switch`. The idle thread keeps the list from being empty.
-/
def execSwitch (k : Kernel) : Kernel :=
  { k with running := (k.link (.head .ready)).getD k.running }

/-- `tth_cs_switch`. -/
def tthCsSwitch (k : Kernel) : Kernel := if k.needsSwitch then k.execSwitch else k

end Kernel

/-! ## Lists in order -/

/-- The lists that the memory represents. All but the one of the sleeping threads are in order. -/
structure Lists (th : Threads) (q : Anchor → List Tid) : Prop where
  links : Represents th.link q
  ordered : ∀ a, a ≠ .sleeping → (q a).Pairwise th.Before
  stamped : ∀ a, ∀ t ∈ q a, th.arrived t < th.arrivals
  mem_objects : ∀ a, ∀ t ∈ q a, t ∈ th.objects

/-- Where the threads are, after `t` has moved to `dst`. -/
def Moved (q q' : Anchor → List Tid) (t : Tid) (dst : Option Anchor) : Prop :=
  ∀ a u, u ∈ q' a ↔ (u = t ∧ dst = some a) ∨ (u ≠ t ∧ u ∈ q a)

section Lists

variable {th : Threads} {q : Anchor → List Tid} {src dst : Anchor} {t : Tid} {rest : List Tid}
  {w : WaitState}

/-- Behind the first thread with a lower priority, all have one. -/
theorem lower_of_mem_dropWhile {l : List Tid} (h : l.Pairwise th.Before) {u : Tid}
    (hu : u ∈ l.dropWhile (th.notLower t)) : th.schedpriority u < th.schedpriority t := by
  induction l with
  | nil => cases hu
  | cons v l ih =>
    rw [List.pairwise_cons] at h
    rw [List.dropWhile_cons] at hu
    by_cases hv : th.notLower t v = true
    · rw [if_pos hv] at hu
      exact ih h.2 hu
    · rw [if_neg hv] at hu
      have hlt : th.schedpriority v < th.schedpriority t := by
        simpa [Threads.notLower] using hv
      rcases List.mem_cons.mp hu with rfl | hu
      · exact hlt
      · rcases h.1 u hu with hlower | ⟨heq, -⟩
        · exact Nat.lt_trans hlower hlt
        · exact heq ▸ hlt

theorem Threads.arrive_arrived (th : Threads) (t : Tid) (w : WaitState)
    (link : Memory Anchor Tid) : (th.arrive t w link).arrived t = th.arrivals :=
  Function.update_self _ _ _

theorem Threads.arrive_arrived_of_ne {u : Tid} {link : Memory Anchor Tid} (hu : u ≠ t) :
    (th.arrive t w link).arrived u = th.arrived u :=
  Function.update_of_ne hu _ _

/-- An arrival does not change the order of the other threads. -/
theorem before_arrive {u v : Tid} {link : Memory Anchor Tid} (hu : u ≠ t) (hv : v ≠ t) :
    (th.arrive t w link).Before u v ↔ th.Before u v := by
  rw [Threads.Before, Threads.Before, Threads.arrive_arrived_of_ne hu,
    Threads.arrive_arrived_of_ne hv]
  rfl

/-- A thread that arrives keeps a list in order. -/
theorem pairwise_insertBehind {l : List Tid} {link : Memory Anchor Tid} (h : l.Pairwise th.Before)
    (ht : t ∉ l) (hstamped : ∀ u ∈ l, th.arrived u < th.arrivals) :
    (insertBehind (th.notLower t) t l).Pairwise (th.arrive t w link).Before := by
  have hsplit := List.takeWhile_append_dropWhile (p := th.notLower t) (l := l)
  have hne : ∀ u ∈ l, u ≠ t := fun u hu heq => ht (heq ▸ hu)
  have hold : l.Pairwise (th.arrive t w link).Before :=
    h.imp_of_mem fun {u v} hu hv huv => (before_arrive (hne u hu) (hne v hv)).mpr huv
  rw [← hsplit, List.pairwise_append] at hold
  rw [insertBehind, List.pairwise_append, List.pairwise_cons]
  refine ⟨hold.1, ⟨fun u hu => .inl (lower_of_mem_dropWhile h hu), hold.2.1⟩, fun u hu v hv => ?_⟩
  rcases List.mem_cons.mp hv with rfl | hv
  · have hul := (List.takeWhile_prefix _).subset hu
    have hle : th.schedpriority v ≤ th.schedpriority u := by
      simpa [Threads.notLower] using List.mem_takeWhile_imp hu
    rcases Nat.lt_or_eq_of_le hle with hlt | heq
    · exact .inl hlt
    · refine .inr ⟨heq.symm, ?_⟩
      rw [Threads.arrive_arrived, Threads.arrive_arrived_of_ne (hne u hul)]
      exact hstamped u hul
  · exact hold.2.2 u hu v hv

theorem Lists.length_lt (h : Lists th q) (a : Anchor) : (q a).length < th.fuel :=
  Nat.lt_succ_of_le (List.Nodup.subperm (h.links.nodup a) (h.mem_objects a)).length_le

/-- The threads on a list. -/
def Threads.list (th : Threads) (a : Anchor) : List Tid := nodes th.link th.fuel (.head a)

theorem Lists.list_eq (h : Lists th q) (a : Anchor) : th.list a = q a :=
  (h.links.chain a).nodes (h.length_lt a).le

/-- The first thread is taken off its list. -/
theorem Lists.take (h : Lists th q) (hq : q src = t :: rest) :
    Lists { th with link := take th.link src t } (Function.update q src rest) ∧
      ∀ a, t ∉ Function.update q src rest a := by
  obtain ⟨hlinks, ht⟩ := h.links.take hq
  have hsub (a : Anchor) : (Function.update q src rest a).Sublist (q a) := by
    by_cases ha : a = src
    · subst ha
      rw [Function.update_self, hq]
      exact List.sublist_cons_self t rest
    · rw [Function.update_of_ne ha]
  exact ⟨⟨hlinks, fun a ha => (h.ordered a ha).sublist (hsub a),
    fun a u hu => h.stamped a u ((hsub a).subset hu),
    fun a u hu => h.mem_objects a u ((hsub a).subset hu)⟩, ht⟩

/-- A thread that is on no list is put into one. -/
theorem Lists.put (h : Lists th q) (ht : ∀ a, t ∉ q a) (hobj : t ∈ th.objects) (dst : Anchor)
    (w : WaitState) :
    ∃ link, th.tthCsPut t (some dst) w = some (th.arrive t w link) ∧ Lists (th.arrive t w link)
      (Function.update q dst (insertBehind (th.notLower t) t (q dst))) := by
  have hseek := (h.links.chain dst).seek (th.notLower t) (h.length_lt dst)
  have hput : th.tthCsPut t (some dst) w = some (th.arrive t w
      (place th.link (slotAfter (.head dst) ((q dst).takeWhile (th.notLower t))) t)) := by
    rw [Threads.tthCsPut, hseek, Option.map_some]
  refine ⟨_, hput, ⟨h.links.place ht _ dst, fun a ha => ?_, fun a u hu => ?_, fun a u hu => ?_⟩⟩
  · by_cases had : a = dst
    · subst had
      rw [Function.update_self]
      exact pairwise_insertBehind (h.ordered a ha) (ht a) (h.stamped a)
    · rw [Function.update_of_ne had]
      exact (h.ordered a ha).imp_of_mem fun {u v} hu hv huv =>
        (before_arrive (ne_of_mem_of_not_mem hu (ht a)) (ne_of_mem_of_not_mem hv (ht a))).mpr huv
  · show (th.arrive t w _).arrived u < th.arrivals + 1
    by_cases hut : u = t
    · subst hut
      rw [Threads.arrive_arrived]
      exact Nat.lt_succ_self _
    · rw [Threads.arrive_arrived_of_ne hut]
      have hmem : u ∈ q a := by
        by_cases had : a = dst
        · subst had
          rw [Function.update_self, mem_insertBehind] at hu
          exact hu.resolve_left hut
        · rwa [Function.update_of_ne had] at hu
      exact Nat.lt_succ_of_lt (h.stamped a u hmem)
  · by_cases had : a = dst
    · subst had
      rw [Function.update_self, mem_insertBehind] at hu
      rcases hu with rfl | hu
      · exact hobj
      · exact h.mem_objects a u hu
    · rw [Function.update_of_ne had] at hu
      exact h.mem_objects a u hu

/-! ## Moves -/

/-- Taken off its list, a thread is on none. -/
theorem Lists.mem_take (h : Lists th q) (hq : q src = t :: rest) {a : Anchor} {u : Tid} :
    u ∈ Function.update q src rest a ↔ u ≠ t ∧ u ∈ q a := by
  have ht := (h.take hq).2
  by_cases ha : a = src
  · subst ha
    have hta := ht a
    rw [Function.update_self] at hta ⊢
    rw [hq, List.mem_cons]
    constructor
    · exact fun hu => ⟨fun heq => hta (heq ▸ hu), .inr hu⟩
    · exact fun hu => hu.2.resolve_left hu.1
  · have hta := ht a
    rw [Function.update_of_ne ha] at hta ⊢
    exact ⟨fun hu => ⟨ne_of_mem_of_not_mem hu hta, hu⟩, fun hu => hu.2⟩

theorem mem_put {p : Tid → Bool} {a : Anchor} {u : Tid} :
    u ∈ Function.update q dst (insertBehind p t (q dst)) a ↔ (u = t ∧ a = dst) ∨ u ∈ q a := by
  by_cases ha : a = dst
  · subst ha
    rw [Function.update_self, mem_insertBehind]
    simp
  · rw [Function.update_of_ne ha]
    simp [ha]

/-- `tth_cs_move` of a list that is empty. -/
theorem Lists.move_nil (h : Lists th q) (hq : q src = []) (dst : Option Anchor) (w : WaitState) :
    th.tthCsMove src dst w = some th := by
  rw [Threads.tthCsMove, h.links.head_eq, hq]
  rfl

/-- The lists after `tth_cs_move`. -/
theorem Lists.move_lists (h : Lists th q) (hq : q src = t :: rest) (dst : Anchor) (w : WaitState) :
    ∃ link, th.tthCsMove src (some dst) w = some (th.arrive t w link) ∧
      Lists (th.arrive t w link) (Function.update (Function.update q src rest) dst
        (insertBehind (th.notLower t) t (Function.update q src rest dst))) := by
  obtain ⟨htake, ht⟩ := h.take hq
  have hobj : t ∈ th.objects := h.mem_objects src t (by rw [hq]; exact List.mem_cons_self)
  obtain ⟨link, hput, hlists⟩ := htake.put ht hobj dst w
  refine ⟨link, ?_, hlists⟩
  rw [Threads.tthCsMove, h.links.head_eq, hq]
  exact hput

/-- `tth_cs_move` from one list to another. -/
theorem Lists.move (h : Lists th q) (hq : q src = t :: rest) (dst : Anchor) (w : WaitState) :
    ∃ link q', th.tthCsMove src (some dst) w = some (th.arrive t w link) ∧
      Lists (th.arrive t w link) q' ∧ Moved q q' t (some dst) ∧ (src ≠ dst → q' src = rest) := by
  obtain ⟨link, hmove, hlists⟩ := h.move_lists hq dst w
  refine ⟨link, _, hmove, hlists, fun a u => ?_, fun hne => ?_⟩
  · rw [mem_put, h.mem_take hq, Option.some.injEq, eq_comm (a := a)]
  · rw [Function.update_of_ne hne, Function.update_self]

/-- `tth_cs_move` to nowhere. -/
theorem Lists.move_off (h : Lists th q) (hq : q src = t :: rest) (w : WaitState) :
    ∃ link q', th.tthCsMove src none w =
        some { th with waitstate := Function.update th.waitstate t w, link := link } ∧
      Lists { th with waitstate := Function.update th.waitstate t w, link := link } q' ∧
        Moved q q' t none := by
  obtain ⟨htake, ht⟩ := h.take hq
  refine ⟨_, Function.update q src rest, ?_, ⟨htake.links.store_follower ht none, htake.ordered,
    htake.stamped, htake.mem_objects⟩, fun a u => ?_⟩
  · rw [Threads.tthCsMove, h.links.head_eq, hq]
    rfl
  · rw [h.mem_take hq]
    simp

/-- A thread that is on no list is put into that of the sleeping threads, wherever. -/
theorem Lists.sleep (h : Lists th q) (ht : ∀ a, t ∉ q a) (hobj : t ∈ th.objects)
    (hstamped : th.arrived t < th.arrivals) (p : Tid → Bool) :
    ∃ slot, seek th.link p th.fuel (.head .sleeping) = some slot ∧
      Lists { th with link := place th.link slot t }
        (Function.update q .sleeping (insertBehind p t (q .sleeping))) := by
  refine ⟨_, (h.links.chain .sleeping).seek p (h.length_lt .sleeping),
    ⟨h.links.place ht p .sleeping, fun a ha => ?_, fun a u hu => ?_, fun a u hu => ?_⟩⟩
  · rw [Function.update_of_ne ha]
    exact h.ordered a ha
  · rcases mem_put.mp hu with ⟨rfl, -⟩ | hu
    · exact hstamped
    · exact h.stamped a u hu
  · rcases mem_put.mp hu with ⟨rfl, -⟩ | hu
    · exact hobj
    · exact h.mem_objects a u hu

end Lists

end OlivePiccolo.Tth
