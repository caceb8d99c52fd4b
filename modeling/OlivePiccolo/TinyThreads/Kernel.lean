import Mathlib.Data.List.Sort
import Mathlib.Logic.Function.Basic

/-!
# The TinyThreads kernel

The state that every TinyThreads call works on, and the two primitives they are made of:
`tth_cs_move` (take the head of one thread list and insert it into another) and `tth_cs_switch`
(run the head of the ready list). A list threaded through `follower` is the list of its threads,
head first; its head pointer is its `Anchor`.
-/

namespace OlivePiccolo.TinyThreads

/-- A thread, named by the address of its `tth_thread`. -/
abbrev Tid := ℕ

/-- A mutex, named by its address. -/
abbrev MutexId := ℕ

/-- A semaphore, named by its address. -/
abbrev SemId := ℕ

/-- The variables that hold the head of a thread list. -/
inductive Anchor
  | ready
  | mutex (m : MutexId)
  | sem (s : SemId)
  deriving DecidableEq, Repr

/-- `TTHREAD_WAIT_*`. -/
inductive WaitState
  | inval
  | ready
  | mutex
  | sem
  deriving DecidableEq, Repr

/-- The variables of the kernel, of its mutexes and of its semaphores. -/
structure Kernel where
  /-- The list that starts at an anchor. -/
  queue : Anchor → List Tid
  /-- `tth_running`. -/
  running : Tid
  /-- `tth_int_level`. -/
  intLevel : ℕ
  /-- `schedpriority`. -/
  schedpriority : Tid → ℕ
  /-- `schedpolicy == SCHED_RR`. -/
  roundRobin : Tid → Bool
  /-- `waitstate`. -/
  waitstate : Tid → WaitState
  /-- `owner` of a mutex, `none` for `NULL`. -/
  owner : MutexId → Option Tid
  /-- `value` of a semaphore. -/
  value : SemId → ℕ

namespace Kernel

/-- Insert a thread behind every thread of the list whose priority is not lower. -/
def insert (k : Kernel) (t : Tid) (l : List Tid) : List Tid :=
  l.orderedInsert (fun a b => k.schedpriority b < k.schedpriority a) t

/-- `tth_cs_move`: take the head of `src`, note its new wait state, and insert it into `dst`. -/
def tthCsMove (k : Kernel) (src dst : Anchor) (waitstate : WaitState) : Kernel :=
  match k.queue src with
  | [] => k
  | target :: rest =>
    let q := Function.update k.queue src rest
    { k with
      waitstate := Function.update k.waitstate target waitstate
      queue := Function.update q dst (k.insert target (q dst)) }

/-- The test of `tth_cs_switch`. -/
def needsSwitch (k : Kernel) : Bool :=
  k.intLevel == 0 && (k.queue .ready).head? != some k.running

/-- `tth_cs_exec_switch`, `tth_int_context_switch`: run the head of the ready list. The idle
thread keeps that list from being empty. -/
def execSwitch (k : Kernel) : Kernel :=
  { k with running := (k.queue .ready).headD k.running }

/-- `tth_cs_switch`. -/
def tthCsSwitch (k : Kernel) : Kernel :=
  if k.needsSwitch then k.execSwitch else k

/-! ## What the primitives change -/

section Move

variable (k : Kernel) (src dst : Anchor) (w : WaitState)

@[simp] theorem tthCsMove_running : (k.tthCsMove src dst w).running = k.running := by
  unfold tthCsMove; split <;> rfl

@[simp] theorem tthCsMove_intLevel : (k.tthCsMove src dst w).intLevel = k.intLevel := by
  unfold tthCsMove; split <;> rfl

@[simp] theorem tthCsMove_owner : (k.tthCsMove src dst w).owner = k.owner := by
  unfold tthCsMove; split <;> rfl

@[simp] theorem tthCsMove_value : (k.tthCsMove src dst w).value = k.value := by
  unfold tthCsMove; split <;> rfl

@[simp] theorem tthCsMove_schedpriority :
    (k.tthCsMove src dst w).schedpriority = k.schedpriority := by
  unfold tthCsMove; split <;> rfl

end Move

@[simp] theorem execSwitch_queue (k : Kernel) : k.execSwitch.queue = k.queue := rfl
@[simp] theorem execSwitch_owner (k : Kernel) : k.execSwitch.owner = k.owner := rfl
@[simp] theorem execSwitch_value (k : Kernel) : k.execSwitch.value = k.value := rfl
@[simp] theorem execSwitch_intLevel (k : Kernel) : k.execSwitch.intLevel = k.intLevel := rfl

theorem mem_insert {k : Kernel} {t u : Tid} {l : List Tid} : u ∈ k.insert t l ↔ u = t ∨ u ∈ l :=
  List.mem_orderedInsert _

theorem insert_nodup {k : Kernel} {t : Tid} {l : List Tid} (hl : l.Nodup) (ht : t ∉ l) :
    (k.insert t l).Nodup :=
  (List.perm_orderedInsert _ t l).nodup_iff.mpr (List.nodup_cons.mpr ⟨ht, hl⟩)

theorem tthCsMove_nil {k : Kernel} {src : Anchor} (dst : Anchor) (w : WaitState)
    (h : k.queue src = []) : k.tthCsMove src dst w = k := by
  unfold tthCsMove; rw [h]

/-- The lists after a move between two different anchors. -/
theorem tthCsMove_queue {k : Kernel} {src dst : Anchor} (w : WaitState) {t : Tid} {rest : List Tid}
    (h : k.queue src = t :: rest) (hne : src ≠ dst) :
    (k.tthCsMove src dst w).queue =
      Function.update (Function.update k.queue src rest) dst (k.insert t (k.queue dst)) := by
  unfold tthCsMove
  rw [h]
  simp only [Function.update_of_ne hne.symm]

/-- The lists after a list's head has been put back into the same list. -/
theorem tthCsMove_queue_self {k : Kernel} {src : Anchor} (w : WaitState) {t : Tid}
    {rest : List Tid} (h : k.queue src = t :: rest) :
    (k.tthCsMove src src w).queue = Function.update k.queue src (k.insert t rest) := by
  unfold tthCsMove
  rw [h]
  simp only [Function.update_self, Function.update_idem]

/-! ## Well-formed lists -/

/-- No list holds a thread twice, and no thread is on two lists. -/
structure Wf (k : Kernel) : Prop where
  nodup : ∀ a, (k.queue a).Nodup
  disjoint : ∀ a b t, t ∈ k.queue a → t ∈ k.queue b → a = b

/-- A move keeps every thread where it is, but for the head of `src`. -/
theorem mem_tthCsMove {k : Kernel} (hk : k.Wf) {src dst : Anchor} (w : WaitState) {t : Tid}
    {rest : List Tid} (h : k.queue src = t :: rest) {a : Anchor} {u : Tid} :
    u ∈ (k.tthCsMove src dst w).queue a ↔ (u = t ∧ a = dst) ∨ (u ≠ t ∧ u ∈ k.queue a) := by
  have hnd : t ∉ rest ∧ rest.Nodup := by simpa [h] using hk.nodup src
  have hsrc : t ∈ k.queue src := by rw [h]; exact List.mem_cons_self
  have hmem : ∀ b, u ∈ Function.update k.queue src rest b ↔ u ≠ t ∧ u ∈ k.queue b := by
    intro b
    by_cases hb : b = src
    · subst hb
      rw [Function.update_self, h, List.mem_cons]
      constructor
      · exact fun hu => ⟨fun e => hnd.1 (e ▸ hu), Or.inr hu⟩
      · exact fun ⟨hne, hu⟩ => hu.resolve_left hne
    · rw [Function.update_of_ne hb]
      exact ⟨fun hu => ⟨fun e => hb (hk.disjoint b src t (e ▸ hu) hsrc), hu⟩, fun hu => hu.2⟩
  unfold tthCsMove
  rw [h]
  by_cases ha : a = dst
  · subst ha
    simp only [Function.update_self, mem_insert, hmem, and_true]
  · simp only [Function.update_of_ne ha, hmem, ha, and_false, false_or]

theorem Wf.tthCsMove {k : Kernel} (hk : k.Wf) (src dst : Anchor) (w : WaitState) :
    (k.tthCsMove src dst w).Wf := by
  rcases h : k.queue src with _ | ⟨t, rest⟩
  · rwa [tthCsMove_nil dst w h]
  refine ⟨fun a => ?_, fun a b u ha hb => ?_⟩
  · have hnd : t ∉ rest ∧ rest.Nodup := by simpa [h] using hk.nodup src
    have hsrc : t ∈ k.queue src := by rw [h]; exact List.mem_cons_self
    by_cases ha : a = dst
    · subst ha
      by_cases hne : src = a
      · subst hne
        rw [tthCsMove_queue_self w h, Function.update_self]
        exact insert_nodup hnd.2 hnd.1
      · rw [tthCsMove_queue w h hne, Function.update_self]
        exact insert_nodup (hk.nodup a) fun hm => hne (hk.disjoint _ _ _ hsrc hm)
    · by_cases has : a = src
      · subst has
        rw [tthCsMove_queue w h ha, Function.update_of_ne ha, Function.update_self]
        exact hnd.2
      · have : (k.tthCsMove src dst w).queue a = k.queue a := by
          unfold Kernel.tthCsMove
          rw [h]
          simp only [Function.update_of_ne ha, Function.update_of_ne has]
        rw [this]
        exact hk.nodup a
  · rw [mem_tthCsMove hk w h] at ha hb
    rcases ha with ⟨rfl, rfl⟩ | ⟨hne, ha⟩
    · rcases hb with ⟨-, rfl⟩ | ⟨hne, -⟩
      · rfl
      · exact absurd rfl hne
    · rcases hb with ⟨rfl, -⟩ | ⟨-, hb⟩
      · exact absurd rfl hne
      · exact hk.disjoint a b u ha hb

/-- `tth_cs_switch` at interrupt level 0 leaves the head of the ready list running. -/
theorem head_tthCsSwitch {k : Kernel} (h0 : k.intLevel = 0) (hne : k.queue .ready ≠ []) :
    (k.tthCsSwitch.queue .ready).head? = some k.tthCsSwitch.running := by
  unfold tthCsSwitch
  by_cases hs : k.needsSwitch
  · rw [if_pos hs]
    obtain ⟨t, rest, h⟩ := List.exists_cons_of_ne_nil hne
    simp [execSwitch, h]
  · rw [if_neg hs]
    simpa [needsSwitch, h0] using hs

end Kernel

end OlivePiccolo.TinyThreads
