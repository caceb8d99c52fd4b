import Mathlib.Algebra.BigOperators.Group.Finset.Basic
import Mathlib.Data.Fintype.BigOperators
import OlivePiccolo.RubicAgent.Queue

/-!
# Every queued request is answered once

A request that `rubic_agent_method_queue` has accepted is in the worker's `context`, then in the
hands of its thread or in `callback_context`, and then answered. The invariant counts: a worker has
answered and still holds exactly the requests that have been stored in it, each one once
(`Agent.Inv`).

Three writes of `worker->context` do not look at what they write over: the one of a `start` request,
which finds a request for that `tid` there if one has come in for an idle worker, and the two that
clear it. A run is `Careful` if none of them writes over a request that has not been answered.
-/

namespace OlivePiccolo.RubicAgent

open Runs

/-! ## What a worker holds -/

namespace Worker

/-- How often the worker has answered a request. -/
def answers (w : Worker) (c : Ctx) : ℕ := w.replies.countP (·.context = some c)

/-- The request in `worker->context`, unless `notify_init` has just answered it. -/
def slot (w : Worker) : List Ctx :=
  match w.pc with
  | .notifyInit _ (.clear (some _)) => []
  | _ => w.context.toList

/-- The request that the thread has taken out of the shared fields. -/
def inHand (w : Worker) : List Ctx :=
  match w.pc with
  | .cooperate (.abort c) | .cooperate (.test c) | .cooperate (.store c)
  | .cooperate (.reply c _) => [c]
  | .replyError | .replyCallback => w.localContext.toList
  | _ => []

/-- The requests that the worker holds and has not answered. -/
def pending (w : Worker) : List Ctx := w.slot ++ w.callbackContext.toList ++ w.inHand

/-- The worker refers to a request: in `context`, `callback_context` or a local of its thread. -/
def Refers (w : Worker) (c : Ctx) : Prop :=
  w.context = some c ∨ w.callbackContext = some c ∨ w.localContext = some c ∨
    w.pc = .cooperate (.abort c) ∨ w.pc = .cooperate (.test c) ∨ w.pc = .cooperate (.store c) ∨
    ∃ errno, w.pc = .cooperate (.reply c errno)

theorem refers_of_mem_pending {w : Worker} {c : Ctx} (h : c ∈ w.pending) : w.Refers c := by
  unfold pending at h
  rcases List.mem_append.mp h with h | h
  · rcases List.mem_append.mp h with h | h
    · unfold slot at h
      split at h
      · cases h
      · exact .inl (Option.mem_toList.mp h)
    · exact .inr (.inl (Option.mem_toList.mp h))
  · unfold inHand at h
    split at h <;> rename_i hpc
    · exact .inr (.inr (.inr (.inl (List.mem_singleton.mp h ▸ hpc))))
    · exact .inr (.inr (.inr (.inr (.inl (List.mem_singleton.mp h ▸ hpc)))))
    · exact .inr (.inr (.inr (.inr (.inr (.inl (List.mem_singleton.mp h ▸ hpc))))))
    · exact .inr (.inr (.inr (.inr (.inr (.inr ⟨_, List.mem_singleton.mp h ▸ hpc⟩)))))
    · exact .inr (.inr (.inl (Option.mem_toList.mp h)))
    · exact .inr (.inr (.inl (Option.mem_toList.mp h)))
    · cases h

/-- What the locals of the thread say about the shared fields. -/
structure Wf (w : Worker) : Prop where
  reply : ∀ ok c, w.pc = .notifyInit ok (.reply (some c)) → w.context = some c
  clear : ∀ ok c, w.pc = .notifyInit ok (.clear (some c)) → w.context = some c
  take : ∀ c, w.pc = .cooperate (.clear c) → w.context = some c
  store : ∀ c, w.pc = .cooperate (.store c) → w.callbackContext = none
  callback : w.pc = .clearCallback → w.localContext = w.callbackContext

/-- The next step of the thread writes over no request that has not been answered. -/
def careful (w : Worker) : Bool :=
  match w.pc with
  | .notifyInit _ (.clear context) => w.context = context
  | .clearContext => w.context = w.localContext
  | _ => true

/-- What a step of the thread keeps. -/
structure Keeps (w w' : Worker) : Prop where
  wf : w'.Wf
  conserved : ∀ c, w'.answers c + w'.pending.count c = w.answers c + w.pending.count c
  empty : w.context = none → w'.context = none
  owner : ∀ c, w.owner = some (.call c) → w'.owner = some (.call c)

end Worker

/-- At these points the thread has nothing in hand, and its locals say nothing. -/
def Pc.plain : Pc → Bool
  | .notifyInit _ (.reply _) | .notifyInit _ (.clear _) => false
  | .cooperate .read => true
  | .cooperate _ | .replyError | .clearCallback | .replyCallback => false
  | _ => true

namespace Worker

section

variable {w w' : Worker} {p : Party} {c : Ctx}

theorem Wf.of_plain (h : w.pc.plain = true) : w.Wf where
  reply ok c hpc := by rw [hpc] at h; cases h
  clear ok c hpc := by rw [hpc] at h; cases h
  take c hpc := by rw [hpc] at h; cases h
  store c hpc := by rw [hpc] at h; cases h
  callback hpc := by rw [hpc] at h; cases h

theorem pending_of_plain (h : w.pc.plain = true) :
    w.pending = w.context.toList ++ w.callbackContext.toList := by
  unfold pending slot inHand
  rcases hpc : w.pc with _ | _ | _ | _ | _ | _ | _ | _ | _ | _ | _ | _ | _ | _ | _ | ⟨_, _ | _ | _ | _⟩ |
    ⟨_ | _ | _ | _ | _ | _⟩ | _ | _ | _ | _ | _ | _ | _ <;> rw [hpc] at h <;>
    first | exact List.append_nil _ | cases h

theorem lock_eq (h : w.lock p = some w') :
    w' = { w with owner := some p } ∧ (w.owner = none ∨ w.owner = some p) := by
  rw [lock, Option.ite_none_right_eq_some] at h
  exact ⟨(Option.some.inj h.2).symm, h.1⟩

/-- The thread takes no mutex away from a call. -/
theorem lock_thread_owner (h : w.lock .thread = some w') (hc : w.owner = some (.call c)) :
    w'.owner = some (.call c) := by
  obtain ⟨-, ho | ho⟩ := lock_eq h <;> rw [ho] at hc <;> cases hc

theorem unlock_thread_owner (hc : w.owner = some (.call c)) :
    (w.unlock .thread).owner = some (.call c) := by
  rw [unlock, if_neg (by rw [hc]; simp)]
  exact hc

/-- A step that changes none of the requests. -/
theorem Keeps.of_plain (hp : w.pc.plain = true) (hp' : w'.pc.plain = true)
    (hcontext : w'.context = w.context) (hcallback : w'.callbackContext = w.callbackContext)
    (hreplies : w'.replies = w.replies)
    (howner : ∀ c, w.owner = some (.call c) → w'.owner = some (.call c)) : Keeps w w' where
  wf := .of_plain hp'
  conserved c := by
    rw [pending_of_plain hp, pending_of_plain hp', hcontext, hcallback, answers, hreplies, answers]
  empty h := hcontext.trans h
  owner := howner

theorem unlock_fields (w : Worker) (p : Party) : (w.unlock p).context = w.context ∧
    (w.unlock p).callbackContext = w.callbackContext ∧ (w.unlock p).replies = w.replies := by
  unfold unlock
  split <;> exact ⟨rfl, rfl, rfl⟩

theorem Keeps.of_lock {pc : Pc} (hp : w.pc.plain = true) (hp' : pc.plain = true)
    (h : (w.lock .thread).map (·.goto pc) = some w') : Keeps w w' := by
  obtain ⟨w1, hlock, rfl⟩ := Option.map_eq_some_iff.mp h
  have howner := fun c => lock_thread_owner (c := c) hlock
  obtain ⟨rfl, -⟩ := lock_eq hlock
  exact .of_plain hp hp' rfl rfl rfl howner

theorem Keeps.of_unlock {pc : Pc} {job : Job} (hp : w.pc.plain = true) (hp' : pc.plain = true) :
    Keeps w ({ w.unlock .thread with job := job }.goto pc) := by
  obtain ⟨hcontext, hcallback, hreplies⟩ := w.unlock_fields .thread
  exact .of_plain hp hp' hcontext hcallback hreplies fun _ => unlock_thread_owner

/-- A reply answers its request. -/
theorem answers_callback (w : Worker) (context : Option Ctx) (output : Output) (errno : ℤ)
    (c : Ctx) : (w.callback context output errno).answers c =
      w.answers c + context.toList.count c := by
  unfold answers callback
  rw [List.countP_append, List.countP_singleton]
  cases context with
  | none => simp
  | some c' =>
    by_cases hc : c' = c
    · simp [hc]
    · simp [hc]

/-- The steps of `rubic_agent_runner_notify_init`. -/
theorem notifyInitStep_keeps {ok : Bool} {pc : NotifyPc} (hw : w.Wf) (hcare : w.careful = true)
    (hpc : w.pc = .notifyInit ok pc) : Keeps w (w.notifyInitStep ok pc) := by
  cases pc with
  | read =>
    refine ⟨⟨fun _ _ h => ?_, nofun, nofun, nofun, nofun⟩, fun c => ?_, id, fun _ h => h⟩
    · exact NotifyPc.reply.inj (Pc.notifyInit.inj h).2
    · simp only [notifyInitStep, goto, answers, pending, slot, inHand, hpc]
  | reply context =>
    have hread : ∀ c, context = some c → w.context = some c := fun c h => hw.reply ok c (h ▸ hpc)
    refine ⟨⟨nofun, fun _ c h => ?_, nofun, nofun, nofun⟩, fun c => ?_, id, fun _ h => h⟩
    · cases h
      exact hread c rfl
    · have hanswers : (w.notifyInitStep ok (.reply context)).answers c =
          w.answers c + context.toList.count c := answers_callback _ _ _ _ _
      rw [hanswers]
      cases context with
      | none => simp only [notifyInitStep, goto, callback, pending, slot, inHand, hpc,
          List.count_append, Option.toList_none, List.count_nil, add_zero]
      | some c' =>
        simp only [notifyInitStep, goto, callback, pending, slot, inHand, hpc, hread c' rfl,
          List.count_append, List.count_nil]
        omega
  | clear context =>
    have hcontext : w.context = context := by
      rw [careful, hpc] at hcare
      exact of_decide_eq_true hcare
    refine ⟨.of_plain rfl, fun c => ?_, fun _ => rfl, fun _ h => h⟩
    -- what is cleared has been answered, or there is nothing there
    cases context <;> simp only [notifyInitStep, goto, answers, pending, slot, inHand, hpc, hcontext,
      Option.toList_none]
  | setState =>
    exact .of_plain (by rw [hpc]; rfl) rfl rfl rfl rfl fun _ h => h

/-- The steps of `rubic_agent_runner_cooperate`. -/
theorem cooperateStep_keeps {cfg : Config} {pc : CooperatePc} (hw : w.Wf)
    (hpc : w.pc = .cooperate pc) : Keeps w (w.cooperateStep cfg pc) := by
  cases pc with
  | read =>
    have hp : w.pc.plain = true := by rw [hpc]; rfl
    rw [cooperateStep]
    split
    · exact .of_plain hp rfl rfl rfl rfl fun _ h => h
    · rename_i c hcontext
      refine ⟨⟨nofun, nofun, fun _ h => ?_, nofun, nofun⟩, fun c => ?_, id, fun _ h => h⟩
      · cases h
        exact hcontext
      · simp only [goto, answers, pending, slot, inHand, hpc]
  | clear c =>
    have hcontext := hw.take c hpc
    rw [cooperateStep, cooperateNext]
    -- the request goes from the slot into the hands of the thread, whatever its name
    split_ifs <;>
    · refine ⟨⟨nofun, nofun, nofun, nofun, nofun⟩, fun c' => ?_, fun _ => rfl, fun _ h => h⟩
      simp only [goto, answers, pending, slot, inHand, hpc, hcontext, List.count_append,
        Option.toList_some, Option.toList_none, List.count_nil]
      omega
  | abort c =>
    refine ⟨⟨nofun, nofun, nofun, nofun, nofun⟩, fun c => ?_, id, fun _ h => h⟩
    simp only [cooperateStep, goto, answers, pending, slot, inHand, hpc]
  | test c =>
    rw [cooperateStep]
    split_ifs with hempty
    · refine ⟨⟨nofun, nofun, nofun, fun _ _ => hempty, nofun⟩, fun c => ?_, id, fun _ h => h⟩
      simp only [goto, answers, pending, slot, inHand, hpc]
    · refine ⟨⟨nofun, nofun, nofun, nofun, nofun⟩, fun c => ?_, id, fun _ h => h⟩
      simp only [goto, answers, pending, slot, inHand, hpc]
  | store c =>
    refine ⟨.of_plain rfl, fun c => ?_, id, fun _ h => h⟩
    simp only [cooperateStep, goto, answers, pending, slot, inHand, hpc, hw.store _ hpc,
      List.count_append, Option.toList_some, Option.toList_none, List.count_nil, add_zero]
  | reply c errno =>
    have hanswers (c' : Ctx) : (w.cooperateStep cfg (.reply c errno)).answers c' =
        w.answers c' + [c].count c' := answers_callback _ _ _ _ _
    refine ⟨.of_plain rfl, fun c' => ?_, id, fun _ h => h⟩
    rw [hanswers]
    simp only [cooperateStep, goto, callback, pending, slot, inHand, hpc, List.count_append,
      List.count_nil]
    omega

/-- **One step of a worker's thread**, by its place in `worker_thread`. -/
theorem threadStep_keeps {cfg : Config} {input : Input} (hw : w.Wf) (hcare : w.careful = true)
    (h : w.threadStep cfg input = some w') : Keeps w w' := by
  have hself : ∀ c, w.owner = some (.call c) → w.owner = some (.call c) := fun _ h => h
  unfold threadStep at h
  split at h <;> rename_i hpc
  · -- the store of `rubic_agent_service`
    cases h
    exact .of_plain (by rw [hpc]; rfl) rfl rfl rfl rfl hself
  · -- the first lock
    exact .of_lock (by rw [hpc]; rfl) rfl h
  · -- the test for autoboot
    split_ifs at h
    split at h <;> cases h <;> exact .of_plain (by rw [hpc]; rfl) rfl rfl rfl rfl hself
  · split_ifs at h
    cases h
    exact .of_plain (by rw [hpc]; rfl) rfl rfl rfl rfl hself
  · cases h
    exact .of_plain (by rw [hpc]; rfl) rfl rfl rfl rfl hself
  · cases h
    exact .of_plain (by rw [hpc]; rfl) rfl rfl rfl rfl hself
  · cases h
    exact .of_unlock (by rw [hpc]; rfl) rfl
  · -- idle, up to the next request
    cases h
    exact .of_plain (by rw [hpc]; rfl) rfl rfl rfl rfl hself
  · cases h
    exact .of_unlock (by rw [hpc]; rfl) rfl
  · obtain ⟨w1, hwait, rfl⟩ := Option.map_eq_some_iff.mp h
    rw [semWait, Option.ite_none_right_eq_some] at hwait
    cases hwait.2
    exact .of_plain (by rw [hpc]; rfl) rfl rfl rfl rfl hself
  · exact .of_lock (by rw [hpc]; rfl) rfl h
  · cases h
    refine .of_plain (by rw [hpc]; rfl) ?_ rfl rfl rfl hself
    show Pc.plain (if _ then _ else _) = true
    split_ifs <;> rfl
  · cases h
    exact .of_plain (by rw [hpc]; rfl) rfl rfl rfl rfl hself
  · split at h <;> cases h <;> exact .of_unlock (by rw [hpc]; rfl) rfl
  · -- the runner
    split_ifs at h <;> cases h <;> exact .of_plain (by rw [hpc]; rfl) rfl rfl rfl rfl hself
  · cases h
    exact .of_plain (by rw [hpc]; rfl) rfl rfl rfl rfl hself
  · cases h
    exact .of_plain (by rw [hpc]; rfl) rfl rfl rfl rfl hself
  · cases h
    exact .of_plain (by rw [hpc]; rfl) rfl rfl rfl rfl hself
  · cases h
    exact notifyInitStep_keeps hw hcare hpc
  · cases h
    exact cooperateStep_keeps hw hpc
  · -- the end of the runner
    exact .of_lock (by rw [hpc]; rfl) rfl h
  · cases h
    refine .of_plain (by rw [hpc]; rfl) ?_ rfl rfl rfl hself
    show Pc.plain (if _ then _ else _) = true
    split_ifs <;> rfl
  · -- the request that is answered goes from the slot into the hands of the thread
    have hcontext : w.context = w.localContext := by
      rw [careful, hpc] at hcare
      exact of_decide_eq_true hcare
    cases h
    split_ifs with hnone
    · rw [hnone] at hcontext
      exact .of_plain (by rw [hpc]; rfl) rfl hcontext.symm rfl rfl hself
    · refine ⟨⟨nofun, nofun, nofun, nofun, nofun⟩, fun c => ?_, fun _ => rfl, hself⟩
      simp only [goto, answers, pending, slot, inHand, hpc, hcontext, List.count_append,
        Option.toList_none, List.count_nil]
      omega
  · have hanswers (c : Ctx) := answers_callback w w.localContext .null w.result c
    cases h
    refine ⟨.of_plain rfl, fun c => ?_, id, hself⟩
    show (w.callback _ _ _).answers c + _ = _
    rw [hanswers]
    simp only [goto, callback, pending, slot, inHand, hpc, List.count_append, List.count_nil]
    omega
  · -- the callback request
    cases h
    split_ifs with hnone
    · exact .of_plain (by rw [hpc]; rfl) rfl rfl rfl rfl hself
    · refine ⟨⟨nofun, nofun, nofun, nofun, fun _ => rfl⟩, fun c => ?_, id, hself⟩
      simp only [goto, answers, pending, slot, inHand, hpc]
  · have hcallback := hw.callback hpc
    cases h
    refine ⟨⟨nofun, nofun, nofun, nofun, nofun⟩, fun c => ?_, id, hself⟩
    simp only [goto, answers, pending, slot, inHand, hpc, hcallback, List.count_append,
      Option.toList_none, List.count_nil]
    omega
  · rename_i ok
    have hanswers (c : Ctx) := answers_callback w w.localContext
      (if ok then .result w.result else .null) (if ok then 0 else -ENOMEM) c
    cases h
    refine ⟨.of_plain rfl, fun c => ?_, id, hself⟩
    show (w.callback _ _ _).answers c + _ = _
    rw [hanswers]
    simp only [goto, callback, pending, slot, inHand, hpc, List.count_append, List.count_nil]
    omega
  · cases h

end

end Worker

/-! ## What a call does -/

namespace CallPc

variable {n : ℕ}

/-- The request has been stored in the worker. -/
def stored (i : Fin n) : CallPc n → Bool
  | .unlock j | .post j | .queued j => j = i
  | _ => false

/-- The call owns the mutex of the worker. -/
def critical (i : Fin n) : CallPc n → Bool
  | .tidTest j | .tidBusy j | .tidStore j | .startTest j | .startSkip j | .startState j
  | .startStore j | .unlock j => j = i
  | _ => false

theorem stored_unique {i j : Fin n} {pc : CallPc n} (hi : pc.stored i = true)
    (hj : pc.stored j = true) : j = i := by
  cases pc <;> first | cases hi | exact (of_decide_eq_true hj).symm.trans (of_decide_eq_true hi)

theorem stored_startNext (i : Fin n) (k : ℕ) : (startNext n k).stored i = false := by
  unfold startNext
  split <;> rfl

theorem critical_startNext (i : Fin n) (k : ℕ) : (startNext n k).critical i = false := by
  unfold startNext
  split <;> rfl

theorem startNext_ne_tidStore (i : Fin n) (k : ℕ) : startNext n k ≠ .tidStore i := by
  unfold startNext
  split <;> simp

end CallPc

/-- Two workers with the same requests and the thread at the same place. -/
structure Quiet (w w' : Worker) : Prop where
  context : w'.context = w.context
  callbackContext : w'.callbackContext = w.callbackContext
  pc : w'.pc = w.pc
  localContext : w'.localContext = w.localContext
  replies : w'.replies = w.replies

section Calls

variable {n : ℕ} {c : Ctx} {i : Fin n} {pc pc' : CallPc n} {w w' : Worker}

theorem Quiet.wf (h : Quiet w w') (hw : w.Wf) : w'.Wf := by
  obtain ⟨h1, h2, h3, h4, -⟩ := h
  constructor <;> simp only [h1, h2, h3, h4]
  exacts [hw.reply, hw.clear, hw.take, hw.store, hw.callback]

theorem Quiet.answers (h : Quiet w w') (c : Ctx) : w'.answers c = w.answers c := by
  rw [Worker.answers, h.replies, Worker.answers]

theorem Quiet.pending (h : Quiet w w') : w'.pending = w.pending := by
  unfold Worker.pending Worker.slot Worker.inHand
  rw [h.pc, h.context, h.callbackContext, h.localContext]

theorem Quiet.of_unlock (w : Worker) (p : Party) : Quiet w (w.unlock p) := by
  unfold Worker.unlock
  split <;> exact ⟨rfl, rfl, rfl, rfl, rfl⟩

theorem Quiet.of_lock {p : Party} (h : w.lock p = some w') : Quiet w w' := by
  obtain ⟨rfl, -⟩ := Worker.lock_eq h
  exact ⟨rfl, rfl, rfl, rfl, rfl⟩

theorem Quiet.of_semPost (w : Worker) : Quiet w w.semPost := by
  unfold Worker.semPost
  split <;> exact ⟨rfl, rfl, rfl, rfl, rfl⟩

/-- A step of a call stores its request, or leaves the requests of the worker alone. -/
theorem callStep_effect (htarget : pc.target = some i) (h : callStep c pc w = some (pc', w')) :
    (Quiet w w' ∧ (∀ j, pc'.stored j = pc.stored j) ∧
      ∀ j, pc' = .tidStore j → j = i ∧ w.context = none) ∨
    ((pc = .tidStore i ∨ pc = .startStore i) ∧ pc' = .unlock i ∧
      w' = { w with context := some c }) := by
  have hsame : Quiet w w := ⟨rfl, rfl, rfl, rfl, rfl⟩
  cases pc with
  | enter | queued | failed => cases htarget
  | tidLock j | startLock j =>
    obtain ⟨w1, hlock, heq⟩ := Option.map_eq_some_iff.mp h
    cases heq
    exact .inl ⟨.of_lock hlock, fun _ => rfl, nofun⟩
  | tidTest j =>
    cases htarget
    cases h
    refine .inl ⟨hsame, fun _ => ?_, fun k hk => ?_⟩
    · split_ifs <;> rfl
    · split_ifs at hk with hnone
      cases hk
      exact ⟨rfl, hnone⟩
  | startTest j =>
    cases h
    refine .inl ⟨hsame, fun _ => ?_, fun k hk => ?_⟩
    · split_ifs <;> rfl
    · split_ifs at hk
  | tidBusy j =>
    cases h
    exact .inl ⟨.of_unlock _ _, fun _ => rfl, nofun⟩
  | startSkip j =>
    cases h
    exact .inl ⟨.of_unlock _ _, fun k => CallPc.stored_startNext k _,
      fun k hk => absurd hk (CallPc.startNext_ne_tidStore k _)⟩
  | startState j =>
    cases h
    exact .inl ⟨⟨rfl, rfl, rfl, rfl, rfl⟩, fun _ => rfl, nofun⟩
  | tidStore j =>
    cases htarget
    cases h
    exact .inr ⟨.inl rfl, rfl, rfl⟩
  | startStore j =>
    cases htarget
    cases h
    exact .inr ⟨.inr rfl, rfl, rfl⟩
  | unlock j =>
    cases h
    exact .inl ⟨.of_unlock _ _, fun _ => rfl, nofun⟩
  | post j =>
    cases h
    exact .inl ⟨.of_semPost _, fun _ => rfl, nofun⟩

/-- A step of a call takes no mutex away from another one, and owns the mutex where it should. -/
theorem callStep_owner (htarget : pc.target = some i)
    (hown : pc.critical i = true → w.owner = some (.call c))
    (h : callStep c pc w = some (pc', w')) :
    (∀ c', c' ≠ c → w.owner = some (.call c') → w'.owner = some (.call c')) ∧
      ∀ j, pc'.critical j = true → j = i ∧ w'.owner = some (.call c) := by
  have hsame : ∀ c', c' ≠ c → w.owner = some (.call c') → w.owner = some (.call c') :=
    fun _ _ h => h
  have hunlock : ∀ c', c' ≠ c → w.owner = some (.call c') →
      (w.unlock (.call c)).owner = some (.call c') := by
    intro c' hne ho
    rw [Worker.unlock, if_neg (by rw [ho]; simpa using hne)]
    exact ho
  cases pc with
  | enter | queued | failed => cases htarget
  | tidLock j | startLock j =>
    cases htarget
    obtain ⟨w1, hlock, heq⟩ := Option.map_eq_some_iff.mp h
    cases heq
    obtain ⟨rfl, ho⟩ := Worker.lock_eq hlock
    refine ⟨fun c' hne ho' => ?_, fun k hk => ⟨(of_decide_eq_true hk).symm, rfl⟩⟩
    rcases ho with ho | ho <;> rw [ho] at ho' <;> cases ho'
    exact absurd rfl hne
  | tidTest j | startTest j =>
    cases htarget
    cases h
    refine ⟨hsame, fun k hk => ⟨?_, hown (decide_eq_true rfl)⟩⟩
    split_ifs at hk <;> exact (of_decide_eq_true hk).symm
  | startState j | tidStore j | startStore j =>
    cases htarget
    cases h
    exact ⟨hsame, fun k hk => ⟨(of_decide_eq_true hk).symm, hown (decide_eq_true rfl)⟩⟩
  | tidBusy j | unlock j =>
    cases h
    exact ⟨hunlock, nofun⟩
  | startSkip j =>
    cases h
    refine ⟨hunlock, fun k hk => ?_⟩
    rw [CallPc.critical_startNext] at hk
    cases hk
  | post j =>
    cases h
    refine ⟨fun c' _ ho => ?_, nofun⟩
    unfold Worker.semPost
    split <;> exact ho

/-- A request that is stored in an empty slot. -/
theorem store_keeps (c : Ctx) (hw : w.Wf) (hempty : w.context = none) :
    Worker.Wf { w with context := some c } ∧ ∀ c', Worker.answers { w with context := some c } c' +
      (Worker.pending { w with context := some c }).count c' =
        w.answers c' + w.pending.count c' + [c].count c' := by
  have hreply : ∀ ok c', w.pc ≠ .notifyInit ok (.reply (some c')) := fun ok c' hpc => by
    have := hw.reply ok c' hpc
    rw [hempty] at this
    cases this
  have hclear : ∀ ok c', w.pc ≠ .notifyInit ok (.clear (some c')) := fun ok c' hpc => by
    have := hw.clear ok c' hpc
    rw [hempty] at this
    cases this
  have htake : ∀ c', w.pc ≠ .cooperate (.clear c') := fun c' hpc => by
    have := hw.take c' hpc
    rw [hempty] at this
    cases this
  refine ⟨⟨fun ok c' h => absurd h (hreply ok c'), fun ok c' h => absurd h (hclear ok c'),
    fun c' h => absurd h (htake c'), hw.store, hw.callback⟩, fun c' => ?_⟩
  have hslot : w.slot = [] := by
    unfold Worker.slot
    split
    · rfl
    · rw [hempty]
      rfl
  have hslot' : Worker.slot { w with context := some c } = [c] := by
    unfold Worker.slot
    split
    · rename_i ok c' hpc
      exact absurd hpc (hclear ok c')
    · rfl
  unfold Worker.pending
  rw [hslot, hslot']
  simp only [Worker.answers, Worker.inHand, List.count_append, List.count_nil]
  omega

end Calls

/-! ## The invariant -/

namespace Agent

variable {n : ℕ} {cfg : Config} {s s' : Agent n} {e : Event n}

/-- A worker has answered and still holds exactly the requests that have been stored in it, each
one once. -/
structure Inv (s : Agent n) : Prop where
  wf : ∀ i, (s.workers i).Wf
  conserved : ∀ i c, (s.workers i).answers c + (s.workers i).pending.count c =
    if (s.calls c).stored i then 1 else 0
  locked : ∀ c i, (s.calls c).critical i = true → (s.workers i).owner = some (.call c)
  tested : ∀ c i, s.calls c = .tidStore i → (s.workers i).context = none

/-- No step writes over a request that has not been answered: `worker->context` is `NULL` where a
`start` request is stored, and where it is cleared it is what the thread answers there. -/
def Careful (s : Agent n) : Event n → Prop
  | .thread i _ => (s.workers i).careful = true
  | .call c => ∀ i, s.calls c = .startStore i → (s.workers i).context = none

instance (s : Agent n) : ∀ e, Decidable (s.Careful e)
  | .thread i _ => inferInstanceAs (Decidable ((s.workers i).careful = true))
  | .call c =>
    inferInstanceAs (Decidable (∀ i, s.calls c = .startStore i → (s.workers i).context = none))

theorem inv_initial (n : ℕ) (autoboot : Bool) : (initial n autoboot).Inv := by
  have hplain (i : Fin n) : ((initial n autoboot).workers i).pc.plain = true := by
    rcases initial_pc autoboot i with hpc | hpc <;> rw [hpc] <;> rfl
  refine ⟨fun i => .of_plain (hplain i), fun i c => ?_, nofun, nofun⟩
  rw [Worker.pending_of_plain (hplain i)]
  rfl

/-- A step of a worker's thread keeps the invariant. -/
theorem Inv.thread {i : Fin n} {input : Input} (h : s.Inv) (hcare : (s.workers i).careful = true)
    (hstep : s.step cfg (.thread i input) = some s') : s'.Inv := by
  obtain ⟨w, hw, rfl⟩ := Option.map_eq_some_iff.mp hstep
  have hkeeps := Worker.threadStep_keeps (h.wf i) hcare hw
  constructor
  case wf =>
    intro j
    rcases eq_or_ne j i with rfl | hne
    · rw [setWorker_self]
      exact hkeeps.wf
    · rw [setWorker_of_ne s hne]
      exact h.wf j
  case conserved =>
    intro j c
    rw [setWorker_calls, ← h.conserved]
    rcases eq_or_ne j i with rfl | hne
    · rw [setWorker_self]
      exact hkeeps.conserved c
    · rw [setWorker_of_ne s hne]
  case locked =>
    intro c j hc
    rcases eq_or_ne j i with rfl | hne
    · rw [setWorker_self]
      exact hkeeps.owner c (h.locked c j hc)
    · rw [setWorker_of_ne s hne]
      exact h.locked c j hc
  case tested =>
    intro c j hc
    rcases eq_or_ne j i with rfl | hne
    · rw [setWorker_self]
      exact hkeeps.empty (h.tested c j hc)
    · rw [setWorker_of_ne s hne]
      exact h.tested c j hc

/-- The first step of a call only looks at its parameters. -/
theorem Inv.enter {c : Ctx} {p : Params} (h : s.Inv) (hc : s.calls c = .enter) :
    (s.setCall c (enterQueue n p)).Inv := by
  have hnext : (∀ j, (enterQueue n p).stored j = false) ∧
      (∀ j, (enterQueue n p).critical j = false) ∧ ∀ j, enterQueue n p ≠ .tidStore j := by
    unfold enterQueue
    split_ifs
    · exact ⟨fun _ => rfl, fun _ => rfl, nofun⟩
    · exact ⟨fun j => CallPc.stored_startNext j 0, fun j => CallPc.critical_startNext j 0,
        fun j => CallPc.startNext_ne_tidStore j 0⟩
    · exact ⟨fun _ => rfl, fun _ => rfl, nofun⟩
  constructor
  case wf => exact h.wf
  case conserved =>
    intro j c'
    rw [setCall_workers, h.conserved]
    rcases eq_or_ne c' c with rfl | hne
    · rw [setCall_self, hnext.1, hc]
      rfl
    · rw [setCall_of_ne s hne]
  case locked =>
    intro c' j hc'
    rcases eq_or_ne c' c with rfl | hne
    · rw [setCall_self, hnext.2.1] at hc'
      cases hc'
    · rw [setCall_of_ne s hne] at hc'
      exact h.locked c' j hc'
  case tested =>
    intro c' j hc'
    rcases eq_or_ne c' c with rfl | hne
    · rw [setCall_self] at hc'
      exact absurd hc' (hnext.2.2 j)
    · rw [setCall_of_ne s hne] at hc'
      exact h.tested c' j hc'

/-- A step of a call at a worker whose requests it leaves alone. -/
theorem Inv.call_quiet {c : Ctx} {i : Fin n} {pc : CallPc n} {w : Worker} (h : s.Inv)
    (hquiet : Quiet (s.workers i) w) (hstored : ∀ j, pc.stored j = (s.calls c).stored j)
    (htest : ∀ j, pc = .tidStore j → j = i ∧ (s.workers i).context = none)
    (hothers : ∀ c', c' ≠ c → (s.workers i).owner = some (.call c') → w.owner = some (.call c'))
    (hown : ∀ j, pc.critical j = true → j = i ∧ w.owner = some (.call c)) :
    ((s.setCall c pc).setWorker i w).Inv := by
  constructor
  case wf =>
    intro j
    rcases eq_or_ne j i with rfl | hne
    · rw [setWorker_self]
      exact hquiet.wf (h.wf j)
    · rw [setWorker_of_ne _ hne]
      exact h.wf j
  case conserved =>
    intro j c'
    have hcall : ((s.setCall c pc).calls c').stored j = (s.calls c').stored j := by
      rcases eq_or_ne c' c with rfl | hc
      · rw [setCall_self, hstored]
      · rw [setCall_of_ne s hc]
    rw [setWorker_calls, hcall, ← h.conserved]
    rcases eq_or_ne j i with rfl | hne
    · rw [setWorker_self, hquiet.answers, hquiet.pending]
    · rw [setWorker_of_ne _ hne, setCall_workers]
  case locked =>
    intro c' j hc'
    rw [setWorker_calls] at hc'
    rcases eq_or_ne c' c with rfl | hc
    · rw [setCall_self] at hc'
      obtain ⟨rfl, ho⟩ := hown j hc'
      rwa [setWorker_self]
    · rw [setCall_of_ne s hc] at hc'
      rcases eq_or_ne j i with rfl | hne
      · rw [setWorker_self]
        exact hothers c' hc (h.locked c' j hc')
      · rw [setWorker_of_ne _ hne]
        exact h.locked c' j hc'
  case tested =>
    intro c' j hc'
    rw [setWorker_calls] at hc'
    rcases eq_or_ne c' c with rfl | hc
    · rw [setCall_self] at hc'
      obtain ⟨rfl, hnone⟩ := htest j hc'
      rw [setWorker_self, hquiet.context, hnone]
    · rw [setCall_of_ne s hc] at hc'
      rcases eq_or_ne j i with rfl | hne
      · rw [setWorker_self, hquiet.context]
        exact h.tested c' j hc'
      · rw [setWorker_of_ne _ hne]
        exact h.tested c' j hc'

/-- A call stores its request in an empty slot, while it owns the mutex. -/
theorem Inv.call_store {c : Ctx} {i : Fin n} (h : s.Inv)
    (hpc : s.calls c = .tidStore i ∨ s.calls c = .startStore i)
    (hempty : (s.workers i).context = none) :
    ((s.setCall c (.unlock i)).setWorker i { s.workers i with context := some c }).Inv := by
  obtain ⟨hwf, hcount⟩ := store_keeps c (h.wf i) hempty
  have hnot (j : Fin n) : (s.calls c).stored j = false := by
    rcases hpc with hpc | hpc <;> rw [hpc] <;> rfl
  have hlocked : (s.workers i).owner = some (.call c) := h.locked c i (by
    rcases hpc with hpc | hpc <;> rw [hpc] <;> exact decide_eq_true rfl)
  constructor
  case wf =>
    intro j
    rcases eq_or_ne j i with rfl | hne
    · rw [setWorker_self]
      exact hwf
    · rw [setWorker_of_ne _ hne]
      exact h.wf j
  case conserved =>
    intro j c'
    have hold := h.conserved j c'
    rw [setWorker_calls]
    rcases eq_or_ne c' c with rfl | hc
    · rw [hnot] at hold
      rw [setCall_self]
      rcases eq_or_ne j i with rfl | hne
      · rw [setWorker_self, hcount, hold]
        simp [CallPc.stored]
      · rw [setWorker_of_ne _ hne, setCall_workers, hold]
        simp [CallPc.stored, hne.symm]
    · rw [setCall_of_ne s hc, ← hold]
      rcases eq_or_ne j i with rfl | hne
      · rw [setWorker_self, hcount, List.count_singleton, beq_eq_false_iff_ne.mpr hc.symm]
        rfl
      · rw [setWorker_of_ne _ hne, setCall_workers]
  case locked =>
    intro c' j hc'
    have hj : (s.workers j).owner = some (.call c') := by
      rw [setWorker_calls] at hc'
      rcases eq_or_ne c' c with rfl | hc
      · rw [setCall_self] at hc'
        rw [← of_decide_eq_true hc']
        exact hlocked
      · rw [setCall_of_ne s hc] at hc'
        exact h.locked c' j hc'
    rcases eq_or_ne j i with rfl | hne
    · rw [setWorker_self]
      exact hj
    · rw [setWorker_of_ne _ hne]
      exact hj
  case tested =>
    intro c' j hc'
    rw [setWorker_calls] at hc'
    rcases eq_or_ne c' c with rfl | hc
    · rw [setCall_self] at hc'
      cases hc'
    · rw [setCall_of_ne s hc] at hc'
      rcases eq_or_ne j i with rfl | hne
      · -- both calls would own the mutex
        have ho := h.locked c' j (by rw [hc']; exact decide_eq_true rfl)
        rw [hlocked] at ho
        cases ho
        exact absurd rfl hc
      · rw [setWorker_of_ne _ hne]
        exact h.tested c' j hc'

/-- A step of a call keeps the invariant. -/
theorem Inv.call {c : Ctx} (h : s.Inv)
    (hcare : ∀ i, s.calls c = .startStore i → (s.workers i).context = none)
    (hstep : s.step cfg (.call c) = some s') : s'.Inv := by
  rw [step] at hstep
  split at hstep
  · rw [Option.ite_none_right_eq_some] at hstep
    cases hstep.2
    exact h.enter hstep.1
  · rename_i i htarget
    obtain ⟨⟨pc, w⟩, hcall, rfl⟩ := Option.map_eq_some_iff.mp hstep
    obtain ⟨hothers, hown⟩ := callStep_owner htarget (h.locked c i) hcall
    obtain ⟨hquiet, hstored, htest⟩ | ⟨hpc, rfl, rfl⟩ := callStep_effect htarget hcall
    · exact h.call_quiet hquiet hstored htest hothers hown
    · exact h.call_store hpc (hpc.elim (h.tested c i) (hcare i))

/-! ## Answers -/

/-- How often a request has been answered. -/
def answers (s : Agent n) (c : Ctx) : ℕ := ∑ i, (s.workers i).answers c

/-- No request is answered twice, and each one that has been queued has been answered once, or its
worker still refers to it. -/
def Delivers (s : Agent n) : Prop :=
  (∀ c, s.answers c ≤ 1) ∧
    ∀ c i, s.calls c = .queued i → s.answers c = 1 ∨ s.answers c = 0 ∧ (s.workers i).Refers c

/-- Only the worker in which a request has been stored answers it. -/
theorem Inv.answers_eq {c : Ctx} {i : Fin n} (h : s.Inv) (hi : (s.calls c).stored i = true) :
    s.answers c = (s.workers i).answers c := by
  apply Finset.sum_eq_single i
  · intro j _ hne
    have hj := h.conserved j c
    rw [if_neg fun hj => hne (CallPc.stored_unique hi hj)] at hj
    omega
  · exact fun hnot => absurd (Finset.mem_univ i) hnot

theorem Inv.delivers (h : s.Inv) : s.Delivers := by
  refine ⟨fun c => ?_, fun c i hc => ?_⟩
  · by_cases hstored : ∃ i, (s.calls c).stored i = true
    · obtain ⟨i, hi⟩ := hstored
      have hcount := h.conserved i c
      rw [if_pos hi] at hcount
      rw [h.answers_eq hi]
      omega
    · have hzero : s.answers c = 0 := by
        apply Finset.sum_eq_zero
        intro i _
        have hcount := h.conserved i c
        rw [if_neg fun hi => hstored ⟨i, hi⟩] at hcount
        omega
      omega
  · have hi : (s.calls c).stored i = true := by rw [hc]; exact decide_eq_true rfl
    have hcount := h.conserved i c
    rw [if_pos hi] at hcount
    rw [h.answers_eq hi]
    rcases Nat.eq_zero_or_pos ((s.workers i).answers c) with hzero | hpos
    · exact .inr ⟨hzero, Worker.refers_of_mem_pending (List.count_pos_iff.mp (by omega))⟩
    · exact .inl (by omega)

end Agent

/-- **Delivery.** In every run in which no step writes over a request that has not been answered,
no request is lost or answered twice. -/
theorem queue_delivers (cfg : Config) (n : ℕ) (autoboot : Bool) (es : List (Event n))
    (s : Agent n) (h : Path (Agent.step cfg) Agent.Careful (.initial n autoboot) es s) :
    s.Delivers := by
  have hinv : s.Inv := h.invariant (Agent.inv_initial n autoboot) fun s e t hI hcare hstep => by
    cases e with
    | thread i input => exact hI.thread hcare hstep
    | call c => exact hI.call hcare hstep
  exact hinv.delivers

/-! ## A request that is lost -/

/-- Request 1 is for the first worker, and all others are to start a script. -/
def startAndTid : Config where
  runtimes := [abortName]
  params c :=
    { tid := if c = 1 then 0 else -1
      name := startName
      runtime := none
      file := none
      source := some startName
      debug := 0 }

/-- The thread of the only worker goes on. -/
def threadSteps (k : ℕ) : List (Event 1) := List.replicate k (.thread ⟨0, Nat.one_pos⟩ .none)

/-- The call of a request goes on. -/
def callSteps (k : ℕ) (c : Ctx) : List (Event 1) := List.replicate k (.call c)

/-- `queue_delivers` of a run in which a script is started and its request answered. -/
theorem queue_delivers_start : ∃ es s,
    Path (Agent.step startAndTid) Agent.Careful (.initial 1 false) es s ∧
      s.calls 2 = .queued 0 ∧ s.Delivers := by
  have hrun : (exec (Agent.step startAndTid) Agent.Careful (.initial 1 false)
      (threadSteps 5 ++ callSteps 7 2 ++ threadSteps 6 ++ [.thread 0 (.notifyInit true)] ++
        threadSteps 4)).isSome = true := by decide
  exact ⟨_, _, path_get hrun, rfl, queue_delivers _ _ _ _ _ (path_get hrun)⟩

/-- Request 1 is queued for the idle worker, and then request 2. -/
theorem tidThenStart_runs : (exec (Agent.step startAndTid) anyStep (.initial 1 false)
    (threadSteps 5 ++ callSteps 6 1 ++ callSteps 7 2)).isSome = true := by decide

def tidThenStart : Agent 1 :=
  (exec (Agent.step startAndTid) anyStep (.initial 1 false)
    (threadSteps 5 ++ callSteps 6 1 ++ callSteps 7 2)).get tidThenStart_runs

/-- A `start` request for an idle worker writes over the request that has just been queued there. -/
theorem not_queue_delivers : ¬ ∀ (cfg : Config) (n : ℕ) (autoboot : Bool) (es : List (Event n))
    (s : Agent n), Path (Agent.step cfg) anyStep (.initial n autoboot) es s → s.Delivers := by
  intro h
  have hdelivers : tidThenStart.Delivers := h _ _ _ _ _ (path_get tidThenStart_runs)
  have hqueued : tidThenStart.calls 1 = .queued 0 := rfl
  have hanswers : tidThenStart.answers 1 = 0 := rfl
  have hcontext : (tidThenStart.workers 0).context = some 2 := rfl
  have hcallback : (tidThenStart.workers 0).callbackContext = none := rfl
  have hlocal : (tidThenStart.workers 0).localContext = none := rfl
  have hpc : (tidThenStart.workers 0).pc = .semWait := rfl
  rcases hdelivers.2 1 0 hqueued with hone | ⟨-, hrefers⟩
  · rw [hanswers] at hone
    cases hone
  · rw [Worker.Refers, hcontext, hcallback, hlocal, hpc] at hrefers
    simp at hrefers

end OlivePiccolo.RubicAgent
