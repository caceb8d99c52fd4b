import OlivePiccolo.RubicAgent.Delivery
import OlivePiccolo.RubicAgent.Steps

/-!
# The lock discipline of a worker

Two paths of `worker_thread` get the mutex wrong. Without a request `continue` goes to the top of the
loop after the mutex has been unlocked, and `goto reply_error` goes past the lock into the locked
region. A run is free of them if the thread finds a request wherever it looks for one, and a
runtime and a script in each job.
-/

namespace OlivePiccolo.RubicAgent

open Runs

/-! ## The discipline -/

/-- `worker_thread` is about to call `pthread_mutex_lock`. -/
def Pc.locks : Pc → Bool
  | .entry | .lockRequest | .lockEnd => true
  | _ => false

/-- `worker_thread` is about to call `pthread_mutex_unlock`. -/
def Pc.unlocks : Pc → Bool
  | .bootUnlock | .unlockIdle | .unlockRequest => true
  | _ => false

/-- `worker_thread` is about to write `state`, `context` or `callback_context`. -/
def Pc.writes : Pc → Bool
  | .bootFailed | .bootStarting | .setIdle | .setStarting | .clearContext | .clearCallback => true
  | _ => false

/-- The thread owns the mutex of its worker. -/
def Worker.Owns (w : Worker) : Prop := w.owner = some .thread

/-- The lock discipline at the place where the thread is. -/
structure Worker.Disciplined (w : Worker) : Prop where
  top : w.pc = .top → w.Owns
  lock : w.pc.locks = true → ¬ w.Owns
  unlock : w.pc.unlocks = true → w.Owns
  write : w.pc.writes = true → w.Owns

/-- A runner can be invoked for the job. -/
def Job.usable (j : Job) : Bool := j.runtime.isSome && j.fileOrSource.isSome

/-- The boot file names a runtime, and there is a request with a runtime and a script where the
thread looks for one. -/
def Worker.wellFed (cfg : Config) (w : Worker) (input : Input) : Bool :=
  match w.pc, input with
  | .top, .boot (some (runtime, _)) => runtime.isSome
  | .readContext, _ => w.context.any fun c => ((cfg.params c).job cfg.runtimes).usable
  | _, _ => true

/-- The step of a thread finds what the runner needs. -/
def Agent.WellFed {n : ℕ} (cfg : Config) (s : Agent n) : Event n → Prop
  | .thread i input => (s.workers i).wellFed cfg input = true
  | .call _ => True

instance {n : ℕ} (cfg : Config) (s : Agent n) : ∀ e, Decidable (s.WellFed cfg e)
  | .thread i input => inferInstanceAs (Decidable ((s.workers i).wellFed cfg input = true))
  | .call _ => inferInstanceAs (Decidable True)

/-! ## The places in the locked regions -/

/-- The places in `worker_thread` where it should own the mutex. -/
def Pc.holds : Pc → Bool
  | .top | .bootFailed | .bootStarting | .bootUnlock | .setIdle | .unlockIdle | .readContext
  | .setStarting | .unlockRequest | .testState | .clearContext | .replyError | .readCallback
  | .clearCallback | .replyCallback => true
  | _ => false

/-- The job of the thread is ready. -/
def Pc.hasJob : Pc → Bool
  | .bootStarting | .bootUnlock | .invoke => true
  | _ => false

/-- The thread has taken a request. -/
def Pc.hasRequest : Pc → Bool
  | .setStarting | .unlockRequest => true
  | _ => false

theorem Pc.holds_of_locks {pc : Pc} (h : pc.locks = true) : pc.holds = false := by
  cases pc <;> first | rfl | cases h

theorem Pc.holds_of_unlocks {pc : Pc} (h : pc.unlocks = true) : pc.holds = true := by
  cases pc <;> first | rfl | cases h

theorem Pc.holds_of_writes {pc : Pc} (h : pc.writes = true) : pc.holds = true := by
  cases pc <;> first | rfl | cases h

/-- The thread owns the mutex in the locked regions and nowhere else, and its job will do. -/
structure Worker.LockInv (cfg : Config) (w : Worker) : Prop where
  owns : w.Owns ↔ w.pc.holds = true
  job : w.pc.hasJob = true → w.job.usable = true
  request : w.pc.hasRequest = true →
    ∃ c, w.localContext = some c ∧ ((cfg.params c).job cfg.runtimes).usable = true

namespace Worker

variable {cfg : Config} {w w' : Worker} {input : Input}

theorem LockInv.disciplined (h : w.LockInv cfg) : w.Disciplined where
  top hpc := h.owns.mpr (by rw [hpc]; rfl)
  lock hpc := by rw [h.owns, Pc.holds_of_locks hpc]; exact Bool.false_ne_true
  unlock hpc := h.owns.mpr (Pc.holds_of_unlocks hpc)
  write hpc := h.owns.mpr (Pc.holds_of_writes hpc)

theorem not_owns_unlock (w : Worker) : ¬ (w.unlock .thread).Owns := by
  unfold Owns unlock
  split_ifs with howner
  · exact nofun
  · exact howner

/-- A step that stays inside or outside of the locked regions, and needs no job afterwards. -/
theorem LockInv.stay (h : w.LockInv cfg) (howner : w'.owner = w.owner)
    (hholds : w'.pc.holds = w.pc.holds) (hjob : w'.pc.hasJob = false)
    (hrequest : w'.pc.hasRequest = false) : w'.LockInv cfg where
  owns := by rw [Owns, howner, hholds]; exact h.owns
  job hpc := absurd (hjob.symm.trans hpc) Bool.false_ne_true
  request hpc := absurd (hrequest.symm.trans hpc) Bool.false_ne_true

/-- **One step of a thread** that finds what the runner needs. -/
theorem LockInv.thread (h : w.LockInv cfg) (hfed : w.wellFed cfg input = true)
    (hstep : ThreadStep cfg w input w') : w'.LockInv cfg := by
  cases hstep with
  | entry hpc hfree | lockRequest hpc hfree | lockEnd hpc hfree =>
    exact ⟨⟨fun _ => rfl, fun _ => rfl⟩, nofun, nofun⟩
  | service autoboot hpc | bootNone hpc hstate | top hpc hstate | bootFailed hpc | setIdle hpc
  | semWait hpc hpos
  | notifyInit ok hpc | cooperate hpc | finish result hpc | testState hpc hstate
  | clearNone hpc hnone | clearContext c hpc hc | replyError hpc | noCallback hpc hnone
  | readCallback c hpc hc | clearCallback hpc | replyCallback ok hpc | invoke hpc hjob
  | testStarting hpc hstate =>
    exact h.stay rfl (by rw [hpc]; rfl) rfl rfl
  | boot runtime path hpc hstate =>
    simp only [wellFed, hpc] at hfed
    refine ⟨⟨fun _ => rfl, fun _ => h.owns.mpr (by rw [hpc]; rfl)⟩, fun _ => ?_, nofun⟩
    exact Bool.and_eq_true_iff.mpr ⟨hfed, rfl⟩
  | bootStarting hpc =>
    have howns : w.Owns := h.owns.mpr (by rw [hpc]; rfl)
    exact ⟨⟨fun _ => rfl, fun _ => howns⟩, fun _ => h.job (by rw [hpc]; rfl), nofun⟩
  | bootUnlock hpc =>
    refine ⟨⟨fun ho => absurd ho w.not_owns_unlock, nofun⟩, fun _ => ?_, nofun⟩
    have hjob : (w.unlock .thread).job = w.job := by unfold unlock; split <;> rfl
    show (w.unlock .thread).job.usable = true
    rw [hjob]
    exact h.job (by rw [hpc]; rfl)
  | unlockIdle hpc =>
    exact ⟨⟨fun ho => absurd ho w.not_owns_unlock, nofun⟩, nofun, nofun⟩
  | readNone hpc hnone =>
    -- the thread would go on without a request
    simp [wellFed, hpc, hnone] at hfed
  | readContext c hpc hc =>
    simp only [wellFed, hpc, hc, Option.any_some] at hfed
    have howns : w.Owns := h.owns.mpr (by rw [hpc]; rfl)
    exact ⟨⟨fun _ => rfl, fun _ => howns⟩, nofun, fun _ => ⟨c, hc, hfed⟩⟩
  | setStarting hpc =>
    have howns : w.Owns := h.owns.mpr (by rw [hpc]; rfl)
    exact ⟨⟨fun _ => rfl, fun _ => howns⟩, nofun, fun _ => h.request (by rw [hpc]; rfl)⟩
  | unlockNone hpc hnone =>
    obtain ⟨c, hc, -⟩ := h.request (by rw [hpc]; rfl)
    rw [hnone] at hc
    cases hc
  | unlockRequest c hpc hc =>
    refine ⟨⟨fun ho => absurd ho w.not_owns_unlock, nofun⟩, fun _ => ?_, nofun⟩
    obtain ⟨c', hc', hjob⟩ := h.request (by rw [hpc]; rfl)
    cases hc.symm.trans hc'
    exact hjob
  | invalid hpc hjob =>
    -- the thread would go past the lock
    have husable := Bool.and_eq_true_iff.mp (h.job (by rw [hpc]; rfl))
    rcases hjob with hnone | hnone <;> rw [hnone] at husable
    exacts [absurd husable.1 Bool.false_ne_true, absurd husable.2 Bool.false_ne_true]
  | notifyInitStep ok pc hpc =>
    obtain ⟨howner, hpc' | ⟨pc', hpc'⟩⟩ := w.notifyInitStep_outside ok pc
    · exact h.stay howner (by rw [hpc', hpc]; rfl) (by rw [hpc']; rfl) (by rw [hpc']; rfl)
    · exact h.stay howner (by rw [hpc', hpc]; rfl) (by rw [hpc']; rfl) (by rw [hpc']; rfl)
  | cooperateStep pc hpc =>
    obtain ⟨howner, hpc' | ⟨pc', hpc'⟩⟩ := w.cooperateStep_outside cfg pc
    · exact h.stay howner (by rw [hpc', hpc]; rfl) (by rw [hpc']; rfl) (by rw [hpc']; rfl)
    · exact h.stay howner (by rw [hpc', hpc]; rfl) (by rw [hpc']; rfl) (by rw [hpc']; rfl)

/-- The next step of a call leaves the thread where it is, and takes no mutex from it. -/
theorem LockInv.call {n : ℕ} {c : Ctx} {i : Fin n} {pc pc' : CallPc n} (h : w.LockInv cfg)
    (hstep : CallStep c i w pc pc' w') : w'.LockInv cfg := by
  have hunlock : (w.unlock (.call c)).LockInv cfg := by
    unfold unlock
    split_ifs with howner
    · refine ⟨⟨nofun, fun hpc => ?_⟩, h.job, h.request⟩
      have howns : w.owner = some .thread := h.owns.mpr hpc
      cases howner.symm.trans howns
    · exact h
  cases hstep with
  | tidLock hfree | startLock hfree =>
    refine ⟨⟨nofun, fun hpc => ?_⟩, h.job, h.request⟩
    have howns : w.owner = some .thread := h.owns.mpr hpc
    rcases hfree with hfree | hfree <;> cases hfree.symm.trans howns
  | tidBusy | startSkip | unlock => exact hunlock
  | tidStore | startState | startStore => exact ⟨h.owns, h.job, h.request⟩
  | post =>
    unfold semPost
    split_ifs
    · exact h
    · exact ⟨h.owns, h.job, h.request⟩
  | tidEmpty | tidTaken | startIdle | startOther => exact h

end Worker

/-- **Lock discipline.** In every run in which the boot file names a runtime, and the thread finds a
request with a runtime and a script wherever it looks for one, each worker's thread owns the mutex
at the top of its loop, where it unlocks it and where it writes the shared fields, and does not own
it where it locks it. -/
theorem workers_disciplined (cfg : Config) (n : ℕ) (autoboot : Bool) (es : List (Event n))
    (s : Agent n)
    (h : Path (Agent.step cfg) (Agent.WellFed cfg) (.initial n autoboot) es s) (i : Fin n) :
    (s.workers i).Disciplined := by
  have hinv : ∀ i, (s.workers i).LockInv cfg := by
    apply h.invariant (I := fun s => ∀ i, (s.workers i).LockInv cfg)
    · intro i
      have hpc := Agent.initial_pc autoboot i
      constructor
      case owns => exact ⟨nofun, by rcases hpc with hpc | hpc <;> rw [hpc] <;> nofun⟩
      case job => rcases hpc with hpc | hpc <;> rw [hpc] <;> nofun
      case request => rcases hpc with hpc | hpc <;> rw [hpc] <;> nofun
    · intro s e t hI hfed hstep
      refine (Agent.Step.of_step hstep).forall_workers (P := fun _ w _ => w.LockInv cfg) hI ?_
        (fun _ i _ => hI i) fun _ i _ _ _ hcall => ⟨(hI i).call hcall, fun j _ => hI j⟩
      rintro i input w rfl hthread
      exact (hI i).thread hfed hthread
  exact (hinv i).disciplined

/-- `workers_disciplined` of a run in which a script is started and ends. -/
theorem workers_disciplined_start : ∃ es s,
    Path (Agent.step startAndTid) (Agent.WellFed startAndTid) (.initial 1 false) es s ∧
      (s.workers 0).pc = .top ∧ (s.workers 0).Disciplined := by
  have hrun : (exec (Agent.step startAndTid) (Agent.WellFed startAndTid) (.initial 1 false)
      (threadSteps 5 ++ callSteps 7 2 ++ threadSteps 6 ++ [.thread 0 (.notifyInit true)] ++
        threadSteps 4 ++ [.thread 0 (.finish 0)] ++ threadSteps 3)).isSome = true := by decide
  exact ⟨_, _, path_get hrun, rfl, workers_disciplined _ _ _ _ _ (path_get hrun) 0⟩

/-- The source of a script, and no runtime that it could be for. -/
def noRuntime : Config where
  runtimes := []
  params _ := ⟨-1, startName, none, none, some startName, 0⟩

/-- A request to start a script goes as far as its invocation. -/
theorem invalidStart_runs : (exec (Agent.step noRuntime) anyStep (.initial 1 false)
    (threadSteps 5 ++ callSteps 7 2 ++ threadSteps 6)).isSome = true := by decide

/-- The thread is about to clear `worker->context` after `goto reply_error`, without the mutex. -/
theorem not_workers_disciplined : ¬ ∀ (cfg : Config) (n : ℕ) (autoboot : Bool)
    (es : List (Event n)) (s : Agent n),
    Path (Agent.step cfg) anyStep (.initial n autoboot) es s → ∀ i, (s.workers i).Disciplined := by
  intro h
  have howns := (h noRuntime 1 false _ _ (path_get invalidStart_runs) 0).write rfl
  cases howns

end OlivePiccolo.RubicAgent
