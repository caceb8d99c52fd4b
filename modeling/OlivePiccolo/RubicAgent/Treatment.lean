import OlivePiccolo.RubicAgent.Locking
import OlivePiccolo.RubicAgent.Phases

/-!
# What becomes of a request by its name

`rubic_agent_method_queue` puts a request for a `tid` into the slot whatever its name, and whoever
looks there next decides what it means. The worker takes it for one to start a script, and
`rubic_agent_runner_notify_init` for the one that has started it. Where neither of them finds a
request that is named otherwise, and none named `abort` is written over, a request to abort is
answered by `rubic_agent_runner_cooperate`, and only there.
-/

namespace OlivePiccolo.RubicAgent

open Runs

/-! ## The treatment that a name asks for -/

/-- The request is to abort. -/
def Config.Aborts (cfg : Config) (c : Ctx) : Prop := (cfg.params c).name = abortName

instance (cfg : Config) (c : Ctx) : Decidable (cfg.Aborts c) :=
  inferInstanceAs (Decidable ((cfg.params c).name = abortName))

/-- The request is to start a script. -/
def Config.StartsScript (cfg : Config) (c : Ctx) : Prop := (cfg.params c).name = startName

instance (cfg : Config) (c : Ctx) : Decidable (cfg.StartsScript c) :=
  inferInstanceAs (Decidable ((cfg.params c).name = startName))

/-- A runner runs for autoboot, or for a request to start a script. -/
def Worker.RunsFor (cfg : Config) (w : Worker) : Prop :=
  w.job.autoboot = true ∨ ∃ c, w.localContext = some c ∧ cfg.StartsScript c

/-- All replies to requests to abort are a success with a null result. -/
def Worker.AnswersAborts (cfg : Config) (w : Worker) : Prop :=
  ∀ r ∈ w.replies, ∀ c, r.context = some c → cfg.Aborts c → r.output = .null ∧ r.errno = 0

/-- The runner of a worker asks for a request, and gets to the end of
`rubic_agent_runner_cooperate`. -/
def cooperation {n : ℕ} (i : Fin n) : List (Event n) :=
  .thread i .cooperate :: List.replicate 4 (.thread i .none)

namespace Agent

variable {n : ℕ}

/-- The treatment of the requests. A request to abort that has been queued has been answered, or its
worker still refers to it; and the next call of `rubic_agent_runner_cooperate` answers the one in
the slot. -/
structure Treats (cfg : Config) (s : Agent n) : Prop where
  invoked : ∀ i, (s.workers i).pc.inRunner = true → (s.workers i).RunsFor cfg
  answers : ∀ i, (s.workers i).AnswersAborts cfg
  kept : ∀ c i, cfg.Aborts c → s.calls c = .queued i →
    (s.workers i).Answered c ∨ (s.workers i).Refers c
  served : ∀ i c, (s.workers i).pc = .runner → (s.workers i).context = some c → cfg.Aborts c →
    ∃ t, Path (step cfg) anyStep s (cooperation i) t ∧
      ⟨some c, .null, 0⟩ ∈ (t.workers i).replies ∧ (t.workers i).state = .aborting

end Agent

/-- The worker can take the request: it is to start a script, or no runner is invoked for it and it is
not to abort. -/
def Config.launchable (cfg : Config) (c : Ctx) : Bool :=
  cfg.StartsScript c || (!cfg.Aborts c && !((cfg.params c).job cfg.runtimes).usable)

/-- The next step of the thread finds a request that it can take, and writes over no request to
abort. -/
def Worker.heeds (cfg : Config) (w : Worker) : Bool :=
  match w.pc with
  | .readContext => w.context.all cfg.launchable
  | .notifyInit _ .read | .notifyInit _ (.clear _) | .clearContext =>
    w.context.all fun c => !cfg.Aborts c
  | _ => true

/-- So does a step of the agent. -/
def Agent.heeds {n : ℕ} (cfg : Config) (s : Agent n) : Event n → Bool
  | .thread i _ => (s.workers i).heeds cfg
  | .call c =>
    match s.calls c with
    | .startStore i => (s.workers i).context.all fun c => !cfg.Aborts c
    | _ => true

def Agent.Heeds {n : ℕ} (cfg : Config) (s : Agent n) (e : Event n) : Prop := s.heeds cfg e = true

instance {n : ℕ} (cfg : Config) (s : Agent n) (e : Event n) : Decidable (s.Heeds cfg e) :=
  inferInstanceAs (Decidable (s.heeds cfg e = true))

/-! ## What the locals of the thread are named -/

/-- A request in a local of a callback of the runner gets the answer that its name asks for. -/
def Pc.Named (cfg : Config) : Pc → Prop
  | .notifyInit _ (.reply (some c)) => ¬ cfg.Aborts c
  | .cooperate (.test c) | .cooperate (.store c) => ¬ cfg.Aborts c
  | .cooperate (.reply c errno) => cfg.Aborts c → errno = 0
  | _ => True

/-- What the thread has launched, or is going to. -/
def Worker.Launches (cfg : Config) (w : Worker) : Prop :=
  match w.pc with
  | .bootStarting | .bootUnlock => w.job.autoboot = true
  | .setStarting | .unlockRequest => ∀ c, w.localContext = some c → cfg.launchable c = true
  | .invoke => w.job.autoboot = true ∨ ∃ c, w.localContext = some c ∧ cfg.launchable c = true ∧
      w.job = (cfg.params c).job cfg.runtimes
  | .runner | .notifyInit _ _ | .cooperate _ => w.RunsFor cfg
  | _ => True

/-- The names of the requests that a worker has taken out of the slot. -/
structure Worker.TakenNames (cfg : Config) (w : Worker) : Prop where
  launches : w.Launches cfg
  named : w.pc.Named cfg
  localContext : ∀ c, w.localContext = some c → ¬ cfg.Aborts c
  callback : ∀ c, w.callbackContext = some c → ¬ cfg.Aborts c
  answers : w.AnswersAborts cfg

theorem Config.not_aborts_of_launchable {cfg : Config} {c : Ctx} (h : cfg.launchable c = true) :
    ¬ cfg.Aborts c := by
  intro haborts
  rw [Config.launchable, decide_eq_true haborts, Bool.not_true, Bool.false_and, Bool.or_false,
    decide_eq_true_eq] at h
  have hname : startName = abortName := h.symm.trans haborts
  exact absurd hname (by decide)

/-- A runner is invoked for no other request. -/
theorem Config.starts_of_launchable {cfg : Config} {c : Ctx} (h : cfg.launchable c = true)
    (hjob : ¬ (((cfg.params c).job cfg.runtimes).runtime = none ∨
      ((cfg.params c).job cfg.runtimes).fileOrSource = none)) : cfg.StartsScript c := by
  have husable : ((cfg.params c).job cfg.runtimes).usable = true := by
    rw [Job.usable, Bool.and_eq_true, Option.isSome_iff_ne_none, Option.isSome_iff_ne_none]
    exact not_or.mp hjob
  rw [Config.launchable, husable, Bool.not_true, Bool.and_false, Bool.or_false] at h
  exact of_decide_eq_true h

namespace Worker

variable {cfg : Config} {w w' : Worker} {input : Input}

/-- A reply that is a success with a null result, or to a request that is not to abort. -/
theorem AnswersAborts.callback (h : w.AnswersAborts cfg) {context : Option Ctx} {output : Output}
    {errno : ℤ} (hreply : ∀ c, context = some c → cfg.Aborts c → output = .null ∧ errno = 0) :
    (w.callback context output errno).AnswersAborts cfg := by
  intro r hr
  rcases List.mem_append.mp hr with hr | hr
  · exact h r hr
  · rw [List.mem_singleton.mp hr]
    exact hreply

/-- A step that replies to nothing and takes no request into a local of `worker_thread`. -/
theorem TakenNames.of_same (h : w.TakenNames cfg) (hlaunches : w'.Launches cfg)
    (hnamed : w'.pc.Named cfg) (hlocal : w'.localContext = w.localContext)
    (hcallback : w'.callbackContext = w.callbackContext) (hreplies : w'.replies = w.replies) :
    w'.TakenNames cfg where
  launches := hlaunches
  named := hnamed
  localContext := by rw [hlocal]; exact h.localContext
  callback := by rw [hcallback]; exact h.callback
  answers := by rw [AnswersAborts, hreplies]; exact h.answers

theorem TakenNames.unlock (h : w.TakenNames cfg) {p : Party} {job : Job} {pc : Pc}
    (hlaunches : ({ w.unlock p with job := job }.goto pc).Launches cfg) (hnamed : pc.Named cfg) :
    ({ w.unlock p with job := job }.goto pc).TakenNames cfg := by
  obtain ⟨owner, ho⟩ := w.unlock_eq p
  rw [ho] at hlaunches ⊢
  exact h.of_same hlaunches hnamed rfl rfl rfl

/-- What the thread has launched goes on in the runner. -/
theorem TakenNames.runsFor (h : w.TakenNames cfg) (hpc : w.pc.inRunner = true) :
    w.RunsFor cfg := by
  have hlaunches := h.launches
  unfold Launches at hlaunches
  cases hw : w.pc <;> rw [hw] at hpc hlaunches <;> first | exact hlaunches | cases hpc

theorem TakenNames.notifyInitStep (h : w.TakenNames cfg) {ok : Bool} {pc : NotifyPc}
    (hheeds : w.heeds cfg = true) (hpc : w.pc = .notifyInit ok pc) :
    (w.notifyInitStep ok pc).TakenNames cfg := by
  have hruns : w.RunsFor cfg := h.runsFor (by rw [hpc]; rfl)
  have hnamed := h.named
  rw [hpc] at hnamed
  cases pc with
  | read =>
    refine h.of_same hruns ?_ rfl rfl rfl
    show Pc.Named cfg (.notifyInit ok (.reply w.context))
    cases hc : w.context with
    | none => trivial
    | some c =>
      have haborts : ¬ cfg.Aborts c := by
        simpa only [heeds, hpc, hc, Option.all_some, Bool.not_eq_true', decide_eq_false_iff_not]
          using hheeds
      exact haborts
  | reply context =>
    refine ⟨hruns, trivial, h.localContext, h.callback, h.answers.callback fun c hc haborts => ?_⟩
    rw [hc] at hnamed
    exact absurd haborts hnamed
  | clear context => exact h.of_same hruns trivial rfl rfl rfl
  | setState => exact h.of_same hruns trivial rfl rfl rfl

theorem TakenNames.cooperateStep (h : w.TakenNames cfg) {pc : CooperatePc}
    (hpc : w.pc = .cooperate pc) : (w.cooperateStep cfg pc).TakenNames cfg := by
  have hruns : w.RunsFor cfg := h.runsFor (by rw [hpc]; rfl)
  have hnamed := h.named
  rw [hpc] at hnamed
  cases pc with
  | read =>
    rw [Worker.cooperateStep]
    split
    · exact h.of_same hruns trivial rfl rfl rfl
    · exact h.of_same hruns trivial rfl rfl rfl
  | clear c =>
    refine h.of_same hruns ?_ rfl rfl rfl
    show Pc.Named cfg (.cooperate (cooperateNext (cfg.params c).name c))
    unfold cooperateNext
    split_ifs with habort hcallback
    · trivial
    · exact habort
    · exact fun h => absurd h habort
  | abort c => exact h.of_same hruns (fun _ => rfl) rfl rfl rfl
  | test c =>
    refine h.of_same hruns ?_ rfl rfl rfl
    show Pc.Named cfg (.cooperate (if w.callbackContext = none then .store c else .reply c EEXIST))
    split_ifs
    · exact hnamed
    · exact fun h => absurd h hnamed
  | store c =>
    refine ⟨hruns, trivial, h.localContext, fun c' hc' => ?_, h.answers⟩
    cases hc'
    exact hnamed
  | reply c errno =>
    refine ⟨hruns, trivial, h.localContext, h.callback, h.answers.callback fun c' hc' haborts => ?_⟩
    cases hc'
    exact ⟨rfl, hnamed haborts⟩

/-- **One step of a thread** that finds a request it can take. -/
theorem TakenNames.thread (h : w.TakenNames cfg) (hheeds : w.heeds cfg = true)
    (hstep : ThreadStep cfg w input w') : w'.TakenNames cfg := by
  have hlaunches := h.launches
  unfold Launches at hlaunches
  cases hstep with
  | boot runtime path hpc hstate => exact ⟨rfl, trivial, nofun, h.callback, h.answers⟩
  | bootStarting hpc =>
    rw [hpc] at hlaunches
    exact h.of_same hlaunches trivial rfl rfl rfl
  | bootUnlock hpc =>
    rw [hpc] at hlaunches
    obtain ⟨owner, ho⟩ := w.unlock_eq .thread
    rw [ho]
    exact h.of_same (.inl hlaunches) trivial rfl rfl rfl
  | readNone hpc hnone =>
    have hno {c : Ctx} (hc : w.context = some c) : False := nomatch hnone.symm.trans hc
    exact ⟨fun c hc => (hno hc).elim, trivial, fun c hc => (hno hc).elim, h.callback, h.answers⟩
  | readContext c hpc hc =>
    have hlaunch : ∀ c', w.context = some c' → cfg.launchable c' = true := by
      intro c' hc'
      simpa only [heeds, hpc, hc', Option.all_some] using hheeds
    exact ⟨hlaunch, trivial, fun c' hc' => Config.not_aborts_of_launchable (hlaunch c' hc'),
      h.callback, h.answers⟩
  | setStarting hpc =>
    rw [hpc] at hlaunches
    exact h.of_same hlaunches trivial rfl rfl rfl
  | unlockRequest c hpc hc =>
    rw [hpc] at hlaunches
    obtain ⟨owner, ho⟩ := w.unlock_eq .thread
    rw [ho]
    exact h.of_same (.inr ⟨c, hc, hlaunches c hc, rfl⟩) trivial rfl rfl rfl
  | invoke hpc hjob =>
    rw [hpc] at hlaunches
    have hruns : w.RunsFor cfg := by
      rcases hlaunches with hboot | ⟨c, hc, hlaunch, heq⟩
      · exact .inl hboot
      · exact .inr ⟨c, hc, Config.starts_of_launchable hlaunch (by rwa [← heq])⟩
    exact h.of_same hruns trivial rfl rfl rfl
  | notifyInit ok hpc => exact h.of_same (h.runsFor (by rw [hpc]; rfl)) trivial rfl rfl rfl
  | cooperate hpc => exact h.of_same (h.runsFor (by rw [hpc]; rfl)) trivial rfl rfl rfl
  | notifyInitStep ok pc hpc => exact h.notifyInitStep hheeds hpc
  | cooperateStep pc hpc => exact h.cooperateStep hpc
  | unlockIdle hpc | unlockNone hpc hnone => exact h.unlock trivial trivial
  | replyError hpc | replyCallback ok hpc =>
    exact ⟨trivial, trivial, h.localContext, h.callback,
      h.answers.callback fun c hc haborts => absurd haborts (h.localContext c hc)⟩
  | noCallback hpc hnone | readCallback c hpc hc =>
    exact ⟨trivial, trivial, h.callback, h.callback, h.answers⟩
  | clearCallback hpc => exact ⟨trivial, trivial, h.localContext, nofun, h.answers⟩
  | _ => exact h.of_same trivial trivial rfl rfl rfl

/-- A call leaves the locals of the thread alone. -/
theorem TakenNames.call {n : ℕ} {c : Ctx} {i : Fin n} {pc pc' : CallPc n} (h : w.TakenNames cfg)
    (hstep : CallStep c i w pc pc' w') : w'.TakenNames cfg := by
  obtain ⟨hpc, hlocal, hcallback, hreplies⟩ := hstep.thread_same
  have hjob := hstep.job
  refine h.of_same ?_ (by rw [hpc]; exact h.named) hlocal hcallback hreplies
  have hlaunches := h.launches
  unfold Launches RunsFor at hlaunches ⊢
  rwa [hpc, hlocal, hjob]

end Worker

/-! ## Requests to abort -/

namespace Worker

/-- A request to abort is in the slot, or `rubic_agent_runner_cooperate` is about to answer it. -/
def HoldsAbort (w : Worker) (c : Ctx) : Prop :=
  w.context = some c ∨ w.pc = .cooperate (.abort c) ∨ w.pc = .cooperate (.reply c 0)

end Worker

/-- No request to abort that has been stored in the worker is lost. -/
structure KeepsAborts {n : ℕ} (cfg : Config) (i : Fin n) (w : Worker) (calls : Ctx → CallPc n) :
    Prop where
  take : ∀ c, w.pc = .cooperate (.clear c) → w.context = some c
  kept : ∀ c, cfg.Aborts c → (calls c).stored i = true → w.Answered c ∨ w.HoldsAbort c

section

variable {n : ℕ} {cfg : Config} {i : Fin n} {w w' : Worker} {calls : Ctx → CallPc n} {c : Ctx}
  {pc : CallPc n} {input : Input}

/-- A step that leaves the slot alone. -/
theorem KeepsAborts.of_same (h : KeepsAborts cfg i w calls) (hcontext : w'.context = w.context)
    (hreplies : ∀ c, w.Answered c → w'.Answered c) (hpc : ∀ c, w.pc ≠ .cooperate (.abort c))
    (hreply : ∀ c errno, w.pc ≠ .cooperate (.reply c errno))
    (htake : ∀ c, w'.pc = .cooperate (.clear c) → w.context = some c) :
    KeepsAborts cfg i w' calls where
  take c hc := hcontext.trans (htake c hc)
  kept c haborts hstored := by
    rcases h.kept c haborts hstored with hanswered | hslot | hab | hre
    · exact .inl (hreplies c hanswered)
    · exact .inr (.inl (hcontext.trans hslot))
    · exact absurd hab (hpc c)
    · exact absurd hre (hreply c 0)

/-- A step that clears the slot, where no request to abort is. -/
theorem KeepsAborts.of_clear (h : KeepsAborts cfg i w calls)
    (hheeds : w.context.all (fun c => !cfg.Aborts c) = true)
    (hreplies : w'.replies = w.replies) (hpc : w.pc.inRunner = true → ∃ ok pc, w.pc = .notifyInit ok pc)
    (hpc' : ∀ c, w'.pc ≠ .cooperate (.clear c)) : KeepsAborts cfg i w' calls where
  take c hc := absurd hc (hpc' c)
  kept c haborts hstored := by
    have hno {pc : CooperatePc} (hw : w.pc = .cooperate pc) : False := by
      obtain ⟨ok, pc', hpc'⟩ := hpc (by rw [hw]; rfl)
      cases hw.symm.trans hpc'
    rcases h.kept c haborts hstored with hanswered | hslot | hab | hre
    · rw [Worker.Answered, hreplies]
      exact .inl hanswered
    · rw [hslot, Option.all_some, decide_eq_true haborts] at hheeds
      cases hheeds
    · exact (hno hab).elim
    · exact (hno hre).elim

theorem KeepsAborts.notifyInitStep (h : KeepsAborts cfg i w calls) {ok : Bool} {pc : NotifyPc}
    (hheeds : w.heeds cfg = true) (hpc : w.pc = .notifyInit ok pc) :
    KeepsAborts cfg i (w.notifyInitStep ok pc) calls := by
  cases pc with
  | read | setState =>
    exact h.of_same rfl (fun _ => id) (by rw [hpc]; nofun) (by rw [hpc]; nofun) nofun
  | reply context =>
    exact h.of_same rfl (fun c hc => Worker.answered_callback.mpr (.inl hc)) (by rw [hpc]; nofun)
      (by rw [hpc]; nofun) nofun
  | clear context =>
    simp only [Worker.heeds, hpc] at hheeds
    exact h.of_clear hheeds rfl (fun _ => ⟨_, _, hpc⟩) nofun

theorem KeepsAborts.cooperateStep (h : KeepsAborts cfg i w calls) {pc : CooperatePc}
    (hpc : w.pc = .cooperate pc) : KeepsAborts cfg i (w.cooperateStep cfg pc) calls := by
  cases pc with
  | read =>
    rw [Worker.cooperateStep]
    split
    · exact h.of_same rfl (fun _ => id) (by simp [hpc]) (by simp [hpc])
        fun _ hc => by cases hc
    next c hc =>
      refine h.of_same rfl (fun _ => id) (by simp [hpc]) (by simp [hpc]) fun c' hc' => ?_
      cases hc'
      exact hc
  | clear c =>
    refine ⟨fun c' hc' => ?_, fun c' haborts hstored => ?_⟩
    · unfold Worker.cooperateStep cooperateNext at hc'
      dsimp only [Worker.goto] at hc'
      split_ifs at hc' <;> cases hc'
    · rcases h.kept c' haborts hstored with hanswered | hslot | hab | hre
      · exact .inl hanswered
      · have heq : c' = c := Option.some.inj (hslot.symm.trans (h.take c hpc))
        rw [heq] at haborts ⊢
        have hnext : cooperateNext (cfg.params c).name c = .abort c := if_pos haborts
        exact .inr (.inr (.inl (by rw [Worker.cooperateStep, hnext]; rfl)))
      · cases hpc.symm.trans hab
      · cases hpc.symm.trans hre
  | abort c =>
    refine ⟨(fun _ hc => by cases hc), fun c' haborts hstored => ?_⟩
    rcases h.kept c' haborts hstored with hanswered | hslot | hab | hre
    · exact .inl hanswered
    · exact .inr (.inl hslot)
    · cases hpc.symm.trans hab
      exact .inr (.inr (.inr rfl))
    · cases hpc.symm.trans hre
  | test c =>
    refine h.of_same rfl (fun _ => id) (by simp [hpc]) (by simp [hpc]) fun c' hc' => ?_
    unfold Worker.cooperateStep at hc'
    dsimp only [Worker.goto] at hc'
    split_ifs at hc' <;> cases hc'
  | store c =>
    exact h.of_same rfl (fun _ => id) (by simp [hpc]) (by simp [hpc])
        fun _ hc => by cases hc
  | reply c errno =>
    refine ⟨(fun _ hc => by cases hc), fun c' haborts hstored => ?_⟩
    rcases h.kept c' haborts hstored with hanswered | hslot | hab | hre
    · exact .inl (Worker.answered_callback.mpr (.inl hanswered))
    · exact .inr (.inl hslot)
    · cases hpc.symm.trans hab
    · cases hpc.symm.trans hre
      exact .inl (Worker.answered_callback.mpr (.inr rfl))

/-- **One step of a thread** loses no request to abort. -/
theorem KeepsAborts.thread (h : KeepsAborts cfg i w calls) (hheeds : w.heeds cfg = true)
    (hstep : Worker.ThreadStep cfg w input w') : KeepsAborts cfg i w' calls := by
  cases hstep with
  | notifyInitStep ok pc hpc => exact h.notifyInitStep hheeds hpc
  | cooperateStep pc hpc => exact h.cooperateStep hpc
  | clearNone hpc hnone | clearContext c hpc hc =>
    simp only [Worker.heeds, hpc] at hheeds
    exact h.of_clear hheeds rfl (by rw [hpc]; nofun) nofun
  | bootUnlock hpc | unlockIdle hpc | unlockNone hpc hnone | unlockRequest c hpc hc =>
    obtain ⟨owner, ho⟩ := w.unlock_eq .thread
    rw [ho]
    exact h.of_same rfl (fun _ => id) (by rw [hpc]; nofun) (by rw [hpc]; nofun) nofun
  | replyError hpc | replyCallback ok hpc =>
    exact h.of_same rfl (fun c hc => Worker.answered_callback.mpr (.inl hc)) (by rw [hpc]; nofun)
      (by rw [hpc]; nofun) nofun
  | service autoboot hpc | entry hpc hfree | bootNone hpc hstate | boot runtime path hpc hstate
  | top hpc hstate | bootFailed hpc | bootStarting hpc | setIdle hpc | semWait hpc hpos
  | lockRequest hpc hfree | readNone hpc hnone | readContext c hpc hc | setStarting hpc
  | invalid hpc hjob | invoke hpc hjob | notifyInit ok hpc | cooperate hpc | finish result hpc
  | lockEnd hpc hfree | testStarting hpc hstate | testState hpc hstate | noCallback hpc hnone
  | readCallback c hpc hc | clearCallback hpc =>
    exact h.of_same rfl (fun _ => id) (by rw [hpc]; nofun) (by rw [hpc]; nofun) nofun

/-- **One step of a call** at its worker. -/
theorem KeepsAborts.call (h : KeepsAborts cfg i w calls) (hphased : CallsPlaced i w calls)
    (hheeds : calls c = .startStore i → w.context.all (fun c => !cfg.Aborts c) = true)
    (hstep : CallStep c i w (calls c) pc w') :
    KeepsAborts cfg i w' (Function.update calls c pc) := by
  obtain ⟨hpc, -, -, hreplies⟩ := hstep.thread_same
  have hanswered (c' : Ctx) (ha : w.Answered c') : w'.Answered c' := by
    rwa [Worker.Answered, hreplies]
  refine ⟨fun c' hc' => ?_, fun c' haborts hstored => ?_⟩
  · rw [hpc] at hc'
    have hslot := h.take c' hc'
    obtain hsame | ⟨htid | hstart, -⟩ := hstep.context
    · exact hsame.trans hslot
    · cases (hphased.tidStore c htid).symm.trans hslot
    · have hrest := (hphased.startStore c hstart).1
      rw [hc'] at hrest
      cases hrest
  · have hor : (calls c').stored i = true ∨ w'.context = some c' := by
      rcases eq_or_ne c' c with rfl | hne
      · rw [Function.update_self] at hstored
        exact hstep.stored_or hstored
      · rw [Function.update_of_ne hne] at hstored
        exact .inl hstored
    rcases hor with hstored | hslot
    · rcases h.kept c' haborts hstored with ha | hslot | hab | hre
      · exact .inl (hanswered c' ha)
      · -- no other request is written over this one
        obtain hsame | ⟨htid | hstart, -⟩ := hstep.context
        · exact .inr (.inl (hsame.trans hslot))
        · cases (hphased.tidStore c htid).symm.trans hslot
        · have hcare := hheeds hstart
          rw [hslot, Option.all_some, decide_eq_true haborts] at hcare
          cases hcare
      · exact .inr (.inr (.inl (hpc.trans hab)))
      · exact .inr (.inr (.inr (hpc.trans hre)))
    · exact .inr (.inl hslot)

/-- **A step elsewhere.** -/
theorem KeepsAborts.update (h : KeepsAborts cfg i w calls)
    (hstored : pc.stored i = true → (calls c).stored i = true) :
    KeepsAborts cfg i w (Function.update calls c pc) where
  take := h.take
  kept c' haborts hc' := by
    rcases eq_or_ne c' c with rfl | hne
    · rw [Function.update_self] at hc'
      exact h.kept c' haborts (hstored hc')
    · rw [Function.update_of_ne hne] at hc'
      exact h.kept c' haborts hc'

end

/-! ## The run -/

namespace Agent

variable {n : ℕ} {cfg : Config} {s s' : Agent n} {e : Event n}

/-- What holds in every state of a run. -/
structure TreatInv (cfg : Config) (s : Agent n) : Prop where
  phased : s.Phased
  names : ∀ i, (s.workers i).TakenNames cfg
  keeps : ∀ i, KeepsAborts cfg i (s.workers i) s.calls

theorem treatInv_initial (cfg : Config) (n : ℕ) (autoboot : Bool) :
    (initial n autoboot).TreatInv cfg where
  phased := phased_initial n autoboot
  names i := by
    have hpc := initial_pc autoboot i
    refine ⟨?_, ?_, nofun, nofun, nofun⟩
    · rcases hpc with hpc | hpc <;> rw [Worker.Launches, hpc] <;> trivial
    · rcases hpc with hpc | hpc <;> rw [hpc] <;> trivial
  keeps i := by
    refine ⟨?_, nofun⟩
    rcases initial_pc autoboot i with hpc | hpc <;> rw [hpc] <;> nofun

theorem TreatInv.step (h : s.TreatInv cfg) (hheeds : s.Heeds cfg e)
    (hstep : s.step cfg e = some s') : s'.TreatInv cfg := by
  have hagent := Step.of_step hstep
  refine ⟨h.phased.step hagent, ?_, ?_⟩
  · apply hagent.forall_workers (P := fun _ w _ => w.TakenNames cfg) h.names
    · rintro i input w rfl hthread
      exact (h.names i).thread hheeds hthread
    · exact fun _ i _ => h.names i
    · exact fun c i _ _ _ hcall => ⟨(h.names i).call hcall, fun j _ => h.names j⟩
  · apply hagent.forall_workers (P := fun i w calls => KeepsAborts cfg i w calls) h.keeps
    · rintro i input w rfl hthread
      exact (h.keeps i).thread hheeds hthread
    · intro c i hc
      refine (h.keeps i).update fun hstored => ?_
      rw [CallPc.stored_enterQueue] at hstored
      cases hstored
    · rintro c i pc w rfl hcall
      refine ⟨(h.keeps i).call (h.phased i).calls (fun hstart => ?_) hcall, fun j hne =>
        (h.keeps j).update (hcall.stored_of_ne hne)⟩
      rw [Heeds, heeds, hstart] at hheeds
      exact hheeds

/-- A step of the thread of one worker. -/
theorem step_thread {i : Fin n} {input : Input} {w : Worker}
    (h : (s.workers i).threadStep cfg input = some w) :
    s.step cfg (.thread i input) = some (s.setWorker i w) := by
  rw [Agent.step, h]
  rfl

/-- A call of `rubic_agent_runner_cooperate` answers the request to abort that it finds. -/
theorem cooperate_serves {i : Fin n} {c : Ctx} (hpc : (s.workers i).pc = .runner)
    (hc : (s.workers i).context = some c) (haborts : cfg.Aborts c) :
    ∃ t, Path (step cfg) anyStep s (cooperation i) t ∧
      ⟨some c, .null, 0⟩ ∈ (t.workers i).replies ∧ (t.workers i).state = .aborting := by
  let w := s.workers i
  let w1 := w.goto (.cooperate .read)
  let w2 := w1.goto (.cooperate (.clear c))
  let w3 := { w2 with context := none }.goto (.cooperate (.abort c))
  let w4 := { w3 with state := .aborting }.goto (.cooperate (.reply c 0))
  let w5 := (w4.callback (some c) .null 0).goto .runner
  have h1 : w.threadStep cfg .cooperate = some w1 := by
    simp only [w, Worker.threadStep, hpc, w1]
  have h2 : w1.threadStep cfg .none = some w2 := by
    have hread : w1.context = some c := hc
    show some (w1.cooperateStep cfg .read) = some w2
    rw [Worker.cooperateStep, hread]
  have h3 : w2.threadStep cfg .none = some w3 := by
    have hnext : cooperateNext (cfg.params c).name c = .abort c := if_pos haborts
    show some (w2.cooperateStep cfg (.clear c)) = some w3
    rw [Worker.cooperateStep, hnext]
  have hpath : Path (step cfg) anyStep s (cooperation i)
      (((((s.setWorker i w1).setWorker i w2).setWorker i w3).setWorker i w4).setWorker i w5) := by
    refine Path.snoc (Path.snoc (Path.snoc (Path.snoc (Path.snoc .nil trivial (step_thread h1))
      trivial (step_thread (w := w2) ?_)) trivial (step_thread (w := w3) ?_)) trivial
        (step_thread (w := w4) ?_)) trivial (step_thread (w := w5) ?_)
    · rw [setWorker_self]; exact h2
    · rw [setWorker_self]; exact h3
    · rw [setWorker_self]; rfl
    · rw [setWorker_self]; rfl
  refine ⟨_, hpath, ?_, ?_⟩ <;> rw [setWorker_self]
  · exact List.mem_append_right _ (List.mem_singleton.mpr rfl)
  · rfl

theorem TreatInv.treats (h : s.TreatInv cfg) : s.Treats cfg where
  invoked i hpc := (h.names i).runsFor hpc
  answers i := (h.names i).answers
  kept c i haborts hc := by
    have hstored : (s.calls c).stored i = true := by rw [hc]; exact decide_eq_true rfl
    rcases (h.keeps i).kept c haborts hstored with ha | hslot | hab | hre
    · exact .inl ha
    · exact .inr (.inl hslot)
    · exact .inr (.inr (.inr (.inr (.inl hab))))
    · exact .inr (.inr (.inr (.inr (.inr (.inr (.inr ⟨0, hre⟩))))))
  served _ _ hpc hc haborts := cooperate_serves hpc hc haborts

end Agent

/-- **Treatment by name.** In every run in which the worker takes no request that is not to start a
script, `rubic_agent_runner_notify_init` replies to none that is to abort, and none that is to abort
is written over, a runner runs for autoboot or for a request to start a script, and the requests to
abort are answered with success and a null result. -/
theorem requests_treated (cfg : Config) (n : ℕ) (autoboot : Bool) (es : List (Event n))
    (s : Agent n) (h : Path (Agent.step cfg) (Agent.Heeds cfg) (.initial n autoboot) es s) :
    s.Treats cfg := by
  have hinv : s.TreatInv cfg := h.invariant (Agent.treatInv_initial cfg n autoboot)
    fun s e t hI hheeds hstep => hI.step hheeds hstep
  exact hinv.treats

/-- Request 1 is for the first worker and to abort, and all others are to start a script. -/
def startAndAbort : Config where
  runtimes := [abortName]
  params c := ⟨if c = 1 then 0 else -1, if c = 1 then abortName else startName, none, none,
    some startName, 0⟩

/-- `requests_treated` of a run in which a script is started and aborted. -/
theorem requests_treated_abort : ∃ es s,
    Path (Agent.step startAndAbort) (Agent.Heeds startAndAbort) (.initial 1 false) es s ∧
      s.calls 1 = .queued 0 ∧ (s.workers 0).Answered 1 ∧ s.Treats startAndAbort := by
  have hrun : (exec (Agent.step startAndAbort) (Agent.Heeds startAndAbort) (.initial 1 false)
      (threadSteps 5 ++ callSteps 7 2 ++ threadSteps 6 ++ [.thread 0 (.notifyInit true)] ++
        threadSteps 4 ++ callSteps 6 1 ++ cooperation 0)).isSome = true := by decide
  refine ⟨_, _, path_get hrun, rfl, ⟨⟨some 1, .null, 0⟩, ?_, rfl⟩,
    requests_treated _ _ _ _ _ (path_get hrun)⟩
  exact List.mem_cons_of_mem _ (List.mem_singleton.mpr rfl)

/-- The request to abort is queued while no script runs, and the worker takes it. -/
theorem abortStarts_runs : (exec (Agent.step startAndAbort) anyStep (.initial 1 false)
    (threadSteps 5 ++ callSteps 6 1 ++ threadSteps 6)).isSome = true := by decide

/-- A runner runs for the request to abort. -/
theorem not_requests_treated : ¬ ∀ (cfg : Config) (n : ℕ) (autoboot : Bool)
    (es : List (Event n)) (s : Agent n),
    Path (Agent.step cfg) anyStep (.initial n autoboot) es s → s.Treats cfg := by
  intro h
  have hruns := (h startAndAbort 1 false _ _ (path_get abortStarts_runs)).invoked 0 rfl
  rcases hruns with hboot | ⟨c, hc, hstarts⟩
  · cases hboot
  · cases hc
    exact absurd hstarts (by decide)

end OlivePiccolo.RubicAgent
