import OlivePiccolo.RubicAgent.Queue

/-!
# What a step does

The steps of a worker's thread and those of a call at a worker, each as a relation with one
constructor for every place in the source. What holds over a run is proved by cases on them.
-/

namespace OlivePiccolo.RubicAgent

/-- What a step of a worker's thread does. -/
inductive Worker.ThreadStep (cfg : Config) (w : Worker) : Input → Worker → Prop
  | service (autoboot : Bool) (hpc : w.pc = .service autoboot) :
      ThreadStep cfg w .none
        ({ w with state := if autoboot then .autoboot else w.state }.goto .entry)
  | entry (hpc : w.pc = .entry) (hfree : w.owner = none ∨ w.owner = some .thread) :
      ThreadStep cfg w .none ({ w with owner := some .thread }.goto .top)
  | bootNone (hpc : w.pc = .top) (hstate : w.state = .autoboot) :
      ThreadStep cfg w (.boot none) (w.goto .bootFailed)
  | boot (runtime : Option ℕ) (path : CString) (hpc : w.pc = .top) (hstate : w.state = .autoboot) :
      ThreadStep cfg w (.boot (some (runtime, path)))
        ({ w with localContext := none, job := ⟨runtime, some path, true, false, true⟩ }.goto
          .bootStarting)
  | top (hpc : w.pc = .top) (hstate : w.state ≠ .autoboot) :
      ThreadStep cfg w .none (w.goto .setIdle)
  | bootFailed (hpc : w.pc = .bootFailed) :
      ThreadStep cfg w .none ({ w with state := .idle }.goto .top)
  | bootStarting (hpc : w.pc = .bootStarting) :
      ThreadStep cfg w .none ({ w with state := .starting }.goto .bootUnlock)
  | bootUnlock (hpc : w.pc = .bootUnlock) :
      ThreadStep cfg w .none ((w.unlock .thread).goto .invoke)
  | setIdle (hpc : w.pc = .setIdle) :
      ThreadStep cfg w .none ({ w with state := .idle }.goto .unlockIdle)
  | unlockIdle (hpc : w.pc = .unlockIdle) :
      ThreadStep cfg w .none ((w.unlock .thread).goto .semWait)
  | semWait (hpc : w.pc = .semWait) (hpos : 0 < w.sem) :
      ThreadStep cfg w .none ({ w with sem := w.sem - 1 }.goto .lockRequest)
  | lockRequest (hpc : w.pc = .lockRequest) (hfree : w.owner = none ∨ w.owner = some .thread) :
      ThreadStep cfg w .none ({ w with owner := some .thread }.goto .readContext)
  | readNone (hpc : w.pc = .readContext) (hnone : w.context = none) :
      ThreadStep cfg w .none ({ w with localContext := w.context }.goto .unlockRequest)
  | readContext (c : Ctx) (hpc : w.pc = .readContext) (hc : w.context = some c) :
      ThreadStep cfg w .none ({ w with localContext := w.context }.goto .setStarting)
  | setStarting (hpc : w.pc = .setStarting) :
      ThreadStep cfg w .none ({ w with state := .starting }.goto .unlockRequest)
  | unlockNone (hpc : w.pc = .unlockRequest) (hnone : w.localContext = none) :
      ThreadStep cfg w .none ((w.unlock .thread).goto .top)
  | unlockRequest (c : Ctx) (hpc : w.pc = .unlockRequest) (hc : w.localContext = some c) :
      ThreadStep cfg w .none
        ({ w.unlock .thread with job := (cfg.params c).job cfg.runtimes }.goto .invoke)
  | invalid (hpc : w.pc = .invoke) (hjob : w.job.runtime = none ∨ w.job.fileOrSource = none) :
      ThreadStep cfg w .none ({ w with result := -ESRCH }.goto .clearContext)
  | invoke (hpc : w.pc = .invoke) (hjob : ¬ (w.job.runtime = none ∨ w.job.fileOrSource = none)) :
      ThreadStep cfg w .none (w.goto .runner)
  | notifyInit (ok : Bool) (hpc : w.pc = .runner) :
      ThreadStep cfg w (.notifyInit ok) (w.goto (.notifyInit ok .read))
  | cooperate (hpc : w.pc = .runner) :
      ThreadStep cfg w .cooperate (w.goto (.cooperate .read))
  | finish (result : ℤ) (hpc : w.pc = .runner) :
      ThreadStep cfg w (.finish result) ({ w with result := result }.goto .lockEnd)
  | notifyInitStep (ok : Bool) (pc : NotifyPc) (hpc : w.pc = .notifyInit ok pc) :
      ThreadStep cfg w .none (w.notifyInitStep ok pc)
  | cooperateStep (pc : CooperatePc) (hpc : w.pc = .cooperate pc) :
      ThreadStep cfg w .none (w.cooperateStep cfg pc)
  | lockEnd (hpc : w.pc = .lockEnd) (hfree : w.owner = none ∨ w.owner = some .thread) :
      ThreadStep cfg w .none ({ w with owner := some .thread }.goto .testState)
  | testStarting (hpc : w.pc = .testState) (hstate : w.state = .starting) :
      ThreadStep cfg w .none (w.goto .clearContext)
  | testState (hpc : w.pc = .testState) (hstate : w.state ≠ .starting) :
      ThreadStep cfg w .none (w.goto .readCallback)
  | clearNone (hpc : w.pc = .clearContext) (hnone : w.localContext = none) :
      ThreadStep cfg w .none ({ w with context := none }.goto .readCallback)
  | clearContext (c : Ctx) (hpc : w.pc = .clearContext) (hc : w.localContext = some c) :
      ThreadStep cfg w .none ({ w with context := none }.goto .replyError)
  | replyError (hpc : w.pc = .replyError) :
      ThreadStep cfg w .none ((w.callback w.localContext .null w.result).goto .readCallback)
  | noCallback (hpc : w.pc = .readCallback) (hnone : w.callbackContext = none) :
      ThreadStep cfg w .none ({ w with localContext := w.callbackContext }.goto .top)
  | readCallback (c : Ctx) (hpc : w.pc = .readCallback) (hc : w.callbackContext = some c) :
      ThreadStep cfg w .none ({ w with localContext := w.callbackContext }.goto .clearCallback)
  | clearCallback (hpc : w.pc = .clearCallback) :
      ThreadStep cfg w .none ({ w with callbackContext := none }.goto .replyCallback)
  | replyCallback (ok : Bool) (hpc : w.pc = .replyCallback) :
      ThreadStep cfg w (.malloc ok) ((w.callback w.localContext
        (if ok then .result w.result else .null) (if ok then 0 else -ENOMEM)).goto .top)

namespace Worker

variable {cfg : Config} {w w' : Worker} {input : Input} {p : Party}

theorem lock_eq_some (h : w.lock p = some w') :
    (w.owner = none ∨ w.owner = some p) ∧ w' = { w with owner := some p } := by
  rw [lock, Option.ite_none_right_eq_some] at h
  exact ⟨h.1, (Option.some.inj h.2).symm⟩

theorem unlock_eq (w : Worker) (p : Party) : ∃ owner, w.unlock p = { w with owner := owner } := by
  unfold unlock
  split
  exacts [⟨_, rfl⟩, ⟨_, rfl⟩]

theorem semPost_eq (w : Worker) : ∃ sem, w.semPost = { w with sem := sem } := by
  unfold semPost
  split
  exacts [⟨_, rfl⟩, ⟨_, rfl⟩]

theorem ThreadStep.of_threadStep (h : w.threadStep cfg input = some w') :
    ThreadStep cfg w input w' := by
  unfold threadStep at h
  split at h
  case h_1 autoboot hpc => cases h; exact .service autoboot hpc
  case h_2 hpc =>
    obtain ⟨w1, hlock, rfl⟩ := Option.map_eq_some_iff.mp h
    obtain ⟨hfree, rfl⟩ := lock_eq_some hlock
    exact .entry hpc hfree
  case h_3 file hpc =>
    split_ifs at h with hstate
    split at h
    · cases h; exact .bootNone hpc hstate
    · cases h; exact .boot _ _ hpc hstate
  case h_4 hpc =>
    split_ifs at h with hstate
    cases h
    exact .top hpc hstate
  case h_5 hpc => cases h; exact .bootFailed hpc
  case h_6 hpc => cases h; exact .bootStarting hpc
  case h_7 hpc => cases h; exact .bootUnlock hpc
  case h_8 hpc => cases h; exact .setIdle hpc
  case h_9 hpc => cases h; exact .unlockIdle hpc
  case h_10 hpc =>
    obtain ⟨w1, hwait, rfl⟩ := Option.map_eq_some_iff.mp h
    rw [Worker.semWait, Option.ite_none_right_eq_some] at hwait
    obtain ⟨hpos, heq⟩ := hwait
    cases heq
    exact .semWait hpc hpos
  case h_11 hpc =>
    obtain ⟨w1, hlock, rfl⟩ := Option.map_eq_some_iff.mp h
    obtain ⟨hfree, rfl⟩ := lock_eq_some hlock
    exact .lockRequest hpc hfree
  case h_12 hpc =>
    cases h
    split_ifs with hnone
    · exact .readNone hpc hnone
    · obtain ⟨c, hc⟩ := Option.ne_none_iff_exists'.mp hnone
      exact .readContext c hpc hc
  case h_13 hpc => cases h; exact .setStarting hpc
  case h_14 hpc =>
    split at h
    next hnone => cases h; exact .unlockNone hpc hnone
    next c hc => cases h; exact .unlockRequest c hpc hc
  case h_15 hpc =>
    split_ifs at h with hjob
    · cases h; exact .invalid hpc hjob
    · cases h; exact .invoke hpc hjob
  case h_16 ok hpc => cases h; exact .notifyInit ok hpc
  case h_17 hpc => cases h; exact .cooperate hpc
  case h_18 result hpc => cases h; exact .finish result hpc
  case h_19 ok pc hpc => cases h; exact .notifyInitStep ok pc hpc
  case h_20 pc hpc => cases h; exact .cooperateStep pc hpc
  case h_21 hpc =>
    obtain ⟨w1, hlock, rfl⟩ := Option.map_eq_some_iff.mp h
    obtain ⟨hfree, rfl⟩ := lock_eq_some hlock
    exact .lockEnd hpc hfree
  case h_22 hpc =>
    cases h
    split_ifs with hstate
    · exact .testStarting hpc hstate
    · exact .testState hpc hstate
  case h_23 hpc =>
    cases h
    split_ifs with hnone
    · exact .clearNone hpc hnone
    · obtain ⟨c, hc⟩ := Option.ne_none_iff_exists'.mp hnone
      exact .clearContext c hpc hc
  case h_24 hpc => cases h; exact .replyError hpc
  case h_25 hpc =>
    cases h
    split_ifs with hnone
    · exact .noCallback hpc hnone
    · obtain ⟨c, hc⟩ := Option.ne_none_iff_exists'.mp hnone
      exact .readCallback c hpc hc
  case h_26 hpc => cases h; exact .clearCallback hpc
  case h_27 ok hpc => cases h; exact .replyCallback ok hpc
  case h_28 => cases h

/-- The steps of `rubic_agent_runner_notify_init` and `rubic_agent_runner_cooperate` do not touch
the mutex and stay inside of the runner. -/
theorem notifyInitStep_outside (w : Worker) (ok : Bool) (pc : NotifyPc) :
    (w.notifyInitStep ok pc).owner = w.owner ∧
      ((w.notifyInitStep ok pc).pc = .runner ∨
        ∃ pc', (w.notifyInitStep ok pc).pc = .notifyInit ok pc') := by
  cases pc with
  | read => exact ⟨rfl, .inr ⟨_, rfl⟩⟩
  | reply context => exact ⟨rfl, .inr ⟨_, rfl⟩⟩
  | clear context => exact ⟨rfl, .inr ⟨_, rfl⟩⟩
  | setState => exact ⟨rfl, .inl rfl⟩

theorem cooperateStep_outside (cfg : Config) (w : Worker) (pc : CooperatePc) :
    (w.cooperateStep cfg pc).owner = w.owner ∧
      ((w.cooperateStep cfg pc).pc = .runner ∨
        ∃ pc', (w.cooperateStep cfg pc).pc = .cooperate pc') := by
  cases pc with
  | read =>
    rw [cooperateStep]
    split
    · exact ⟨rfl, .inl rfl⟩
    · exact ⟨rfl, .inr ⟨_, rfl⟩⟩
  | clear c => exact ⟨rfl, .inr ⟨_, rfl⟩⟩
  | abort c => exact ⟨rfl, .inr ⟨_, rfl⟩⟩
  | test c => exact ⟨rfl, .inr ⟨_, rfl⟩⟩
  | store c => exact ⟨rfl, .inl rfl⟩
  | reply c errno => exact ⟨rfl, .inl rfl⟩

theorem cooperateStep_local (cfg : Config) (w : Worker) (pc : CooperatePc) :
    (w.cooperateStep cfg pc).localContext = w.localContext := by
  cases pc with
  | read => rw [cooperateStep]; split <;> rfl
  | clear c | abort c | test c | store c | reply c errno => rfl

end Worker

/-! ## Calls -/

/-- What a step of a call does at a worker. -/
inductive CallStep {n : ℕ} (c : Ctx) (i : Fin n) (w : Worker) : CallPc n → CallPc n → Worker → Prop
  | tidLock (hfree : w.owner = none ∨ w.owner = some (.call c)) :
      CallStep c i w (.tidLock i) (.tidTest i) { w with owner := some (.call c) }
  | tidEmpty (hnone : w.context = none) : CallStep c i w (.tidTest i) (.tidStore i) w
  | tidTaken (hsome : w.context ≠ none) : CallStep c i w (.tidTest i) (.tidBusy i) w
  | tidBusy : CallStep c i w (.tidBusy i) (.failed (-EBUSY)) (w.unlock (.call c))
  | tidStore : CallStep c i w (.tidStore i) (.unlock i) { w with context := some c }
  | startLock (hfree : w.owner = none ∨ w.owner = some (.call c)) :
      CallStep c i w (.startLock i) (.startTest i) { w with owner := some (.call c) }
  | startIdle (hidle : w.state = .idle) : CallStep c i w (.startTest i) (.startState i) w
  | startOther (hidle : w.state ≠ .idle) : CallStep c i w (.startTest i) (.startSkip i) w
  | startSkip : CallStep c i w (.startSkip i) (startNext n (i + 1)) (w.unlock (.call c))
  | startState : CallStep c i w (.startState i) (.startStore i) { w with state := .starting }
  | startStore : CallStep c i w (.startStore i) (.unlock i) { w with context := some c }
  | unlock : CallStep c i w (.unlock i) (.post i) (w.unlock (.call c))
  | post : CallStep c i w (.post i) (.queued i) w.semPost

section

variable {n : ℕ} {c : Ctx} {i : Fin n} {pc pc' : CallPc n} {w w' : Worker}

theorem CallStep.of_callStep (htarget : pc.target = some i)
    (h : callStep c pc w = some (pc', w')) : CallStep c i w pc pc' w' := by
  cases pc with
  | enter | queued | failed => cases htarget
  | tidLock j =>
    cases htarget
    obtain ⟨w1, hlock, heq⟩ := Option.map_eq_some_iff.mp h
    cases heq
    obtain ⟨hfree, rfl⟩ := Worker.lock_eq_some hlock
    exact .tidLock hfree
  | startLock j =>
    cases htarget
    obtain ⟨w1, hlock, heq⟩ := Option.map_eq_some_iff.mp h
    cases heq
    obtain ⟨hfree, rfl⟩ := Worker.lock_eq_some hlock
    exact .startLock hfree
  | tidTest j =>
    cases htarget
    cases h
    split_ifs with hnone
    · exact .tidEmpty hnone
    · exact .tidTaken hnone
  | startTest j =>
    cases htarget
    cases h
    split_ifs with hidle
    · exact .startIdle hidle
    · exact .startOther hidle
  | tidBusy j => cases htarget; cases h; exact .tidBusy
  | tidStore j => cases htarget; cases h; exact .tidStore
  | startSkip j => cases htarget; cases h; exact .startSkip
  | startState j => cases htarget; cases h; exact .startState
  | startStore j => cases htarget; cases h; exact .startStore
  | unlock j => cases htarget; cases h; exact .unlock
  | post j => cases htarget; cases h; exact .post

/-- A call leaves the thread where it is. -/
theorem CallStep.thread_same (h : CallStep c i w pc pc' w') :
    w'.pc = w.pc ∧ w'.localContext = w.localContext ∧ w'.callbackContext = w.callbackContext ∧
      w'.replies = w.replies := by
  cases h with
  | tidBusy | startSkip | unlock =>
    obtain ⟨owner, ho⟩ := w.unlock_eq (.call c)
    rw [ho]
    exact ⟨rfl, rfl, rfl, rfl⟩
  | post =>
    obtain ⟨sem, hsem⟩ := w.semPost_eq
    rw [hsem]
    exact ⟨rfl, rfl, rfl, rfl⟩
  | _ => exact ⟨rfl, rfl, rfl, rfl⟩

theorem CallStep.job (h : CallStep c i w pc pc' w') : w'.job = w.job := by
  cases h with
  | tidBusy | startSkip | unlock =>
    obtain ⟨owner, ho⟩ := w.unlock_eq (.call c)
    rw [ho]
  | post =>
    obtain ⟨sem, hsem⟩ := w.semPost_eq
    rw [hsem]
  | _ => rfl

/-- A call writes `worker->context` only to store its request there. -/
theorem CallStep.context (h : CallStep c i w pc pc' w') :
    w'.context = w.context ∨
      (pc = .tidStore i ∨ pc = .startStore i) ∧ pc' = .unlock i ∧ w'.context = some c := by
  cases h with
  | tidStore => exact .inr ⟨.inl rfl, rfl, rfl⟩
  | startStore => exact .inr ⟨.inr rfl, rfl, rfl⟩
  | tidBusy | startSkip | unlock =>
    obtain ⟨owner, ho⟩ := w.unlock_eq (.call c)
    rw [ho]
    exact .inl rfl
  | post =>
    obtain ⟨sem, hsem⟩ := w.semPost_eq
    rw [hsem]
    exact .inl rfl
  | _ => exact .inl rfl

end

/-! ## The agent -/

namespace Agent

variable {n : ℕ} {cfg : Config} {s s' : Agent n} {e : Event n}

/-- What a step of the agent does. -/
inductive Step (cfg : Config) (s : Agent n) : Event n → Agent n → Prop
  | thread (i : Fin n) (input : Input) (w : Worker)
      (hstep : Worker.ThreadStep cfg (s.workers i) input w) :
      Step cfg s (.thread i input) (s.setWorker i w)
  | enter (c : Ctx) (henter : s.calls c = .enter) :
      Step cfg s (.call c) (s.setCall c (enterQueue n (cfg.params c)))
  | call (c : Ctx) (i : Fin n) (pc : CallPc n) (w : Worker)
      (hstep : CallStep c i (s.workers i) (s.calls c) pc w) :
      Step cfg s (.call c) ((s.setCall c pc).setWorker i w)

theorem Step.of_step (h : s.step cfg e = some s') : Step cfg s e s' := by
  cases e with
  | thread i input =>
    obtain ⟨w, hw, rfl⟩ := Option.map_eq_some_iff.mp h
    exact .thread i input w (.of_threadStep hw)
  | call c =>
    rw [step] at h
    split at h
    · rw [Option.ite_none_right_eq_some] at h
      cases h.2
      exact .enter c h.1
    · rename_i i htarget
      obtain ⟨⟨pc, w⟩, hcall, rfl⟩ := Option.map_eq_some_iff.mp h
      exact .call c i pc w (.of_callStep htarget hcall)

/-- What every worker keeps, with the calls as they are, holds after a step. -/
theorem Step.forall_workers {P : Fin n → Worker → (Ctx → CallPc n) → Prop}
    (hs : ∀ i, P i (s.workers i) s.calls) (h : Step cfg s e s')
    (hthread : ∀ i input w, e = .thread i input → Worker.ThreadStep cfg (s.workers i) input w →
      P i w s.calls)
    (henter : ∀ c i, s.calls c = .enter →
      P i (s.workers i) (Function.update s.calls c (enterQueue n (cfg.params c))))
    (hcall : ∀ c i pc w, e = .call c → CallStep c i (s.workers i) (s.calls c) pc w →
      P i w (Function.update s.calls c pc) ∧
        ∀ j, j ≠ i → P j (s.workers j) (Function.update s.calls c pc)) :
    ∀ i, P i (s'.workers i) s'.calls := by
  intro j
  cases h with
  | thread i input w hstep =>
    rcases eq_or_ne j i with rfl | hne
    · rw [setWorker_self]
      exact hthread j input w rfl hstep
    · rw [setWorker_of_ne s hne]
      exact hs j
  | enter c hc => exact henter c j hc
  | call c i pc w hstep =>
    obtain ⟨hself, hothers⟩ := hcall c i pc w rfl hstep
    rcases eq_or_ne j i with rfl | hne
    · rw [setWorker_self]
      exact hself
    · rw [setWorker_of_ne _ hne]
      exact hothers j hne

end Agent

end OlivePiccolo.RubicAgent
