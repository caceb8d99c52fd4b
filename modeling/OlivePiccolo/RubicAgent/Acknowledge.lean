import OlivePiccolo.RubicAgent.Phases

/-!
# What `rubic_agent_runner_notify_init` replies to

It replies to whatever request is in `worker->context`. That is the `start` request only if a `start`
request has launched the script, and if the runner has not asked for requests before.
-/

namespace OlivePiccolo.RubicAgent

open Runs

/-! ## Scripts -/

/-- The agent, and in which workers the running script has called
`rubic_agent_runner_notify_init`. -/
structure Scripts (n : ℕ) where
  agent : Agent n
  notified : Fin n → Bool

/-- The request is for the worker that its `tid` tells. -/
def Params.ByTid (n : ℕ) (p : Params) : Prop := 0 ≤ p.tid ∧ p.tid < n

instance (n : ℕ) (p : Params) : Decidable (p.ByTid n) :=
  inferInstanceAs (Decidable (0 ≤ p.tid ∧ p.tid < n))

/-- Whether the running script has called `rubic_agent_runner_notify_init` after a step. -/
def Input.notified (b : Bool) : Input → Bool
  | .notifyInit _ => true
  | .finish _ => false
  | _ => b

namespace Scripts

variable {n : ℕ}

/-- A runner calls `rubic_agent_runner_notify_init` once. -/
def mayTake (s : Scripts n) : Event n → Bool
  | .thread i (.notifyInit _) => !s.notified i
  | _ => true

def notifiedAfter (s : Scripts n) : Event n → Fin n → Bool
  | .thread i input => Function.update s.notified i (input.notified (s.notified i))
  | .call _ => s.notified

/-- One step of the agent, with runners that call `rubic_agent_runner_notify_init` once. -/
def step (cfg : Config) (s : Scripts n) (e : Event n) : Option (Scripts n) :=
  if s.mayTake e then (s.agent.step cfg e).map (⟨·, s.notifiedAfter e⟩) else none

def initial (n : ℕ) (autoboot : Bool) : Scripts n := ⟨.initial n autoboot, fun _ => false⟩

/-- `rubic_agent_runner_notify_init` replies to the `start` request that has launched the script,
which has not been queued by `tid`. -/
def Acknowledges (cfg : Config) (s : Scripts n) : Prop :=
  ∀ i ok context, (s.agent.workers i).pc = .notifyInit ok (.reply context) →
    ∃ c, context = some c ∧ (s.agent.workers i).localContext = some c ∧
      (cfg.params c).name = startName ∧ ¬ (cfg.params c).ByTid n

/-- A request that launches a script has not been queued by `tid`. A script that has been booted does
not call `rubic_agent_runner_notify_init`, and any other calls it before
`rubic_agent_runner_cooperate`. -/
def prompt (cfg : Config) (s : Scripts n) : Event n → Bool
  | .thread i input =>
    match (s.agent.workers i).pc, input with
    | .readContext, _ => (s.agent.workers i).context.all fun c => ¬ (cfg.params c).ByTid n
    | .runner, .notifyInit _ => (s.agent.workers i).localContext.isSome
    | .runner, .cooperate => (s.agent.workers i).localContext.isNone || s.notified i
    | _, _ => true
  | .call _ => true

def Prompt (cfg : Config) (s : Scripts n) (e : Event n) : Prop := s.prompt cfg e = true

instance (cfg : Config) (s : Scripts n) (e : Event n) : Decidable (s.Prompt cfg e) :=
  inferInstanceAs (Decidable (s.prompt cfg e = true))

end Scripts

/-! ## The request in the slot -/

/-- The script of the thread has not been acknowledged, and its request is still in the slot. -/
def Pc.awaits (notified : Bool) : Pc → Bool
  | .bootStarting | .bootUnlock | .setStarting | .unlockRequest | .invoke
  | .notifyInit _ .read => true
  | .runner => !notified
  | _ => false

theorem Pc.awaits_of_resting {pc : Pc} (notified : Bool) (h : pc.resting = true) :
    pc.awaits notified = false := by
  cases pc <;> first | rfl | cases h

/-- A request that starts a script and has not been queued by `tid`. -/
def Config.Starts (cfg : Config) (n : ℕ) (c : Ctx) : Prop :=
  (cfg.params c).name = startName ∧ ¬ (cfg.params c).ByTid n

/-- What the thread knows of the request that has launched its script. -/
structure Worker.Launched (cfg : Config) (n : ℕ) (w : Worker) (notified : Bool) : Prop where
  awaits : w.pc.awaits notified = true → ∀ c, w.localContext = some c →
    w.context = some c ∧ cfg.Starts n c
  notifying : ∀ ok pc, w.pc = .notifyInit ok pc → notified = true
  cooperating : ∀ pc, w.pc = .cooperate pc → w.localContext = none ∨ notified = true
  read : ∀ ok, w.pc = .notifyInit ok .read → w.localContext ≠ none
  reply : ∀ ok context, w.pc = .notifyInit ok (.reply context) →
    ∃ c, context = some c ∧ w.localContext = some c ∧ cfg.Starts n c

namespace Worker

variable {cfg : Config} {n : ℕ} {w w' : Worker} {notified : Bool} {input : Input}

/-- Outside of the callbacks nothing is said but of the slot. -/
theorem Launched.of_awaits (hnotify : ∀ ok pc, w.pc ≠ .notifyInit ok pc)
    (hcooperate : ∀ pc, w.pc ≠ .cooperate pc)
    (h : w.pc.awaits notified = true → ∀ c, w.localContext = some c →
      w.context = some c ∧ cfg.Starts n c) : w.Launched cfg n notified where
  awaits := h
  notifying ok pc hpc := absurd hpc (hnotify ok pc)
  cooperating pc hpc := absurd hpc (hcooperate pc)
  read ok hpc := absurd hpc (hnotify ok .read)
  reply ok context hpc := absurd hpc (hnotify ok (.reply context))

theorem Launched.notifyInitStep (h : w.Launched cfg n notified) {ok : Bool} {pc : NotifyPc}
    (hpc : w.pc = .notifyInit ok pc) : (w.notifyInitStep ok pc).Launched cfg n notified := by
  have hnotified := h.notifying ok pc hpc
  cases pc with
  | read =>
    refine ⟨nofun, fun _ _ _ => hnotified, nofun, nofun, fun ok' context hreply => ?_⟩
    obtain ⟨c, hc⟩ := Option.ne_none_iff_exists'.mp (h.read ok hpc)
    obtain ⟨hcontext, hstarts⟩ := h.awaits (by rw [hpc]; rfl) c hc
    cases hreply
    exact ⟨c, hcontext, hc, hstarts⟩
  | reply context => exact ⟨nofun, fun _ _ _ => hnotified, nofun, nofun, nofun⟩
  | clear context => exact ⟨nofun, fun _ _ _ => hnotified, nofun, nofun, nofun⟩
  | setState =>
    refine .of_awaits nofun nofun fun hawaits => ?_
    rw [hnotified] at hawaits
    cases hawaits

theorem Launched.cooperateStep (h : w.Launched cfg n notified) {pc : CooperatePc}
    (hpc : w.pc = .cooperate pc) : (w.cooperateStep cfg pc).Launched cfg n notified := by
  have hlocal := w.cooperateStep_local cfg pc
  have hcooperating := h.cooperating pc hpc
  rw [← hlocal] at hcooperating
  have hrunner (hpc : (w.cooperateStep cfg pc).pc = .runner) :
      (w.cooperateStep cfg pc).Launched cfg n notified := by
    refine .of_awaits (by rw [hpc]; nofun) (by rw [hpc]; nofun) fun hawaits c hc => ?_
    rcases hcooperating with hnone | hnotified
    · cases hnone.symm.trans hc
    · rw [hpc, hnotified] at hawaits
      cases hawaits
  obtain ⟨-, hpc' | ⟨pc', hpc'⟩⟩ := w.cooperateStep_outside cfg pc
  · exact hrunner hpc'
  · constructor <;> rw [hpc']
    exacts [nofun, nofun, fun _ _ => hcooperating, nofun, nofun]

/-- **One step of a thread.** -/
theorem Launched.thread (h : w.Launched cfg n notified)
    (hread : w.pc = .readContext → ∀ c, w.context = some c → cfg.Starts n c)
    (hnotify : ∀ ok, input = .notifyInit ok → notified = false ∧ w.localContext ≠ none)
    (hcooperate : input = .cooperate → w.localContext = none ∨ notified = true)
    (hstep : ThreadStep cfg w input w') : w'.Launched cfg n (input.notified notified) := by
  cases hstep with
  | boot runtime path hpc hstate => exact .of_awaits nofun nofun nofun
  | bootStarting hpc | setStarting hpc | invoke hpc hjob =>
    exact .of_awaits nofun nofun fun _ => h.awaits (by rw [hpc]; rfl)
  | bootUnlock hpc | unlockRequest c hpc hc =>
    obtain ⟨owner, ho⟩ := w.unlock_eq .thread
    rw [ho]
    exact .of_awaits nofun nofun fun _ => h.awaits (by rw [hpc]; rfl)
  | unlockIdle hpc | unlockNone hpc hnone => exact .of_awaits nofun nofun nofun
  | readNone hpc hnone =>
    refine .of_awaits nofun nofun fun _ c hc => ?_
    cases hnone.symm.trans hc
  | readContext c hpc hc => exact .of_awaits nofun nofun fun _ c' hc' => ⟨hc', hread hpc c' hc'⟩
  | notifyInit ok hpc =>
    obtain ⟨hnotified, hlocal⟩ := hnotify ok rfl
    exact ⟨fun _ => h.awaits (by rw [hpc, hnotified]; rfl), fun _ _ _ => rfl, nofun,
      fun _ _ => hlocal, nofun⟩
  | cooperate hpc => exact ⟨nofun, nofun, fun _ _ => hcooperate rfl, nofun, nofun⟩
  | notifyInitStep ok pc hpc => exact h.notifyInitStep hpc
  | cooperateStep pc hpc => exact h.cooperateStep hpc
  | _ => exact .of_awaits nofun nofun nofun

/-- A call stores no request while the thread waits with its own in the slot. -/
theorem Launched.call {c : Ctx} {i : Fin n} {calls : Ctx → CallPc n} {pc : CallPc n}
    (h : w.Launched cfg n notified) (hphased : CallsPlaced i w calls)
    (hstep : CallStep c i w (calls c) pc w') : w'.Launched cfg n notified := by
  obtain ⟨hpc, hlocal, -⟩ := hstep.thread_same
  refine ⟨fun hawaits c' hc' => ?_, ?_, ?_, ?_, ?_⟩
  · rw [hpc] at hawaits
    rw [hlocal] at hc'
    obtain ⟨hcontext, hstarts⟩ := h.awaits hawaits c' hc'
    obtain hsame | ⟨htid | hstart, -⟩ := hstep.context
    · exact ⟨hsame.trans hcontext, hstarts⟩
    · cases (hphased.tidStore c htid).symm.trans hcontext
    · rw [Pc.awaits_of_resting notified (hphased.startStore c hstart).1] at hawaits
      cases hawaits
  all_goals rw [hpc]
  · exact h.notifying
  · rw [hlocal]; exact h.cooperating
  · rw [hlocal]; exact h.read
  · rw [hlocal]; exact h.reply

end Worker

/-! ## The run -/

/-- A call that has not got past its first step, or has been refused. -/
def CallPc.refused {n : ℕ} : CallPc n → Bool
  | .enter | .failed _ => true
  | _ => false

theorem CallPc.refused_of_stored {n : ℕ} {i : Fin n} {pc : CallPc n} (h : pc.stored i = true) :
    pc.refused = false := by
  cases pc <;> first | rfl | cases h

/-- What holds in every state of a run. -/
structure Scripts.Inv {n : ℕ} (cfg : Config) (s : Scripts n) : Prop where
  phased : s.agent.Phased
  stored : s.agent.Stored
  named : ∀ c, (s.agent.calls c).refused = true ∨ (cfg.params c).ByTid n ∨
    (cfg.params c).name = startName
  launched : ∀ i, (s.agent.workers i).Launched cfg n (s.notified i)

namespace Scripts

variable {n : ℕ} {cfg : Config} {s s' : Scripts n} {e : Event n}

theorem notifiedAfter_self (s : Scripts n) (i : Fin n) (input : Input) :
    s.notifiedAfter (.thread i input) i = input.notified (s.notified i) := Function.update_self ..

theorem notifiedAfter_of_ne (s : Scripts n) {i j : Fin n} (input : Input) (h : j ≠ i) :
    s.notifiedAfter (.thread i input) j = s.notified j := Function.update_of_ne h ..

theorem enterQueue_named (p : Params) :
    (enterQueue n p).refused = true ∨ p.ByTid n ∨ p.name = startName := by
  unfold enterQueue
  split_ifs with htid hname
  exacts [.inr (.inl htid), .inr (.inr hname), .inl rfl]

theorem Inv.named_step {t : Agent n} (h : s.Inv cfg) (hstep : Agent.Step cfg s.agent e t)
    (c : Ctx) : (t.calls c).refused = true ∨ (cfg.params c).ByTid n ∨
      (cfg.params c).name = startName := by
  cases hstep with
  | thread i input w hthread => exact h.named c
  | enter c' hc' =>
    rcases eq_or_ne c c' with rfl | hne
    · rw [Agent.setCall_self]
      exact enterQueue_named _
    · rw [Agent.setCall_of_ne _ hne]
      exact h.named c
  | call c' i pc w hcall =>
    rw [Agent.setWorker_calls]
    rcases eq_or_ne c c' with rfl | hne
    · right
      refine (h.named c).resolve_left fun hrefused => ?_
      generalize s.agent.calls c = old at hcall hrefused
      cases hcall <;> cases hrefused
    · rw [Agent.setCall_of_ne _ hne]
      exact h.named c

/-- A step of a prompt run keeps the invariant. -/
theorem Inv.step (h : s.Inv cfg) (hprompt : s.Prompt cfg e) (hstep : s.step cfg e = some s') :
    s'.Inv cfg := by
  rw [Scripts.step, Option.ite_none_right_eq_some] at hstep
  obtain ⟨hmay, hmap⟩ := hstep
  obtain ⟨t, ht, rfl⟩ := Option.map_eq_some_iff.mp hmap
  have hagent := Agent.Step.of_step ht
  refine ⟨h.phased.step hagent, h.stored.step hagent, h.named_step hagent, fun j => ?_⟩
  cases hagent with
  | thread i input w hthread =>
    rcases eq_or_ne j i with rfl | hne
    · show ((s.agent.setWorker j w).workers j).Launched cfg n (s.notifiedAfter (.thread j input) j)
      rw [Agent.setWorker_self, notifiedAfter_self]
      refine (h.launched j).thread ?_ ?_ ?_ hthread
      · intro hpc c hc
        have hstored := h.stored j c (.inl hc)
        have htid : ¬ (cfg.params c).ByTid n := by
          simpa only [Prompt, prompt, hpc, hc, Option.all_some, decide_eq_true_eq] using hprompt
        refine ⟨?_, htid⟩
        rcases h.named c with hrefused | htid' | hname
        · cases (CallPc.refused_of_stored hstored).symm.trans hrefused
        · exact absurd htid' htid
        · exact hname
      · rintro ok rfl
        cases hthread with
        | notifyInit ok hpc =>
          refine ⟨Bool.not_eq_true' _ ▸ hmay, Option.isSome_iff_ne_none.mp ?_⟩
          simpa only [Prompt, prompt, hpc] using hprompt
      · rintro rfl
        cases hthread with
        | cooperate hpc =>
          simpa only [Prompt, prompt, hpc, Bool.or_eq_true, Option.isNone_iff_eq_none] using hprompt
    · show ((s.agent.setWorker i w).workers j).Launched cfg n (s.notifiedAfter (.thread i input) j)
      rw [Agent.setWorker_of_ne _ hne, notifiedAfter_of_ne s input hne]
      exact h.launched j
  | enter c hc => exact h.launched j
  | call c i pc w hcall =>
    rcases eq_or_ne j i with rfl | hne
    · show (Worker.Launched cfg n (((s.agent.setCall c pc).setWorker j w).workers j) (s.notified j))
      rw [Agent.setWorker_self]
      exact (h.launched j).call (h.phased j).calls hcall
    · show (Worker.Launched cfg n (((s.agent.setCall c pc).setWorker i w).workers j) (s.notified j))
      rw [Agent.setWorker_of_ne _ hne]
      exact h.launched j

theorem inv_initial (cfg : Config) (n : ℕ) (autoboot : Bool) : (initial n autoboot).Inv cfg where
  phased := Agent.phased_initial n autoboot
  stored := Agent.stored_initial n autoboot
  named _ := .inl rfl
  launched i := by
    rcases Agent.initial_pc autoboot i with hpc | hpc
    all_goals exact .of_awaits (by rw [initial, hpc]; nofun) (by rw [initial, hpc]; nofun) nofun

end Scripts

/-- **Acknowledgement.** In every run in which only requests that have not been queued by `tid`
launch scripts, and each script that calls `rubic_agent_runner_notify_init` has been launched by
one and calls it before `rubic_agent_runner_cooperate`, the reply goes to the request that has
launched the script. -/
theorem start_acknowledged (cfg : Config) (n : ℕ) (autoboot : Bool) (es : List (Event n))
    (s : Scripts n)
    (h : Path (Scripts.step cfg) (Scripts.Prompt cfg) (.initial n autoboot) es s) :
    s.Acknowledges cfg := by
  have hinv : s.Inv cfg := h.invariant (Scripts.inv_initial cfg n autoboot)
    fun s e t hI hprompt hstep => hI.step hprompt hstep
  intro i ok context hpc
  exact (hinv.launched i).reply ok context hpc

/-- `start_acknowledged` of a run in which a script is started and calls
`rubic_agent_runner_notify_init`. -/
theorem start_acknowledged_start : ∃ es s,
    Path (Scripts.step startAndTid) (Scripts.Prompt startAndTid) (.initial 1 false) es s ∧
      (s.agent.workers 0).pc = .notifyInit true (.reply (some 2)) ∧ s.Acknowledges startAndTid := by
  have hrun : (exec (Scripts.step startAndTid) (Scripts.Prompt startAndTid) (.initial 1 false)
      (threadSteps 5 ++ callSteps 7 2 ++ threadSteps 6 ++ [.thread 0 (.notifyInit true)] ++
        threadSteps 1)).isSome = true := by decide
  exact ⟨_, _, path_get hrun, rfl, start_acknowledged _ _ _ _ _ (path_get hrun)⟩

/-- A script that has been booted calls `rubic_agent_runner_notify_init`. -/
theorem bootedNotify_runs : (exec (Scripts.step startAndTid) anyStep (.initial 1 true)
    (threadSteps 2 ++ [.thread 0 (.boot (some (some 0, startName)))] ++ threadSteps 3 ++
      [.thread 0 (.notifyInit true)] ++ threadSteps 1)).isSome = true := by decide

/-- The reply to it is for no request. -/
theorem not_start_acknowledged : ¬ ∀ (cfg : Config) (n : ℕ) (autoboot : Bool)
    (es : List (Event n)) (s : Scripts n),
    Path (Scripts.step cfg) anyStep (.initial n autoboot) es s → s.Acknowledges cfg := by
  intro h
  obtain ⟨c, hc, -⟩ :=
    h startAndTid 1 true _ _ (path_get bootedNotify_runs) 0 true none rfl
  cases hc

end OlivePiccolo.RubicAgent
