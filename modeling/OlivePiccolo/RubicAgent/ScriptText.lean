import OlivePiccolo.RubicAgent.Phases

/-!
# The text of a running script

`file_or_source` points into the job of its request, and every reply frees the job it is for. The
runner of Duktape evaluates the script after `rubic_agent_runner_notify_init` has returned 0, that
is, after the reply to the request. What keeps the text alive up to there is that a request in
`worker->context` has not been answered (`Worker.Fresh`).
-/

namespace OlivePiccolo.RubicAgent

open Runs

/-! ## The request in the slot has not been answered -/

namespace Worker

/-- The request that the thread has taken out of the shared fields, and is going to answer or to
store. -/
def taken (w : Worker) : Option Ctx :=
  match w.pc with
  | .cooperate (.abort c) | .cooperate (.test c) | .cooperate (.store c)
  | .cooperate (.reply c _) => some c
  | .replyError | .clearCallback | .replyCallback => w.localContext
  | _ => none

/-- The request in `worker->context` is there once and has not been answered, but for the moment in
which `rubic_agent_runner_notify_init` has replied to it. -/
structure Fresh (w : Worker) : Prop where
  slot : ∀ c, w.context = some c → w.Answered c → ∃ ok, w.pc = .notifyInit ok (.clear (some c))
  callback : ∀ c, w.callbackContext = some c → w.context ≠ some c
  taken : ∀ c, w.taken = some c → w.context ≠ some c

variable {cfg : Config} {w w' : Worker} {input : Input}

theorem Fresh.of_empty (h : w.context = none) : w.Fresh where
  slot _ hc := nomatch h.symm.trans hc
  callback _ _ hc := nomatch h.symm.trans hc
  taken _ _ hc := nomatch h.symm.trans hc

/-- Where it has not replied to the request in the slot. -/
theorem Fresh.unanswered (h : w.Fresh) (hpc : ∀ ok c, w.pc ≠ .notifyInit ok (.clear (some c)))
    {c : Ctx} (hc : w.context = some c) : ¬ w.Answered c := by
  intro hanswered
  obtain ⟨ok, hclear⟩ := h.slot c hc hanswered
  exact hpc ok c hclear

/-- A step that leaves the slot alone and answers no request. -/
theorem Fresh.of_same (h : w.Fresh) (hpc : ∀ ok c, w.pc ≠ .notifyInit ok (.clear (some c)))
    (hcontext : w'.context = w.context) (hreplies : w'.replies = w.replies)
    (hcallback : w'.callbackContext = w.callbackContext ∨ w'.callbackContext = w.taken ∨
      w'.callbackContext = none)
    (htaken : w'.taken = w.taken ∨ w'.taken = w.callbackContext ∨ w'.taken = none) : w'.Fresh where
  slot c hc hanswered := by
    rw [hcontext] at hc
    rw [Answered, hreplies] at hanswered
    exact absurd hanswered (h.unanswered hpc hc)
  callback c hc := by
    rw [hcontext]
    rcases hcallback with heq | heq | heq <;> rw [heq] at hc
    exacts [h.callback c hc, h.taken c hc, by cases hc]
  taken c hc := by
    rw [hcontext]
    rcases htaken with heq | heq | heq <;> rw [heq] at hc
    exacts [h.taken c hc, h.callback c hc, by cases hc]

/-- A reply to a request that has been taken. -/
theorem Fresh.of_reply (h : w.Fresh) (hpc : ∀ ok c, w.pc ≠ .notifyInit ok (.clear (some c)))
    {context : Option Ctx} {output : Output} {errno : ℤ} {pc : Pc} (htaken : w.taken = context)
    (hpc' : ((w.callback context output errno).goto pc).taken = none) :
    ((w.callback context output errno).goto pc).Fresh where
  slot c hc hanswered := by
    rcases answered_callback.mp hanswered with hanswered | heq
    · exact absurd hanswered (h.unanswered hpc hc)
    · exact absurd hc (h.taken c (htaken.trans heq))
  callback := h.callback
  taken c hc := nomatch hpc'.symm.trans hc

theorem Fresh.notifyInitStep (h : w.Fresh) {ok : Bool} {pc : NotifyPc}
    (hpc : w.pc = .notifyInit ok pc) : (w.notifyInitStep ok pc).Fresh := by
  cases pc with
  | read => exact h.of_same (by rw [hpc]; nofun) rfl rfl (.inl rfl) (.inr (.inr rfl))
  | reply context =>
    refine ⟨fun c hc hanswered => ?_, h.callback, nofun⟩
    rcases answered_callback.mp hanswered with hanswered | heq
    · exact absurd hanswered (h.unanswered (by rw [hpc]; nofun) hc)
    · exact ⟨ok, by rw [← heq]; rfl⟩
  | clear context => exact .of_empty rfl
  | setState => exact h.of_same (by rw [hpc]; nofun) rfl rfl (.inl rfl) (.inr (.inr rfl))

theorem Fresh.cooperateStep (h : w.Fresh) {pc : CooperatePc} (hpc : w.pc = .cooperate pc) :
    (w.cooperateStep cfg pc).Fresh := by
  have hno : ∀ ok c, w.pc ≠ .notifyInit ok (.clear (some c)) := by rw [hpc]; nofun
  cases pc with
  | read =>
    rw [Worker.cooperateStep]
    split
    · exact h.of_same hno rfl rfl (.inl rfl) (.inr (.inr rfl))
    · exact h.of_same hno rfl rfl (.inl rfl) (.inr (.inr rfl))
  | clear c => exact .of_empty rfl
  | abort c =>
    have htaken : w.taken = some c := by rw [Worker.taken, hpc]
    exact h.of_same hno rfl rfl (.inl rfl) (.inl htaken.symm)
  | test c =>
    have htaken : w.taken = some c := by rw [Worker.taken, hpc]
    rw [Worker.cooperateStep]
    split_ifs
    · exact h.of_same hno rfl rfl (.inl rfl) (.inl htaken.symm)
    · exact h.of_same hno rfl rfl (.inl rfl) (.inl htaken.symm)
  | store c =>
    have htaken : w.taken = some c := by rw [Worker.taken, hpc]
    exact h.of_same hno rfl rfl (.inr (.inl htaken.symm)) (.inr (.inr rfl))
  | reply c errno => exact h.of_reply hno (by rw [Worker.taken, hpc]) rfl

theorem Fresh.unlock (h : w.Fresh) (hpc : ∀ ok c, w.pc ≠ .notifyInit ok (.clear (some c)))
    {p : Party} {job : Job} {pc : Pc} (hpc' : ({ w.unlock p with job := job }.goto pc).taken = none) :
    ({ w.unlock p with job := job }.goto pc).Fresh := by
  obtain ⟨hcontext, hcallback, hreplies⟩ := w.unlock_fields p
  exact h.of_same hpc hcontext hreplies (.inl hcallback) (.inr (.inr hpc'))

/-- **One step of a thread** keeps the request in the slot unanswered. -/
theorem Fresh.thread (h : w.Fresh) (hstep : ThreadStep cfg w input w') : w'.Fresh := by
  cases hstep with
  | bootUnlock hpc | unlockIdle hpc | unlockNone hpc hnone | unlockRequest c hpc hc =>
    exact h.unlock (by rw [hpc]; nofun) rfl
  | notifyInitStep ok pc hpc => exact h.notifyInitStep hpc
  | cooperateStep pc hpc => exact h.cooperateStep hpc
  | clearNone hpc hnone | clearContext c hpc hc => exact .of_empty rfl
  | replyError hpc | replyCallback ok hpc =>
    exact h.of_reply (by rw [hpc]; nofun) (by rw [Worker.taken, hpc]) rfl
  | readCallback c hpc hc =>
    exact h.of_same (by rw [hpc]; nofun) rfl rfl (.inl rfl) (.inr (.inl rfl))
  | clearCallback hpc =>
    have htaken : w.taken = w.localContext := by rw [Worker.taken, hpc]
    exact h.of_same (by rw [hpc]; nofun) rfl rfl (.inr (.inr rfl)) (.inl htaken.symm)
  | service autoboot hpc | entry hpc hfree | bootNone hpc hstate | boot runtime path hpc hstate
  | top hpc hstate | bootFailed hpc | bootStarting hpc | setIdle hpc | semWait hpc hpos
  | lockRequest hpc hfree | readNone hpc hnone | readContext c hpc hc | setStarting hpc
  | invalid hpc hjob | invoke hpc hjob | notifyInit ok hpc | cooperate hpc | finish result hpc
  | lockEnd hpc hfree | testStarting hpc hstate | testState hpc hstate | noCallback hpc hnone =>
    exact h.of_same (by rw [hpc]; nofun) rfl rfl (.inl rfl) (.inr (.inr rfl))

/-- What is taken is mentioned. -/
theorem mentions_of_taken {c : Ctx} (h : w.taken = some c) : w.Mentions c := by
  unfold Worker.taken at h
  split at h <;> rename_i hpc
  · exact w.known_pc c (by rw [hpc]; exact h)
  · exact w.known_pc c (by rw [hpc]; exact h)
  · exact w.known_pc c (by rw [hpc]; exact h)
  · exact w.known_pc c (by rw [hpc]; exact h)
  · exact w.known_local c h
  · exact w.known_local c h
  · exact w.known_local c h
  · cases h

/-- **One step of a call.** The request that it stores has not been known to the worker. -/
theorem Fresh.call {n : ℕ} {c : Ctx} {i : Fin n} {pc pc' : CallPc n} (h : w.Fresh)
    (hknown : w.Mentions c → pc.stored i = true) (hstep : CallStep c i w pc pc' w') : w'.Fresh := by
  obtain ⟨hpc, hlocal, hcallback, hreplies⟩ := hstep.thread_same
  have htaken : w'.taken = w.taken := by rw [Worker.taken, hpc, hlocal, Worker.taken]
  have hanswered (c : Ctx) : w'.Answered c ↔ w.Answered c := by rw [Answered, hreplies, Answered]
  obtain hsame | ⟨hstore, -, hcontext⟩ := hstep.context
  · constructor
    · intro c' hc' ha
      rw [hpc]
      exact h.slot c' (hsame.symm.trans hc') ((hanswered c').mp ha)
    · rw [hcallback, hsame]
      exact h.callback
    · rw [htaken, hsame]
      exact h.taken
  · have hnot : ¬ w.Mentions c := by
      intro hc
      have hstored := hknown hc
      rcases hstore with rfl | rfl <;> cases hstored
    have hthis {c' : Ctx} (hc' : w'.context = some c') : ¬ w.Mentions c' := by
      cases hcontext.symm.trans hc'
      exact hnot
    constructor
    · exact fun c' hc' ha =>
        absurd (w.known_answered c' ((hanswered c').mp ha)) (hthis hc')
    · rw [hcallback]
      exact fun c' hc hc' => hthis hc' (w.known_callback c' hc)
    · rw [htaken]
      exact fun c' hc hc' => hthis hc' (mentions_of_taken hc)

end Worker

/-! ## The runner of Duktape -/

/-- Where the runner of `runtime_duktape.c` is. -/
inductive DuxPc
  /-- Not in the runner. -/
  | out
  | createHeap
  | duxInitialize
  | notifyInit
  | evaluate
  | tick
  | cooperate
  | queryAbort
  | leave (result : ℤ)
  deriving DecidableEq

/-- What the runner gets from Duktape. -/
inductive DuxInput
  | created (ok : Bool)
  | initialized (result : ℤ)
  | evaluated (result : ℤ)
  | ticked (more : Bool)
  | queried
  deriving DecidableEq

namespace DuxPc

/-- The steps of the runner that are no calls of the agent, but for
`rubic_agent_runner_query_abort`, which only reads the state. -/
def next (state : WorkerState) : DuxPc → DuxInput → Option DuxPc
  | .createHeap, .created ok => some (if ok then .duxInitialize else .leave (-ENOMEM))
  | .duxInitialize, .initialized result =>
    some (if result = 0 then .notifyInit else .leave result)
  | .evaluate, .evaluated result => some (if result = 0 then .tick else .leave result)
  | .tick, .ticked more => some (if more then .cooperate else .leave 0)
  | .queryAbort, .queried => some (if state = .aborting then .leave 0 else .tick)
  | _, _ => none

/-- The steps that the runner takes with the thread of its worker: its calls of the agent, its
invocation and its end. -/
def withThread (entered : Bool) : DuxPc → Input → Option DuxPc
  | .notifyInit, .notifyInit ok => some (if ok then .evaluate else .leave 0)
  | .cooperate, .cooperate => some .queryAbort
  | .leave result, .finish result' => if result' = result then some .out else none
  | _, .notifyInit _ | _, .cooperate | _, .finish _ => none
  | p, .none | p, .boot _ | p, .malloc _ => some (if entered then .createHeap else p)

theorem withThread_none (p : DuxPc) : p.withThread false .none = some p := by cases p <;> rfl

/-- The runner can still use `data`. -/
def uses : DuxPc → Bool
  | .createHeap | .duxInitialize | .notifyInit | .evaluate => true
  | _ => false

end DuxPc

/-- An agent whose runners are those of Duktape. -/
structure Duktape (n : ℕ) where
  agent : Agent n
  runner : Fin n → DuxPc

/-- A step of the agent, or one of a runner alone. -/
inductive DuxEvent (n : ℕ)
  | agent (e : Event n)
  | runner (i : Fin n) (input : DuxInput)
  deriving DecidableEq

/-- The job of a request has been freed, by a reply or because the request has been refused. -/
def Agent.Freed {n : ℕ} (s : Agent n) (c : Ctx) : Prop :=
  (∃ i, (s.workers i).Answered c) ∨ ∃ errno, s.calls c = .failed errno

namespace Duktape

variable {n : ℕ}

/-- The thread of the worker invokes its runner. -/
def enters (s : Duktape n) (t : Agent n) (i : Fin n) : Bool :=
  (s.agent.workers i).pc = .invoke && (t.workers i).pc = .runner

/-- One step. -/
def step (cfg : Config) (s : Duktape n) : DuxEvent n → Option (Duktape n)
  | .agent (.thread i input) =>
    (s.agent.step cfg (.thread i input)).bind fun t =>
      ((s.runner i).withThread (s.enters t i) input).map
        (⟨t, Function.update s.runner i ·⟩)
  | .agent (.call c) => (s.agent.step cfg (.call c)).map (⟨·, s.runner⟩)
  | .runner i input =>
    if (s.agent.workers i).pc = .runner then
      ((s.runner i).next (s.agent.workers i).state input).map
        (⟨s.agent, Function.update s.runner i ·⟩)
    else none

def initial (n : ℕ) (autoboot : Bool) : Duktape n := ⟨.initial n autoboot, fun _ => .out⟩

/-- As long as a runner can use `data`, the job that it points into is not freed. -/
def TextAlive (s : Duktape n) : Prop :=
  ∀ i c, (s.runner i).uses = true → (s.agent.workers i).localContext = some c → ¬ s.agent.Freed c

/-- `rubic_agent_runner_notify_init` does not return 0 to the runner of a requested script. -/
def unacknowledged (s : Duktape n) : DuxEvent n → Bool
  | .agent (.thread i (.notifyInit true)) => (s.agent.workers i).localContext.isNone
  | _ => true

def Unacknowledged (s : Duktape n) (e : DuxEvent n) : Prop := s.unacknowledged e = true

instance (s : Duktape n) (e : DuxEvent n) : Decidable (s.Unacknowledged e) :=
  inferInstanceAs (Decidable (s.unacknowledged e = true))

end Duktape

/-! ## The request of a running script -/

/-- The thread is on its way into the runner. -/
def Pc.launching : Pc → Bool
  | .bootStarting | .bootUnlock | .setStarting | .unlockRequest | .invoke => true
  | _ => false

theorem Pc.launching_of_inRunner {pc : Pc} (h : pc.inRunner = true) : pc.launching = false := by
  cases pc <;> first | rfl | cases h

/-- The runner has not called `rubic_agent_runner_notify_init`. -/
def DuxPc.early : DuxPc → Bool
  | .createHeap | .duxInitialize | .notifyInit => true
  | _ => false

theorem DuxPc.next_early {state : WorkerState} {p p' : DuxPc} {input : DuxInput}
    (h : p.next state input = some p') : (p'.early = true → p.early = true) ∧ p' ≠ .evaluate := by
  unfold next at h
  split at h
  case h_1 ok => cases ok <;> cases h <;> exact ⟨fun _ => rfl, nofun⟩
  case h_2 result =>
    cases h
    split_ifs <;> exact ⟨fun _ => rfl, nofun⟩
  case h_3 result =>
    cases h
    split_ifs <;> exact ⟨nofun, nofun⟩
  case h_4 more => cases more <;> cases h <;> exact ⟨nofun, nofun⟩
  case h_5 =>
    cases h
    split_ifs <;> exact ⟨nofun, nofun⟩
  case h_6 => cases h

/-- The request that has launched a script is not answered before
`rubic_agent_runner_notify_init`. -/
structure Worker.Running (w : Worker) (p : DuxPc) : Prop where
  out : w.pc.inRunner = false → p = .out
  early : p.early = true → w.pc = .runner
  evaluate : p = .evaluate → w.localContext = none
  unanswered : w.pc.launching = true ∨ p.early = true →
    ∀ c, w.localContext = some c → ¬ w.Answered c

namespace Worker

variable {cfg : Config} {w w' : Worker} {p p' : DuxPc} {input : Input} {entered : Bool}

theorem Running.of_out (h : w.pc.launching = true → ∀ c, w.localContext = some c → ¬ w.Answered c) :
    w.Running .out where
  out _ := rfl
  early := nofun
  evaluate := nofun
  unanswered hor := h (hor.resolve_right nofun)

/-- The thread stays outside of the runner. -/
theorem Running.stays_out (h : w.Running p) (hpc : w.pc.inRunner = false)
    (hnext : p.withThread false input = some p') : p' = .out := by
  rw [h.out hpc] at hnext
  cases input with
  | none | boot file | malloc ok => exact (Option.some.inj hnext).symm
  | notifyInit ok | cooperate | finish result => cases hnext

/-- The thread stays in the runner, which has called a function of the agent. -/
theorem Running.stays_in (h : w.Running p) (hpc : w.pc ≠ .runner)
    (hpc' : w'.pc.inRunner = true) (hlocal : w'.localContext = w.localContext) :
    w'.Running p where
  out hfalse := absurd (hfalse.symm.trans hpc') Bool.false_ne_true
  early hearly := absurd (h.early hearly) hpc
  evaluate heval := hlocal.trans (h.evaluate heval)
  unanswered hor := by
    rcases hor with hlaunching | hearly
    · cases (Pc.launching_of_inRunner hpc').symm.trans hlaunching
    · exact absurd (h.early hearly) hpc

/-- The runner goes on alone, and not into the evaluation of the script. -/
theorem Running.alone {state : WorkerState} {input : DuxInput} (h : w.Running p)
    (hpc : w.pc = .runner) (hnext : p.next state input = some p') : w.Running p' := by
  have hinRunner : w.pc.inRunner = true := by rw [hpc]; rfl
  obtain ⟨hearly, heval⟩ := DuxPc.next_early hnext
  refine ⟨fun hfalse => absurd (hfalse.symm.trans hinRunner) Bool.false_ne_true, fun _ => hpc,
    fun h => absurd h heval, fun hor => ?_⟩
  rcases hor with hlaunching | hearly'
  · cases (Pc.launching_of_inRunner hinRunner).symm.trans hlaunching
  · exact h.unanswered (.inr (hearly hearly'))

/-- **One step of a thread** with its runner. -/
theorem Running.thread (h : w.Running p) (hfresh : w.Fresh)
    (hcare : input = .notifyInit true → w.localContext = none)
    (hstep : ThreadStep cfg w input w')
    (hnext : p.withThread (w.pc = .invoke && w'.pc = .runner) input = some p') : w'.Running p' := by
  have hentered (hinvoke : w.pc ≠ .invoke ∨ w'.pc ≠ .runner) :
      (decide (w.pc = .invoke) && decide (w'.pc = .runner)) = false := by
    rcases hinvoke with h | h
    · rw [decide_eq_false h, Bool.false_and]
    · rw [decide_eq_false h, Bool.and_false]
  have hout (hpc : w.pc.inRunner = false) (hinvoke : w.pc ≠ .invoke ∨ w'.pc ≠ .runner) :
      p' = .out := by
    rw [hentered hinvoke] at hnext
    exact h.stays_out hpc hnext
  cases hstep with
  | boot runtime path hpc hstate =>
    cases hout (by rw [hpc]; rfl) (.inr nofun)
    exact .of_out nofun
  | bootStarting hpc | setStarting hpc =>
    cases hout (by rw [hpc]; rfl) (.inr nofun)
    exact .of_out fun _ => h.unanswered (.inl (by rw [hpc]; rfl))
  | bootUnlock hpc | unlockRequest c hpc hc =>
    cases hout (by rw [hpc]; rfl) (.inr nofun)
    obtain ⟨owner, ho⟩ := w.unlock_eq .thread
    rw [ho]
    exact .of_out fun _ => h.unanswered (.inl (by rw [hpc]; rfl))
  | unlockIdle hpc | unlockNone hpc hnone =>
    cases hout (by rw [hpc]; rfl) (.inr nofun)
    exact .of_out nofun
  | readNone hpc hnone | readContext c hpc hc =>
    cases hout (by rw [hpc]; rfl) (.inr nofun)
    exact .of_out fun _ c' hc' => hfresh.unanswered (by rw [hpc]; nofun) hc'
  | invoke hpc hjob =>
    have hp : p = .out := h.out (by rw [hpc]; rfl)
    have hunanswered := h.unanswered (.inl (by rw [hpc]; rfl))
    rw [hp, hpc] at hnext
    cases hnext
    exact ⟨nofun, fun _ => rfl, nofun, fun _ => hunanswered⟩
  | notifyInit ok hpc =>
    cases p with
    | notifyInit =>
      cases hnext
      cases ok with
      | false => exact ⟨nofun, nofun, nofun, by rintro (h | h) <;> cases h⟩
      | true => exact ⟨nofun, nofun, fun _ => hcare rfl, by rintro (h | h) <;> cases h⟩
    | _ => cases hnext
  | cooperate hpc =>
    cases p with
    | cooperate =>
      cases hnext
      exact ⟨nofun, nofun, nofun, by rintro (h | h) <;> cases h⟩
    | _ => cases hnext
  | finish result hpc =>
    cases p with
    | leave result' =>
      obtain ⟨-, heq⟩ := Option.ite_none_right_eq_some.mp hnext
      cases heq
      exact .of_out nofun
    | _ => cases hnext
  | notifyInitStep ok pc hpc =>
    rw [hentered (.inl (by rw [hpc]; nofun)), DuxPc.withThread_none] at hnext
    cases hnext
    have hlocal : (w.notifyInitStep ok pc).localContext = w.localContext := by cases pc <;> rfl
    obtain ⟨-, hpc' | ⟨pc', hpc'⟩⟩ := w.notifyInitStep_outside ok pc
    · exact h.stays_in (by rw [hpc]; nofun) (by rw [hpc']; rfl) hlocal
    · exact h.stays_in (by rw [hpc]; nofun) (by rw [hpc']; rfl) hlocal
  | cooperateStep pc hpc =>
    rw [hentered (.inl (by rw [hpc]; nofun)), DuxPc.withThread_none] at hnext
    cases hnext
    have hlocal := w.cooperateStep_local cfg pc
    obtain ⟨-, hpc' | ⟨pc', hpc'⟩⟩ := w.cooperateStep_outside cfg pc
    · exact h.stays_in (by rw [hpc]; nofun) (by rw [hpc']; rfl) hlocal
    · exact h.stays_in (by rw [hpc]; nofun) (by rw [hpc']; rfl) hlocal
  | service autoboot hpc | entry hpc hfree | bootNone hpc hstate | top hpc hstate
  | bootFailed hpc | setIdle hpc | semWait hpc hpos | lockRequest hpc hfree | invalid hpc hjob
  | lockEnd hpc hfree | testStarting hpc hstate | testState hpc hstate | clearNone hpc hnone
  | clearContext c hpc hc | replyError hpc | noCallback hpc hnone | readCallback c hpc hc | clearCallback hpc
  | replyCallback ok hpc =>
    cases hout (by rw [hpc]; rfl) (.inr nofun)
    exact .of_out nofun

/-- A call changes nothing that a running script depends on. -/
theorem Running.call {n : ℕ} {c : Ctx} {i : Fin n} {pc pc' : CallPc n} (h : w.Running p)
    (hstep : CallStep c i w pc pc' w') : w'.Running p := by
  obtain ⟨hpc, hlocal, -, hreplies⟩ := hstep.thread_same
  refine ⟨?_, ?_, ?_, ?_⟩
  · rw [hpc]; exact h.out
  · rw [hpc]; exact h.early
  · rw [hlocal]; exact h.evaluate
  · intro hor c' hc'
    rw [hpc] at hor
    rw [hlocal] at hc'
    rw [Answered, hreplies]
    exact h.unanswered hor c' hc'

end Worker

/-! ## The run -/

/-- What holds in every state of a run. -/
structure Duktape.Inv {n : ℕ} (s : Duktape n) : Prop where
  stored : s.agent.Stored
  fresh : ∀ i, (s.agent.workers i).Fresh
  running : ∀ i, (s.agent.workers i).Running (s.runner i)

namespace Duktape

variable {n : ℕ} {cfg : Config} {s s' : Duktape n} {e : DuxEvent n}

theorem inv_initial (n : ℕ) (autoboot : Bool) : (initial n autoboot).Inv where
  stored := Agent.stored_initial n autoboot
  fresh _ := .of_empty rfl
  running i := by
    refine .of_out ?_
    rcases Agent.initial_pc autoboot i with hpc | hpc <;> rw [initial, hpc] <;> nofun

/-- The requests in the slots stay unanswered. -/
theorem Inv.fresh_step {t : Agent n} {e : Event n} (h : s.Inv) (hstep : Agent.Step cfg s.agent e t) :
    ∀ i, (t.workers i).Fresh := by
  apply hstep.forall_workers (P := fun _ w _ => w.Fresh) h.fresh
  · exact fun i _ _ _ hthread => (h.fresh i).thread hthread
  · exact fun _ i _ => h.fresh i
  · exact fun c i _ _ _ hcall => ⟨(h.fresh i).call (h.stored i c) hcall, fun j _ => h.fresh j⟩

/-- A step of a thread, with its runner. -/
theorem Inv.thread {i : Fin n} {input : Input} (h : s.Inv)
    (hcare : s.Unacknowledged (.agent (.thread i input)))
    (hstep : s.step cfg (.agent (.thread i input)) = some s') : s'.Inv := by
  obtain ⟨t, ht, hmap⟩ := Option.bind_eq_some_iff.mp hstep
  obtain ⟨p, hp, rfl⟩ := Option.map_eq_some_iff.mp hmap
  have hagent := Agent.Step.of_step ht
  refine ⟨h.stored.step hagent, h.fresh_step hagent, fun j => ?_⟩
  cases hagent with
  | thread i input w hthread =>
    rw [enters, Agent.setWorker_self] at hp
    show Worker.Running ((s.agent.setWorker i w).workers j) (Function.update s.runner i p j)
    rcases eq_or_ne j i with rfl | hne
    · rw [Agent.setWorker_self, Function.update_self]
      refine (h.running j).thread (h.fresh j) ?_ hthread hp
      rintro rfl
      exact Option.isNone_iff_eq_none.mp hcare
    · rw [Agent.setWorker_of_ne _ hne, Function.update_of_ne hne]
      exact h.running j

/-- A step of a call. -/
theorem Inv.call {c : Ctx} (h : s.Inv) (hstep : s.step cfg (.agent (.call c)) = some s') :
    s'.Inv := by
  obtain ⟨t, ht, rfl⟩ := Option.map_eq_some_iff.mp hstep
  have hagent := Agent.Step.of_step ht
  refine ⟨h.stored.step hagent, h.fresh_step hagent, ?_⟩
  apply hagent.forall_workers (P := fun i w _ => w.Running (s.runner i)) h.running
  · exact fun _ _ _ heq _ => nomatch heq
  · exact fun _ i _ => h.running i
  · exact fun c i _ _ _ hcall => ⟨(h.running i).call hcall, fun j _ => h.running j⟩

/-- A step that the runner takes alone. -/
theorem Inv.runner_step {i : Fin n} {input : DuxInput} (h : s.Inv)
    (hstep : s.step cfg (.runner i input) = some s') : s'.Inv := by
  rw [step, Option.ite_none_right_eq_some] at hstep
  obtain ⟨hpc, hmap⟩ := hstep
  obtain ⟨p, hp, rfl⟩ := Option.map_eq_some_iff.mp hmap
  refine ⟨h.stored, h.fresh, fun j => ?_⟩
  show Worker.Running (s.agent.workers j) (Function.update s.runner i p j)
  rcases eq_or_ne j i with rfl | hne
  · rw [Function.update_self]
    exact (h.running j).alone hpc hp
  · rw [Function.update_of_ne hne]
    exact h.running j

theorem Inv.step (h : s.Inv) (hcare : s.Unacknowledged e) (hstep : s.step cfg e = some s') :
    s'.Inv := by
  cases e with
  | agent e =>
    cases e with
    | thread i input => exact h.thread hcare hstep
    | call c => exact h.call hstep
  | runner i input => exact h.runner_step hstep

/-- A request that a worker mentions has not been refused, and only this worker answers it. -/
theorem Inv.textAlive (h : s.Inv) : s.TextAlive := by
  rintro i c huses hc (⟨j, hj⟩ | ⟨errno, hfailed⟩)
  · have hi := h.stored i c ((s.agent.workers i).known_local c hc)
    have hj' := h.stored j c ((s.agent.workers j).known_answered c hj)
    cases CallPc.stored_unique hi hj'
    have hnot := (h.running i).unanswered
    cases hp : s.runner i with
    | evaluate => cases ((h.running i).evaluate hp).symm.trans hc
    | createHeap | duxInitialize | notifyInit => exact hnot (.inr (by rw [hp]; rfl)) c hc hj
    | _ => rw [hp] at huses; cases huses
  · have hi := h.stored i c ((s.agent.workers i).known_local c hc)
    rw [hfailed] at hi
    cases hi

end Duktape

/-- **A running script's text.** In every run in which `rubic_agent_runner_notify_init` does not
return 0 to the runner of a requested script, the job of the request is not freed as long as the
runner can use `data`. -/
theorem script_text_alive (cfg : Config) (n : ℕ) (autoboot : Bool) (es : List (DuxEvent n))
    (s : Duktape n)
    (h : Path (Duktape.step cfg) Duktape.Unacknowledged (.initial n autoboot) es s) :
    s.TextAlive := by
  have hinv : s.Inv := h.invariant (Duktape.inv_initial n autoboot)
    fun s e t hI hcare hstep => hI.step hcare hstep
  exact hinv.textAlive

/-- A script is requested, and its runner has come to `rubic_agent_runner_notify_init`. -/
def untilNotify : List (DuxEvent 1) :=
  (threadSteps 5 ++ callSteps 7 2 ++ threadSteps 6).map .agent ++
    [.runner ⟨0, Nat.one_pos⟩ (.created true), .runner ⟨0, Nat.one_pos⟩ (.initialized 0)]

/-- `script_text_alive` of a run up to there. -/
theorem script_text_alive_notify : ∃ es s,
    Path (Duktape.step startAndTid) Duktape.Unacknowledged (.initial 1 false) es s ∧
      (s.runner 0).uses = true ∧ (s.agent.workers 0).localContext = some 2 ∧ s.TextAlive := by
  have hrun : (exec (Duktape.step startAndTid) Duktape.Unacknowledged (.initial 1 false)
      untilNotify).isSome = true := by decide
  exact ⟨_, _, path_get hrun, rfl, rfl, script_text_alive _ _ _ _ _ (path_get hrun)⟩

/-- `rubic_agent_runner_notify_init` replies to the request, and the script is evaluated next. -/
theorem notified_runs : (exec (Duktape.step startAndTid) anyStep (.initial 1 false)
    (untilNotify ++ (.thread 0 (.notifyInit true) :: threadSteps 4).map .agent)).isSome = true := by
  decide

/-- The script that is evaluated is in a job that has been freed. -/
theorem not_script_text_alive : ¬ ∀ (cfg : Config) (n : ℕ) (autoboot : Bool)
    (es : List (DuxEvent n)) (s : Duktape n),
    Path (Duktape.step cfg) anyStep (.initial n autoboot) es s → s.TextAlive := by
  intro h
  refine h startAndTid 1 false _ _ (path_get notified_runs) 0 2 rfl rfl (.inl ⟨0, ?_⟩)
  exact ⟨⟨some 2, .tid 0, 0⟩, List.mem_singleton.mpr rfl, rfl⟩

end OlivePiccolo.RubicAgent
