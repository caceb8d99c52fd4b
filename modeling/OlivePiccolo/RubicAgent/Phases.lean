import OlivePiccolo.RubicAgent.Delivery
import OlivePiccolo.RubicAgent.Steps

/-!
# Where the thread of a worker can be

What holds in every run, however the requests come in. A call that has found its worker idle owns
the mutex, and the thread cannot come past its next lock before the request has been stored
(`Phased`); and whatever a worker knows of a request, the request has been stored in it (`Stored`).
-/

namespace OlivePiccolo.RubicAgent

open Runs

/-! ## Idle workers -/

/-- The places of the thread from the top of the loop up to its look at the requests. -/
def Pc.resting : Pc → Bool
  | .service _ | .entry | .top | .setIdle | .unlockIdle | .semWait | .lockRequest => true
  | _ => false

/-- The thread has locked the mutex to take a request, and has not unlocked it yet. -/
def Pc.taking : Pc → Bool
  | .readContext | .setStarting | .unlockRequest => true
  | _ => false

/-- The thread has seen that it is to boot. -/
def Pc.booting : Pc → Bool
  | .bootFailed | .bootStarting => true
  | _ => false

theorem Pc.booting_of_resting {pc : Pc} (h : pc.resting = true) : pc.booting = false := by
  cases pc <;> first | rfl | cases h

/-- The thread is in the runner. -/
def Pc.inRunner : Pc → Bool
  | .runner | .notifyInit _ _ | .cooperate _ => true
  | _ => false

/-- The thread waits for a request, or it has been told to boot and has not locked the mutex yet. -/
def Worker.Waits (w : Worker) : Prop :=
  w.pc.resting = true ∧ (w.state = .autoboot → w.pc = .entry)

/-- Where the thread is, by the state of its worker. -/
structure Worker.Placed (w : Worker) : Prop where
  idle : w.state = .idle → w.pc.resting = true ∨
    w.pc.taking = true ∧ (w.pc = .unlockRequest → w.localContext = none)
  boot : w.pc.booting = true → w.state = .autoboot
  taking : w.pc.taking = true → w.owner = some .thread

namespace Worker

variable {cfg : Config} {w w' : Worker} {input : Input} {c : Ctx}

/-- The thread takes no mutex away from a call. -/
theorem ThreadStep.owner_call (h : ThreadStep cfg w input w') (hc : w.owner = some (.call c)) :
    w'.owner = some (.call c) := by
  cases h with
  | entry hpc hfree | lockRequest hpc hfree | lockEnd hpc hfree =>
    rcases hfree with hfree | hfree <;> cases hfree.symm.trans hc
  | bootUnlock hpc | unlockIdle hpc | unlockNone hpc hnone | unlockRequest c' hpc hc' =>
    exact unlock_thread_owner hc
  | notifyInitStep ok pc hpc => rw [(w.notifyInitStep_outside ok pc).1]; exact hc
  | cooperateStep pc hpc => rw [(w.cooperateStep_outside cfg pc).1]; exact hc
  | _ => exact hc

/-- The thread stores no request. -/
theorem ThreadStep.context_none (h : ThreadStep cfg w input w') (hnone : w.context = none) :
    w'.context = none := by
  cases h with
  | bootUnlock hpc | unlockIdle hpc | unlockNone hpc hnone' | unlockRequest c' hpc hc' =>
    exact (w.unlock_fields .thread).1.trans hnone
  | clearNone hpc hnone' | clearContext c' hpc hc' => rfl
  | notifyInitStep ok pc hpc => cases pc <;> first | rfl | exact hnone
  | cooperateStep pc hpc =>
    cases pc with
    | read => rw [Worker.cooperateStep, hnone]; exact hnone
    | clear c' => rfl
    | abort c' | test c' | store c' | reply c' errno => exact hnone
  | _ => exact hnone

/-- While a call owns the mutex the thread goes on waiting. -/
theorem ThreadStep.waits (h : ThreadStep cfg w input w') (hc : w.owner = some (.call c))
    (hwaits : w.Waits) : w'.Waits := by
  obtain ⟨hrest, hboot⟩ := hwaits
  have hno {pc : Pc} (hpc : w.pc = pc) (hfalse : pc.resting = false) : False := by
    rw [hpc, hfalse] at hrest
    cases hrest
  have hstays {pc : Pc} (hpc : w.pc = pc) (hne : pc ≠ .entry) : w.state ≠ .autoboot :=
    fun hstate => hne (hpc.symm.trans (hboot hstate))
  cases h with
  | service autoboot hpc => exact ⟨rfl, fun _ => rfl⟩
  | entry hpc hfree | lockRequest hpc hfree =>
    rcases hfree with hfree | hfree <;> cases hfree.symm.trans hc
  | top hpc hstate => exact ⟨rfl, fun h => absurd h hstate⟩
  | setIdle hpc => exact ⟨rfl, nofun⟩
  | unlockIdle hpc =>
    obtain ⟨owner, ho⟩ := w.unlock_eq .thread
    rw [ho]
    exact ⟨rfl, fun h => absurd h (hstays hpc nofun)⟩
  | semWait hpc hpos => exact ⟨rfl, fun h => absurd h (hstays hpc nofun)⟩
  | bootNone hpc hstate | boot runtime path hpc hstate => exact absurd hstate (hstays hpc nofun)
  | bootFailed hpc | bootStarting hpc | bootUnlock hpc | readNone hpc hnone
  | readContext c' hpc hc' | setStarting hpc | unlockNone hpc hnone | unlockRequest c' hpc hc'
  | invalid hpc hjob | invoke hpc hjob | notifyInit ok hpc | cooperate hpc | finish result hpc
  | notifyInitStep ok pc hpc | cooperateStep pc hpc | lockEnd hpc hfree
  | testStarting hpc hstate | testState hpc hstate | clearNone hpc hnone
  | clearContext c' hpc hc' | replyError hpc | noCallback hpc hnone | readCallback c' hpc hc'
  | clearCallback hpc | replyCallback ok hpc => exact (hno hpc rfl).elim

/-- Inside of the runner and after it the worker is not idle. -/
theorem Placed.not_idle (h : w.Placed) (hrest : w.pc.resting = false)
    (htaking : w.pc.taking = false) : w.state ≠ .idle := by
  intro hidle
  rcases h.idle hidle with h | ⟨h, -⟩
  exacts [Bool.false_ne_true (hrest.symm.trans h), Bool.false_ne_true (htaking.symm.trans h)]

/-- A step to a place where the worker cannot be idle. -/
theorem Placed.of_not_idle (hstate : w.state ≠ .idle) (hboot : w.pc.booting = false)
    (htaking : w.pc.taking = false) : w.Placed where
  idle h := absurd h hstate
  boot h := absurd (hboot.symm.trans h) Bool.false_ne_true
  taking h := absurd (htaking.symm.trans h) Bool.false_ne_true

/-- A step to a place where the thread rests. -/
theorem Placed.of_resting (hrest : w.pc.resting = true) (hboot : w.pc.booting = false)
    (htaking : w.pc.taking = false) : w.Placed where
  idle _ := .inl hrest
  boot h := absurd (hboot.symm.trans h) Bool.false_ne_true
  taking h := absurd (htaking.symm.trans h) Bool.false_ne_true

theorem Placed.thread (h : w.Placed) (hstep : ThreadStep cfg w input w') : w'.Placed := by
  cases hstep with
  | service autoboot hpc | entry hpc hfree | top hpc hstate | bootFailed hpc | setIdle hpc
  | semWait hpc hpos
  | noCallback hpc hnone | replyCallback ok hpc | unlockIdle hpc | unlockNone hpc hnone =>
    exact .of_resting rfl rfl rfl
  | bootNone hpc hstate | boot runtime path hpc hstate =>
    refine ⟨fun hidle => ?_, fun _ => hstate, fun h => by cases h⟩
    cases hstate.symm.trans hidle
  | bootStarting hpc => exact .of_not_idle (fun h => by cases h) rfl rfl
  | bootUnlock hpc =>
    obtain ⟨owner, ho⟩ := w.unlock_eq .thread
    rw [ho]
    exact .of_not_idle (h.not_idle (by rw [hpc]; rfl) (by rw [hpc]; rfl)) rfl rfl
  | lockRequest hpc hfree =>
    exact ⟨fun _ => .inr ⟨rfl, fun h => by cases h⟩, (fun h => by cases h), fun _ => rfl⟩
  | readNone hpc hnone =>
    exact ⟨fun _ => .inr ⟨rfl, fun _ => hnone⟩, (fun h => by cases h),
      fun _ => h.taking (by rw [hpc]; rfl)⟩
  | readContext c hpc hc =>
    exact ⟨fun _ => .inr ⟨rfl, fun h => by cases h⟩, (fun h => by cases h),
      fun _ => h.taking (by rw [hpc]; rfl)⟩
  | setStarting hpc =>
    exact ⟨(fun h => by cases h), (fun h => by cases h), fun _ => h.taking (by rw [hpc]; rfl)⟩
  | unlockRequest c hpc hc =>
    have hstate : w.state ≠ .idle := by
      intro hidle
      rcases h.idle hidle with hrest | ⟨-, hnone⟩
      · rw [hpc] at hrest
        cases hrest
      · cases (hnone hpc).symm.trans hc
    obtain ⟨owner, ho⟩ := w.unlock_eq .thread
    rw [ho]
    exact .of_not_idle hstate rfl rfl
  | notifyInitStep ok pc hpc =>
    have hstate := h.not_idle (by rw [hpc]; rfl) (by rw [hpc]; rfl)
    cases pc with
    | read | reply context | clear context => exact .of_not_idle hstate rfl rfl
    | setState => exact .of_not_idle (by cases ok <;> exact fun h => by cases h) rfl rfl
  | cooperateStep pc hpc =>
    have hstate := h.not_idle (by rw [hpc]; rfl) (by rw [hpc]; rfl)
    cases pc with
    | read =>
      rw [Worker.cooperateStep]
      split <;> exact .of_not_idle hstate rfl rfl
    | abort c => exact .of_not_idle (fun h => by cases h) rfl rfl
    | clear c | test c | store c | reply c errno => exact .of_not_idle hstate rfl rfl
  | lockEnd hpc hfree | testStarting hpc hstate | testState hpc hstate | clearNone hpc hnone
  | clearContext c hpc hc | replyError hpc | readCallback c hpc hc | clearCallback hpc
  | invoke hpc hjob | invalid hpc hjob | notifyInit ok hpc | cooperate hpc | finish result hpc =>
    exact .of_not_idle (h.not_idle (by rw [hpc]; rfl) (by rw [hpc]; rfl)) rfl rfl

end Worker

/-! ## Calls at a worker -/

/-- What the calls that are at a worker have found there. -/
structure CallsPlaced {n : ℕ} (i : Fin n) (w : Worker) (calls : Ctx → CallPc n) : Prop where
  critical : ∀ c, (calls c).critical i = true → w.owner = some (.call c)
  tidStore : ∀ c, calls c = .tidStore i → w.context = none
  startState : ∀ c, calls c = .startState i → w.Waits
  startStore : ∀ c, calls c = .startStore i → w.Waits

/-- A worker and the calls at it. -/
structure Phased {n : ℕ} (i : Fin n) (w : Worker) (calls : Ctx → CallPc n) : Prop where
  placed : w.Placed
  calls : CallsPlaced i w calls

section

variable {n : ℕ} {cfg : Config} {i j : Fin n} {w w' : Worker} {calls : Ctx → CallPc n} {c : Ctx}
  {pc : CallPc n} {input : Input}

theorem CallsPlaced.thread (h : CallsPlaced i w calls)
    (hstep : Worker.ThreadStep cfg w input w') : CallsPlaced i w' calls where
  critical c hc := hstep.owner_call (h.critical c hc)
  tidStore c hc := hstep.context_none (h.tidStore c hc)
  startState c hc :=
    hstep.waits (h.critical c (by rw [hc]; exact decide_eq_true rfl)) (h.startState c hc)
  startStore c hc :=
    hstep.waits (h.critical c (by rw [hc]; exact decide_eq_true rfl)) (h.startStore c hc)

/-- A call that goes on elsewhere. -/
theorem CallsPlaced.update (h : CallsPlaced i w calls) (hcritical : pc.critical i = false) :
    CallsPlaced i w (Function.update calls c pc) := by
  have hother {c' : Ctx} {pc' : CallPc n} (hpc' : pc'.critical i = true)
      (hc' : Function.update calls c pc c' = pc') : calls c' = pc' := by
    rcases eq_or_ne c' c with rfl | hne
    · rw [Function.update_self] at hc'
      rw [← hc', hcritical] at hpc'
      cases hpc'
    · rwa [Function.update_of_ne hne] at hc'
  have hself : decide (i = i) = true := decide_eq_true rfl
  exact
    { critical := fun c' hc' => h.critical c' (by rw [hother hc' rfl]; exact hc')
      tidStore := fun c' hc' => h.tidStore c' (hother hself hc')
      startState := fun c' hc' => h.startState c' (hother hself hc')
      startStore := fun c' hc' => h.startStore c' (hother hself hc') }

/-- The only call at the worker goes on. -/
theorem CallsPlaced.of_only (honly : ∀ c', (calls c').critical i = true → c' = c)
    (hcritical : pc.critical i = true → w.owner = some (.call c))
    (htid : pc = .tidStore i → w.context = none)
    (hstate : pc = .startState i → w.Waits) (hstore : pc = .startStore i → w.Waits) :
    CallsPlaced i w (Function.update calls c pc) := by
  have hthis {c' : Ctx} (hc' : (Function.update calls c pc c').critical i = true) : c' = c := by
    rcases eq_or_ne c' c with rfl | hne
    · rfl
    · rw [Function.update_of_ne hne] at hc'
      exact honly c' hc'
  have hpc {c' : Ctx} {pc' : CallPc n} (hpc' : pc'.critical i = true)
      (hc' : Function.update calls c pc c' = pc') : pc = pc' := by
    cases hthis (by rw [hc']; exact hpc')
    rwa [Function.update_self] at hc'
  have hself : decide (i = i) = true := decide_eq_true rfl
  refine
    { critical := fun c' hc' => ?_
      tidStore := fun c' hc' => htid (hpc hself hc')
      startState := fun c' hc' => hstate (hpc hself hc')
      startStore := fun c' hc' => hstore (hpc hself hc') }
  cases hthis hc'
  rw [Function.update_self] at hc'
  exact hcritical hc'

/-- The owner of the mutex is the only call at the worker. -/
theorem CallsPlaced.only (h : CallsPlaced i w calls)
    (howner : w.owner = none ∨ w.owner = some (.call c)) (c' : Ctx)
    (hc' : (calls c').critical i = true) : c' = c := by
  have := h.critical c' hc'
  rcases howner with howner | howner <;> cases howner.symm.trans this
  rfl

/-- **One step of a call** at its worker. -/
theorem Phased.call (h : Phased i w calls) (hstep : CallStep c i w (calls c) pc w') :
    Phased i w' (Function.update calls c pc) := by
  generalize hold : calls c = old at hstep
  have hself : decide (i = i) = true := decide_eq_true rfl
  -- the thread does not take a request when a call owns the mutex
  have htaking (howner : w.owner = none ∨ w.owner = some (.call c)) : w.pc.taking = false := by
    by_contra htaking
    have := h.placed.taking (Bool.eq_true_of_not_eq_false htaking)
    rcases howner with howner | howner <;> cases howner.symm.trans this
  have hplaced (howner : w.owner = none ∨ w.owner = some (.call c)) (owner : Option Party) :
      Worker.Placed { w with owner := owner } :=
    ⟨h.placed.idle, h.placed.boot,
      fun hpc => absurd ((htaking howner).symm.trans hpc) Bool.false_ne_true⟩
  have hunlock (howner : w.owner = some (.call c)) (hpc : pc.critical i = false) :
      Phased i (w.unlock (.call c)) (Function.update calls c pc) := by
    obtain ⟨owner, ho⟩ := w.unlock_eq (.call c)
    rw [ho]
    have hno {pc' : CallPc n} (hpc' : pc'.critical i = true) : pc ≠ pc' := by
      rintro rfl
      cases hpc.symm.trans hpc'
    exact ⟨hplaced (.inr howner) owner, .of_only (h.calls.only (.inr howner))
      (fun hc => absurd rfl (hno hc)) (fun hc => absurd hc (hno hself))
      (fun hc => absurd hc (hno hself)) (fun hc => absurd hc (hno hself))⟩
  have hcritical (hc : old.critical i = true) : w.owner = some (.call c) :=
    h.calls.critical c (by rw [hold]; exact hc)
  cases hstep with
  | tidLock hfree | startLock hfree =>
    exact ⟨hplaced hfree _, .of_only (h.calls.only hfree) (fun _ => rfl) nofun nofun nofun⟩
  | tidEmpty hnone =>
    have howner := hcritical hself
    exact ⟨h.placed, .of_only (h.calls.only (.inr howner)) (fun _ => howner) (fun _ => hnone)
      nofun nofun⟩
  | tidTaken | startOther =>
    have howner := hcritical hself
    exact ⟨h.placed, .of_only (h.calls.only (.inr howner)) (fun _ => howner) nofun nofun nofun⟩
  | startIdle hidle =>
    have howner := hcritical hself
    have hrest : w.pc.resting = true := by
      rcases h.placed.idle hidle with hrest | ⟨hpc, -⟩
      · exact hrest
      · exact absurd ((htaking (.inr howner)).symm.trans hpc) Bool.false_ne_true
    exact ⟨h.placed, .of_only (h.calls.only (.inr howner)) (fun _ => howner) nofun
      (fun _ => ⟨hrest, by rw [hidle]; nofun⟩) nofun⟩
  | startState =>
    have howner := hcritical hself
    have hrest := (h.calls.startState c hold).1
    exact ⟨⟨nofun, fun hboot => absurd (Pc.booting_of_resting hrest) (by rw [hboot]; decide),
      h.placed.taking⟩, .of_only (h.calls.only (.inr howner)) (fun _ => howner) nofun nofun
      fun _ => ⟨hrest, nofun⟩⟩
  | tidStore | startStore =>
    have howner := hcritical hself
    exact ⟨⟨h.placed.idle, h.placed.boot, h.placed.taking⟩, .of_only (h.calls.only (.inr howner))
      (fun _ => howner) nofun nofun nofun⟩
  | tidBusy | unlock => exact hunlock (hcritical hself) rfl
  | startSkip => exact hunlock (hcritical hself) (CallPc.critical_startNext i _)
  | post =>
    obtain ⟨sem, hsem⟩ := w.semPost_eq
    rw [hsem]
    exact ⟨⟨h.placed.idle, h.placed.boot, h.placed.taking⟩,
      .update ⟨h.calls.critical, h.calls.tidStore, h.calls.startState, h.calls.startStore⟩ rfl⟩

/-- A call is critical at no other worker than its own. -/
theorem CallStep.critical_of_ne {old : CallPc n} (hstep : CallStep c i w old pc w') (hne : j ≠ i) :
    pc.critical j = false := by
  cases hstep with
  | startSkip => exact CallPc.critical_startNext j _
  | tidBusy | unlock | post => rfl
  | _ => exact decide_eq_false hne.symm

end

theorem CallPc.critical_enterQueue {n : ℕ} (i : Fin n) (p : Params) :
    (enterQueue n p).critical i = false := by
  unfold enterQueue
  split_ifs
  exacts [rfl, CallPc.critical_startNext i 0, rfl]

theorem CallPc.stored_enterQueue {n : ℕ} (i : Fin n) (p : Params) :
    (enterQueue n p).stored i = false := by
  unfold enterQueue
  split_ifs
  exacts [rfl, CallPc.stored_startNext i 0, rfl]

namespace Agent

variable {n : ℕ} {cfg : Config} {s s' : Agent n} {e : Event n}

/-- All workers are `Phased`. -/
def Phased (s : Agent n) : Prop := ∀ i, RubicAgent.Phased i (s.workers i) s.calls

theorem phased_initial (n : ℕ) (autoboot : Bool) : (initial n autoboot).Phased := by
  intro i
  refine ⟨?_, ⟨nofun, nofun, nofun, nofun⟩⟩
  rcases initial_pc autoboot i with hpc | hpc
  all_goals exact .of_resting (by rw [hpc]; rfl) (by rw [hpc]; rfl) (by rw [hpc]; rfl)

/-- A step keeps `Phased`. -/
theorem Phased.step (h : s.Phased) (hstep : Step cfg s e s') : s'.Phased := by
  apply hstep.forall_workers h
  · exact fun i _ _ _ hthread => ⟨(h i).placed.thread hthread, (h i).calls.thread hthread⟩
  · exact fun c i _ => ⟨(h i).placed, (h i).calls.update (CallPc.critical_enterQueue i _)⟩
  · exact fun c i _ _ _ hcall => ⟨(h i).call hcall,
      fun j hne => ⟨(h j).placed, (h j).calls.update (hcall.critical_of_ne hne)⟩⟩

end Agent

/-! ## Requests that a worker knows -/

/-- The request that a callback of the runner has in a local. -/
def Pc.context : Pc → Option Ctx
  | .notifyInit _ (.reply context) | .notifyInit _ (.clear context) => context
  | .cooperate (.clear c) | .cooperate (.abort c) | .cooperate (.test c) | .cooperate (.store c)
  | .cooperate (.reply c _) => some c
  | _ => none

namespace Worker

/-- The worker has replied to a request. -/
def Answered (w : Worker) (c : Ctx) : Prop := ∃ r ∈ w.replies, r.context = some c

/-- A request is in the shared fields or in a local of the thread, or has been answered. -/
def Mentions (w : Worker) (c : Ctx) : Prop :=
  w.context = some c ∨ w.callbackContext = some c ∨ w.localContext = some c ∨
    w.pc.context = some c ∨ w.Answered c

variable {cfg : Config} {w w' : Worker} {input : Input} {c : Ctx}

theorem answered_callback {context : Option Ctx} {output : Output} {errno : ℤ} :
    (w.callback context output errno).Answered c ↔ w.Answered c ∨ context = some c := by
  unfold Answered callback
  constructor
  · rintro ⟨r, hr, hc⟩
    rcases List.mem_append.mp hr with hr | hr
    · exact .inl ⟨r, hr, hc⟩
    · rw [List.mem_singleton.mp hr] at hc
      exact .inr hc
  · rintro (⟨r, hr, hc⟩ | hc)
    · exact ⟨r, List.mem_append_left _ hr, hc⟩
    · exact ⟨_, List.mem_append_right _ (List.mem_singleton.mpr rfl), hc⟩

/-- A local or a field that holds no other request than those the worker mentions. -/
def Known (w : Worker) (context : Option Ctx) : Prop := ∀ c, context = some c → w.Mentions c

theorem known_none (w : Worker) : w.Known none := nofun

theorem known_context (w : Worker) : w.Known w.context := fun _ h => .inl h

theorem known_callback (w : Worker) : w.Known w.callbackContext := fun _ h => .inr (.inl h)

theorem known_local (w : Worker) : w.Known w.localContext := fun _ h => .inr (.inr (.inl h))

theorem known_pc (w : Worker) : w.Known w.pc.context := fun _ h => .inr (.inr (.inr (.inl h)))

theorem known_answered (w : Worker) (c : Ctx) (h : w.Answered c) : w.Mentions c :=
  .inr (.inr (.inr (.inr h)))

/-- All that a worker mentions after a step it has mentioned before. -/
theorem Mentions.of_known (hc : w'.Mentions c) (hcontext : w.Known w'.context)
    (hcallback : w.Known w'.callbackContext) (hlocal : w.Known w'.localContext)
    (hpc : w.Known w'.pc.context) (hreplies : ∀ c, w'.Answered c → w.Mentions c) :
    w.Mentions c := by
  rcases hc with hc | hc | hc | hc | hc
  exacts [hcontext c hc, hcallback c hc, hlocal c hc, hpc c hc, hreplies c hc]

/-- A step that takes no request into a local and replies to none. -/
theorem Mentions.of_same (hc : w'.Mentions c) (hcontext : w'.context = w.context)
    (hcallback : w'.callbackContext = w.callbackContext) (hlocal : w'.localContext = w.localContext)
    (hpc : w'.pc.context = none) (hreplies : w'.replies = w.replies) : w.Mentions c := by
  refine hc.of_known ?_ ?_ ?_ ?_ fun c hc => w.known_answered c ?_
  · exact hcontext ▸ w.known_context
  · exact hcallback ▸ w.known_callback
  · exact hlocal ▸ w.known_local
  · exact hpc ▸ w.known_none
  · rwa [Answered, hreplies] at hc

/-- A reply to a request that the worker mentions. -/
theorem Mentions.of_callback {context : Option Ctx} {output : Output} {errno : ℤ}
    (hcontext : w.Known context) (hc : (w.callback context output errno).Answered c) :
    w.Mentions c :=
  (answered_callback.mp hc).elim (w.known_answered c) (hcontext c)

theorem notifyInitStep_mentions {ok : Bool} {pc : NotifyPc} (hpc : w.pc = .notifyInit ok pc)
    (hc : (w.notifyInitStep ok pc).Mentions c) : w.Mentions c := by
  have hlocal := w.known_pc
  rw [hpc] at hlocal
  cases pc with
  | read =>
    exact hc.of_known w.known_context w.known_callback w.known_local w.known_context
      w.known_answered
  | reply context =>
    exact hc.of_known w.known_context w.known_callback w.known_local hlocal
      fun c hc => .of_callback hlocal hc
  | clear context =>
    exact hc.of_known w.known_none w.known_callback w.known_local w.known_none w.known_answered
  | setState =>
    exact hc.of_known w.known_context w.known_callback w.known_local w.known_none w.known_answered

theorem cooperateStep_mentions {pc : CooperatePc} (hpc : w.pc = .cooperate pc)
    (hc : (w.cooperateStep cfg pc).Mentions c) : w.Mentions c := by
  have hlocal := w.known_pc
  rw [hpc] at hlocal
  cases pc with
  | read =>
    rw [cooperateStep] at hc
    split at hc
    next hnone => exact hc.of_same rfl rfl rfl rfl rfl
    next c' hc' =>
      have hread : w.Known (some c') := hc' ▸ w.known_context
      exact hc.of_known w.known_context w.known_callback w.known_local hread w.known_answered
  | clear c' =>
    have hnext : Known w (Pc.context (.cooperate (cooperateNext (cfg.params c').name c'))) := by
      unfold cooperateNext
      split_ifs <;> exact hlocal
    exact hc.of_known w.known_none w.known_callback w.known_local hnext w.known_answered
  | abort c' =>
    exact hc.of_known w.known_context w.known_callback w.known_local hlocal w.known_answered
  | test c' =>
    have hnext : Known w (Pc.context (.cooperate
        (if w.callbackContext = none then .store c' else .reply c' EEXIST))) := by
      split_ifs <;> exact hlocal
    exact hc.of_known w.known_context w.known_callback w.known_local hnext w.known_answered
  | store c' =>
    exact hc.of_known w.known_context hlocal w.known_local w.known_none w.known_answered
  | reply c' errno =>
    exact hc.of_known w.known_context w.known_callback w.known_local w.known_none
      fun c hc => .of_callback hlocal hc

theorem unlock_mentions {p : Party} {pc : Pc} {job : Job} (hpc : pc.context = none)
    (hc : ({ w.unlock p with job := job }.goto pc).Mentions c) : w.Mentions c := by
  obtain ⟨owner, ho⟩ := w.unlock_eq p
  rw [ho] at hc
  exact hc.of_same rfl rfl rfl hpc rfl

/-- What a worker mentions after a step of its thread it has mentioned before. -/
theorem ThreadStep.mentions (h : ThreadStep cfg w input w') (hc : w'.Mentions c) :
    w.Mentions c := by
  cases h with
  | boot runtime path hpc hstate =>
    exact hc.of_known w.known_context w.known_callback w.known_none w.known_none w.known_answered
  | readNone hpc hnone | readContext c' hpc hc' =>
    exact hc.of_known w.known_context w.known_callback w.known_context w.known_none w.known_answered
  | bootUnlock hpc | unlockIdle hpc | unlockNone hpc hnone | unlockRequest c' hpc hc' =>
    exact unlock_mentions rfl hc
  | notifyInitStep ok pc hpc => exact notifyInitStep_mentions hpc hc
  | cooperateStep pc hpc => exact cooperateStep_mentions hpc hc
  | clearNone hpc hnone | clearContext c' hpc hc' =>
    exact hc.of_known w.known_none w.known_callback w.known_local w.known_none w.known_answered
  | replyError hpc =>
    exact hc.of_known w.known_context w.known_callback w.known_local w.known_none
      fun c hc => .of_callback w.known_local hc
  | replyCallback ok hpc =>
    exact hc.of_known w.known_context w.known_callback w.known_local w.known_none
      fun c hc => .of_callback w.known_local hc
  | noCallback hpc hnone | readCallback c' hpc hc' =>
    exact hc.of_known w.known_context w.known_callback w.known_callback w.known_none
      w.known_answered
  | clearCallback hpc =>
    exact hc.of_known w.known_context w.known_none w.known_local w.known_none w.known_answered
  | _ => exact hc.of_same rfl rfl rfl rfl rfl

end Worker

section

variable {n : ℕ} {c c' : Ctx} {i j : Fin n} {pc pc' : CallPc n} {w w' : Worker}

/-- Only a request that has been stored gets known to a worker. -/
theorem CallStep.mentions (h : CallStep c i w pc pc' w') (hc : w'.Mentions c') :
    w.Mentions c' ∨ c' = c ∧ pc' = .unlock i := by
  obtain ⟨hpc, hlocal, hcallback, hreplies⟩ := h.thread_same
  rw [Worker.Mentions, hpc, hlocal, hcallback, Worker.Answered, hreplies] at hc
  rcases hc with hc | hc
  · obtain hsame | ⟨-, hpc', hcontext⟩ := h.context
    · exact .inl (.inl (hsame.symm.trans hc))
    · exact .inr ⟨Option.some.inj (hc.symm.trans hcontext), hpc'⟩
  · exact .inl (.inr hc)

/-- A request is stored in a worker by the step that writes it into the slot. -/
theorem CallStep.stored_or (h : CallStep c i w pc pc' w') (hstored : pc'.stored i = true) :
    pc.stored i = true ∨ w'.context = some c := by
  cases h with
  | tidStore | startStore => exact .inr rfl
  | startSkip => cases (CallPc.stored_startNext i _).symm.trans hstored
  | unlock | post => exact .inl hstored
  | _ => cases hstored

theorem CallStep.stored_of_ne (h : CallStep c i w pc pc' w') (hne : j ≠ i)
    (hstored : pc'.stored j = true) : pc.stored j = true := by
  cases h with
  | tidStore | startStore => exact absurd (of_decide_eq_true hstored).symm hne
  | startSkip => cases (CallPc.stored_startNext j _).symm.trans hstored
  | unlock | post => exact hstored
  | _ => cases hstored

theorem CallStep.stored (h : CallStep c i w pc pc' w') (hstored : pc.stored j = true) :
    pc'.stored j = true := by
  cases h with
  | unlock | post => exact hstored
  | _ => cases hstored

end

namespace Agent

variable {n : ℕ} {cfg : Config} {s s' : Agent n} {e : Event n}

/-- All requests that a worker knows have been stored in it. -/
def Stored (s : Agent n) : Prop :=
  ∀ i c, (s.workers i).Mentions c → (s.calls c).stored i = true

theorem stored_initial (n : ℕ) (autoboot : Bool) : (initial n autoboot).Stored := by
  rintro i c (h | h | h | h | ⟨r, hr, -⟩)
  · cases h
  · cases h
  · cases h
  · rcases initial_pc autoboot i with hpc | hpc <;> rw [hpc] at h <;> cases h
  · cases hr

theorem Stored.step (h : s.Stored) (hstep : Step cfg s e s') : s'.Stored := by
  apply hstep.forall_workers (P := fun i w calls => ∀ c, w.Mentions c → (calls c).stored i = true) h
  · exact fun i _ _ _ hthread c hc => h i c (hthread.mentions hc)
  · intro c i hc c' hc'
    have hstored := h i c' hc'
    rcases eq_or_ne c' c with rfl | hne
    · rw [hc] at hstored
      cases hstored
    · rwa [Function.update_of_ne hne]
  · intro c i pc w _ hcall
    have hkeep (j : Fin n) (c' : Ctx) (hc' : (s.workers j).Mentions c') :
        (Function.update s.calls c pc c').stored j = true := by
      have hstored := h j c' hc'
      rcases eq_or_ne c' c with rfl | hne
      · rw [Function.update_self]
        exact hcall.stored hstored
      · rwa [Function.update_of_ne hne]
    refine ⟨fun c' hc' => ?_, fun j _ => hkeep j⟩
    obtain hc' | ⟨rfl, rfl⟩ := hcall.mentions hc'
    · exact hkeep i c' hc'
    · rw [Function.update_self]
      exact decide_eq_true rfl

end Agent

end OlivePiccolo.RubicAgent
