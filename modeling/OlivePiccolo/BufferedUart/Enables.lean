import OlivePiccolo.BufferedUart.Driver
import OlivePiccolo.Library.Arming

/-!
# Blocked threads have their interrupt enabled

The driver arms its interrupts as `Arming` says: the threads are the waiters, and the handler is the
server (`State.arming`, `arming_step`). So a thread that is blocked on its semaphore has its enable
bit set, unless the handler has just cleared it and is about to post the semaphore
(`blocked_enabled`); and if what it waits for has come, then the interrupt is requested
(`blocked_requests`).
-/

namespace OlivePiccolo.BufferedUart

open Arming (Phase Server)

/-! ## Bits of the mask -/

def Sem.bit : Sem → ℕ
  | .read => 14
  | .write => 10
  | .close => 9

/-- The enable bits of the threads. -/
def bits (x : Word) (w : Sem) : Bool := x.getLsbD w.bit

theorem Sem.trigger_eq (w : Sem) : w.trigger = BitVec.twoPow 16 w.bit := by
  cases w <;> rfl

theorem bits_trigger (w w' : Sem) : bits w.trigger w' = decide (w' = w) := by
  cases w <;> cases w' <;> rfl

theorem and_trigger_ne_zero {x : Word} {w : Sem} : x &&& w.trigger ≠ 0 ↔ bits x w = true := by
  rw [Sem.trigger_eq, BitVec.and_twoPow, bits]
  cases hbit : x.getLsbD w.bit with
  | true =>
    cases w <;> decide
  | false => exact ⟨fun hne => absurd rfl hne, nofun⟩

theorem bits_or_trigger (x : Word) (w : Sem) :
    bits (x ||| w.trigger) = Function.update (bits x) w true := by
  funext w'
  have hor : bits (x ||| w.trigger) w' = (bits x w' || bits w.trigger w') := BitVec.getLsbD_or
  rw [hor, bits_trigger]
  by_cases hw : w' = w
  · subst hw
    simp
  · rw [Function.update_of_ne hw, decide_eq_false hw, Bool.or_false]

theorem bits_writeIntr (d : Device) (v : Word) : bits (d.writeIntr v).intr = bits v := by
  funext w
  have hand : bits (d.writeIntr v).intr w = (bits v w && bits intrMsk w) := BitVec.getLsbD_and
  have hmask : bits intrMsk w = true := by cases w <;> rfl
  rw [hand, hmask, Bool.and_true]

theorem bits_and_not (irq causes : Word) :
    bits (irq &&& ~~~causes) = fun w => bits irq w && !bits causes w := by
  funext w
  have hlt : w.bit < 16 := by cases w <;> decide
  simp [bits, hlt]

/-! ## The protocol -/

def WaitPos.phase : WaitPos → Phase Sem
  | .load _ => .inside
  | .store _ intr => .loaded (bits intr)
  | .enable _ => .stored
  | .pend => .armed
  | .blocked => .blocked

def Pos.phase : {w : Sem} → Pos w → Phase Sem
  | _, .writeStatus _ _ | _, .writeData _ _ | _, .writeEnable _ _ | _, .writeFull _ _ => .inside
  | _, .wait _ p => p.phase
  | _, _ => .outside

/-- In the order of the handler. -/
def Sem.rank : Sem → ℕ
  | .read => 0
  | .write => 1
  | .close => 2

/-- The semaphores that the handler is going to post. -/
def Handler.todo : Handler → Sem → Bool
  | .post causes w, w' => bits causes w' && w.rank ≤ w'.rank
  | _, _ => false

def Handler.server : Handler → Server Sem
  | .idle => .idle
  | .intr => .entered
  | .status irq => .loaded (bits irq)
  | .store irq causes => .chosen (bits irq) (bits causes)
  | .post causes w => .posting (Handler.post causes w).todo
  | .ret => .posting Handler.ret.todo

/-- The state as the protocol sees it. -/
def State.arming (s : State) : Arming.State Sem where
  bits := bits s.dev.intr
  value := s.value
  phase w := (s.pos w).phase
  owner := if s.pie then none else some s.running
  server := s.handler.server

theorem Handler.server_todo (h : Handler) : h.server.todo = h.todo := by
  cases h <;> rfl

theorem Handler.server_eq_idle {h : Handler} : h.server = .idle ↔ h = .idle := by
  cases h <;> simp [Handler.server]

@[simp]
theorem ReadCall.phase_loop (cfg : Config) (c : ReadCall) : (c.loop cfg).phase = .outside := by
  unfold ReadCall.loop
  split_ifs <;> rfl

@[simp]
theorem WriteCall.phase_loop (cfg : Config) (c : WriteCall) : (c.loop cfg).phase = .outside := by
  unfold WriteCall.loop
  split_ifs <;> rfl

theorem ReadCall.phase_take (cfg : Config) (c : ReadCall) (data : Word) :
    (c.take cfg data).phase = .outside := by
  unfold ReadCall.take
  split_ifs <;> first | rfl | exact ReadCall.phase_loop _ _

theorem WriteCall.phase_test (c : WriteCall) (context : Bool) (status : Word) :
    (c.test context status).phase = .inside := by
  unfold WriteCall.test
  split_ifs <;> rfl

theorem Cont.phase_resume (cfg : Config) {w : Sem} (k : Cont w) :
    (k.resume cfg).phase = .outside := by
  cases k with
  | read c => exact c.phase_loop cfg
  | write c => exact c.phase_loop cfg
  | close => rfl

/-- Only a thread in the waiting list of its semaphore is woken. -/
theorem Pos.wake_cases (cfg : Config) {w : Sem} (p : Pos w) :
    (∃ pos, p.wake cfg = some pos ∧ p.phase = .blocked ∧ pos.phase = .outside) ∨
      p.wake cfg = none ∧ p.phase ≠ .blocked := by
  cases p with
  | wait k p =>
    cases p with
    | blocked => exact .inl ⟨_, rfl, rfl, k.phase_resume cfg⟩
    | _ => exact .inr ⟨rfl, nofun⟩
  | _ => exact .inr ⟨rfl, nofun⟩

/-! ## Contexts and the main enable bit -/

/-- What a position holds: the interrupts were enabled, and `IRQE` stays set. -/
def WaitPos.Sound : WaitPos → Prop
  | .load context | .enable context => context = true
  | .store context intr => context = true ∧ intr.getLsbD 0 = true
  | .pend | .blocked => True

def Pos.Sound : {w : Sem} → Pos w → Prop
  | _, .writeStatus _ context | _, .writeData _ context | _, .writeEnable _ context
  | _, .writeFull _ context => context = true
  | _, .wait _ p => p.Sound
  | _, _ => True

def Handler.Sound : Handler → Prop
  | .status irq => irq.getLsbD 0 = true
  | .store irq causes => irq.getLsbD 0 = true ∧ causes.getLsbD 0 = false
  | _ => True

/-- What holds in every state that is reached. -/
structure Inv (s : State) : Prop where
  arming : Arming.Inv s.arming
  irqe : s.dev.intr.getLsbD 0 = true
  pos : ∀ w, (s.pos w).Sound
  handler : s.handler.Sound

variable {cfg : Config} {s s' : State} {w : Sem} {e : Event}

/-- The interrupts are enabled for a thread that runs outside of a section. -/
theorem Inv.enabled (h : Inv s) (hruns : s.Runs w) (hphase : (s.pos w).phase.owns = false) :
    s.pie = true := by
  by_contra hpie
  have howner : s.arming.owner = some w := by
    show (if s.pie then none else some s.running) = some w
    rw [if_neg hpie, hruns.2.resolve_left hpie]
  have howns : (s.pos w).phase.owns = true := (h.arming.owner_iff w).mp howner
  rw [hphase] at howns
  cases howns

/-- What a thread has changed, as the protocol sees it. -/
theorem arming_put (s : State) (w : Sem) (v : View w) :
    (s.put w v).arming =
      { s.arming.goes w v.pos.phase with
        bits := bits v.dev.intr
        value := Function.update s.value w v.value
        owner := if v.pie then none else some w } := by
  have hphase : (fun w' => ((Function.update s.pos w v.pos) w').phase) =
      Function.update (fun w' => (s.pos w').phase) w v.pos.phase :=
    funext fun w' => Function.apply_update (fun _ => Pos.phase) s.pos w v.pos w'
  show Arming.State.mk _ _ (fun w' => ((Function.update s.pos w v.pos) w').phase) _ _ = _
  rw [hphase]
  rfl

/-- A thread that only goes somewhere else. -/
theorem arming_put_goes {v : View w} (hintr : v.dev.intr = s.dev.intr)
    (hvalue : v.value = s.value w) :
    (s.put w v).arming =
      { s.arming.goes w v.pos.phase with owner := if v.pie then none else some w } := by
  rw [arming_put, hintr, hvalue, Function.update_eq_self]
  rfl

/-- The interrupts stay enabled, or disabled. -/
theorem arming_owner (hruns : s.Runs w) (v : View w) (hpie : v.pie = s.pie) :
    (if v.pie then none else some w) = s.arming.owner := by
  show _ = if s.pie then none else some s.running
  rw [hpie]
  split_ifs with hs
  · rfl
  · rw [hruns.2.resolve_left hs]

/-- An access that the protocol does not see. -/
theorem arming_put_eq (hruns : s.Runs w) {v : View w} (hintr : v.dev.intr = s.dev.intr)
    (hvalue : v.value = s.value w) (hpie : v.pie = s.pie) (hphase : v.pos.phase = (s.pos w).phase) :
    (s.put w v).arming = s.arming := by
  have hsame : Function.update s.arming.phase w (s.pos w).phase = s.arming.phase :=
    Function.update_eq_self _ _
  rw [arming_put_goes hintr hvalue, hphase, arming_owner hruns v hpie, Arming.State.goes, hsame]

/-- `alt_irq_disable_all`. -/
theorem arming_enter (h : Inv s) (hruns : s.Runs w) (hphase : (s.pos w).phase = .outside)
    {v : View w} (hdev : v.dev = s.dev) (hvalue : v.value = s.value w) (hpie : v.pie = false)
    (hinside : v.pos.phase = .inside) : s.arming.Step (s.put w v).arming := by
  have henabled := h.enabled hruns (by rw [hphase]; rfl)
  rw [arming_put_goes (by rw [hdev]) hvalue, hpie, hinside]
  refine .enter w hphase ?_ (Handler.server_eq_idle.mpr hruns.1)
  show (if s.pie then none else some s.running) = none
  rw [if_pos henabled]

/-- `alt_irq_enable_all`. -/
theorem arming_leave (hphase : (s.pos w).phase = .inside) {v : View w}
    (hintr : v.dev.intr = s.dev.intr) (hvalue : v.value = s.value w) (hpie : v.pie = true)
    (houtside : v.pos.phase = .outside) : s.arming.Step (s.put w v).arming := by
  rw [arming_put_goes hintr hvalue, hpie, houtside]
  exact .leave w hphase

/-- An access in `buffered_uart_wait`. -/
theorem arming_wait {k : Cont w} {p : WaitPos} (hpos : s.pos w = .wait k p) (hsound : p.Sound)
    {v : View w} (hv : bufferedUartWait cfg (s.view w) k p = some v) (hruns : s.Runs w) :
    s.arming.Step (s.put w v).arming := by
  have hphase : s.arming.phase w = p.phase := by
    show (s.pos w).phase = _
    rw [hpos]
    rfl
  cases p with
  | load context =>
    cases hv
    rw [arming_put_goes rfl rfl, arming_owner hruns _ rfl]
    have hbits := bits_or_trigger s.dev.intr w
    show s.arming.Step (s.arming.goes w (.loaded (bits (s.dev.intr ||| w.trigger))))
    rw [hbits]
    exact .load w hphase
  | store context intr =>
    cases hv
    rw [arming_put, arming_owner hruns _ rfl, bits_writeIntr]
    show s.arming.Step { s.arming.goes w .stored with
      bits := bits intr
      value := Function.update s.value w (s.value w) }
    rw [Function.update_eq_self]
    exact .store w (bits intr) hphase
  | enable context =>
    obtain rfl : context = true := hsound
    cases hv
    rw [arming_put_goes rfl rfl]
    exact .arm w hphase
  | pend =>
    rw [bufferedUartWait] at hv
    split_ifs at hv with hpos
    · cases hv
      rw [arming_put, arming_owner hruns _ rfl, k.phase_resume]
      exact .take w hphase hpos
    · cases hv
      rw [arming_put_goes rfl rfl, arming_owner hruns _ rfl]
      exact .block w hphase (Nat.eq_zero_of_not_pos hpos)
  | blocked => cases hv

/-- **An access of a thread** is a step of the protocol, or is not seen. -/
theorem arming_access (h : Inv s) (hruns : s.Runs w) {v : View w}
    (hv : access cfg (s.view w) (s.pos w) = some v) :
    (s.put w v).arming = s.arming ∨ s.arming.Step (s.put w v).arming := by
  have hsound := h.pos w
  cases hpos : s.pos w with
  | idle ret =>
    rw [hpos] at hv
    cases hv
  | readData c =>
    rw [hpos] at hv
    cases hv
    refine .inl (arming_put_eq hruns ?_ rfl rfl ?_)
    · show s.dev.readData.2.intr = s.dev.intr
      unfold Device.readData
      split <;> rfl
    · rw [hpos]
      exact c.phase_take cfg _
  | readDisable c | writeDisable c | closeDisable =>
    rw [hpos] at hv
    cases hv
    exact .inr (arming_enter h hruns (by rw [hpos]; rfl) rfl rfl rfl rfl)
  | writeStatus c context =>
    rw [hpos] at hv
    cases hv
    refine .inl (arming_put_eq hruns rfl rfl rfl ?_)
    rw [hpos]
    exact c.phase_test context _
  | writeData c context =>
    rw [hpos] at hv
    cases hv
    refine .inl (arming_put_eq hruns ?_ rfl rfl (by rw [hpos]; rfl))
    show (s.dev.writeData cfg (c.value cfg)).intr = s.dev.intr
    unfold Device.writeData
    split_ifs <;> rfl
  | writeEnable c context =>
    rw [hpos] at hv hsound
    cases hv
    exact .inr (arming_leave (by rw [hpos]; rfl) rfl rfl hsound (c.phase_loop cfg))
  | writeFull c context =>
    rw [hpos] at hv hsound
    cases hv
    exact .inr (arming_leave (by rw [hpos]; rfl) rfl rfl hsound rfl)
  | closeFirst nonblock =>
    rw [hpos] at hv
    cases hv
    refine .inl (arming_put_eq hruns rfl rfl rfl ?_)
    rw [hpos]
    show Pos.phase (ite _ _ _) = _
    split_ifs <;> rfl
  | closeStatus =>
    rw [hpos] at hv
    cases hv
    refine .inl (arming_put_eq hruns rfl rfl rfl ?_)
    rw [hpos]
    show Pos.phase (ite _ _ _) = _
    split_ifs <;> rfl
  | wait k p =>
    rw [hpos] at hv hsound
    exact .inr (arming_wait hpos hsound hv hruns)

/-- A thread calls the driver. -/
theorem arming_call (hruns : s.Runs w) {pos : Pos w} (hidle : (s.pos w).isIdle = true)
    (hpos : pos.phase = .outside) :
    State.arming { s with pos := Function.update s.pos w pos, running := w } = s.arming := by
  have hphase : (s.pos w).phase = .outside := by
    cases hw : s.pos w with
    | idle ret => rfl
    | _ =>
      rw [hw] at hidle
      cases hidle
  have heq := arming_put_eq (v := ⟨s.dev, s.value w, s.pie, pos⟩) hruns rfl rfl rfl
    (hpos.trans hphase.symm)
  rw [← heq]
  show Arming.State.mk _ s.value _ _ _ =
    Arming.State.mk _ (Function.update s.value w (s.value w)) _ _ _
  rw [Function.update_eq_self]
  rfl

/-- `sem_post`. -/
theorem arming_semPost (h : Arming.Inv s.arming) (w : Sem) :
    s.arming.Post w (s.semPost cfg w).arming := by
  unfold State.semPost
  rcases (s.pos w).wake_cases cfg with ⟨pos, hwake, hblocked, houtside⟩ | ⟨hwake, hawake⟩
  · rw [hwake]
    have hphase : (fun w' => ((Function.update s.pos w pos) w').phase) =
        Function.update (fun w' => (s.pos w').phase) w pos.phase :=
      funext fun w' => Function.apply_update (fun _ => Pos.phase) s.pos w pos w'
    have hgoes : State.arming { s with pos := Function.update s.pos w pos } =
        s.arming.goes w .outside := by
      rw [houtside] at hphase
      show Arming.State.mk _ _ (fun w' => ((Function.update s.pos w pos) w').phase) _ _ = _
      rw [hphase]
      rfl
    rw [hgoes]
    exact .wake hblocked
  · have howed : s.value w ≤ 1 := by
      have heq : _ + _ + s.value w = _ := h.owed w
      have hle := Bool.toNat_le (s.arming.phase w).owed
      omega
    have hmax : s.value w ≠ semValueMax := by
      unfold semValueMax
      omega
    rw [hwake]
    show s.arming.Post w (State.arming (if s.value w = semValueMax then _ else _))
    rw [if_neg hmax]
    exact .raise hawake

/-- What the handler is going to post behind the test for a semaphore. -/
theorem todo_next (causes : Word) (w : Sem) :
    Handler.todo (w.next.elim .ret (.post causes)) =
      Function.update (Handler.todo (.post causes w)) w false := by
  funext w'
  cases w <;> cases w' <;> simp [Sem.next, Handler.todo, Sem.rank, Function.update]

/-- **The handler** is the server of the protocol. -/
theorem arming_handler (h : Arming.Inv s.arming) (hstep : s.bufferedUartIrq cfg = some s') :
    s'.arming = s.arming ∨ s.arming.Step s'.arming := by
  unfold State.bufferedUartIrq at hstep
  cases hhandler : s.handler with
  | idle =>
    rw [hhandler] at hstep
    cases hstep
  | intr =>
    rw [hhandler] at hstep
    cases hstep
    exact .inr (.serverLoad (congrArg Handler.server hhandler))
  | status irq =>
    rw [hhandler] at hstep
    cases hstep
    refine .inr (.choose (bits irq) _ (congrArg Handler.server hhandler) fun w hw => ?_)
    have hand : bits (s.dev.readStatus cfg &&& statusCausesMsk &&& irq) w = (_ && bits irq w) :=
      BitVec.getLsbD_and
    rw [hand, Bool.and_eq_true] at hw
    exact hw.2
  | store irq causes =>
    rw [hhandler] at hstep
    cases hstep
    refine .inr ?_
    have hbits := (bits_writeIntr s.dev (irq &&& ~~~causes)).trans (bits_and_not irq causes)
    have htodo : Handler.todo (.post causes .read) = bits causes := by
      funext w
      simp [Handler.todo, Sem.rank]
    show s.arming.Step { s.arming with
      bits := bits (s.dev.writeIntr (irq &&& ~~~causes)).intr
      server := .posting (Handler.todo (.post causes .read)) }
    rw [hbits, htodo]
    exact .clear _ _ (congrArg Handler.server hhandler)
  | post causes w =>
    rw [hhandler] at hstep
    cases hstep
    have hserver : s.arming.server = .posting (Handler.todo (.post causes w)) :=
      congrArg Handler.server hhandler
    have hnext : (w.next.elim Handler.ret (.post causes)).server =
        .posting (Function.update (Handler.todo (.post causes w)) w false) := by
      rw [← todo_next]
      cases w <;> rfl
    have htodo : Handler.todo (.post causes w) w = bits causes w := by
      simp [Handler.todo]
    by_cases hbit : causes &&& w.trigger ≠ 0
    · rw [if_pos hbit]
      have hcause := and_trigger_ne_zero.mp hbit
      refine .inr ?_
      show s.arming.Step { (s.semPost cfg w).arming with
        server := (w.next.elim Handler.ret (.post causes)).server }
      rw [hnext]
      exact .post w _ _ hserver (htodo.trans hcause) (arming_semPost h w)
    · rw [if_neg hbit]
      have hcause : bits causes w = false := by
        rwa [and_trigger_ne_zero, Bool.not_eq_true] at hbit
      refine .inl ?_
      show { s.arming with server := (w.next.elim Handler.ret (.post causes)).server } = s.arming
      rw [hnext, ← hcause, ← htodo, Function.update_eq_self, ← hserver]
  | ret =>
    rw [hhandler] at hstep
    cases hstep
    exact .inr (.done _ (congrArg Handler.server hhandler) fun _ => rfl)

/-- What an event does. -/
theorem step_cases (hstep : s.step cfg e = some s') :
    (∃ (w : Sem) (pos : Pos w), s.Runs w ∧ (s.pos w).isIdle = true ∧ pos.phase = .outside ∧
        s' = { s with pos := Function.update s.pos w pos, running := w }) ∨
      (∃ (w : Sem) (v : View w), s.Runs w ∧ access cfg (s.view w) (s.pos w) = some v ∧
        s' = s.put w v) ∨
      (s.handler = .idle ∧ s.pie = true ∧ s' = { s with handler := .intr }) ∨
      s.bufferedUartIrq cfg = some s' ∨
      ∃ dev : Device, dev.intr = s.dev.intr ∧ s' = { s with dev := dev } := by
  have hcall {w : Sem} {pos : Pos w} (hphase : pos.phase = .outside)
      (h : s.call w pos = some s') : ∃ (w : Sem) (pos : Pos w), s.Runs w ∧
        (s.pos w).isIdle = true ∧ pos.phase = .outside ∧
        s' = { s with pos := Function.update s.pos w pos, running := w } := by
    obtain ⟨⟨hruns, hidle⟩, heq⟩ := Option.ite_none_right_eq_some.mp h
    exact ⟨w, pos, hruns, hidle, hphase, (Option.some.inj heq).symm⟩
  cases e with
  | read len nonblock => exact .inl (hcall (ReadCall.phase_loop _ _) hstep)
  | write ptr len nonblock => exact .inl (hcall (WriteCall.phase_loop _ _) hstep)
  | close nonblock => exact .inl (hcall rfl hstep)
  | access w =>
    obtain ⟨hruns, haccess⟩ := Option.ite_none_right_eq_some.mp hstep
    obtain ⟨v, hv, rfl⟩ := Option.map_eq_some_iff.mp haccess
    exact .inr (.inl ⟨w, v, hruns, hv, rfl⟩)
  | interrupt =>
    obtain ⟨⟨hidle, hpie, -⟩, heq⟩ := Option.ite_none_right_eq_some.mp hstep
    exact .inr (.inr (.inl ⟨hidle, hpie, (Option.some.inj heq).symm⟩))
  | handler => exact .inr (.inr (.inr (.inl hstep)))
  | receive data =>
    refine .inr (.inr (.inr (.inr ⟨_, ?_, (Option.some.inj hstep).symm⟩)))
    unfold Device.receive
    split_ifs <;> rfl
  | drain => exact .inr (.inr (.inr (.inr ⟨s.dev.drain, rfl, (Option.some.inj hstep).symm⟩)))

/-- **An event** is a step of the protocol, or is not seen. -/
theorem arming_step (h : Inv s) (hstep : s.step cfg e = some s') :
    s'.arming = s.arming ∨ s.arming.Step s'.arming := by
  rcases step_cases hstep with ⟨w, pos, hruns, hidle, hpos, rfl⟩ | ⟨w, v, hruns, hv, rfl⟩ |
    ⟨hidle, hpie, rfl⟩ | hhandler | ⟨dev, hintr, rfl⟩
  · exact .inl (arming_call hruns hidle hpos)
  · exact arming_access h hruns hv
  · exact .inr (.interrupt (if_pos hpie) (Handler.server_eq_idle.mpr hidle))
  · exact arming_handler h.arming hhandler
  · refine .inl ?_
    show { s.arming with bits := bits dev.intr } = s.arming
    rw [hintr]
    rfl

/-! ## Runs -/

theorem Pos.sound_of_outside {p : Pos w} (h : p.phase = .outside) : p.Sound := by
  cases p with
  | wait k p => cases p <;> cases h
  | writeStatus c context | writeData c context | writeEnable c context | writeFull c context =>
    cases h
  | _ => trivial

theorem writeIntr_irqe {d : Device} {v : Word} (h : v.getLsbD 0 = true) :
    (d.writeIntr v).intr.getLsbD 0 = true := by
  unfold Device.writeIntr
  rw [BitVec.getLsbD_and, h]
  rfl

/-- An access of a thread keeps what its position holds. -/
theorem sound_access (h : Inv s) (hruns : s.Runs w) {v : View w}
    (hv : access cfg (s.view w) (s.pos w) = some v) :
    v.pos.Sound ∧ v.dev.intr.getLsbD 0 = true := by
  have hsound := h.pos w
  have hirqe := h.irqe
  cases hpos : s.pos w with
  | idle ret =>
    rw [hpos] at hv
    cases hv
  | readData c =>
    rw [hpos] at hv
    cases hv
    refine ⟨Pos.sound_of_outside (c.phase_take cfg _), ?_⟩
    show s.dev.readData.2.intr.getLsbD 0 = true
    unfold Device.readData
    split <;> exact hirqe
  | readDisable c | writeDisable c | closeDisable =>
    rw [hpos] at hv
    cases hv
    exact ⟨h.enabled hruns (by rw [hpos]; rfl), hirqe⟩
  | writeStatus c context =>
    rw [hpos] at hv hsound
    cases hv
    refine ⟨?_, hirqe⟩
    show (c.test context _).Sound
    unfold WriteCall.test
    split_ifs <;> exact hsound
  | writeData c context =>
    rw [hpos] at hv hsound
    cases hv
    refine ⟨hsound, ?_⟩
    show (s.dev.writeData cfg (c.value cfg)).intr.getLsbD 0 = true
    unfold Device.writeData
    split_ifs <;> exact hirqe
  | writeEnable c context =>
    rw [hpos] at hv
    cases hv
    exact ⟨Pos.sound_of_outside (c.phase_loop cfg), hirqe⟩
  | writeFull c context =>
    rw [hpos] at hv
    cases hv
    exact ⟨trivial, hirqe⟩
  | closeFirst nonblock =>
    rw [hpos] at hv
    cases hv
    refine ⟨?_, hirqe⟩
    show Pos.Sound (ite _ _ _)
    split_ifs <;> trivial
  | closeStatus =>
    rw [hpos] at hv
    cases hv
    refine ⟨?_, hirqe⟩
    show Pos.Sound (ite _ _ _)
    split_ifs <;> trivial
  | wait k p =>
    rw [hpos] at hv hsound
    cases p with
    | load context =>
      cases hv
      refine ⟨⟨hsound, ?_⟩, hirqe⟩
      show (s.dev.intr ||| w.trigger).getLsbD 0 = true
      rw [BitVec.getLsbD_or, hirqe, Bool.true_or]
    | store context intr =>
      cases hv
      exact ⟨hsound.1, writeIntr_irqe hsound.2⟩
    | enable context =>
      cases hv
      exact ⟨trivial, hirqe⟩
    | pend =>
      have hpend : bufferedUartWait cfg (s.view w) k .pend = some v := hv
      rw [bufferedUartWait] at hpend
      split_ifs at hpend
      · cases hpend
        exact ⟨Pos.sound_of_outside (k.phase_resume cfg), hirqe⟩
      · cases hpend
        exact ⟨trivial, hirqe⟩
    | blocked => cases hv

/-- The handler keeps what it and the positions hold. -/
theorem sound_handler (h : Inv s) (hstep : s.bufferedUartIrq cfg = some s') :
    s'.dev.intr.getLsbD 0 = true ∧ (∀ w, (s'.pos w).Sound) ∧ s'.handler.Sound := by
  have hsound := h.handler
  unfold State.bufferedUartIrq at hstep
  cases hhandler : s.handler with
  | idle =>
    rw [hhandler] at hstep
    cases hstep
  | intr =>
    rw [hhandler] at hstep
    cases hstep
    exact ⟨h.irqe, h.pos, h.irqe⟩
  | status irq =>
    rw [hhandler] at hstep hsound
    cases hstep
    refine ⟨h.irqe, h.pos, hsound, ?_⟩
    rw [BitVec.getLsbD_and, BitVec.getLsbD_and, show statusCausesMsk.getLsbD 0 = false from rfl,
      Bool.and_false, Bool.false_and]
  | store irq causes =>
    rw [hhandler] at hstep hsound
    cases hstep
    refine ⟨writeIntr_irqe ?_, h.pos, trivial⟩
    rw [BitVec.getLsbD_and, BitVec.getLsbD_not, hsound.1, hsound.2]
    rfl
  | post causes w =>
    rw [hhandler] at hstep
    cases hstep
    have hpost : (s.semPost cfg w).dev = s.dev ∧ ∀ w', ((s.semPost cfg w).pos w').Sound := by
      unfold State.semPost
      rcases (s.pos w).wake_cases cfg with ⟨pos, hwake, -, houtside⟩ | ⟨hwake, -⟩
      · rw [hwake]
        refine ⟨rfl, fun w' => ?_⟩
        show (Function.update s.pos w pos w').Sound
        by_cases hw : w' = w
        · subst hw
          rw [Function.update_self]
          exact Pos.sound_of_outside houtside
        · rw [Function.update_of_ne hw]
          exact h.pos w'
      · rw [hwake]
        show State.dev (ite _ _ _) = _ ∧ ∀ w', (State.pos (ite _ _ _) w').Sound
        split_ifs <;> exact ⟨rfl, h.pos⟩
    have hnext : (w.next.elim Handler.ret (.post causes)).Sound := by
      cases w <;> trivial
    split_ifs
    · exact ⟨by rw [hpost.1]; exact h.irqe, hpost.2, hnext⟩
    · exact ⟨h.irqe, h.pos, hnext⟩
  | ret =>
    rw [hhandler] at hstep
    cases hstep
    exact ⟨h.irqe, h.pos, trivial⟩

/-- **A step** keeps what holds in every state. -/
theorem Inv.step (h : Inv s) (hstep : s.step cfg e = some s') : Inv s' := by
  have harming : Arming.Inv s'.arming := by
    rcases arming_step h hstep with heq | hmoved
    · rw [heq]
      exact h.arming
    · exact h.arming.step hmoved
  rcases step_cases hstep with ⟨w, pos, -, -, hpos, rfl⟩ | ⟨w, v, hruns, hv, rfl⟩ |
    ⟨-, -, rfl⟩ | hhandler | ⟨dev, hintr, rfl⟩
  · refine ⟨harming, h.irqe, fun w' => ?_, h.handler⟩
    show (Function.update s.pos w pos w').Sound
    by_cases hw : w' = w
    · subst hw
      rw [Function.update_self]
      exact Pos.sound_of_outside hpos
    · rw [Function.update_of_ne hw]
      exact h.pos w'
  · obtain ⟨hsound, hirqe⟩ := sound_access h hruns hv
    refine ⟨harming, hirqe, fun w' => ?_, h.handler⟩
    show (Function.update s.pos w v.pos w').Sound
    by_cases hw : w' = w
    · subst hw
      rw [Function.update_self]
      exact hsound
    · rw [Function.update_of_ne hw]
      exact h.pos w'
  · exact ⟨harming, h.irqe, h.pos, trivial⟩
  · obtain ⟨hirqe, hpos, hsound⟩ := sound_handler h hhandler
    exact ⟨harming, hirqe, hpos, hsound⟩
  · exact ⟨harming, by rw [hintr]; exact h.irqe, h.pos, h.handler⟩

theorem init_intr (dev : Device) : (State.bufferedUartInit dev).dev.intr = intrIrqeMsk := by
  show intrIrqeMsk &&& intrMsk = intrIrqeMsk
  decide

theorem inv_init (dev : Device) : Inv (State.bufferedUartInit dev) where
  arming := by
    refine ⟨fun w => ?_, fun w => ⟨nofun, nofun⟩, fun hbusy => absurd rfl hbusy, nofun, nofun,
      nofun, nofun⟩
    show (bits (State.bufferedUartInit dev).dev.intr w).toNat + 0 + 0 = 0
    rw [init_intr]
    cases w <;> rfl
  irqe := by
    rw [init_intr]
    rfl
  pos _ := trivial
  handler := trivial

variable {dev : Device} {es : List Event}

theorem inv_path (hpath : Runs.Path (State.step cfg) Runs.anyStep
    (State.bufferedUartInit dev) es s) : Inv s :=
  hpath.invariant (inv_init dev) fun _ _ _ h _ hstep => h.step hstep

theorem State.Blocked.phase (h : s.Blocked w) : s.arming.phase w = .blocked := by
  obtain ⟨k, hpos⟩ := h
  show (s.pos w).phase = _
  rw [hpos]
  rfl

/-- **Blocked threads have their interrupt enabled.** A thread that waits for its semaphore finds
the count at 0, and its enable bit is set, or the handler has cleared it and is about to post the
semaphore. -/
theorem blocked_enabled (hpath : Runs.Path (State.step cfg) Runs.anyStep
    (State.bufferedUartInit dev) es s) (hblocked : s.Blocked w) :
    s.value w = 0 ∧ (s.Enabled w ∨ s.handler.todo w = true) := by
  have hinv := inv_path hpath
  have hphase := hblocked.phase
  refine ⟨hinv.arming.blocked w hphase, ?_⟩
  rcases hinv.arming.enabled_of_blocked hphase with hbit | htodo
  · exact .inl (and_trigger_ne_zero.mpr hbit)
  · refine .inr ?_
    rw [← s.handler.server_todo]
    exact htodo

/-- The FIFOs are empty, as they are behind a reset. -/
def freshDevice : Device := ⟨[], 0, false, [], 0⟩

/-- The reader finds nothing, and waits. -/
def readerWaits : List Event :=
  [.read 1 false, .access .read, .access .read, .access .read, .access .read, .access .read,
    .access .read]

theorem blocked_enabled_reader : ∃ s, Runs.Path (State.step ⟨8, 10, 10⟩) Runs.anyStep
    (State.bufferedUartInit freshDevice) readerWaits s ∧ s.Blocked .read ∧
      s.value .read = 0 ∧ (s.Enabled .read ∨ s.handler.todo .read = true) :=
  ⟨_, Runs.path_get (by decide), ⟨_, rfl⟩, blocked_enabled (Runs.path_get (by decide)) ⟨_, rfl⟩⟩

/-- A byte is received, and the handler has cleared the bit, but not posted the semaphore. -/
theorem not_blocked_enabled : ¬ ∀ es s, Runs.Path (State.step ⟨8, 10, 10⟩) Runs.anyStep
    (State.bufferedUartInit freshDevice) es s →
      (s.Blocked .read → s.value .read = 0 → s.Enabled .read) ∧
        (s.Blocked .write → s.value .write = 0 → s.Enabled .write) := by
  intro hclaim
  have hpath : Runs.Path (State.step ⟨8, 10, 10⟩) Runs.anyStep
      (State.bufferedUartInit freshDevice)
      (readerWaits ++ [.receive 0x41, .interrupt, .handler, .handler, .handler]) _ :=
    Runs.path_get (by decide)
  exact absurd ((hclaim _ _ hpath).1 ⟨_, rfl⟩ (by decide)) (by decide)

/-- **No wake-up is lost.** When what a blocked thread waits for has come, the interrupt is
requested, or the handler runs. -/
theorem blocked_requests (hpath : Runs.Path (State.step cfg) Runs.anyStep
    (State.bufferedUartInit dev) es s) (hblocked : s.Blocked w)
    (hcome : s.dev.readStatus cfg &&& w.trigger ≠ 0) :
    s.dev.insIrq cfg = true ∨ s.handler ≠ .idle := by
  have hinv := inv_path hpath
  have hphase := hblocked.phase
  rcases hinv.arming.enabled_of_blocked hphase with hbit | htodo
  · refine .inl (decide_eq_true ⟨fun hzero => ?_, fun hzero => ?_⟩)
    · have hirqe : (s.dev.intr &&& intrIrqeMsk).getLsbD 0 = true := by
        rw [BitVec.getLsbD_and, hinv.irqe]
        rfl
      rw [hzero] at hirqe
      cases hirqe
    · have hstatus := and_trigger_ne_zero.mp hcome
      have hmask : bits statusCausesMsk w = true := by cases w <;> rfl
      have hand : bits (s.dev.intr &&& s.dev.readStatus cfg &&& statusCausesMsk) w = true := by
        have hall : bits (s.dev.intr &&& s.dev.readStatus cfg &&& statusCausesMsk) w =
            ((bits s.dev.intr w && bits (s.dev.readStatus cfg) w) && bits statusCausesMsk w) := by
          simp [bits]
        rw [hall, hstatus, hmask, show bits s.dev.intr w = true from hbit]
        rfl
      rw [hzero] at hand
      cases w <;> cases hand
  · refine .inr fun hidle => ?_
    rw [show s.arming.server = s.handler.server from rfl, hidle] at htodo
    cases htodo

/-- The byte has come that the reader waits for. -/
theorem blocked_requests_receive : ∃ s, Runs.Path (State.step ⟨8, 10, 10⟩) Runs.anyStep
    (State.bufferedUartInit freshDevice) (readerWaits ++ [.receive 0x41]) s ∧ s.Blocked .read ∧
      s.handler = .idle ∧ (s.dev.insIrq ⟨8, 10, 10⟩ = true ∨ s.handler ≠ .idle) :=
  ⟨_, Runs.path_get (by decide), ⟨_, rfl⟩, rfl,
    blocked_requests (w := .read) (Runs.path_get (by decide)) ⟨_, rfl⟩ (by decide)⟩

end OlivePiccolo.BufferedUart
