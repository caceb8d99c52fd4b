import Mathlib.Data.List.Basic
import OlivePiccolo.I2c.Master
import OlivePiccolo.Spi.Words

/-!
# The transactions of the I2C master

What the words for the access register are to `peridot_i2c.v`, and which commands a call gives, for
any answers of the bus (`transfer_transaction`). A command that is refused is followed by a dummy one
with the stop condition, unless it has the stop condition itself.
-/

namespace OlivePiccolo.I2c

open Dialog Spi

/-! ## Commands -/

/-- What is done with the byte of a command. A read is answered by ACK or NACK. -/
inductive Body
  | write (byte : BitVec 8)
  | read (nack : Bool)
  deriving DecidableEq, Repr

/-- A command of the controller: a start condition before the byte, a stop condition behind it. -/
structure Command where
  start : Bool
  stop : Bool
  body : Body
  deriving DecidableEq, Repr

/-- `STATE_IDLE`: a word for the access register that begins a transaction. -/
def command (data : BitVec 32) : Command where
  start := data.getLsbD 12
  stop := data.getLsbD 11
  body := if data.getLsbD 10 then .read (data.getLsbD 8) else .write (data.extractLsb' 0 8)

/-- The commands of a trace, with the answers that the driver waits for. -/
def exchanges : Option Command → List (Said × BitVec 32) → List (Command × BitVec 32)
  | _, [] => []
  | pending, (.iowr .access data, _) :: l =>
    exchanges (if data.getLsbD 9 then some (command data) else pending) l
  | some c, (.iord .access, resp) :: l =>
    if resp &&& RDY_MSK ≠ 0 then (c, resp) :: exchanges none l else exchanges (some c) l
  | pending, _ :: l => exchanges pending l

/-- A written byte, of an address or of data, has been answered by NACK. -/
def Refused (x : Command × BitVec 32) : Prop :=
  (∃ byte, x.1.body = .write byte) ∧ x.2 &&& NACK_MSK ≠ 0

/-- The byte that a command has read. -/
def readByte (x : Command × BitVec 32) : Option (BitVec 8) :=
  match x.1.body with
  | .write _ => none
  | .read _ => some (rxdata x.2)

/-- The error for a command that is refused. -/
def failure (c : Command) : ℤ := if c.start then -ENOENT else -ECANCELED

/-- The dummy command behind one that is refused: a read if it is the address for reading. -/
def dummy (c : Command) : Command :=
  match c.body with
  | .write byte =>
    if c.start ∧ byte.getLsbD 0 then ⟨false, true, .read true⟩ else ⟨false, true, .write 0xff⟩
  | .read _ => ⟨false, true, .write 0xff⟩

/-! ## Transactions -/

/-- The stop condition goes to the last command. -/
def ended : List Command → List Command
  | [] => []
  | [c] => [{ c with stop := true }]
  | c :: l => c :: ended l

/-- The slave address and the bytes to write. -/
def Call.writes (c : Call) : List Command :=
  if c.writeData = [] then []
  else ⟨true, false, .write (BitVec.ofNat 8 (2 * c.slaveAddress.toNat))⟩ ::
    c.writeData.map fun byte => ⟨false, false, .write byte⟩

/-- The slave address and the bytes to read, of which the last one is answered by NACK. -/
def Call.reads (c : Call) : List Command :=
  if c.readLength = 0 then []
  else ⟨true, false, .write (BitVec.ofNat 8 (2 * c.slaveAddress.toNat + 1))⟩ ::
    (List.replicate (c.readLength - 1) ⟨false, false, .read false⟩ ++ [⟨false, false, .read true⟩])

/-- The commands of a call if nothing is refused. -/
def Call.plan (c : Call) : List Command := ended (c.writes ++ c.reads)

/-- Commands are carried out, up to the first one that is refused. -/
inductive Performs : List Command → List (Command × BitVec 32) → Outcome → Prop
  | done : Performs [] [] ⟨0, []⟩
  | step {c : Command} {plan : List Command} {resp : BitVec 32} {cs : List (Command × BitVec 32)}
      {o : Outcome} (haccepted : ¬ Refused (c, resp)) (h : Performs plan cs o) :
      Performs (c :: plan) ((c, resp) :: cs)
        ⟨o.result, (readByte (c, resp)).toList ++ o.readData⟩
  | last {c : Command} {resp : BitVec 32} (hrefused : Refused (c, resp)) :
      Performs [c] [(c, resp)] ⟨failure c, []⟩
  | stop {c c' : Command} {plan : List Command} {resp r : BitVec 32}
      (hrefused : Refused (c, resp)) :
      Performs (c :: c' :: plan) [(c, resp), (dummy c, r)] ⟨failure c, []⟩

/-- One stop condition, at the last command; and of the reads only the last command is answered by
NACK. -/
def Complete (l : List Command) : Prop :=
  ∃ init last, l = init ++ [last] ∧ last.stop = true ∧ last.body ≠ .read false ∧
    ∀ c ∈ init, c.stop = false ∧ c.body ≠ .read true

/-! ## Words -/

section Words

theorem getLsbD_txdata (byte : BitVec 8) (i : ℕ) : (txdata byte).getLsbD i = byte.getLsbD i := by
  show ((byte.setWidth 32 <<< 0) &&& 0xff).getLsbD i = _
  rw [BitVec.shiftLeft_zero, BitVec.getLsbD_and, BitVec.getLsbD_setWidth]
  by_cases hi : i < 8
  · have hmask : ∀ i < 8, (0xff : BitVec 32).getLsbD i = true := by decide
    rw [hmask i hi, Bool.and_true, decide_eq_true (by omega), Bool.true_and]
  · rw [BitVec.getLsbD_of_ge byte i (by omega), Bool.and_false, Bool.false_and]

/-- All these words begin a transaction. -/
theorem starts (address byte : BitVec 8) (last : Bool) :
    (addressWord address).getLsbD 9 = true ∧ (writeWord last byte).getLsbD 9 = true ∧
      (readWord last).getLsbD 9 = true := by
  have hbyte : ∀ byte, (txdata byte).getLsbD 9 = false := by
    intro byte
    rw [getLsbD_txdata, BitVec.getLsbD_of_ge byte 9 (by decide)]
  refine ⟨?_, ?_, ?_⟩
  · rw [addressWord, BitVec.getLsbD_or, hbyte]
    decide
  · rw [writeWord, BitVec.getLsbD_or, hbyte]
    cases last <;> decide
  · cases last <;> decide

end Words

/-! ## Traces -/

/-- A part of a trace gives these commands. -/
def Exchanges (l : List (Said × BitVec 32)) (cs : List (Command × BitVec 32)) : Prop :=
  ∀ rest, exchanges none (l ++ rest) = cs ++ exchanges none rest

section Traces

variable {fuel : ℕ} {l l' : List (Said × BitVec 32)} {cs cs' : List (Command × BitVec 32)}

theorem Exchanges.nil : Exchanges [] [] := fun _ => rfl

theorem Exchanges.append (h : Exchanges l cs) (h' : Exchanges l' cs') :
    Exchanges (l ++ l') (cs ++ cs') := by
  intro rest
  rw [List.append_assoc, h, h', List.append_assoc]

theorem Exchanges.eq (h : Exchanges l cs) : exchanges none l = cs := by
  have := h []
  rwa [List.append_nil, exchanges, List.append_nil] at this

end Traces

/-! ## The loops -/

section Loops

variable {fuel : ℕ} {l : List (Said × BitVec 32)} {o : Outcome}

theorem ended_cons (c : Command) {l : List Command} (h : l ≠ []) :
    ended (c :: l) = c :: ended l := by
  cases l with
  | nil => exact absurd rfl h
  | cons c' l => rfl

theorem ended_ne_nil {l : List Command} (h : l ≠ []) : ended l ≠ [] := by
  match l, h with
  | [_], _ => exact List.cons_ne_nil _ _
  | _ :: _ :: _, _ => exact List.cons_ne_nil _ _

/-- A command in the middle that is accepted. -/
theorem Performs.cons {c : Command} {plan : List Command} {resp : BitVec 32}
    {cs : List (Command × BitVec 32)} {o : Outcome} (hplan : plan ≠ [])
    (haccepted : ¬ Refused (c, resp)) (h : Performs (ended plan) cs o) :
    Performs (ended (c :: plan)) ((c, resp) :: cs)
      ⟨o.result, (readByte (c, resp)).toList ++ o.readData⟩ := by
  rw [ended_cons c hplan]
  exact .step haccepted h

/-- A command in the middle that is refused. -/
theorem Performs.refused {c : Command} {plan : List Command} {resp : BitVec 32} (r : BitVec 32)
    (hplan : plan ≠ []) (hrefused : Refused (c, resp)) :
    Performs (ended (c :: plan)) [(c, resp), (dummy c, r)] ⟨failure c, []⟩ := by
  rw [ended_cons c hplan]
  obtain ⟨c', plan', htail⟩ := List.exists_cons_of_ne_nil (ended_ne_nil hplan)
  rw [htail]
  exact .stop hrefused

end Loops

/-! ## What is carried out -/

section Performs

variable {plan : List Command} {cs : List (Command × BitVec 32)} {o : Outcome}

/-- Either all commands are accepted, or they end with the one that is refused, and with a dummy one
if there would have been others. -/
theorem Performs.cut (h : Performs plan cs o) :
    ((∀ x ∈ cs, ¬ Refused x) ∧ cs.map Prod.fst = plan ∧ o.result = 0 ∧
      o.readData = cs.filterMap readByte) ∨
    ∃ done x after stop, cs = done ++ x :: stop ∧ (∀ y ∈ done, ¬ Refused y) ∧ Refused x ∧
      plan = done.map Prod.fst ++ x.1 :: after ∧
      stop.map Prod.fst = (if after = [] then [] else [dummy x.1]) ∧ o.result = failure x.1 := by
  induction h with
  | done => exact .inl ⟨fun _ hx => absurd hx List.not_mem_nil, rfl, rfl, rfl⟩
  | @step c plan resp cs o haccepted _ ih =>
    rcases ih with ⟨hall, hplan, hresult, hdata⟩ | ⟨done, x, after, stop, hcs, hall, hx, hplan, hrest⟩
    · refine .inl ⟨?_, congrArg _ hplan, hresult, ?_⟩
      · exact List.forall_mem_cons.mpr ⟨haccepted, hall⟩
      · rw [hdata, List.filterMap_cons]
        cases readByte (c, resp) <;> rfl
    · refine .inr ⟨(c, resp) :: done, x, after, stop, congrArg _ hcs, ?_, hx, congrArg _ hplan, hrest⟩
      exact List.forall_mem_cons.mpr ⟨haccepted, hall⟩
  | last hrefused =>
    exact .inr ⟨[], _, [], [], rfl, fun _ hx => absurd hx List.not_mem_nil, hrefused, rfl, rfl, rfl⟩
  | stop hrefused =>
    exact .inr ⟨[], _, _, [_], rfl, fun _ hx => absurd hx List.not_mem_nil, hrefused, rfl,
      (if_neg (List.cons_ne_nil _ _)).symm, rfl⟩

theorem Complete.cons {c : Command} {l : List Command} (hc : c.stop = false ∧ c.body ≠ .read true)
    (h : Complete l) : Complete (c :: l) := by
  obtain ⟨init, last, rfl, hstop, hread, hinit⟩ := h
  exact ⟨c :: init, last, rfl, hstop, hread, List.forall_mem_cons.mpr ⟨hc, hinit⟩⟩

theorem Complete.tail {c c' : Command} {l : List Command} (h : Complete (c :: c' :: l)) :
    (c.stop = false ∧ c.body ≠ .read true) ∧ Complete (c' :: l) := by
  obtain ⟨init, last, heq, hstop, hread, hinit⟩ := h
  cases init with
  | nil => cases heq
  | cons c₁ init =>
    obtain ⟨rfl, htail⟩ := List.cons.inj heq
    obtain ⟨hfirst, hrest⟩ := List.forall_mem_cons.mp hinit
    exact ⟨hfirst, init, last, htail, hstop, hread, hrest⟩

end Performs

end OlivePiccolo.I2c
