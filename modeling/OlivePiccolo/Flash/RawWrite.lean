import Mathlib.Data.Finset.Lattice.Fold
import OlivePiccolo.Flash.Nor

/-!
# What `epcs_fatfs_raw_write` stores

With an ideal flash behind the commands, `epcs_fatfs_raw_write` ends. It has stored the data and
nothing else, or a command has failed and it has given up at once; the lock is taken and given back
in turn (`raw_write_stores`).
-/

namespace OlivePiccolo.Flash

open Dialog NorFlash

/-- What was said and answered. -/
abbrev Log := List (Said × Reply)

/-! ## What a log says -/

/-- No command has failed. -/
def Clean (log : Log) : Prop := ∀ x ∈ log, 0 ≤ x.2.result

/-- The calls of the lock. -/
def lockCalls (log : Log) : List Said :=
  (log.map Prod.fst).filter fun c => c = .lock ∨ c = .unlock

/-- The lock is taken and given back in turn. -/
def Balanced (log : Log) : Prop :=
  ∃ n, lockCalls log = (List.replicate n [Said.lock, .unlock]).flatten

/-- The same, and then it is taken. -/
def Held (log : Log) : Prop :=
  ∃ n, lockCalls log = (List.replicate n [Said.lock, .unlock]).flatten ++ [.lock]

/-- The last command has failed, and no one before. -/
def EndsAtError (log : Log) : Prop :=
  ∃ before c r, log = before ++ [(c, r)] ∧ Clean before ∧ r.result < 0

section Log

variable {log : Log} {r : Reply} {write : List UInt8} {n : ℕ} {merge : Bool}

theorem Clean.snoc {c : Said} (h : Clean log) (hr : 0 ≤ r.result) : Clean (log ++ [(c, r)]) := by
  intro x hx
  rcases List.mem_append.mp hx with hlog | hlast
  · exact h x hlog
  · rw [List.mem_singleton.mp hlast]
    exact hr

theorem lockCalls_append (log log' : Log) :
    lockCalls (log ++ log') = lockCalls log ++ lockCalls log' := by
  rw [lockCalls, List.map_append, List.filter_append]
  rfl

theorem Balanced.lock (h : Balanced log) : Held (log ++ [(.lock, r)]) := by
  obtain ⟨k, hk⟩ := h
  refine ⟨k, ?_⟩
  rw [lockCalls_append, hk]
  rfl

theorem Held.command (h : Held log) : Held (log ++ [(.command write n merge, r)]) := by
  obtain ⟨k, hk⟩ := h
  refine ⟨k, ?_⟩
  rw [lockCalls_append, hk]
  exact List.append_nil _

theorem Held.unlock (h : Held log) : Balanced (log ++ [(.unlock, r)]) := by
  obtain ⟨k, hk⟩ := h
  refine ⟨k + 1, ?_⟩
  rw [lockCalls_append, hk, List.replicate_succ', List.flatten_append, List.append_assoc]
  rfl

end Log

/-! ## Commands that can fail -/

section Rules

variable {env : Env} {α β : Type} {w : Device} {log : Log}

/-- A failed command is the end of the log; otherwise, `G` holds of it and `good` of the result. -/
def Outcome (F G : Log → Prop) (good : α → Chip → Prop) : Option α × (Device × Log) → Prop
  | (none, _, log) => F log
  | (some a, w, log) => G log ∧ good a w.chip

/-- Inside of the lock, after a failed command. -/
def Failed (env : Env) (log : Log) : Prop :=
  Held log ∧ EndsAtError log ∧ ∃ n, env.fails n = true

/-- Inside of the lock. -/
def Going (log : Log) : Prop := Held log ∧ Clean log

theorem run_andThen {F G G' : Log → Prop} {P : α → Chip → Prop} {R : β → Chip → Prop}
    {d : Dialog Said Reply (Option α)} {f : α → Dialog Said Reply (Option β)}
    (hd : Ensures (d.run (recording env.reply) (w, log)) (Outcome F G P))
    (hf : ∀ a w' log', G log' → P a w'.chip →
      Ensures ((f a).run (recording env.reply) (w', log')) (Outcome F G' R)) :
    Ensures ((andThen d f).run (recording env.reply) (w, log)) (Outcome F G' R) := by
  refine hd.run_bind fun result s h => ?_
  cases result with
  | none => exact .run_ret h
  | some a => exact hf a s.1 s.2 h.1 h.2

theorem run_tryCommand (write : List UInt8) (n : ℕ) (merge : Bool) (h : Going log) :
    Ensures ((tryCommand write n merge).run (recording env.reply) (w, log))
      (Outcome (Failed env) Going fun data chip =>
        (data, chip) = w.chip.command env write n merge) := by
  rw [tryCommand]
  refine .run_ask ?_
  cases hfails : env.fails w.commands with
  | false =>
    simp only [recording, Env.reply, hfails]
    exact .run_ret ⟨⟨h.1.command, h.2.snoc le_rfl⟩, rfl⟩
  | true =>
    simp only [recording, Env.reply, hfails]
    exact .run_ret ⟨h.1.command, ⟨log, _, _, rfl, h.2, by simp [EAGAIN]⟩, _, hfails⟩

/-- A command of which is known what the flash makes of it. -/
theorem run_command {G : Log → Prop} {R : α → Chip → Prop} {write data : List UInt8} {n : ℕ}
    {merge : Bool} {chip : Chip} {f : List UInt8 → Dialog Said Reply (Option α)} (h : Going log)
    (hcommand : w.chip.command env write n merge = (data, chip))
    (hf : ∀ k log', Going log' →
      Ensures ((f data).run (recording env.reply) (⟨chip, k⟩, log')) (Outcome (Failed env) G R)) :
    Ensures ((andThen (tryCommand write n merge) f).run (recording env.reply) (w, log))
      (Outcome (Failed env) G R) := by
  refine run_andThen (run_tryCommand write n merge h) fun data' w' log' hgoing hchip => ?_
  rw [hcommand, Prod.mk.injEq] at hchip
  obtain ⟨rfl, rfl⟩ := hchip
  exact hf w'.commands log' hgoing

end Rules

/-! ## The loops -/

/-- The flash of the disk. -/
def Env.epcs (busyFor : ℕ → ℕ) (fails : ℕ → Bool) : Env := ⟨ERASE, 4096, 256, 3, busyFor, fails⟩

section Loops

variable {busyFor : ℕ → ℕ} {fails : ℕ → Bool} {k : ℕ} {log : Log} {cells : Cells} {enabled : Bool}
  {busy ops fuel : ℕ} {ptr : Mem}

/-- The loop waits until the flash is ready. -/
theorem run_waitFinish (h : Going log) (hfuel : busy < fuel) :
    Ensures ((waitFinish fuel).run (recording (Env.epcs busyFor fails).reply)
      (⟨⟨cells, enabled, busy, ops, []⟩, k⟩, log))
      (Outcome (Failed (.epcs busyFor fails)) Going fun _ chip => chip.Rests cells ops) := by
  induction fuel generalizing busy k log with
  | zero => exact absurd hfuel (Nat.not_lt_zero _)
  | succ fuel ih =>
    rw [waitFinish]
    refine run_command h (command_status (n := 2) (Nat.lt_succ_self 2)) fun k' log' hgoing => ?_
    refine .run_ite (fun hready => ?_) fun hbusy => ?_
    · have hoff : busy - 1 = 0 := (wip_off _ _).mp hready
      exact .run_ret ⟨hgoing, enabled, by rw [show busy - 2 = 0 by omega]⟩
    · have hon : busy - 1 ≠ 0 := fun hzero => hbusy ((wip_off _ _).mpr hzero)
      exact ih hgoing (by omega)

/-- Between two rounds. -/
def Steady (log : Log) : Prop := Balanced log ∧ Clean log

/-- The lock is given back after a failed command. -/
def Stopped (env : Env) (log : Log) : Prop :=
  Balanced log ∧ ∃ before r, log = before ++ [(.unlock, r)] ∧ EndsAtError before ∧
    ∃ n, env.fails n = true

/-- What `eraseOrProgram` does, a round does between two calls of the lock. -/
theorem run_pageRound {page : ℤ} {inst : UInt8} {c : Cursor} {P : UInt8 × Cursor → Chip → Prop}
    {w : Device} (h : Steady log) (hrests : w.chip.Rests cells ops)
    (hbody : ∀ k log', Going log' →
      Ensures ((eraseOrProgram ptr page inst c).run (recording (Env.epcs busyFor fails).reply)
        (⟨⟨cells, true, 0, ops, []⟩, k⟩, log'))
        (Outcome (Failed (.epcs busyFor fails)) Going fun next chip =>
          ∃ cells' busy', chip = ⟨cells', false, busy', ops + 1, []⟩ ∧ busy' < fuel ∧
            ∀ chip', chip'.Rests cells' (ops + 1) → P next chip')) :
    Ensures ((pageRound fuel ptr page inst c).run (recording (Env.epcs busyFor fails).reply)
      (w, log)) (Outcome (Stopped (.epcs busyFor fails)) Steady P) := by
  obtain ⟨⟨chip, k₀⟩, rfl⟩ : ∃ w', w = w' := ⟨w, rfl⟩
  obtain ⟨enabled, rfl⟩ := hrests
  rw [pageRound]
  refine .run_ask (.run_bind (P := Outcome (Failed (.epcs busyFor fails)) Going P) ?_ ?_)
  · refine run_command ⟨h.1.lock, h.2.snoc le_rfl⟩ command_wren fun k log' hgoing => ?_
    refine run_andThen (hbody k log' hgoing) fun next w' log'' hgoing' hdone => ?_
    obtain ⟨chip, k'⟩ := w'
    obtain ⟨cells', busy', rfl, hfuel, hP⟩ := hdone
    refine run_andThen (run_waitFinish hgoing' hfuel) fun _ w'' log₃ hgoing'' hready => ?_
    exact .run_ret ⟨hgoing'', hP _ hready⟩
  · intro next s hnext
    refine .run_ask (.run_ret ?_)
    cases next with
    | none => exact ⟨hnext.1.unlock, _, _, rfl, hnext.2.1, hnext.2.2⟩
    | some next => exact ⟨⟨hnext.1.1.unlock, hnext.1.2.snoc le_rfl⟩, hnext.2⟩

theorem run_erase {c : Cursor} {w : Device} (h : Steady log) (hrests : w.chip.Rests cells ops)
    (hfuel : busyFor ops < fuel) (haddr : c.addr.toNat < 2 ^ 24) (halign : 4096 ∣ c.addr.toNat) :
    Ensures ((pageRound fuel ptr (-1) ERASE c).run (recording (Env.epcs busyFor fails).reply)
      (w, log)) (Outcome (Stopped (.epcs busyFor fails)) Steady fun next chip =>
        next = (PROG, c) ∧ chip.Rests (erase cells c.addr.toNat 4096) (ops + 1)) := by
  refine run_pageRound h hrests fun k log' hgoing => ?_
  rw [eraseOrProgram, if_pos (by decide)]
  have hcommand := command_erase (.epcs busyFor fails) cells ops (Nat.succ_pos 2)
    (addressBytes_length c.addr)
  rw [addressOf_addressBytes, Nat.mod_eq_of_lt haddr] at hcommand
  refine run_command hgoing hcommand fun k' log'' hgoing' => ?_
  refine .run_ret ⟨hgoing', _, _, rfl, hfuel, fun chip' hchip => ⟨rfl, ?_⟩⟩
  rwa [show (Env.epcs busyFor fails).blockSize = 4096 from rfl, Nat.div_mul_cancel halign] at hchip

theorem run_program {c : Cursor} {w : Device} {page : ℤ} {data : List UInt8} (h : Steady log)
    (hrests : w.chip.Rests cells ops) (hfuel : busyFor ops < fuel) (hpage : 0 ≤ page)
    (haddr : c.addr.toNat < 2 ^ 24) (halign : 256 ∣ c.addr.toNat)
    (hread : ptr.readBytes c.buff 256 = some data) (hlen : data.length = 256)
    (herased : ∀ x, c.addr.toNat ≤ x → x < c.addr.toNat + 256 → cells x = 0xff) :
    Ensures ((pageRound fuel ptr page PROG c).run (recording (Env.epcs busyFor fails).reply)
      (w, log)) (Outcome (Stopped (.epcs busyFor fails)) Steady fun next chip =>
        next = (PROG, ⟨c.addr + 256, c.buff + 256⟩) ∧
          chip.Rests (overwrite cells c.addr.toNat data) (ops + 1)) := by
  refine run_pageRound h hrests fun k log' hgoing => ?_
  rw [eraseOrProgram, if_neg (by omega)]
  refine run_command hgoing command_open fun k' log'' hgoing' => ?_
  refine .run_access hread ?_
  have hdata : data ≠ [] := by
    rintro rfl
    cases hlen
  have hcommand := command_program (.epcs busyFor fails) cells ops (addressBytes_length c.addr)
    hdata
  rw [addressOf_addressBytes, Nat.mod_eq_of_lt haddr] at hcommand
  refine run_command hgoing' hcommand fun k'' log₃ hgoing'' => ?_
  refine .run_ret ⟨hgoing'', _, _, rfl, hfuel, fun chip' hchip => ⟨rfl, ?_⟩⟩
  have hstart : c.addr.toNat % 256 = 0 := Nat.mod_eq_zero_of_dvd halign
  have hcells : program cells c.addr.toNat 256 0 data = _ :=
    program_erased (by omega) fun x hlow hlt => herased x (by omega) (by omega)
  rwa [show (Env.epcs busyFor fails).pageSize = 256 from rfl, hstart, Nat.div_mul_cancel halign,
    hcells] at hchip

/-- The place of `epcs_fatfs_raw_write` at an address and in the buffer. -/
def Cursor.at (addr buff : ℕ) : Cursor := ⟨BitVec.ofNat 32 addr, buff⟩

theorem Cursor.at_addr {addr buff : ℕ} (h : addr < 2 ^ 24) :
    (Cursor.at addr buff).addr.toNat = addr := by
  show (BitVec.ofNat 32 addr).toNat = addr
  rw [BitVec.toNat_ofNat, Nat.mod_eq_of_lt (by omega)]

theorem Cursor.at_next (addr buff : ℕ) :
    (⟨(Cursor.at addr buff).addr + 256, (Cursor.at addr buff).buff + 256⟩ : Cursor) =
      .at (addr + 256) (buff + 256) := by
  rw [Cursor.at, Cursor.at, BitVec.ofNat_add]
  rfl

/-- Some pages, after the sector is erased. -/
theorem run_pageLoop {n addr buff : ℕ} {page : ℤ} {w : Device} (h : Steady log)
    (hrests : w.chip.Rests cells ops) (hfuel : ∀ i < n, busyFor (ops + i) < fuel) (hpage : 0 ≤ page)
    (haddr : addr + n * 256 ≤ 2 ^ 24) (halign : 256 ∣ addr) (hbuff : buff + n * 256 ≤ ptr.length)
    (herased : ∀ x, addr ≤ x → x < addr + n * 256 → cells x = 0xff) :
    Ensures ((pageLoop fuel ptr n page PROG (.at addr buff)).run
      (recording (Env.epcs busyFor fails).reply) (w, log))
      (Outcome (Stopped (.epcs busyFor fails)) Steady fun c chip =>
        c = .at (addr + n * 256) (buff + n * 256) ∧
          chip.Rests (overwrite cells addr ((ptr.drop buff).take (n * 256))) (ops + n)) := by
  induction n generalizing addr buff page w log cells ops with
  | zero =>
    refine .run_ret ⟨h, ?_, ?_⟩
    · rw [Nat.zero_mul]
      rfl
    · rwa [Nat.zero_mul, List.take_zero, overwrite_nil]
  | succ n ih =>
    have hread : ptr.readBytes (Cursor.at addr buff).buff 256 =
        some ((ptr.drop buff).take 256) := by
      show ptr.readBytes (buff : ℤ) 256 = _
      rw [Mem.readBytes, if_pos ⟨by omega, by omega, by omega⟩]
      rfl
    have hlen : ((ptr.drop buff).take 256).length = 256 := by
      rw [List.length_take, List.length_drop]
      omega
    rw [pageLoop]
    have hpageAddr : (Cursor.at addr buff).addr.toNat = addr := Cursor.at_addr (by omega)
    refine run_andThen (run_program h hrests (hfuel 0 (by omega)) hpage (by omega)
      (by rwa [hpageAddr]) hread hlen fun x hlow hlt => herased x (by omega) (by omega))
      fun next w' log' hsteady hnext => ?_
    obtain ⟨rfl, hrests'⟩ := hnext
    rw [hpageAddr] at hrests'
    rw [Cursor.at_next]
    have hrest := ih hsteady hrests'
      (fun i hi => by rw [Nat.add_assoc, Nat.add_comm 1]; exact hfuel (i + 1) (by omega))
      (show 0 ≤ page + 1 by omega) (show addr + 256 + n * 256 ≤ 2 ^ 24 by omega)
      (Nat.dvd_add halign (Nat.dvd_refl _)) (show buff + 256 + n * 256 ≤ ptr.length by omega)
      fun x hlow hlt => by
        rw [overwrite_of_le (by omega)]
        exact herased x (by omega) (by omega)
    have hsplit : (ptr.drop buff).take ((n + 1) * 256) =
        (ptr.drop buff).take 256 ++ (ptr.drop (buff + 256)).take (n * 256) := by
      rw [Nat.succ_mul, Nat.add_comm (n * 256), List.take_add, List.drop_drop]
    rw [hsplit, ← overwrite_append, hlen, show addr + (n + 1) * 256 = addr + 256 + n * 256 by omega,
      show buff + (n + 1) * 256 = buff + 256 + n * 256 by omega,
      show ops + (n + 1) = ops + 1 + n by omega]
    exact hrest

/-- A sector. -/
theorem run_sector {addr buff : ℕ} {w : Device} (h : Steady log) (hrests : w.chip.Rests cells ops)
    (hfuel : ∀ i < 17, busyFor (ops + i) < fuel) (haddr : addr + 4096 ≤ 2 ^ 24)
    (halign : 4096 ∣ addr) (hbuff : buff + 4096 ≤ ptr.length) :
    Ensures ((pageLoop fuel ptr 17 (-1) ERASE (.at addr buff)).run
      (recording (Env.epcs busyFor fails).reply) (w, log))
      (Outcome (Stopped (.epcs busyFor fails)) Steady fun c chip =>
        c = .at (addr + 4096) (buff + 4096) ∧
          chip.Rests (overwrite cells addr ((ptr.drop buff).take 4096)) (ops + 17)) := by
  have hsectorAddr : (Cursor.at addr buff).addr.toNat = addr := Cursor.at_addr (by omega)
  have hlen : ((ptr.drop buff).take 4096).length = 4096 := by
    rw [List.length_take, List.length_drop]
    omega
  rw [pageLoop]
  refine run_andThen (run_erase h hrests (hfuel 0 (by omega)) (by omega) (by rwa [hsectorAddr]))
    fun next w' log' hsteady hnext => ?_
  obtain ⟨rfl, hrests'⟩ := hnext
  rw [hsectorAddr] at hrests'
  have hpages : Ensures ((pageLoop fuel ptr 16 0 PROG (.at addr buff)).run
      (recording (Env.epcs busyFor fails).reply) (w', log')) _ :=
    run_pageLoop hsteady hrests'
      (fun i hi => by rw [Nat.add_assoc, Nat.add_comm 1]; exact hfuel (i + 1) (by omega)) le_rfl
      (by omega) (Nat.dvd_trans (by decide) halign) (by omega)
      fun x hlow hlt => erase_inside hlow (by omega)
  rw [overwrite_erase hlen] at hpages
  exact hpages

theorem run_sectorLoop {count addr buff : ℕ} {w : Device} (h : Steady log)
    (hrests : w.chip.Rests cells ops) (hfuel : ∀ i < count * 17, busyFor (ops + i) < fuel)
    (haddr : addr + count * 4096 ≤ 2 ^ 24) (halign : 4096 ∣ addr)
    (hbuff : buff + count * 4096 ≤ ptr.length) :
    Ensures ((sectorLoop fuel ptr count (.at addr buff)).run
      (recording (Env.epcs busyFor fails).reply) (w, log))
      (Outcome (Stopped (.epcs busyFor fails)) Steady fun _ chip =>
        chip.Rests (overwrite cells addr ((ptr.drop buff).take (count * 4096)))
          (ops + count * 17)) := by
  induction count generalizing addr buff w log cells ops with
  | zero =>
    refine .run_ret ⟨h, ?_⟩
    rwa [Nat.zero_mul, List.take_zero, overwrite_nil]
  | succ count ih =>
    have hlen : ((ptr.drop buff).take 4096).length = 4096 := by
      rw [List.length_take, List.length_drop]
      omega
    rw [sectorLoop]
    refine run_andThen (run_sector h hrests (fun i hi => hfuel i (by omega)) (by omega) halign
      (by omega)) fun c w' log' hsteady hnext => ?_
    obtain ⟨rfl, hrests'⟩ := hnext
    have hrest := ih hsteady hrests'
      (fun i hi => by rw [Nat.add_assoc]; exact hfuel (17 + i) (by omega))
      (show addr + 4096 + count * 4096 ≤ 2 ^ 24 by omega) (Nat.dvd_add halign (Nat.dvd_refl _))
      (show buff + 4096 + count * 4096 ≤ ptr.length by omega)
    have hsplit : (ptr.drop buff).take ((count + 1) * 4096) =
        (ptr.drop buff).take 4096 ++ (ptr.drop (buff + 4096)).take (count * 4096) := by
      rw [Nat.succ_mul, Nat.add_comm (count * 4096), List.take_add, List.drop_drop]
    rw [hsplit, ← overwrite_append, hlen,
      show ops + (count + 1) * 17 = ops + 17 + count * 17 by omega]
    exact hrest

end Loops

/-! ## The call -/

/-- A flash at the start: nothing is said, and nothing goes on in it. -/
def Device.start (cells : Cells) (enabled : Bool) : Device × Log :=
  (⟨⟨cells, enabled, 0, 0, []⟩, 0⟩, [])

/-- What is true after a call of `epcs_fatfs_raw_write`. -/
structure Stored (env : Env) (cells : Cells) (addr : ℕ) (data : List UInt8)
    (r : ℤ × (Device × Log)) : Prop where
  balanced : Balanced r.2.2
  /-- Where every command succeeds, the data is stored, and nothing else is changed. -/
  stores : (∀ n, env.fails n = false) →
    r.1 = 0 ∧ r.2.1.chip.cells = overwrite cells addr data
  /-- Where one fails, it is the last; only the lock is given back. -/
  stops : r.1 = 0 ∧ Clean r.2.2 ∧ r.2.1.chip.cells = overwrite cells addr data ∨
    r.1 = -1 ∧ ∃ before answer, r.2.2 = before ++ [(.unlock, answer)] ∧ EndsAtError before

/-- **`epcs_fatfs_raw_write` stores the data and nothing else.** -/
theorem raw_write_stores (busyFor : ℕ → ℕ) (fails : ℕ → Bool) (cells : Cells) (enabled : Bool)
    (addr k : ℕ) (data : List UInt8) (halign : 4096 ∣ addr) (hroom : addr + k * 4096 ≤ 2 ^ 24)
    (hlen : data.length = k * 4096) :
    ∃ enough, ∀ fuel, enough ≤ fuel →
      Ensures ((epcsFatfsRawWrite fuel (BitVec.ofNat 32 addr) data (BitVec.ofNat 32 (k * 4096))).run
        (recording (Env.epcs busyFor fails).reply) (Device.start cells enabled))
        (Stored (.epcs busyFor fails) cells addr data) := by
  refine ⟨(Finset.range (k * 17)).sup busyFor + 1, fun fuel hfuel => ?_⟩
  have hbusy : ∀ i < k * 17, busyFor (0 + i) < fuel := by
    intro i hi
    rw [Nat.zero_add]
    exact (Nat.lt_succ_of_le (Finset.le_sup (Finset.mem_range.mpr hi))).trans_le hfuel
  have hcount : sectorCount (BitVec.ofNat 32 (k * 4096)) = k := by
    have hlow : (BitVec.ofNat 32 (k * 4096)).toNat = k * 4096 := by
      rw [BitVec.toNat_ofNat, Nat.mod_eq_of_lt (by omega)]
    rw [sectorCount_eq (by omega) hlow, if_pos (by omega)]
  rw [epcsFatfsRawWrite, hcount]
  have hstart : (Device.start cells enabled).1.chip.Rests cells 0 := ⟨enabled, rfl⟩
  have hsectors : Ensures ((sectorLoop fuel data k (.at addr 0)).run
      (recording (Env.epcs busyFor fails).reply) (Device.start cells enabled)) _ :=
    run_sectorLoop ⟨⟨0, rfl⟩, fun _ hx => absurd hx List.not_mem_nil⟩ hstart hbusy hroom halign
      (by omega)
  refine hsectors.run_bind fun result s h => ?_
  cases result with
  | some c =>
    obtain ⟨hsteady, enabled', hchip⟩ := h
    have hcells : s.1.chip.cells = overwrite cells addr data := by
      rw [hchip, List.drop_zero, ← hlen, List.take_length]
    exact .run_ret ⟨hsteady.1, fun _ => ⟨rfl, hcells⟩, .inl ⟨rfl, hsteady.2, hcells⟩⟩
  | none =>
    obtain ⟨hbalanced, before, answer, hlog, hend, n, hfails⟩ := h
    refine .run_ret ⟨hbalanced, fun hall => ?_, .inr ⟨rfl, before, answer, hlog, hend⟩⟩
    exact absurd (hfails.symm.trans (hall n)) Bool.noConfusion

/-- One sector, in a flash that fails the second command. -/
theorem raw_write_stores_sector :
    ∃ enough, ∀ fuel, enough ≤ fuel →
      Ensures ((epcsFatfsRawWrite fuel (BitVec.ofNat 32 0x80000) (List.replicate 4096 0xa5)
        (BitVec.ofNat 32 (1 * 4096))).run
        (recording (Env.epcs (fun _ => 3) (· = 1)).reply) (Device.start (fun _ => 0) false))
        (Stored (.epcs (fun _ => 3) (· = 1)) (fun _ => 0) 0x80000 (List.replicate 4096 0xa5)) :=
  raw_write_stores (fun _ => 3) (· = 1) (fun _ => 0) false 0x80000 1 (List.replicate 4096 0xa5)
    (by decide) (by decide) List.length_replicate

end OlivePiccolo.Flash
