import OlivePiccolo.Flash.EpcsFatfs
import OlivePiccolo.Library.Errno
import OlivePiccolo.Library.NorFlash

/-!
# An ideal flash behind the commands

A flash that takes what `peridot_spi_flash_command` shifts: bytes of one transaction, until a
command without `MERGE` ends it. It erases and programs after a write enable command only, and is
busy for some time then, in which it answers nothing but its status. A command can also fail; the
flash does not see it.
-/

namespace OlivePiccolo.Flash

open Dialog NorFlash

/-- Read bytes. -/
def READ : UInt8 := 0x03

/-- What a flash is like, and what happens to it: the sizes of blocks and pages, the bytes of an
address, the status reads for which each erase or program command keeps it busy, and which of the
commands fail. -/
structure Env where
  eraseInst : UInt8
  blockSize : ℕ
  pageSize : ℕ
  addressLength : ℕ
  busyFor : ℕ → ℕ
  fails : ℕ → Bool

structure Chip where
  cells : Cells
  /-- The write enable latch. -/
  enabled : Bool
  /-- The status reads that still find it busy. -/
  busy : ℕ
  /-- The erase and program commands so far. -/
  operations : ℕ
  /-- The bytes of a transaction that goes on. -/
  received : List UInt8

/-- The value of the bytes of an address. -/
def addressOf (bytes : List UInt8) : ℕ := bytes.foldl (fun addr b => 256 * addr + b.toNat) 0

/-- The byte of the status register: WIP and WEL. -/
def status (busy : ℕ) (enabled : Bool) : UInt8 :=
  (if busy = 0 then 0 else 1) ||| (if enabled then 2 else 0)

section Chip

variable (env : Env) (s : Chip)

/-- An erase or program command begins. -/
def Chip.begin (cells : Cells) : Chip :=
  { s with
    cells := cells
    enabled := false
    busy := env.busyFor s.operations
    operations := s.operations + 1 }

/-- What the bytes of a transaction do at its end. -/
def Chip.execute (bytes : List UInt8) : Chip :=
  match bytes with
  | [] => s
  | inst :: rest =>
    if s.busy ≠ 0 then s
    else if inst = WREN ∧ rest = [] then { s with enabled := true }
    else if s.enabled = false then s
    else if inst = env.eraseInst ∧ rest.length = env.addressLength then
      s.begin env (erase s.cells (addressOf rest / env.blockSize * env.blockSize) env.blockSize)
    else if inst = PROG ∧ env.addressLength < rest.length then
      let addr := addressOf (rest.take env.addressLength)
      s.begin env (program s.cells (addr / env.pageSize * env.pageSize) env.pageSize
        (addr % env.pageSize) (rest.drop env.addressLength))
    else s

/-- The bytes that are read behind those that were received. -/
def Chip.answer (bytes : List UInt8) (n : ℕ) : List UInt8 :=
  match bytes with
  | [] => List.replicate n 0xff
  | inst :: rest =>
    if inst = RDSR then (List.range n).map fun i => status (s.busy - i) s.enabled
    else if s.busy ≠ 0 then List.replicate n 0xff
    else if inst = READ then
      (List.range n).map fun i =>
        s.cells (addressOf (rest.take env.addressLength) + (rest.length - env.addressLength) + i)
    else if inst = FREAD then
      (List.range n).map fun i =>
        s.cells (addressOf (rest.take env.addressLength) +
          (rest.length - env.addressLength - 1) + i)
    else List.replicate n 0xff

/-- Time passes while the status is read. -/
def Chip.wait (bytes : List UInt8) (n : ℕ) : Chip :=
  if bytes.head? = some RDSR then { s with busy := s.busy - n } else s

/-- A command: its bytes and the bytes that are read, and the end of the transaction. While it is
read, the flash receives bytes as well. -/
def Chip.command (write : List UInt8) (n : ℕ) (merge : Bool) : List UInt8 × Chip :=
  let bytes := s.received ++ write
  let all := bytes ++ List.replicate n 0
  let later := s.wait bytes n
  (s.answer env bytes n,
    if merge then { later with received := all }
    else { later.execute env all with received := [] })

end Chip

/-- The flash, and the number of commands so far. -/
structure Device where
  chip : Chip
  commands : ℕ

/-- What the device answers. -/
def Env.reply (env : Env) (w : Device) : Said → Reply × Device
  | .lock => (⟨0, []⟩, w)
  | .unlock => (⟨0, []⟩, w)
  | .command write n merge =>
    if env.fails w.commands then (⟨-EAGAIN, []⟩, { w with commands := w.commands + 1 })
    else (⟨0, (w.chip.command env write n merge).1⟩,
      ⟨(w.chip.command env write n merge).2, w.commands + 1⟩)

/-! ## Commands to a flash that is not busy -/

/-- A flash in which nothing goes on, with these cells, after so many erase and program commands. -/
def Chip.Rests (s : Chip) (cells : Cells) (ops : ℕ) : Prop :=
  ∃ enabled, s = ⟨cells, enabled, 0, ops, []⟩

section Commands

variable {env : Env} {cells : Cells} {enabled : Bool} {busy ops : ℕ} {bytes rest data : List UInt8}

theorem addressOf_addressBytes (addr : BitVec 32) :
    addressOf (addressBytes addr) = addr.toNat % 2 ^ 24 := by
  simp only [addressOf, addressBytes, List.foldl_cons, List.foldl_nil, UInt8.toNat,
    BitVec.toNat_setWidth, BitVec.toNat_ushiftRight, Nat.shiftRight_eq_div_pow]
  omega

theorem wip_off (busy : ℕ) (enabled : Bool) : status busy enabled &&& 1 = 0 ↔ busy = 0 := by
  rw [status]
  by_cases h : busy = 0
  · refine iff_of_true ?_ h
    rw [if_pos h]
    cases enabled <;> decide
  · refine iff_of_false ?_ h
    rw [if_neg h]
    cases enabled <;> decide

theorem command_wren : (⟨cells, enabled, 0, ops, []⟩ : Chip).command env [WREN] 0 false =
    ([], ⟨cells, true, 0, ops, []⟩) := rfl

theorem execute_of_length_ne {inst : UInt8} (hwren : inst ≠ WREN) (hprog : inst ≠ PROG)
    (hlen : rest.length ≠ env.addressLength) (s : Chip) : s.execute env (inst :: rest) = s := by
  rw [Chip.execute]
  split_ifs with hbusy hinst hen herase hprog'
  · rfl
  · exact absurd hinst.1 hwren
  · rfl
  · exact absurd herase.2 hlen
  · exact absurd hprog'.1 hprog
  · rfl

theorem command_status {n : ℕ} (hn : n < env.addressLength) :
    (⟨cells, enabled, busy, ops, []⟩ : Chip).command env [RDSR] n false =
      ((List.range n).map fun i => status (busy - i) enabled,
        ⟨cells, enabled, busy - n, ops, []⟩) := by
  have hexecute : (⟨cells, enabled, busy - n, ops, []⟩ : Chip).execute env
      (RDSR :: List.replicate n 0) = _ :=
    execute_of_length_ne (by decide) (by decide) (by rw [List.length_replicate]; omega) _
  show (_, { (⟨cells, enabled, busy - n, ops, []⟩ : Chip).execute env
    (RDSR :: List.replicate n 0) with received := [] }) = _
  rw [hexecute]
  rfl

theorem command_read (env : Env) (cells : Cells) (enabled : Bool) (ops : ℕ) {n : ℕ} (hn : 0 < n)
    (hrest : rest.length = env.addressLength) :
    (⟨cells, enabled, 0, ops, []⟩ : Chip).command env (READ :: rest) n false =
      ((List.range n).map fun i => cells (addressOf rest + i), ⟨cells, enabled, 0, ops, []⟩) := by
  have hexecute : (⟨cells, enabled, 0, ops, []⟩ : Chip).execute env
      (READ :: (rest ++ List.replicate n 0)) = _ :=
    execute_of_length_ne (by decide) (by decide)
      (by rw [List.length_append, List.length_replicate]; omega) _
  have hwait : (⟨cells, enabled, 0, ops, []⟩ : Chip).wait (READ :: rest) n =
      ⟨cells, enabled, 0, ops, []⟩ := rfl
  have hanswer : (⟨cells, enabled, 0, ops, []⟩ : Chip).answer env (READ :: rest) n =
      (List.range n).map fun i => cells (addressOf rest + i) := by
    rw [Chip.answer, if_neg (by decide), if_neg (not_not_intro rfl), if_pos rfl, ← hrest,
      List.take_length, Nat.sub_self]
    rfl
  rw [Chip.command]
  dsimp only
  rw [List.nil_append, hwait, hanswer, List.cons_append, hexecute]
  rfl

theorem wait_zero (s : Chip) : s.wait bytes 0 = s := by
  rw [Chip.wait]
  split_ifs <;> rfl

theorem answer_zero (s : Chip) : s.answer env bytes 0 = [] := by
  cases bytes with
  | nil => rfl
  | cons inst rest =>
    rw [Chip.answer]
    split_ifs <;> rfl

theorem command_erase (env : Env) (cells : Cells) (ops : ℕ) (haddress : 0 < env.addressLength)
    (hrest : rest.length = env.addressLength) :
    (⟨cells, true, 0, ops, []⟩ : Chip).command env (env.eraseInst :: rest) 0 false =
      ([], ⟨erase cells (addressOf rest / env.blockSize * env.blockSize) env.blockSize, false,
        env.busyFor ops, ops + 1, []⟩) := by
  rw [Chip.command]
  dsimp only
  have hne : rest ≠ [] := List.ne_nil_of_length_pos (hrest ▸ haddress)
  rw [List.nil_append, wait_zero, answer_zero, List.replicate_zero, List.append_nil, Chip.execute]
  simp [hne, hrest, Chip.begin]

theorem command_open : (⟨cells, enabled, 0, ops, []⟩ : Chip).command env bytes 0 true =
    ([], ⟨cells, enabled, 0, ops, bytes⟩) := by
  rw [Chip.command]
  dsimp only
  rw [List.nil_append, wait_zero, answer_zero]
  simp

theorem command_program (env : Env) (cells : Cells) (ops : ℕ)
    (hrest : rest.length = env.addressLength) (hdata : data ≠ []) :
    (⟨cells, true, 0, ops, PROG :: rest⟩ : Chip).command env data 0 false =
      ([], ⟨program cells (addressOf rest / env.pageSize * env.pageSize) env.pageSize
        (addressOf rest % env.pageSize) data, false, env.busyFor ops, ops + 1, []⟩) := by
  have hlen : 0 < data.length := List.length_pos_of_ne_nil hdata
  have hwren : PROG ≠ WREN := by decide
  have htake : (rest ++ data).take env.addressLength = rest := by rw [← hrest, List.take_left]
  have hdrop : (rest ++ data).drop env.addressLength = data := by rw [← hrest, List.drop_left]
  rw [Chip.command]
  dsimp only
  rw [wait_zero, answer_zero, List.replicate_zero, List.append_nil, List.cons_append, Chip.execute]
  simp [hwren, htake, hdrop, hrest, hdata, hlen, Chip.begin]

end Commands

end OlivePiccolo.Flash
