import Mathlib.Data.Int.Notation
import Mathlib.Logic.Function.Basic
import OlivePiccolo.Library.Runs

/-!
# The table of descriptors

`vfd_list` of `peridot_client_fs.c` and the workers that execute `fs.open`, `fs.close` and
`fs.cleanup` on it. A step of a worker is one read or one write of a slot, one section with the
interrupts disabled, one wait for or post to `sem_lock`, or one call of the HAL's `open` or `close`.

The HAL gives out numbers above 2 only, since the first three are never released, and among these
only such that are not in use. It releases a number that is closed even when the device reports an
error.
-/

namespace OlivePiccolo.ClientFs

def VFD_FREE : ℤ := -1

def VFD_ALLOC : ℤ := -2

def VFD_CANCELED : ℤ := -3

/-- A request to the file system. -/
inductive Request
  | fsOpen
  | fsClose (vfd : ℤ)
  | fsCleanup
  deriving DecidableEq, Repr

/-- The next access of a worker, with what it has read. -/
inductive Pc (n : ℕ)
  | idle
  | allocPend
  | allocRead (vfd : Fin n)
  | allocWrite (vfd : Fin n)
  | allocPost (vfd : Option (Fin n))
  | osOpen (vfd : Fin n)
  | openFailed (vfd : Fin n)
  | commit (vfd : Fin n) (fd : ℕ)
  | closeCanceled (vfd : Fin n) (fd : ℕ)
  | getFd (vfd : ℤ)
  | closeAlloc (vfd : Fin n) (fd : ℕ)
  | osClose (vfd : Fin n) (fd : ℕ)
  | restore (vfd : Fin n) (fd : ℕ)
  | closeFree (vfd : Fin n)
  | cleanPend
  | cleanIrq (vfd : Fin n)
  | cleanFree (vfd : Fin n) (fd : ℕ)
  | cleanClose (vfd : Fin n) (fd : ℕ)
  | cleanPost
  deriving DecidableEq, Repr

/-- Where a request begins. -/
def Request.entry {n : ℕ} : Request → Pc n
  | .fsOpen => .allocPend
  | .fsClose vfd => .getFd vfd
  | .fsCleanup => .cleanPend

/-- The loop of `peridot_client_fs_alloc_vfd`. -/
def allocNext (n i : ℕ) : Pc n := if h : i < n then .allocRead ⟨i, h⟩ else .allocPost none

/-- The loop of `peridot_client_fs_cleanup`. -/
def cleanNext (n i : ℕ) : Pc n := if h : i < n then .cleanIrq ⟨i, h⟩ else .cleanPost

/-- What a step finds outside. -/
inductive Input
  | start (request : Request)
  | none
  /-- What `open` returns. -/
  | opened (fd : Option ℕ)
  /-- Whether `close` reports success. -/
  | closed (ok : Bool)
  deriving DecidableEq, Repr

/-- The slots, who has taken `sem_lock`, and where the workers are. -/
structure Table (ι : Type*) (n : ℕ) where
  vfdList : Fin n → ℤ
  semLock : Option ι
  pc : ι → Pc n
  /-- How often `open` has returned a number. -/
  opened : ℕ → ℕ
  /-- How often `close` has been called with it. -/
  closed : ℕ → ℕ
  /-- The slot for which it has been obtained last. -/
  obtained : ℕ → Option (Fin n)

namespace Table

variable {ι : Type*} {n : ℕ}

/-- The number is in use. -/
def IsOpen (s : Table ι n) (fd : ℕ) : Prop := s.closed fd < s.opened fd

instance (s : Table ι n) (fd : ℕ) : Decidable (s.IsOpen fd) := inferInstanceAs (Decidable (_ < _))

def write (s : Table ι n) (vfd : Fin n) (v : ℤ) : Table ι n :=
  { s with vfdList := Function.update s.vfdList vfd v }

/-- `ALT_SEM_PEND(sem_lock, 0)`, when it does not wait. -/
def pend (s : Table ι n) (w : ι) : Table ι n := { s with semLock := some w }

/-- `ALT_SEM_POST(sem_lock)`. -/
def post (s : Table ι n) : Table ι n := { s with semLock := none }

/-- `open`. -/
def osOpen (s : Table ι n) (vfd : Fin n) (fd : ℕ) : Table ι n :=
  { s with
    opened := Function.update s.opened fd (s.opened fd + 1)
    obtained := Function.update s.obtained fd (some vfd) }

/-- `close`. -/
def osClose (s : Table ι n) (fd : ℕ) : Table ι n :=
  { s with closed := Function.update s.closed fd (s.closed fd + 1) }

@[simp] theorem write_self (s : Table ι n) (vfd : Fin n) (v : ℤ) :
    (s.write vfd v).vfdList vfd = v := Function.update_self ..

theorem write_of_ne (s : Table ι n) {vfd vfd' : Fin n} (h : vfd' ≠ vfd) (v : ℤ) :
    (s.write vfd v).vfdList vfd' = s.vfdList vfd' := Function.update_of_ne h ..

@[simp] theorem write_pc (s : Table ι n) (vfd : Fin n) (v : ℤ) : (s.write vfd v).pc = s.pc := rfl

theorem osOpen_obtained_of_ne (s : Table ι n) {fd fd' : ℕ} (h : fd' ≠ fd) (vfd : Fin n) :
    (s.osOpen vfd fd).obtained fd' = s.obtained fd' := Function.update_of_ne h ..

theorem osOpen_opened_self (s : Table ι n) (vfd : Fin n) (fd : ℕ) :
    (s.osOpen vfd fd).opened fd = s.opened fd + 1 := Function.update_self ..

theorem osOpen_opened_of_ne (s : Table ι n) {fd fd' : ℕ} (h : fd' ≠ fd) (vfd : Fin n) :
    (s.osOpen vfd fd).opened fd' = s.opened fd' := Function.update_of_ne h ..

theorem osClose_closed_self (s : Table ι n) (fd : ℕ) :
    (s.osClose fd).closed fd = s.closed fd + 1 := Function.update_self ..

theorem osClose_closed_of_ne (s : Table ι n) {fd fd' : ℕ} (h : fd' ≠ fd) :
    (s.osClose fd).closed fd' = s.closed fd' := Function.update_of_ne h ..

/-- `peridot_client_fs_get_fd` in `peridot_client_fs_close`. -/
def getFd (s : Table ι n) (vfd : ℤ) : Pc n :=
  if h : 0 ≤ vfd ∧ vfd.toNat < n then
    if s.vfdList ⟨vfd.toNat, h.2⟩ < 0 then .idle
    else .closeAlloc ⟨vfd.toNat, h.2⟩ (s.vfdList ⟨vfd.toNat, h.2⟩).toNat
  else .idle

variable [DecidableEq ι]

def goto (s : Table ι n) (w : ι) (pc : Pc n) : Table ι n :=
  { s with pc := Function.update s.pc w pc }

@[simp] theorem goto_self (s : Table ι n) (w : ι) (pc : Pc n) : (s.goto w pc).pc w = pc :=
  Function.update_self ..

theorem goto_of_ne (s : Table ι n) {w w' : ι} (h : w' ≠ w) (pc : Pc n) :
    (s.goto w pc).pc w' = s.pc w' := Function.update_of_ne h ..

@[simp] theorem goto_vfdList (s : Table ι n) (w : ι) (pc : Pc n) :
    (s.goto w pc).vfdList = s.vfdList := rfl

/-- One step of a worker. -/
def step (s : Table ι n) (e : ι × Input) : Option (Table ι n) :=
  let w := e.1
  match s.pc w, e.2 with
  | .idle, .start request => some (s.goto w request.entry)
  | .allocPend, .none =>
    if s.semLock = none then some ((s.pend w).goto w (allocNext n 0)) else none
  | .allocRead vfd, .none =>
    some (s.goto w (if s.vfdList vfd = VFD_FREE then .allocWrite vfd else allocNext n (vfd + 1)))
  | .allocWrite vfd, .none => some ((s.write vfd VFD_ALLOC).goto w (.allocPost (some vfd)))
  | .allocPost none, .none => some (s.post.goto w .idle)
  | .allocPost (some vfd), .none => some (s.post.goto w (.osOpen vfd))
  | .osOpen vfd, .opened none => some (s.goto w (.openFailed vfd))
  | .osOpen vfd, .opened (some fd) =>
    if 2 < fd ∧ s.opened fd ≤ s.closed fd then some ((s.osOpen vfd fd).goto w (.commit vfd fd))
    else none
  | .openFailed vfd, .none => some ((s.write vfd VFD_FREE).goto w .idle)
  | .commit vfd fd, .none =>
    if s.vfdList vfd = VFD_ALLOC then some ((s.write vfd fd).goto w .idle)
    else some ((s.write vfd VFD_FREE).goto w (.closeCanceled vfd fd))
  | .closeCanceled _ fd, .closed _ => some ((s.osClose fd).goto w .idle)
  | .getFd vfd, .none => some (s.goto w (s.getFd vfd))
  | .closeAlloc vfd fd, .none => some ((s.write vfd VFD_ALLOC).goto w (.osClose vfd fd))
  | .osClose vfd fd, .closed ok =>
    some ((s.osClose fd).goto w (if ok then .closeFree vfd else .restore vfd fd))
  | .restore vfd fd, .none => some ((s.write vfd fd).goto w .idle)
  | .closeFree vfd, .none => some ((s.write vfd VFD_FREE).goto w .idle)
  | .cleanPend, .none =>
    if s.semLock = none then some ((s.pend w).goto w (cleanNext n 0)) else none
  | .cleanIrq vfd, .none =>
    some ((if s.vfdList vfd = VFD_ALLOC then s.write vfd VFD_CANCELED else s).goto w
      (if 0 ≤ s.vfdList vfd then .cleanFree vfd (s.vfdList vfd).toNat else cleanNext n (vfd + 1)))
  | .cleanFree vfd fd, .none => some ((s.write vfd VFD_FREE).goto w (.cleanClose vfd fd))
  | .cleanClose vfd fd, .closed _ => some ((s.osClose fd).goto w (cleanNext n (vfd + 1)))
  | .cleanPost, .none => some (s.post.goto w .idle)
  | _, _ => none

/-- After `peridot_client_fs_init`. -/
def initial (ι : Type*) (n : ℕ) : Table ι n where
  vfdList _ := VFD_FREE
  semLock := none
  pc _ := .idle
  opened _ := 0
  closed _ := 0
  obtained _ := none

/-- No call is in progress. -/
def Quiet (s : Table ι n) : Prop := ∀ w, s.pc w = .idle

end Table

end OlivePiccolo.ClientFs
