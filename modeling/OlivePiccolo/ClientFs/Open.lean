import Mathlib.Data.List.TakeWhile
import Mathlib.Tactic.IntervalCases
import OlivePiccolo.ClientFs.Policy
import OlivePiccolo.Library.Errno
import OlivePiccolo.Rpc.Service

/-!
# From `fs.open` to the file system

A request to open a file goes through three layers: `peridot_client_fs_open` checks its path, the
HAL's `open` finds a descriptor and the device, and `epcs_fatfs_open` translates the flags into those
of `f_open`. The check looks at the access mode only. A path that can be read may so be opened with
`O_CREAT`, and `f_open` is then told to create the file or to truncate it.
-/

namespace OlivePiccolo.ClientFs

open Bson Rpc

def O_APPEND : BitVec 32 := 0x8

def O_CREAT : BitVec 32 := 0x200

def O_TRUNC : BitVec 32 := 0x400

def O_EXCL : BitVec 32 := 0x800

def FREAD : BitVec 32 := 1

def FWRITE : BitVec 32 := 2

def FA_OPEN_EXISTING : BitVec 8 := 0x00

def FA_READ : BitVec 8 := 0x01

def FA_WRITE : BitVec 8 := 0x02

def FA_CREATE_NEW : BitVec 8 := 0x04

def FA_CREATE_ALWAYS : BitVec 8 := 0x08

def FA_OPEN_ALWAYS : BitVec 8 := 0x10

/-- `JSONRPC_ERR_INVALID_REQUEST`. -/
def invalidRequest : ℤ := -32600

/-- `JSONRPC_ERR_INVALID_PARAMS`. -/
def invalidParams : ℤ := -32602

def keyPath : CString := ⟨ascii ['p', 'a', 't', 'h'], by decide⟩

def keyFlags : CString := ⟨ascii ['f', 'l', 'a', 'g', 's'], by decide⟩

def keyMode : CString := ⟨ascii ['m', 'o', 'd', 'e'], by decide⟩

/-! ## The code -/

/-- The string that a pointer into memory points to. -/
def stringAt (m : Mem) (p : ℤ) : Access CString :=
  if 0 ≤ p ∧ 0 ∈ m.drop p.toNat then
    some ⟨(m.drop p.toNat).takeWhile (· ≠ 0), fun h => by simpa using List.mem_takeWhile_imp h⟩
  else none

/-- A call of `open`. -/
structure OpenCall where
  path : CString
  flags : BitVec 32
  mode : BitVec 32
  deriving DecidableEq

/-- `mode` in `peridot_client_fs_open`: the default, or the value at the offset. -/
def getMode (params : Mem) (offMode : ℤ) : Access (Option ℤ) :=
  if offMode < 0 then some (some 0o777)
  else (bsonGetInt32 (some params) offMode (-1)).map fun mode => if mode = -1 then none else some mode

/-- The second half of `peridot_client_fs_open` up to its call of `open`. It needs memory for the
result, and a free `vfd`. -/
def admitCall (memory : Bool) (vfd : ℤ) (entries : List PathEntry) (call : OpenCall) :
    Except ℤ OpenCall :=
  if validatePath entries call.path call.flags = 0 then .error EACCES
  else if !memory then .error ENOMEM
  else if vfd < 0 then .error EMFILE
  else .ok call

/-- `peridot_client_fs_open` up to its call of `open`, or its error. -/
def peridotClientFsOpen (memory : Bool) (vfd : ℤ) (entries : List PathEntry) (params : Mem) :
    Access (Except ℤ OpenCall) := do
  let (found, keys) ← bsonGetProps params [(keyPath, 0), (keyFlags, 0), (keyMode, 0)]
  let off i := (keys.getD i (keyPath, -1)).2
  if found < 0 then return .error invalidRequest
  else
    match ← bsonGetString (some params) (off 0) with
    | none => return .error invalidParams
    | some p =>
      let flags ← bsonGetInt32 (some params) (off 1) (-1)
      if flags = -1 then return .error invalidParams
      else
        match ← getMode params (off 2) with
        | none => return .error invalidParams
        | some mode =>
          let path ← stringAt params p
          return admitCall memory vfd entries ⟨path, BitVec.ofInt 32 flags, BitVec.ofInt 32 mode⟩

/-- `ALT_OPEN` of a path on a file system, with the result of `alt_get_fd`. -/
def altOpen {β : Type} (index : ℤ) (devOpen : OpenCall → Except ℤ β) (call : OpenCall) :
    Except ℤ β :=
  if index < 0 then .error index else devOpen call

/-- A call of `f_open`. -/
structure FOpenCall where
  path : List UInt8
  mode : BitVec 8
  deriving DecidableEq

/-- `f_flags` in `epcs_fatfs_open`. -/
def fFlags (flags : BitVec 32) : BitVec 8 :=
  (if (flags + 1) &&& FREAD ≠ 0 then FA_READ else 0) |||
  (if (flags + 1) &&& FWRITE ≠ 0 then FA_WRITE else 0) |||
  (if flags &&& O_CREAT ≠ 0 then
    if flags &&& O_APPEND ≠ 0 then FA_OPEN_ALWAYS
    else if flags &&& O_EXCL ≠ 0 then FA_CREATE_NEW
    else if flags &&& O_TRUNC ≠ 0 then FA_CREATE_ALWAYS
    else FA_OPEN_ALWAYS
  else FA_OPEN_EXISTING)

/-- `epcs_fatfs_open` up to its call of `f_open`, with the `prefix_len` of the device if it has been
initialised. -/
def epcsFatfsOpen (targetDev : Option ℕ) (memory : Bool) (call : OpenCall) : Except ℤ FOpenCall :=
  match targetDev with
  | none => .error (-ENODEV)
  | some prefixLen =>
    if !memory then .error (-ENOMEM)
    else .ok ⟨call.path.bytes.drop prefixLen, fFlags call.flags⟩

/-- What `follow_path` finds in the directory. -/
inductive Found
  /-- With `AM_RDO` or `AM_DIR` among its attributes, or not. -/
  | file (readOnly directory : Bool)
  | noFile
  | failed
  deriving DecidableEq

/-- What `f_open` does to the volume and to the file object. -/
structure Effect where
  created : Bool
  truncated : Bool
  writable : Bool
  deriving DecidableEq

def noEffect : Effect := ⟨false, false, false⟩

/-- `f_open`, where `dir_register` succeeds or not. -/
def fOpen (mode : BitVec 8) (found : Found) (registered : Bool) : Effect :=
  let writable := mode &&& FA_WRITE != 0
  if mode &&& (FA_CREATE_ALWAYS ||| FA_OPEN_ALWAYS ||| FA_CREATE_NEW) ≠ 0 then
    match found with
    | .failed => noEffect
    | .noFile => if registered then ⟨true, false, writable⟩ else noEffect
    | .file readOnly directory =>
      if readOnly || directory then noEffect
      else if mode &&& FA_CREATE_NEW ≠ 0 then noEffect
      else ⟨false, mode &&& FA_CREATE_ALWAYS != 0, writable⟩
  else
    match found with
    | .file readOnly directory =>
      if directory || (writable && readOnly) then noEffect else ⟨false, false, writable⟩
    | _ => noEffect

/-! ## What may happen to a path for reading -/

/-- All entries that cover the path are for reading. -/
def ReadOnly (entries : List PathEntry) (path : CString) : Prop :=
  ∀ entry ∈ entries, entry.covers path.bytes → entry.flags &&& O_ACCMODE = O_RDONLY

instance (entries : List PathEntry) (path : CString) : Decidable (ReadOnly entries path) :=
  inferInstanceAs (Decidable (∀ _ ∈ _, _))

/-- A mode of `f_open` with which no file is changed. -/
def Harmless (mode : BitVec 8) : Prop :=
  mode &&& (FA_WRITE ||| FA_CREATE_NEW ||| FA_CREATE_ALWAYS ||| FA_OPEN_ALWAYS) = 0

instance : DecidablePred Harmless := fun _ => inferInstanceAs (Decidable (_ = _))

section

variable {memory : Bool} {vfd : ℤ} {entries : List PathEntry} {params : Mem} {call : OpenCall}

/-- Before it calls `open`, the path has been checked. -/
theorem validated_of_open (h : peridotClientFsOpen memory vfd entries params = some (.ok call)) :
    validatePath entries call.path call.flags ≠ 0 := by
  rw [peridotClientFsOpen] at h
  obtain ⟨⟨found, keys⟩, -, h⟩ := Option.bind_eq_some_iff.mp h
  simp only at h
  split_ifs at h
  · cases h
  · obtain ⟨s, -, h⟩ := Option.bind_eq_some_iff.mp h
    cases s with
    | none => cases h
    | some p =>
      obtain ⟨flags, -, h⟩ := Option.bind_eq_some_iff.mp h
      split_ifs at h
      · cases h
      · obtain ⟨mode, -, h⟩ := Option.bind_eq_some_iff.mp h
        cases mode with
        | none => cases h
        | some mode =>
          obtain ⟨path, -, h⟩ := Option.bind_eq_some_iff.mp h
          have hadmit := Option.some.inj h
          rw [admitCall] at hadmit
          split_ifs at hadmit with hvalid
          cases hadmit
          exact hvalid

/-- What the check lets through has an entry that covers the path and grants the access. -/
theorem exists_covers {path : CString} {flags : BitVec 32} (h : validatePath entries path flags ≠ 0) :
    ∃ entry ∈ entries, entry.covers path.bytes ∧ entry.grants (access flags) := by
  have hpath : path.bytes ≠ [] := by
    intro hempty
    rw [validatePath, hempty] at h
    exact h rfl
  have hone : validatePath entries path flags = 1 := by
    rw [validatePath_eq hpath] at h ⊢
    split_ifs at h ⊢ <;> simp_all
  obtain ⟨entry, hfind, hallows⟩ := validatePath_sound hpath hone
  exact ⟨entry, List.mem_of_find?_eq_some hfind, List.find?_some hfind, grants_iff.mpr hallows⟩

/-- The access mode of the flags, as a number. -/
theorem and_accmode_eq (flags : BitVec 32) :
    flags &&& O_ACCMODE = BitVec.ofNat 32 (flags.toNat % 4) := by
  apply BitVec.eq_of_toNat_eq
  rw [BitVec.toNat_and, BitVec.toNat_ofNat]
  exact (Nat.and_two_pow_sub_one_eq_mod _ 2).trans (by omega)

/-- Reading grants nothing but reading. -/
theorem accmode_of_grants {entry : PathEntry} {flags : BitVec 32}
    (hro : entry.flags &&& O_ACCMODE = O_RDONLY) (h : entry.grants (access flags)) :
    flags.toNat % 4 = 0 := by
  rw [PathEntry.grants, access, access, hro, and_accmode_eq] at h
  have hlt : flags.toNat % 4 < 4 := Nat.mod_lt _ (by decide)
  generalize flags.toNat % 4 = r at h hlt
  interval_cases r
  · rfl
  all_goals exact absurd h (by decide)

/-- Flags for reading are translated to `FA_READ`. -/
theorem fFlags_of_read {flags : BitVec 32} (h : flags.toNat % 4 = 0) :
    (flags + 1) &&& FWRITE = 0 := by
  have hmod : (flags + 1) &&& O_ACCMODE = 1 := by
    rw [and_accmode_eq, BitVec.toNat_add]
    have hone : (1 : BitVec 32).toNat = 1 := rfl
    have hr : (flags.toNat + (1 : BitVec 32).toNat) % 2 ^ 32 % 4 = 1 := by omega
    rw [hr]
    rfl
  calc (flags + 1) &&& FWRITE = ((flags + 1) &&& O_ACCMODE) &&& FWRITE := by
        rw [BitVec.and_assoc]
        rfl
    _ = 0 := by
        rw [hmod]
        decide

/-- What is opened for reading is harmless, unless it is to be created. -/
theorem harmless_iff {flags : BitVec 32} (h : flags.toNat % 4 = 0) :
    Harmless (fFlags flags) ↔ flags &&& O_CREAT = 0 := by
  rw [fFlags, if_neg (not_not.mpr (fFlags_of_read h))]
  split_ifs <;> simp_all [Harmless, FA_READ] <;> decide

end

/-- **Modes without effect.** They are the ones with which `f_open` changes nothing, whatever it
finds. -/
theorem harmless_iff_noEffect {mode : BitVec 8} : Harmless mode ↔
    ∀ found registered, fOpen mode found registered = noEffect := by
  have hsplit : Harmless mode ↔ mode &&& FA_WRITE = 0 ∧
      mode &&& (FA_CREATE_ALWAYS ||| FA_OPEN_ALWAYS ||| FA_CREATE_NEW) = 0 := by
    revert mode
    decide
  rw [hsplit]
  constructor
  · rintro ⟨hwrite, hcreate⟩ found registered
    simp only [fOpen, hwrite, hcreate, ne_eq, not_true_eq_false, if_false]
    cases found with
    | file readOnly directory => cases readOnly <;> cases directory <;> rfl
    | noFile => rfl
    | failed => rfl
  · intro h
    by_cases hcreate : mode &&& (FA_CREATE_ALWAYS ||| FA_OPEN_ALWAYS ||| FA_CREATE_NEW) = 0
    · have hfile := h (.file false false) false
      simp only [fOpen, hcreate, ne_eq, not_true_eq_false, if_false, Bool.and_false,
        Bool.or_self, Bool.false_eq_true] at hfile
      exact ⟨by simpa [noEffect] using congrArg Effect.writable hfile, hcreate⟩
    · have hnew := h .noFile true
      simp only [fOpen, hcreate, ne_eq, not_false_eq_true, if_true] at hnew
      exact absurd (congrArg Effect.created hnew) Bool.true_eq_false.mp

/-- **Paths for reading.** A path for reading only is opened with a harmless mode if and only if the
request does not ask for it to be created. -/
theorem readOnly_harmless_iff (memory fileMemory : Bool) (vfd index : ℤ) (entries : List PathEntry)
    (params : Mem) (targetDev : Option ℕ) (call : OpenCall) (fcall : FOpenCall)
    (hopen : peridotClientFsOpen memory vfd entries params = some (.ok call))
    (hro : ReadOnly entries call.path)
    (hfat : altOpen index (epcsFatfsOpen targetDev fileMemory) call = .ok fcall) :
    Harmless fcall.mode ↔ call.flags &&& O_CREAT = 0 := by
  obtain ⟨entry, hmem, hcovers, hgrants⟩ := exists_covers (validated_of_open hopen)
  have hread := accmode_of_grants (hro entry hmem hcovers) hgrants
  have hmode : fcall.mode = fFlags call.flags := by
    rw [altOpen] at hfat
    split_ifs at hfat
    cases targetDev with
    | none => cases hfat
    | some prefixLen =>
      rw [epcsFatfsOpen] at hfat
      split_ifs at hfat
      cases hfat
      rfl
  rw [hmode]
  exact harmless_iff hread

/-- The directory `/mnt/internal/`, for reading. -/
def internalRead : PathEntry where
  name := ascii ['/', 'm', 'n', 't', '/', 'i', 'n', 't', 'e', 'r', 'n', 'a', 'l']
  flags := O_RDONLY ||| O_DIRECTORY

/-- A file on it. -/
def mainJs : CString :=
  ⟨internalRead.name ++ ascii ['/', 'm', 'a', 'i', 'n', '.', 'j', 's'], by decide⟩

/-- A request to open the file, with these flags. -/
def openRequest (flags : BitVec 32) : Mem :=
  encodeDocument [.mk keyPath (.string mainJs.bytes), .mk keyFlags (.int32 flags)]

/-- `readOnly_harmless_iff` of a request to read. -/
theorem readOnly_harmless_read : Harmless FA_READ ↔ O_RDONLY &&& O_CREAT = 0 :=
  readOnly_harmless_iff true true 0 3 [internalRead] (openRequest O_RDONLY)
    (some (internalRead.name.length + 1)) ⟨mainJs, O_RDONLY, 0o777⟩
    ⟨ascii ['m', 'a', 'i', 'n', '.', 'j', 's'], FA_READ⟩ (by decide +kernel) (by decide) (by decide)

/-- The file is for reading, and is truncated. -/
theorem not_readOnly_harmless : ¬ ∀ (memory fileMemory : Bool) (vfd index : ℤ)
    (entries : List PathEntry) (params : Mem) (targetDev : Option ℕ) (call : OpenCall)
    (fcall : FOpenCall), peridotClientFsOpen memory vfd entries params = some (.ok call) →
    ReadOnly entries call.path →
    altOpen index (epcsFatfsOpen targetDev fileMemory) call = .ok fcall → Harmless fcall.mode := by
  intro hall
  have h := hall true true 0 3 [internalRead] (openRequest (O_CREAT ||| O_TRUNC))
    (some (internalRead.name.length + 1)) ⟨mainJs, O_CREAT ||| O_TRUNC, 0o777⟩
    ⟨ascii ['m', 'a', 'i', 'n', '.', 'j', 's'], FA_READ ||| FA_CREATE_ALWAYS⟩
    (by decide +kernel) (by decide) (by decide)
  exact absurd h (by decide)

end OlivePiccolo.ClientFs
