import Mathlib.Data.List.GetD
import OlivePiccolo.ClientFs.Open

/-!
# The name behind the mount point

A path that a client may open is handed from `peridot_client_fs_open` to `open`, whose
`alt_find_file` looks for the file system, and from there to `epcs_fatfs_open`, which skips the mount
point and the slash behind it. The mount point alone has no slash behind it, but it is let through
by `peridot_client_fs_validate_path` and by `alt_find_file`: what `f_open` gets is then a pointer
behind the path (`fat_name_inside_iff`).

Memory is flat here. A byte behind a string is whatever stands there.
-/

namespace OlivePiccolo.ClientFs

open Rpc

/-! ## The code -/

/-- A device in `alt_fs_list`. Its name is not empty, or else the byte in front of it is no slash. -/
structure AltDev where
  name : CString
  deriving DecidableEq

/-- The length of the name in `alt_find_file`: without a slash at its end. -/
def AltDev.len (dev : AltDev) : ℕ :=
  if dev.name.bytes.getLast? = some slash then dev.name.bytes.length - 1
  else dev.name.bytes.length

/-- The test of a device in `alt_find_file`, for the name at `name` in memory. -/
def AltDev.owns (dev : AltDev) (mem : ℤ → UInt8) (name : ℤ) : Bool :=
  (mem (name + dev.len) = slash ∨ mem (name + dev.len) = 0) ∧
    (List.range dev.len).map (fun i : ℕ => mem (name + i)) = dev.name.bytes.take dev.len

/-- `alt_find_file`. -/
def altFindFile (altFsList : List AltDev) (mem : ℤ → UInt8) (name : ℤ) : Option AltDev :=
  altFsList.find? (·.owns mem name)

/-- `epcs_fatfs_dev`, but for `fatfs`. -/
structure EpcsFatfsDev where
  fsDev : AltDev
  prefixLen : ℕ
  deriving DecidableEq

/-- `epcs_fatfs_init` up to the registration of the device. -/
def epcsFatfsInit (memory : Bool) (fsDev : AltDev) : Except ℤ EpcsFatfsDev :=
  if !memory then .error (-ENOMEM) else .ok ⟨fsDev, fsDev.name.bytes.length + 1⟩

/-- The pointer that `epcs_fatfs_open` passes to `f_open`. -/
def EpcsFatfsDev.fOpenName (targetDev : EpcsFatfsDev) (name : ℤ) : ℤ := name + targetDev.prefixLen

/-! ## The path in memory -/

/-- The string stands at the pointer, with its NUL. -/
def StringAt (mem : ℤ → UInt8) (p : ℤ) (s : CString) : Prop :=
  ∀ i ≤ s.bytes.length, mem (p + i) = s.encode.getD i 0

instance (mem : ℤ → UInt8) (p : ℤ) (s : CString) : Decidable (StringAt mem p s) :=
  inferInstanceAs (Decidable (∀ i, i ≤ _ → _))

/-- The path of a client comes to a device: there is a directory entry for the mount point, the
path passes the check, and `alt_find_file` finds the device for it. -/
structure Routed (entries : List PathEntry) (altFsList : List AltDev) (fsDev : AltDev)
    (mem : ℤ → UInt8) (name : ℤ) (path : CString) (flags : BitVec 32) : Prop where
  entry : ∃ entry ∈ entries, entry.name = fsDev.name.bytes ∧ entry.isDirectory = true
  accepted : validatePath entries path flags = 1
  string : StringAt mem name path
  found : altFindFile altFsList mem name = some fsDev

/-- The pointer points into the path, or to its NUL, and what stands there is the path without the
mount point and one slash. -/
def BehindMountPoint (mem : ℤ → UInt8) (name : ℤ) (path mountPoint : CString) (p : ℤ) : Prop :=
  name ≤ p ∧ p ≤ name + path.bytes.length ∧
    ∃ rest : CString, path.bytes = mountPoint.bytes ++ slash :: rest.bytes ∧ StringAt mem p rest

section

variable {mem : ℤ → UInt8} {p : ℤ} {path : CString} {dev : AltDev}

theorem StringAt.byte (h : StringAt mem p path) {i : ℕ} (hi : i < path.bytes.length) :
    mem (p + i) = path.bytes[i] := by
  rw [h i hi.le, CString.encode, List.getD_append _ _ _ _ hi, List.getD_eq_getElem _ _ hi]

theorem StringAt.nul (h : StringAt mem p path) : mem (p + path.bytes.length) = 0 := by
  rw [h _ (Nat.le_refl _), CString.encode, List.getD_append_right _ _ _ _ (Nat.le_refl _),
    Nat.sub_self]
  rfl

/-- The end of a string is a string. -/
theorem StringAt.drop (h : StringAt mem p path) {front : List UInt8} {rest : CString}
    (hpath : path.bytes = front ++ rest.bytes) : StringAt mem (p + front.length) rest := by
  intro i hi
  have hlen : path.bytes.length = front.length + rest.bytes.length := by
    rw [hpath, List.length_append]
  have hat := h (front.length + i) (by omega)
  rw [CString.encode, hpath, List.append_assoc, List.getD_append_right _ _ _ _ (by omega),
    Nat.add_sub_cancel_left] at hat
  rw [add_assoc, ← Nat.cast_add]
  exact hat

/-- The first bytes of a string. -/
theorem StringAt.take (h : StringAt mem p path) {n : ℕ} (hn : n ≤ path.bytes.length) :
    (List.range n).map (fun i : ℕ => mem (p + i)) = path.bytes.take n := by
  refine List.ext_getElem (by simp [hn]) fun i hi _ => ?_
  rw [List.length_map, List.length_range] at hi
  rw [List.getElem_map, List.getElem_range, List.getElem_take, h.byte]

/-- What `memcmp` finds equal to a name is no shorter than it: no byte of the name is a NUL. -/
theorem StringAt.length_le (h : StringAt mem p path) {name : CString}
    (heq : (List.range name.bytes.length).map (fun i : ℕ => mem (p + i)) = name.bytes) :
    name.bytes.length ≤ path.bytes.length := by
  by_contra hlt
  have hlen : path.bytes.length < name.bytes.length := Nat.lt_of_not_le hlt
  have hbyte : name.bytes[path.bytes.length] = 0 := by
    rw [← h.nul, List.getElem_of_eq heq.symm hlen, List.getElem_map, List.getElem_range]
  exact name.no_nul (hbyte ▸ List.getElem_mem hlen)

/-- A device without a slash at the end of its name is found for its name alone, and for paths
with a slash behind it. -/
theorem AltDev.owns_iff (h : StringAt mem p path) (hslash : dev.name.bytes.getLast? ≠ some slash) :
    dev.owns mem p = true ↔
      path.bytes = dev.name.bytes ∨ ∃ rest, path.bytes = dev.name.bytes ++ slash :: rest := by
  have hlen : dev.len = dev.name.bytes.length := if_neg hslash
  unfold AltDev.owns
  rw [hlen, List.take_length, decide_eq_true_iff]
  constructor
  · rintro ⟨hsep, heq⟩
    have hle := h.length_le heq
    rw [h.take hle] at heq
    have hpath : path.bytes = dev.name.bytes ++ path.bytes.drop dev.name.bytes.length := by
      conv_lhs => rw [← List.take_append_drop dev.name.bytes.length path.bytes, heq]
    rcases Nat.lt_or_ge dev.name.bytes.length path.bytes.length with hlt | hge
    · rw [List.drop_eq_getElem_cons hlt, ← h.byte hlt] at hpath
      rcases hsep with hsep | hsep
      · rw [hsep] at hpath
        exact Or.inr ⟨_, hpath⟩
      · rw [h.byte hlt] at hsep
        exact absurd (hsep ▸ List.getElem_mem hlt) path.no_nul
    · rw [List.drop_eq_nil_of_le hge, List.append_nil] at hpath
      exact Or.inl hpath
  · rintro (hpath | ⟨rest, hpath⟩)
    · rw [← hpath]
      exact ⟨Or.inr h.nul, by rw [h.take (Nat.le_refl _), List.take_length]⟩
    · have hlt : dev.name.bytes.length < path.bytes.length := by
        rw [hpath, List.length_append, List.length_cons]
        omega
      refine ⟨Or.inl ?_, ?_⟩
      · rw [h.byte hlt]
        simp [hpath]
      · rw [h.take hlt.le, hpath, List.take_left]

end

/-- **The FAT driver receives a name inside the path**, if and only if the path is not the mount
point alone. -/
theorem fat_name_inside_iff {entries : List PathEntry} {altFsList : List AltDev} {fsDev : AltDev}
    {memory : Bool} {targetDev : EpcsFatfsDev} {mem : ℤ → UInt8} {name : ℤ} {path : CString}
    {flags : BitVec 32} (hslash : fsDev.name.bytes.getLast? ≠ some slash)
    (hinit : epcsFatfsInit memory fsDev = .ok targetDev)
    (h : Routed entries altFsList fsDev mem name path flags) :
    BehindMountPoint mem name path fsDev.name (targetDev.fOpenName name) ↔
      path ≠ fsDev.name := by
  have hmount : targetDev.prefixLen = fsDev.name.bytes.length + 1 := by
    rw [epcsFatfsInit] at hinit
    split_ifs at hinit
    cases hinit
    rfl
  have howns := (AltDev.owns_iff h.string hslash).mp (by simpa using List.find?_some h.found)
  unfold BehindMountPoint EpcsFatfsDev.fOpenName
  rw [hmount]
  constructor
  · rintro ⟨-, hle, -⟩ heq
    rw [heq] at hle
    omega
  · intro hne
    rcases howns with heq | ⟨rest, hpath⟩
    · exact absurd (by cases path; cases hn : fsDev.name; simp_all) hne
    · have hnul : 0 ∉ rest := fun hmem => path.no_nul (by rw [hpath]; simp [hmem])
      have hfront : path.bytes = (fsDev.name.bytes ++ [slash]) ++ (⟨rest, hnul⟩ : CString).bytes := by
        rw [hpath, List.append_assoc]
        rfl
      have hrest := h.string.drop hfront
      rw [List.length_append, List.length_singleton] at hrest
      have hlen : path.bytes.length = fsDev.name.bytes.length + 1 + rest.length := by
        rw [hfront, List.length_append, List.length_append]
        rfl
      exact ⟨by omega, by omega, ⟨rest, hnul⟩, hpath, hrest⟩

/-- A name inside the path is the one that `epcsFatfsOpen` takes for the call of `f_open`. -/
theorem BehindMountPoint.epcsFatfsOpen {fsDev : AltDev} {targetDev : EpcsFatfsDev}
    {mem : ℤ → UInt8} {name p : ℤ} {call : OpenCall} {fcall : FOpenCall}
    (hinit : epcsFatfsInit true fsDev = .ok targetDev)
    (h : BehindMountPoint mem name call.path fsDev.name p)
    (hopen : epcsFatfsOpen (some targetDev.prefixLen) true call = .ok fcall) :
    ∃ rest : CString, fcall.path = rest.bytes ∧ StringAt mem p rest := by
  obtain ⟨-, -, rest, hpath, hrest⟩ := h
  cases hinit
  cases hopen
  refine ⟨rest, ?_, hrest⟩
  show call.path.bytes.drop (fsDev.name.bytes.length + 1) = rest.bytes
  rw [hpath, List.drop_append, List.drop_eq_nil_of_le (Nat.le_succ _), Nat.add_sub_cancel_left]
  rfl

/-! ## `/mnt/internal` -/

/-- `EPCS_FATFS_MOUNT_POINT`. -/
def mountInternal : CString :=
  ⟨ascii ['/', 'm', 'n', 't', '/', 'i', 'n', 't', 'e', 'r', 'n', 'a', 'l'], by decide⟩

/-- The directory entry that `PERIDOT_CLIENT_FS_RW_PATH` stands for. -/
def internalEntry : PathEntry := ⟨mountInternal.bytes, O_RDWR ||| O_DIRECTORY⟩

/-- A path at address 0, with the same byte all over the memory behind it. -/
def pathInMemory (path : CString) (behind : UInt8) (a : ℤ) : UInt8 :=
  path.encode.getD a.toNat behind

/-- A file there. -/
def internalFile : CString :=
  ⟨mountInternal.bytes ++ ascii ['/', 'a'], by decide⟩

theorem internalFile_routed : Routed [internalEntry] [⟨mountInternal⟩] ⟨mountInternal⟩
    (pathInMemory internalFile 1) 0 internalFile O_RDONLY where
  entry := ⟨internalEntry, by decide, rfl, by decide⟩
  accepted := by decide
  string := by decide
  found := by decide

theorem mountInternal_routed : Routed [internalEntry] [⟨mountInternal⟩] ⟨mountInternal⟩
    (pathInMemory mountInternal 1) 0 mountInternal O_RDONLY where
  entry := ⟨internalEntry, by decide, rfl, by decide⟩
  accepted := by decide
  string := by decide
  found := by decide

theorem fat_name_inside_iff_file :
    BehindMountPoint (pathInMemory internalFile 1) 0 internalFile mountInternal
        (EpcsFatfsDev.fOpenName ⟨⟨mountInternal⟩, 14⟩ 0) ↔ internalFile ≠ mountInternal := by
  have hinit : epcsFatfsInit true ⟨mountInternal⟩ = .ok ⟨⟨mountInternal⟩, 14⟩ := rfl
  exact fat_name_inside_iff (by decide) hinit internalFile_routed

/-- The mount point itself passes all checks. -/
theorem not_fat_name_inside : ¬ ∀ (entries : List PathEntry) (altFsList : List AltDev)
    (targetDev : EpcsFatfsDev) (mem : ℤ → UInt8) (name : ℤ) (path : CString) (flags : BitVec 32),
    epcsFatfsInit true ⟨mountInternal⟩ = .ok targetDev →
    Routed entries altFsList ⟨mountInternal⟩ mem name path flags →
    BehindMountPoint mem name path mountInternal (targetDev.fOpenName name) := by
  intro hall
  have h := hall _ _ ⟨⟨mountInternal⟩, 14⟩ _ _ _ _ rfl mountInternal_routed
  exact absurd h.2.1 (by decide)

end OlivePiccolo.ClientFs
