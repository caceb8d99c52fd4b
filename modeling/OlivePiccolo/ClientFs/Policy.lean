import OlivePiccolo.Library.FirstMatch
import OlivePiccolo.Library.Memory

/-!
# Paths that clients may open

`peridot_client_fs.c` keeps a list of path entries, which `peridot_client_fs_init` fills from three
lists of paths, and `peridot_client_fs_validate_path` asks it whether a path may be opened.

The policy is that the first entry that covers the path decides. The code tests the access at every
entry whose name the path begins with, and only then whether the name ends there, so that `/a` stands
in the way of `/ab`; and a file is not found by a path with a slash at its end.
-/

namespace OlivePiccolo.ClientFs

open FirstMatch

def O_RDONLY : BitVec 32 := 0

def O_WRONLY : BitVec 32 := 1

def O_RDWR : BitVec 32 := 2

def O_ACCMODE : BitVec 32 := 3

def O_DIRECTORY : BitVec 32 := 0x200000

def slash : UInt8 := 0x2f

def colon : UInt8 := 0x3a

/-! ## The code -/

/-- `peridot_client_fs_path_entry`, with the `len` bytes of its name. -/
structure PathEntry where
  name : List UInt8
  flags : BitVec 32
  deriving DecidableEq, Repr

/-- The bits of an access mode: 1 to read, 2 to write. -/
def access (flags : BitVec 32) : BitVec 32 := (flags &&& O_ACCMODE) + 1

def PathEntry.isDirectory (entry : PathEntry) : Bool := entry.flags &&& O_DIRECTORY != 0

/-- `(acc_granted & acc_requested) == acc_requested`. -/
def PathEntry.grants (accRequested : BitVec 32) (entry : PathEntry) : Bool :=
  access entry.flags &&& accRequested == accRequested

/-- The loop of `peridot_client_fs_validate_path`. The separator is inside the path or its NUL. -/
def validateEntries (path : CString) (len : ℕ) (accRequested : BitVec 32) : List PathEntry → ℤ
  | [] => 0
  | entry :: entries =>
    if len < entry.name.length then validateEntries path len accRequested entries
    else if path.bytes.take entry.name.length ≠ entry.name then
      validateEntries path len accRequested entries
    else if !entry.grants accRequested then 0
    else
      let sep := path.encode.getD entry.name.length 0
      if entry.isDirectory then
        if sep = slash ∨ sep = 0 then 1 else validateEntries path len accRequested entries
      else if sep = 0 then 1 else validateEntries path len accRequested entries

/-- `peridot_client_fs_validate_path`. What it adds to `flags` is not read again. -/
def validatePath (entries : List PathEntry) (path : CString) (flags : BitVec 32) : ℤ :=
  let len := path.bytes.length
  if len = 0 then 0
  else if path.bytes.getLast? = some slash then
    validateEntries path (len - 1) (access flags) entries
  else validateEntries path len (access flags) entries

/-- The list of entries, and how often `malloc` has been called for it. -/
structure Registry where
  entries : List PathEntry
  requests : ℕ

/-- `peridot_client_fs_add_path`. Without memory, it does nothing. -/
def addPath (malloc : ℕ → Bool) (s : Registry) (name : List UInt8) (flags : BitVec 32) : Registry :=
  if malloc s.requests then
    ⟨s.entries ++ [⟨name, flags &&& (O_ACCMODE ||| O_DIRECTORY)⟩], s.requests + 1⟩
  else ⟨s.entries, s.requests + 1⟩

/-- `find_separator`: the text in front of the separator, and from it on. -/
def findSeparator : List UInt8 → List UInt8 × List UInt8
  | [] => ([], [])
  | ch :: text =>
    if ch = colon then ([], ch :: text)
    else (ch :: (findSeparator text).1, (findSeparator text).2)

theorem findSeparator_length (text : List UInt8) :
    (findSeparator text).1.length + (findSeparator text).2.length = text.length := by
  induction text with
  | nil => rfl
  | cons ch text ih =>
    rw [findSeparator]
    split_ifs
    · simp
    · simp only [List.length_cons]
      omega

/-- One component of a list that is not empty, in `peridot_client_fs_add_list`. -/
def addComponent (malloc : ℕ → Bool) (s : Registry) (component : List UInt8) (flags : BitVec 32) :
    Registry :=
  if component.getLast? = some slash then
    addPath malloc s component.dropLast (flags ||| O_DIRECTORY)
  else addPath malloc s component flags

/-- `peridot_client_fs_add_list`, from the position in the list on. -/
def addList (malloc : ℕ → Bool) (flags : BitVec 32) (s : Registry) (list : List UInt8) : Registry :=
  match _h : findSeparator list with
  | ([], []) => s
  | ([], _ :: list') => addList malloc flags s list'
  | (component, []) => addComponent malloc s component flags
  | (component, _ :: list') => addList malloc flags (addComponent malloc s component flags) list'
termination_by list.length
decreasing_by
  all_goals
    have hlen := findSeparator_length list
    rw [_h] at hlen
    simp only [List.length_cons] at hlen
    omega

/-- A call of `peridot_client_fs_add_file` or `peridot_client_fs_add_directory`. -/
inductive Call
  | addFile (path : CString) (flags : BitVec 32)
  | addDirectory (path : CString) (flags : BitVec 32)
  deriving DecidableEq

/-- The call. The last byte of the path of a directory is read, so that there has to be one. -/
def Call.run (malloc : ℕ → Bool) (s : Registry) : Call → Access Registry
  | .addFile path flags => some (addPath malloc s path.bytes (flags &&& O_ACCMODE))
  | .addDirectory path flags =>
    if path.bytes = [] then none
    else if path.bytes.getLast? = some slash then
      some (addPath malloc s path.bytes.dropLast ((flags &&& O_ACCMODE) ||| O_DIRECTORY))
    else some (addPath malloc s path.bytes ((flags &&& O_ACCMODE) ||| O_DIRECTORY))

/-- `peridot_client_fs_init`, with the lists for reading and writing, for reading and for writing. -/
def init (malloc : ℕ → Bool) (rwPath roPath woPath : CString) : Registry :=
  addList malloc O_WRONLY (addList malloc O_RDONLY (addList malloc O_RDWR ⟨[], 0⟩ rwPath.bytes)
    roPath.bytes) woPath.bytes

/-- `peridot_client_fs_init`, and further calls. -/
def configure (malloc : ℕ → Bool) (rwPath roPath woPath : CString) (calls : List Call) :
    Access Registry :=
  calls.foldlM (Call.run malloc) (init malloc rwPath roPath woPath)

/-! ## The policy -/

/-- A path without one slash at its end. -/
def stripSlash (path : List UInt8) : List UInt8 :=
  if path.getLast? = some slash then path.dropLast else path

/-- The components of a list of paths. -/
def components (list : List UInt8) : List (List UInt8) := (list.splitOn colon).filter (· ≠ [])

/-- The entry for a component: a directory, if it ends in a slash. -/
def componentEntry (flags : BitVec 32) (component : List UInt8) : PathEntry :=
  if component.getLast? = some slash then ⟨component.dropLast, flags ||| O_DIRECTORY⟩
  else ⟨component, flags⟩

/-- The entry for a call. -/
def Call.entry : Call → PathEntry
  | .addFile path flags => ⟨path.bytes, flags &&& O_ACCMODE⟩
  | .addDirectory path flags => ⟨stripSlash path.bytes, (flags &&& O_ACCMODE) ||| O_DIRECTORY⟩

/-- There is a last byte to look at. -/
def Call.HasPath : Call → Prop
  | .addFile _ _ => True
  | .addDirectory path _ => path.bytes ≠ []

instance : DecidablePred Call.HasPath
  | .addFile _ _ => .isTrue trivial
  | .addDirectory path _ => inferInstanceAs (Decidable (path.bytes ≠ []))

/-- The entries that have been configured. -/
def configured (rwPath roPath woPath : CString) (calls : List Call) : List PathEntry :=
  (components rwPath.bytes).map (componentEntry O_RDWR) ++
    (components roPath.bytes).map (componentEntry O_RDONLY) ++
    (components woPath.bytes).map (componentEntry O_WRONLY) ++ calls.map Call.entry

/-- The entry covers the path: it is the path, or a directory in front of a slash of it. -/
def PathEntry.covers (path : List UInt8) (entry : PathEntry) : Bool :=
  stripSlash path == entry.name || (entry.isDirectory && (entry.name ++ [slash]).isPrefixOf path)

/-- The path begins with the name. -/
def PathEntry.touches (path : List UInt8) (entry : PathEntry) : Bool :=
  entry.name.isPrefixOf (stripSlash path)

/-- The entry covers the path as it is written: a file has no slash behind it. -/
def PathEntry.fits (path : List UInt8) (entry : PathEntry) : Bool :=
  entry.covers path && (entry.isDirectory || path.getLast? != some slash)

/-- Every access bit that is requested has been granted. -/
def PathEntry.allows (flags : BitVec 32) (entry : PathEntry) : Prop :=
  ∀ i, (access flags).getLsbD i → (access entry.flags).getLsbD i

/-- The first entry that covers the path grants the access. -/
def Permitted (entries : List PathEntry) (path : CString) (flags : BitVec 32) : Prop :=
  ∃ entry ∈ entries.find? (PathEntry.covers path.bytes), entry.allows flags

/-- Nothing stands in the way of what is permitted: an entry fits the path, and no entry up to it
with whose name the path begins denies the access. -/
def Unobstructed (entries : List PathEntry) (path : CString) (flags : BitVec 32) : Prop :=
  Permitted entries path flags →
    Clear (PathEntry.touches path.bytes) (PathEntry.fits path.bytes)
      (PathEntry.grants (access flags)) entries

/-! ## Lists of paths -/

theorem findSeparator_eq_nil {text : List UInt8} (h : (findSeparator text).2 = []) :
    text.splitOn colon = [(findSeparator text).1] := by
  induction text with
  | nil => rfl
  | cons ch text ih =>
    rw [findSeparator] at h ⊢
    split_ifs at h ⊢ with hch
    rw [List.splitOn_cons_eq_if_modifyHead, if_neg (by simpa using hch), ih h]
    rfl

theorem findSeparator_eq_cons {text rest : List UInt8} {sep : UInt8}
    (h : (findSeparator text).2 = sep :: rest) :
    text.splitOn colon = (findSeparator text).1 :: rest.splitOn colon := by
  induction text with
  | nil => cases h
  | cons ch text ih =>
    rw [findSeparator] at h ⊢
    split_ifs at h ⊢ with hch
    · obtain ⟨rfl, rfl⟩ := List.cons.inj h
      rw [List.splitOn_cons_eq_if_modifyHead, if_pos (by simpa using hch)]
    · rw [List.splitOn_cons_eq_if_modifyHead, if_neg (by simpa using hch), ih h]
      rfl

/-- The last component. -/
theorem components_last {list component : List UInt8} (h : findSeparator list = (component, [])) :
    components list = if component = [] then [] else [component] := by
  rw [components, findSeparator_eq_nil (by rw [h]), h]
  split_ifs with hempty
  · rw [hempty]
    rfl
  · exact List.filter_cons_of_pos (decide_eq_true hempty)

/-- A component in front of a separator. -/
theorem components_front {list component rest : List UInt8} {sep : UInt8}
    (h : findSeparator list = (component, sep :: rest)) :
    components list = if component = [] then components rest else component :: components rest := by
  rw [components, findSeparator_eq_cons (by rw [h]), h]
  split_ifs with hempty
  · rw [hempty]
    rfl
  · exact List.filter_cons_of_pos (decide_eq_true hempty)

/-- The entry, appended if there is memory for it. -/
def Registry.push (malloc : ℕ → Bool) (s : Registry) (entry : PathEntry) : Registry :=
  if malloc s.requests then ⟨s.entries ++ [entry], s.requests + 1⟩ else ⟨s.entries, s.requests + 1⟩

section

variable {malloc : ℕ → Bool} {flags : BitVec 32}

theorem addPath_eq {name : List UInt8} (s : Registry)
    (h : flags &&& (O_ACCMODE ||| O_DIRECTORY) = flags) :
    addPath malloc s name flags = s.push malloc ⟨name, flags⟩ := by
  rw [addPath, Registry.push, h]

/-- An access mode stays, and so does the mark of a directory. -/
theorem mask_accmode (h : flags &&& O_ACCMODE = flags) :
    flags &&& (O_ACCMODE ||| O_DIRECTORY) = flags ∧
      (flags ||| O_DIRECTORY) &&& (O_ACCMODE ||| O_DIRECTORY) = flags ||| O_DIRECTORY := by
  have hmask : flags &&& (O_ACCMODE ||| O_DIRECTORY) = flags := by
    ext i hi
    have hbit := congrArg (·.getLsbD i) h
    simp only [BitVec.getLsbD_and, Bool.and_eq_left_iff_imp] at hbit
    simp only [BitVec.getElem_and, BitVec.getElem_or, Bool.and_eq_left_iff_imp]
    intro hflag
    rw [← BitVec.getLsbD_eq_getElem hi] at hflag ⊢
    rw [hbit hflag, Bool.true_or]
  refine ⟨hmask, ?_⟩
  rw [BitVec.and_or_distrib_right, hmask]
  rfl

theorem addComponent_eq (s : Registry) (component : List UInt8)
    (h : flags &&& O_ACCMODE = flags) :
    addComponent malloc s component flags = s.push malloc (componentEntry flags component) := by
  obtain ⟨hfile, hdir⟩ := mask_accmode h
  rw [addComponent, componentEntry]
  split_ifs
  · exact addPath_eq s hdir
  · exact addPath_eq s hfile

/-- **The list parser.** Each component that is not empty gets its entry. -/
theorem addList_eq (s : Registry) (list : List UInt8) (h : flags &&& O_ACCMODE = flags) :
    addList malloc flags s list =
      ((components list).map (componentEntry flags)).foldl (Registry.push malloc) s := by
  induction s, list using addList.induct malloc flags with
  | case1 s list hsep =>
    rw [addList, hsep, components_last hsep, if_pos rfl]
    rfl
  | case2 s list sep list' hsep ih =>
    rw [addList, hsep, components_front hsep, if_pos rfl]
    exact ih
  | case3 s list component hempty hsep =>
    obtain ⟨ch, text, rfl⟩ := List.exists_cons_of_ne_nil hempty
    rw [addList, hsep, components_last hsep, if_neg hempty]
    exact addComponent_eq s (ch :: text) h
  | case4 s list component sep list' hempty hsep ih =>
    obtain ⟨ch, text, rfl⟩ := List.exists_cons_of_ne_nil hempty
    rw [addList, hsep, components_front hsep, if_neg hempty, List.map_cons, List.foldl_cons,
      ← addComponent_eq s (ch :: text) h]
    exact ih

theorem and_accmode (flags : BitVec 32) :
    flags &&& O_ACCMODE &&& O_ACCMODE = flags &&& O_ACCMODE := by
  rw [BitVec.and_assoc, BitVec.and_self]

/-- A call appends its entry, or reads in front of the path. -/
theorem Call.run_eq (s : Registry) (call : Call) : call.run malloc s =
    if call.HasPath then some (s.push malloc call.entry) else none := by
  cases call with
  | addFile path flags =>
    rw [Call.run, if_pos (show (Call.addFile path flags).HasPath from trivial),
      addPath_eq s (mask_accmode (and_accmode flags)).1, Call.entry]
  | addDirectory path flags =>
    have hflags := (mask_accmode (and_accmode flags)).2
    rw [Call.run]
    by_cases hpath : path.bytes = []
    · rw [if_pos hpath, if_neg fun h : (Call.addDirectory path flags).HasPath => h hpath]
    · rw [if_neg hpath, if_pos (show (Call.addDirectory path flags).HasPath from hpath),
        Call.entry, stripSlash]
      split_ifs
      · rw [addPath_eq s hflags]
      · rw [addPath_eq s hflags]

theorem foldlM_run (calls : List Call) (s : Registry) :
    calls.foldlM (Call.run malloc) s =
      if ∀ call ∈ calls, call.HasPath then
        some ((calls.map Call.entry).foldl (Registry.push malloc) s)
      else none := by
  induction calls generalizing s with
  | nil => rfl
  | cons call calls ih =>
    rw [List.foldlM_cons, Call.run_eq]
    by_cases hcall : call.HasPath
    · rw [if_pos hcall]
      simp only [List.forall_mem_cons, hcall, true_and]
      exact ih _
    · rw [if_neg hcall, if_neg fun h => hcall (h call List.mem_cons_self)]
      rfl

/-- **Registration.** The configured entries are appended one after the other. -/
theorem configure_eq (malloc : ℕ → Bool) (rwPath roPath woPath : CString) (calls : List Call) :
    configure malloc rwPath roPath woPath calls =
      if ∀ call ∈ calls, call.HasPath then
        some ((configured rwPath roPath woPath calls).foldl (Registry.push malloc) ⟨[], 0⟩)
      else none := by
  rw [configure, foldlM_run, init, addList_eq _ _ (by rfl), addList_eq _ _ (by rfl),
    addList_eq _ _ (by rfl), configured, List.foldl_append, List.foldl_append, List.foldl_append]

theorem push_requests (s : Registry) (entry : PathEntry) :
    (s.push malloc entry).requests = s.requests + 1 := by
  rw [Registry.push]
  split_ifs <;> rfl

/-- No more entries than pushed, and less where there was no memory. -/
theorem foldl_push_length (malloc : ℕ → Bool) (entries : List PathEntry) (s : Registry) :
    (entries.foldl (Registry.push malloc) s).entries.length ≤ s.entries.length + entries.length := by
  induction entries generalizing s with
  | nil => exact le_rfl
  | cons entry entries ih =>
    refine (ih (s.push malloc entry)).trans ?_
    rw [Registry.push, List.length_cons]
    split_ifs
    · simp only [List.length_append, List.length_singleton]
      omega
    · simp only
      omega

/-- The entries are there if and only if there was memory for each of them. -/
theorem foldl_push_eq_iff (malloc : ℕ → Bool) (entries : List PathEntry) (s : Registry) :
    (entries.foldl (Registry.push malloc) s).entries = s.entries ++ entries ↔
      ∀ i < entries.length, malloc (s.requests + i) := by
  induction entries generalizing s with
  | nil => simp
  | cons entry entries ih =>
    rw [List.foldl_cons, List.length_cons, Nat.forall_lt_succ_left, Nat.add_zero]
    by_cases hmem : malloc s.requests
    · have hpush : (s.push malloc entry).entries ++ entries = s.entries ++ entry :: entries := by
        rw [Registry.push, if_pos hmem, List.append_assoc, List.singleton_append]
      rw [← hpush, ih, push_requests]
      simp only [hmem, true_and, Nat.add_assoc, Nat.add_comm 1]
    · have hpush : (s.push malloc entry).entries = s.entries := by rw [Registry.push, if_neg hmem]
      refine ⟨fun heq => ?_, fun h => absurd h.1 hmem⟩
      have hlen := foldl_push_length malloc entries (s.push malloc entry)
      rw [heq, hpush, List.length_append, List.length_cons] at hlen
      omega

end

/-! ## The scan -/

section

variable {path : CString} {flags : BitVec 32} {entry : PathEntry} {entries : List PathEntry}

theorem stripSlash_of_slash {path : List UInt8} (h : path.getLast? = some slash) :
    path = stripSlash path ++ [slash] := by
  rw [stripSlash, if_pos h]
  exact (List.dropLast_append_getLast? slash h).symm

theorem stripSlash_of_not_slash {path : List UInt8} (h : path.getLast? ≠ some slash) :
    stripSlash path = path := if_neg h

/-- Only a slash is missing. -/
theorem stripSlash_isPrefix (path : List UInt8) : stripSlash path <+: path := by
  rw [stripSlash]
  split_ifs
  · exact List.dropLast_prefix path
  · exact List.prefix_rfl

/-- Both tests of the loop: the length, and the bytes. -/
theorem touches_iff : entry.touches path.bytes ↔
    ¬ (stripSlash path.bytes).length < entry.name.length ∧
      path.bytes.take entry.name.length = entry.name := by
  rw [PathEntry.touches, List.isPrefixOf_iff_prefix]
  constructor
  · intro h
    exact ⟨h.length_le.not_gt, (List.prefix_iff_eq_take.mp (h.trans (stripSlash_isPrefix _))).symm⟩
  · rintro ⟨hlen, htake⟩
    have hname : entry.name <+: path.bytes := List.prefix_iff_eq_take.mpr htake.symm
    exact List.prefix_of_prefix_length_le hname (stripSlash_isPrefix _) (not_lt.mp hlen)

/-- An entry covers a path that is its name but for a slash at the end, or that is in its directory. -/
theorem covers_iff : entry.covers path.bytes ↔
    stripSlash path.bytes = entry.name ∨
      entry.isDirectory ∧ entry.name ++ [slash] <+: path.bytes := by
  rw [PathEntry.covers, Bool.or_eq_true, beq_iff_eq, Bool.and_eq_true, List.isPrefixOf_iff_prefix]

theorem covers_touches (entry : PathEntry) (h : entry.covers path.bytes) :
    entry.touches path.bytes := by
  rw [PathEntry.touches, List.isPrefixOf_iff_prefix]
  rcases covers_iff.mp h with heq | ⟨-, hprefix⟩
  · exact heq ▸ List.prefix_rfl
  · refine List.prefix_of_prefix_length_le ((List.prefix_append _ [slash]).trans hprefix)
      (stripSlash_isPrefix _) ?_
    have hlen := hprefix.length_le
    rw [List.length_append, List.length_singleton] at hlen
    rw [stripSlash]
    split_ifs
    · rw [List.length_dropLast]
      omega
    · omega

theorem fits_covers (entry : PathEntry) (h : entry.fits path.bytes) :
    entry.covers path.bytes := (Bool.and_eq_true _ _ |>.mp h).1

/-- The separator of the loop. -/
def separator (path : CString) (entry : PathEntry) : UInt8 :=
  path.encode.getD entry.name.length 0

theorem separator_of_isPrefix {rest : List UInt8} (h : entry.name ++ rest = path.bytes) :
    separator path entry = rest.headD 0 := by
  rw [separator, CString.encode, ← h, List.append_assoc, List.getD_eq_getElem?_getD,
    List.getElem?_append_right le_rfl, Nat.sub_self]
  cases rest <;> rfl

/-- The slash behind a directory is the separator. -/
theorem slash_prefix_iff {b : UInt8} {rest : List UInt8} (h : entry.name ++ b :: rest = path.bytes) :
    entry.name ++ [slash] <+: path.bytes ↔ b = slash := by
  rw [← h, List.prefix_append_right_inj, List.cons_prefix_cons]
  exact ⟨fun hb => hb.1.symm, fun hb => ⟨hb.symm, List.nil_prefix⟩⟩

/-- The test of the separator tells whether the entry fits. -/
theorem fits_iff (h : entry.touches path.bytes) : entry.fits path.bytes ↔
    separator path entry = 0 ∨ entry.isDirectory ∧ separator path entry = slash := by
  rw [PathEntry.touches, List.isPrefixOf_iff_prefix] at h
  obtain ⟨rest, hrest⟩ := h.trans (stripSlash_isPrefix _)
  rw [separator_of_isPrefix hrest, PathEntry.fits, Bool.and_eq_true, Bool.or_eq_true, covers_iff,
    bne_iff_ne]
  cases rest with
  | nil =>
    -- the whole path is the name, and there was no slash to remove
    rw [List.append_nil] at hrest
    have hlast : path.bytes.getLast? ≠ some slash := by
      intro hlast
      have hlen := congrArg List.length (stripSlash_of_slash hlast)
      have hle := h.length_le
      rw [List.length_append, List.length_singleton, ← hrest] at hlen
      rw [← hrest] at hle
      omega
    rw [stripSlash_of_not_slash hlast, hrest]
    exact ⟨fun _ => .inl rfl, fun _ => ⟨.inl rfl, .inr hlast⟩⟩
  | cons b rest =>
    have hb : b ≠ 0 := by
      rintro rfl
      exact path.no_nul (hrest ▸ List.mem_append_right _ List.mem_cons_self)
    rw [List.headD_cons, slash_prefix_iff hrest, or_iff_right hb]
    by_cases hlast : path.bytes.getLast? = some slash
    · have hstrip : stripSlash path.bytes = entry.name → b = slash := by
        intro heq
        have hall : entry.name ++ [slash] = path.bytes := by
          rw [← heq]
          exact (stripSlash_of_slash hlast).symm
        exact (slash_prefix_iff hrest).mp (hall ▸ List.prefix_rfl)
      simp only [hlast, ne_eq, not_true_eq_false, or_false]
      constructor
      · rintro ⟨heq | hdir, h⟩
        · exact ⟨h, hstrip heq⟩
        · exact hdir
      · exact fun hdir => ⟨.inr hdir, hdir.1⟩
    · have hne : ¬ stripSlash path.bytes = entry.name := by
        rw [stripSlash_of_not_slash hlast, ← hrest]
        exact fun heq => by simp at heq
      rw [or_iff_right hne]
      exact ⟨fun h => h.1, fun h => ⟨h, .inl h.1⟩⟩

/-- The end of the loop's body. -/
theorem separator_test (h : entry.touches path.bytes) (next : ℤ) :
    (let sep := path.encode.getD entry.name.length 0
      if entry.isDirectory then if sep = slash ∨ sep = 0 then 1 else next
      else if sep = 0 then 1 else next) = if entry.fits path.bytes then 1 else next := by
  have hfits := fits_iff h
  rw [separator] at hfits
  by_cases hdir : entry.isDirectory
  · simp only [hdir, true_and, if_true] at hfits ⊢
    rw [or_comm] at hfits
    simp only [hfits]
  · simp only [hdir, Bool.false_eq_true, false_and, or_false, if_false] at hfits ⊢
    simp only [hfits]

/-- The loop is a scan. -/
theorem validateEntries_eq {len : ℕ} (hlen : len = (stripSlash path.bytes).length)
    (accRequested : BitVec 32) (entries : List PathEntry) :
    validateEntries path len accRequested entries =
      if scan (PathEntry.touches path.bytes) (PathEntry.fits path.bytes)
        (PathEntry.grants accRequested) entries then 1 else 0 := by
  induction entries with
  | nil => rfl
  | cons entry entries ih =>
    rw [validateEntries, scan]
    by_cases htouch : entry.touches path.bytes
    · obtain ⟨hlt, htake⟩ := touches_iff.mp htouch
      rw [if_neg (hlen ▸ hlt), if_neg (not_not.mpr htake), if_pos htouch]
      by_cases hgrants : entry.grants accRequested
      · simp only [hgrants, Bool.not_true, Bool.false_eq_true, if_false, if_true]
        rw [separator_test htouch, ih]
        by_cases hfits : entry.fits path.bytes
        · simp only [hfits, if_true]
        · simp only [hfits, if_false, Bool.false_eq_true]
      · simp only [hgrants, Bool.not_false, if_true, Bool.false_eq_true, if_false]
    · rw [if_neg htouch, ← ih]
      rw [touches_iff, not_and_or, not_not] at htouch
      rcases htouch with hlt | htake
      · rw [if_pos (hlen ▸ hlt)]
      · rw [if_pos htake, ite_self]

/-- **The check.** It is a scan for an entry that fits the path. -/
theorem validatePath_eq (hpath : path.bytes ≠ []) (flags : BitVec 32) (entries : List PathEntry) :
    validatePath entries path flags =
      if scan (PathEntry.touches path.bytes) (PathEntry.fits path.bytes)
        (PathEntry.grants (access flags)) entries then 1 else 0 := by
  have hlen : path.bytes.length ≠ 0 := fun h => hpath (List.length_eq_zero_iff.mp h)
  simp only [validatePath]
  rw [if_neg hlen]
  by_cases hlast : path.bytes.getLast? = some slash
  · rw [if_pos hlast]
    exact validateEntries_eq (by rw [stripSlash, if_pos hlast, List.length_dropLast]) _ _
  · rw [if_neg hlast]
    exact validateEntries_eq (by rw [stripSlash, if_neg hlast]) _ _

/-- All bits are there if and only if the requested part of the granted bits is the request. -/
theorem grants_iff : entry.grants (access flags) ↔ entry.allows flags := by
  rw [PathEntry.grants, beq_iff_eq, PathEntry.allows]
  constructor
  · intro h i hi
    have hbit := congrArg (·.getLsbD i) h
    simp only [BitVec.getLsbD_and, hi, Bool.and_true] at hbit
    exact hbit
  · intro h
    ext i hi
    rw [BitVec.getElem_and, Bool.and_eq_right_iff_imp]
    intro hbit
    rw [← BitVec.getLsbD_eq_getElem hi] at hbit ⊢
    exact h i hbit

theorem permitted_iff : Permitted entries path flags ↔
    Permits (PathEntry.covers path.bytes) (PathEntry.grants (access flags)) entries := by
  rw [Permitted, Permits, Option.any_eq_true]
  simp only [grants_iff, Option.mem_def]

theorem validatePath_iff (hpath : path.bytes ≠ []) : validatePath entries path flags = 1 ↔
    scan (PathEntry.touches path.bytes) (PathEntry.fits path.bytes)
      (PathEntry.grants (access flags)) entries = true := by
  rw [validatePath_eq hpath]
  split_ifs with h
  · exact iff_of_true rfl h
  · exact iff_of_false (by decide) h

/-- **Soundness.** The check lets nothing through that the policy forbids. -/
theorem validatePath_sound (hpath : path.bytes ≠ []) (h : validatePath entries path flags = 1) :
    Permitted entries path flags :=
  permitted_iff.mpr (scan_sound fits_covers covers_touches ((validatePath_iff hpath).mp h))

end

/-- **The path policy.** The check answers as configured if and only if there is memory for all
entries, every directory has a path, and no entry stands in the way of what the policy permits. -/
theorem policy_iff (malloc : ℕ → Bool) (rwPath roPath woPath : CString) (calls : List Call)
    (path : CString) (hpath : path.bytes ≠ []) (flags : BitVec 32) :
    (∃ s, configure malloc rwPath roPath woPath calls = some s ∧
        s.entries = configured rwPath roPath woPath calls ∧
        (validatePath s.entries path flags = 1 ↔ Permitted s.entries path flags)) ↔
      (∀ call ∈ calls, call.HasPath) ∧
        (∀ i < (configured rwPath roPath woPath calls).length, malloc i) ∧
        Unobstructed (configured rwPath roPath woPath calls) path flags := by
  have hanswer : ∀ entries : List PathEntry,
      (validatePath entries path flags = 1 ↔ Permitted entries path flags) ↔
        Unobstructed entries path flags := by
    intro entries
    rw [validatePath_iff hpath, Unobstructed, permitted_iff]
    exact scan_iff_permits fits_covers covers_touches
  rw [configure_eq]
  by_cases hcalls : ∀ call ∈ calls, call.HasPath
  · rw [if_pos hcalls]
    have hentries := foldl_push_eq_iff malloc (configured rwPath roPath woPath calls)
      ⟨[], 0⟩
    simp only [List.nil_append, Nat.zero_add] at hentries
    rw [← hentries]
    constructor
    · rintro ⟨s, hs, heq, h⟩
      obtain rfl := Option.some.inj hs
      exact ⟨hcalls, heq, heq ▸ (hanswer _).mp h⟩
    · rintro ⟨-, heq, h⟩
      exact ⟨_, rfl, heq, (hanswer _).mpr (by rwa [heq])⟩
  · rw [if_neg hcalls]
    exact iff_of_false (fun ⟨_, h, _⟩ => by cases h) fun h => hcalls h.1

/-- The paths `/a` and `/ab`. -/
def pathA : CString := ⟨[0x2f, 0x61], by decide⟩

def pathAb : CString := ⟨[0x2f, 0x61, 0x62], by decide⟩

def noPath : CString := ⟨[], by decide⟩

/-- `policy_iff`, with a list for reading and writing that does not stand in the way. -/
theorem policy_iff_not_obstructed : ∃ s,
    configure (fun _ => true) pathA noPath pathAb [] = some s ∧
      s.entries = configured pathA noPath pathAb [] ∧
      (validatePath s.entries pathAb O_WRONLY = 1 ↔ Permitted s.entries pathAb O_WRONLY) :=
  (policy_iff (fun _ => true) pathA noPath pathAb [] pathAb (by decide) O_WRONLY).mpr
    ⟨by decide, fun _ _ => rfl, fun _ =>
      ⟨[⟨[0x2f, 0x61], O_RDWR⟩], ⟨[0x2f, 0x61, 0x62], O_WRONLY⟩, [], by decide, by decide,
        by decide⟩⟩

/-- With `/a` for reading and `/ab` for writing, `/ab` cannot be opened for writing. -/
theorem not_policy : ¬ ∀ (malloc : ℕ → Bool) (rwPath roPath woPath : CString) (calls : List Call)
    (path : CString) (flags : BitVec 32), path.bytes ≠ [] →
    ∃ s, configure malloc rwPath roPath woPath calls = some s ∧
      s.entries = configured rwPath roPath woPath calls ∧
      (validatePath s.entries path flags = 1 ↔ Permitted s.entries path flags) := by
  intro hall
  obtain ⟨s, -, hentries, hanswer⟩ :=
    hall (fun _ => true) noPath pathA pathAb [] pathAb O_WRONLY (by decide)
  rw [hentries] at hanswer
  have hpermitted : Permitted (configured noPath pathA pathAb []) pathAb O_WRONLY :=
    permitted_iff.mpr (by decide)
  have hdenied : validatePath (configured noPath pathA pathAb []) pathAb O_WRONLY = 0 := by decide
  rw [hanswer.mpr hpermitted] at hdenied
  exact absurd hdenied (by decide)

end OlivePiccolo.ClientFs
