import OlivePiccolo.RubicAgent.BootScan

/-!
# Reading the boot file

A file that `read` gives in portions of any sizes. However it does, the buffer holds the first 255
bytes, and behind them what is left of the name of the file (`parseBootJson_found`).
-/

namespace OlivePiccolo.RubicAgent

open Dialog

/-- A boot file, and the memory for the path. -/
structure BootFile where
  fd : ℕ
  content : List UInt8
  /-- How many bytes a call of `read` wants to give. -/
  portion : ℕ → ℕ
  malloc : ℕ → ℤ

/-- How much of the file has been read, by how many calls. -/
structure BootFile.State where
  position : ℕ
  calls : ℕ
  deriving DecidableEq, Repr

namespace BootFile

/-- `read` gives some bytes if there are any, and no more than there is room for. -/
def reply (f : BootFile) (s : State) : BootSaid → BootReply × State
  | .open _ => (⟨f.fd, []⟩, s)
  | .read n =>
    let k := min (min n (f.content.length - s.position)) (max 1 (f.portion s.calls))
    (⟨k, (f.content.drop s.position).take k⟩, ⟨s.position + k, s.calls + 1⟩)
  | .close => (⟨0, []⟩, s)
  | .malloc n => (⟨f.malloc n, []⟩, s)

def start : State := ⟨0, 0⟩

/-- The buffer behind the loop that reads the file. -/
def buffer (f : BootFile) (storage : Storage) : Mem :=
  f.content.take 255 ++ storage.bootPath.drop (f.content.take 255).length

end BootFile

theorem Storage.bootPath_length (storage : Storage) : storage.bootPath.length = 256 := by
  have hroom := storage.room
  rw [Storage.bootPath, List.length_append, List.length_append, List.length_replicate]
  show storage.path.bytes.length + 10 + _ = _
  omega

theorem Storage.bootPath_last (storage : Storage) : storage.bootPath.drop 255 = [0] := by
  have hroom := storage.room
  have hlength : (storage.path.bytes ++ BOOT_JSON).length = storage.path.bytes.length + 10 :=
    List.length_append
  rw [Storage.bootPath, List.drop_append, List.drop_of_length_le (by omega), List.drop_replicate,
    show 246 - storage.path.bytes.length - (255 - (storage.path.bytes ++ BOOT_JSON).length) = 1
      by omega]
  rfl

theorem BootFile.buffer_sealed (f : BootFile) (storage : Storage) : Sealed (f.buffer storage) := by
  have hle : (f.content.take 255).length ≤ 255 := List.length_take_le _ _
  have hlast : (f.buffer storage)[255]? = (storage.bootPath.drop 255)[0]? := by
    rw [BootFile.buffer, List.getElem?_append_right hle, List.getElem?_drop, List.getElem?_drop]
    congr 1
    omega
  refine ⟨?_, by rw [hlast, storage.bootPath_last]; rfl⟩
  rw [BootFile.buffer, List.length_append, List.length_drop, storage.bootPath_length]
  omega

theorem find_internal : [Storage.internal].find? (·.name = INTERNAL) = some Storage.internal :=
  List.find?_cons_of_pos (decide_eq_true rfl)

section Run

variable {f : BootFile} {storage : Storage} {path : Mem} {i calls : ℕ}

/-- A call of `read` that gives nothing is at the end of the file or of the buffer. -/
theorem take_of_end (hi : i ≤ 255) (hlength : i ≤ f.content.length)
    (h : 255 - i = 0 ∨ f.content.length - i = 0) : f.content.take i = f.content.take 255 := by
  rcases h with h | h
  · rw [show i = 255 by omega]
  · rw [List.take_of_length_le (by omega), List.take_of_length_le (by omega)]

/-- **The loop that reads the file**, by induction on the rounds. -/
theorem readLoop_run {rounds : ℕ} (hpath : path.length = 256) (hi : i ≤ 255)
    (hlength : i ≤ f.content.length) (hrounds : 255 - i < rounds) :
    ∃ s, (readLoop rounds (f.content.take i ++ path.drop i) i).run f.reply ⟨i, calls⟩ =
      some (some (f.content.take 255 ++ path.drop (f.content.take 255).length), s) := by
  induction rounds generalizing i calls with
  | zero => omega
  | succ rounds ih =>
    rw [readLoop, run_ask]
    set k := min (min (255 - i) (f.content.length - i)) (max 1 (f.portion calls)) with hk
    have hreply : f.reply ⟨i, calls⟩ (.read (255 - i)) =
        (⟨(k : ℤ), (f.content.drop i).take k⟩, ⟨i + k, calls + 1⟩) := rfl
    rw [hreply]
    dsimp only
    rw [if_neg (by omega)]
    by_cases hk0 : k = 0
    · have hend := take_of_end hi hlength (by omega)
      have hlen : (f.content.take 255).length = i := by
        rw [← hend, List.length_take, Nat.min_eq_left hlength]
      rw [if_pos (by omega), hlen, hend]
      exact ⟨_, rfl⟩
    · -- the bytes take the place of as many bytes of the path
      have hold : path.drop i = (path.drop i).take k ++ path.drop (i + k) := by
        rw [← List.drop_drop, List.take_append_drop]
      have hnew : f.content.take (i + k) = f.content.take i ++ (f.content.drop i).take k :=
        List.take_add
      have hfront : (f.content.take i).length = i := by
        rw [List.length_take, Nat.min_eq_left hlength]
      have hpokes := Mem.pokes_eq (f.content.take i) ((path.drop i).take k) (path.drop (i + k))
        (l := (f.content.drop i).take k)
        (by rw [List.length_take, List.length_take, List.length_drop, List.length_drop]; omega)
      rw [hfront, List.append_assoc, ← hold, ← hnew] at hpokes
      rw [if_neg (by omega), hpokes, Int.toNat_natCast]
      exact ih (by omega) (by omega) (by omega)

theorem readLoop_start (f : BootFile) (storage : Storage) :
    ∃ s, (readLoop 256 storage.bootPath 0).run f.reply BootFile.start =
      some (some (f.buffer storage), s) :=
  readLoop_run (i := 0) storage.bootPath_length (Nat.zero_le _) (Nat.zero_le _) (by decide)

/-- **What is parsed**: the buffer, whatever the portions of the file are. -/
theorem parseBootJson_found {storages : List Storage}
    (hfind : storages.find? (·.name = INTERNAL) = some storage) (runtimes : List CString)
    (f : BootFile) :
    ∃ s, (parseBootJson storages runtimes).run f.reply BootFile.start =
        (parseBuffer storage runtimes (f.buffer storage)).run f.reply s ∧
      ((parseBootJson storages runtimes).Faults f.reply BootFile.start ↔
        (parseBuffer storage runtimes (f.buffer storage)).Faults f.reply s) := by
  obtain ⟨s, hread⟩ := readLoop_start f storage
  have hnone : ¬ (readLoop 256 storage.bootPath 0).Faults f.reply BootFile.start := by
    intro hfaults
    rw [hfaults.run_eq_none] at hread
    cases hread
  have hopen : ∀ path, ¬ (f.reply BootFile.start (.open path)).1.result < 0 :=
    fun _ => Int.not_lt.mpr (Int.natCast_nonneg f.fd)
  refine ⟨s, ?_, ?_⟩
  · rw [parseBootJson, hfind]
    dsimp only
    rw [run_ask, if_neg (hopen _), run_bind]
    exact congrArg (Option.bind · _) hread
  · rw [parseBootJson, hfind]
    dsimp only
    rw [faults_ask, if_neg (hopen _), faults_bind]
    constructor
    · rintro (h | ⟨buffer, s', hrun, hfaults⟩)
      · exact absurd h hnone
      · cases hread.symm.trans hrun
        exact hfaults
    · exact fun h => .inr ⟨_, s, hread, h⟩

end Run

end OlivePiccolo.RubicAgent
