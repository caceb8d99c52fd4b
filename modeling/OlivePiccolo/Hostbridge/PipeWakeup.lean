import OlivePiccolo.Hostbridge.PipeFifo

/-!
# Wakeups of the pipe reader

The sink posts `sem_read` if the ring was empty at its snapshot. The reader may empty the ring
behind the snapshot, find it empty and wait; then the bytes of the call come without a post.

`Careful`: no snapshot of the reader finds the ring empty, with nothing to take from `sem_read`,
while such a call has yet to commit. Then the reader is never left waiting on data
(`reader_not_left_sleeping`). Conversely, one such snapshot and the end of the call of the sink
leave it there (`sleeps_of_not_careful`).
-/

namespace OlivePiccolo.Hostbridge

open Runs

/-- The snapshot of the call found the ring non-empty. -/
def SinkPc.foundData : SinkPc → Bool
  | .copy _ readOffset span _ => readOffset != span.offset
  | _ => false

/-- The next step takes the snapshot. -/
def ReadPc.atSnapshot : ReadPc → Bool
  | .start _ => true
  | _ => false

namespace Pipe

/-- The reader is blocked in `ALT_SEM_PEND(pipe->sem_read, 0)`. -/
def Blocked (s : Pipe) : Prop := (∃ len, s.read = .pend len) ∧ s.semRead = 0

/-- A call of the sink found the ring non-empty and has not committed yet. -/
def Stale (s : Pipe) : Prop :=
  ∃ data readOffset span copied,
    s.sink = .copy data readOffset span copied ∧ readOffset ≠ span.offset

/-- The reader does not go to wait while a call of the sink is stale. -/
def Careful (s : Pipe) (e : PipeEvent) : Prop :=
  e = .read → ∀ len, s.read = .start len → s.readOffset = s.writeOffset → s.semRead = 0 →
    ¬ s.Stale

theorem stale_iff (s : Pipe) : s.Stale ↔ s.sink.foundData = true := by
  unfold Stale
  cases s.sink <;> simp [SinkPc.foundData]

instance (s : Pipe) : Decidable s.Stale := decidable_of_iff _ s.stale_iff.symm

theorem careful_iff (s : Pipe) (e : PipeEvent) : s.Careful e ↔ (e = .read →
    s.read.atSnapshot = true → s.readOffset = s.writeOffset → s.semRead = 0 → ¬ s.Stale) := by
  unfold Careful
  cases s.read <;> simp [ReadPc.atSnapshot]

instance (s : Pipe) (e : PipeEvent) : Decidable (s.Careful e) :=
  decidable_of_iff _ (s.careful_iff e).symm

/-- While the reader is blocked, either the ring is empty and a call of the sink in progress knows,
or the call is about to post. -/
def Awake (s : Pipe) : Prop :=
  s.Blocked → s.readOffset = s.writeOffset ∧ ¬ s.Stale ∨
    ∃ offset result, s.sink = .post offset offset result

/-! ## The invariant -/

theorem sinkFree_offset (capacity readOffset writeOffset : ℕ) :
    (sinkFree capacity readOffset writeOffset).offset = writeOffset := by
  unfold sinkFree
  split_ifs <;> rfl

theorem not_stale_of {s : Pipe} (h : ∀ data readOffset span copied,
    s.sink ≠ .copy data readOffset span copied) : ¬ s.Stale := by
  rintro ⟨data, readOffset, span, copied, hs, -⟩
  exact h _ _ _ _ hs

/-- A reader that is not waiting is not blocked. -/
theorem awake_of {s : Pipe} (h : ∀ len, s.read ≠ .pend len) : s.Awake := by
  rintro ⟨⟨len, hs⟩, -⟩
  exact absurd hs (h len)

theorem Awake.callSink {s : Pipe} (h : s.Awake) (hs : s.sink = .idle) (data : List UInt8) :
    Awake { s with sink := .start data } := by
  intro hblocked
  rcases h hblocked with ⟨hempty, -⟩ | ⟨offset, result, hpost⟩
  · exact Or.inl ⟨hempty, not_stale_of nofun⟩
  · rw [hs] at hpost
    cases hpost

theorem Awake.sinkSnapshot {s : Pipe} (h : s.Awake) {data : List UInt8}
    (hs : s.sink = .start data) : (s.sinkSnapshot data).Awake := by
  unfold Pipe.sinkSnapshot
  split_ifs
  · intro hblocked
    rcases h hblocked with ⟨hempty, -⟩ | ⟨offset, result, hpost⟩
    · exact Or.inl ⟨hempty, not_stale_of nofun⟩
    · rw [hs] at hpost
      cases hpost
  · intro hblocked
    rcases h hblocked with ⟨hempty, -⟩ | ⟨offset, result, hpost⟩
    · refine Or.inl ⟨hempty, ?_⟩
      rintro ⟨data', readOffset, span, copied, heq, hne⟩
      cases heq
      rw [Span.clamp_offset, sinkFree_offset] at hne
      exact hne hempty
    · rw [hs] at hpost
      cases hpost

theorem Awake.sinkCopy {s : Pipe} (h : s.Awake) {data : List UInt8} {readOffset : ℕ}
    {span : Span} {copied : ℕ} (hs : s.sink = .copy data readOffset span copied) :
    (s.sinkCopy data readOffset span copied).Awake := by
  have hknown : s.Blocked → s.readOffset = s.writeOffset ∧ readOffset = span.offset := by
    intro hblocked
    rcases h hblocked with ⟨hempty, hfresh⟩ | ⟨offset, result, hpost⟩
    · refine ⟨hempty, ?_⟩
      by_contra hne
      exact hfresh ⟨_, _, _, _, hs, hne⟩
    · rw [hs] at hpost
      cases hpost
  unfold Pipe.sinkCopy
  split_ifs
  · intro hblocked
    obtain ⟨hempty, hsame⟩ := hknown hblocked
    refine Or.inl ⟨hempty, ?_⟩
    rintro ⟨data', readOffset', span', copied', heq, hne⟩
    cases heq
    exact hne hsame
  · intro hblocked
    obtain ⟨-, hsame⟩ := hknown hblocked
    exact Or.inr ⟨span.offset, span.length, by rw [hsame]⟩

theorem Awake.sinkPost {s : Pipe} (h : s.Awake) {readOffset writeOffset result : ℕ}
    (hs : s.sink = .post readOffset writeOffset result) :
    (s.sinkPost readOffset writeOffset).Awake := by
  unfold Pipe.sinkPost
  split_ifs with hsame
  · rintro ⟨-, hcount⟩
    exact absurd hcount (Nat.succ_ne_zero _)
  · intro hblocked
    rcases h hblocked with ⟨hempty, -⟩ | ⟨offset, result', hpost⟩
    · exact Or.inl ⟨hempty, not_stale_of nofun⟩
    · rw [hs] at hpost
      cases hpost
      exact absurd rfl hsame

theorem Careful.readSnapshot {s : Pipe} {len : ℕ} (h : s.Careful .read)
    (hs : s.read = .start len) : (s.readSnapshot len).Awake := by
  unfold Pipe.readSnapshot
  split_ifs with hempty
  · rintro ⟨-, hcount⟩
    exact Or.inl ⟨hempty, h rfl len hs hempty hcount⟩
  · exact awake_of nofun

/-- Every careful step keeps the invariant. -/
theorem Awake.step {s t : Pipe} {e : PipeEvent} (h : s.Awake) (hc : s.Careful e)
    (ht : s.step e = some t) : t.Awake := by
  cases e with
  | callSink data =>
    simp only [Pipe.step] at ht
    split_ifs at ht with hcall
    cases ht
    exact h.callSink hcall.1 data
  | sink =>
    simp only [Pipe.step, sinkStep] at ht
    split at ht
    · cases ht
    · cases ht; exact h.sinkSnapshot ‹_›
    · cases ht; exact h.sinkCopy ‹_›
    · cases ht; exact h.sinkPost ‹_›
  | callRead len =>
    simp only [Pipe.step] at ht
    split_ifs at ht
    cases ht
    exact awake_of fun _ hread => by cases hread
  | read =>
    simp only [Pipe.step, readStep] at ht
    split at ht
    · cases ht
    · cases ht; exact hc.readSnapshot ‹_›
    · split_ifs at ht
      cases ht
      exact awake_of fun _ hread => by cases hread
    · cases ht
      unfold readCopy
      split_ifs <;> exact awake_of fun _ hread => by cases hread

/-! ## A step that is not careful -/

/-- The rest of a call of the sink, up to its commit. -/
theorem finish_copy {data : List UInt8} {readOffset : ℕ} {span : Span} (n : ℕ) {s : Pipe}
    {copied : ℕ} (hs : s.sink = .copy data readOffset span copied)
    (hn : span.length - copied = n) :
    ∃ es t, Path Pipe.step anyStep s es t ∧ t.sink = .post readOffset span.offset span.length ∧
      t.writeOffset = span.next s.capacity ∧ t.readOffset = s.readOffset ∧
      t.semRead = s.semRead ∧ t.read = s.read := by
  have hstep : Path Pipe.step anyStep s [.sink] (s.sinkCopy data readOffset span copied) :=
    Path.single trivial (by simp only [Pipe.step, sinkStep, hs])
  induction n generalizing s copied with
  | zero =>
    refine ⟨_, _, hstep, ?_⟩
    unfold Pipe.sinkCopy
    rw [if_neg (by omega)]
    exact ⟨rfl, rfl, rfl, rfl, rfl⟩
  | succ n ih =>
    have hlt : copied < span.length := by omega
    have hnext : (s.sinkCopy data readOffset span copied).sink =
        .copy data readOffset span (copied + 1) := by
      unfold Pipe.sinkCopy
      rw [if_pos hlt]
    obtain ⟨es, t, hpath, hpost, hwrite, hread, hcount, hpc⟩ :=
      ih hnext (by omega) (Path.single trivial (by simp only [Pipe.step, sinkStep, hnext]))
    refine ⟨_, t, hstep.trans hpath, hpost, ?_, ?_, ?_, ?_⟩
    · rw [hwrite, Pipe.sinkCopy, if_pos hlt]
    · rw [hread, Pipe.sinkCopy, if_pos hlt]
    · rw [hcount, Pipe.sinkCopy, if_pos hlt]
    · rw [hpc, Pipe.sinkCopy, if_pos hlt]

/-- The condition is needed: from any step that breaks it, the reader can be left waiting on
data. -/
theorem Inv.sleeps_of_not_careful {s : Pipe} (h : s.Inv) {e : PipeEvent}
    (hc : ¬ s.Careful e) :
    ∃ es t, Path Pipe.step anyStep s es t ∧ t.Blocked ∧ t.sink = .idle ∧
      t.readOffset ≠ t.writeOffset := by
  unfold Careful at hc
  push Not at hc
  obtain ⟨-, len, hread, hempty, hcount, data, readOffset, span, copied, hs, hstale⟩ := hc
  have hpend : s.step .read = some { s with read := .pend len } := by
    show s.readStep = _
    rw [Pipe.readStep, hread]
    show some (s.readSnapshot len) = _
    rw [Pipe.readSnapshot, if_pos hempty]
  obtain ⟨es, t, hpath, hpost, hwrite, hreadt, hcountt, hpc⟩ :=
    finish_copy (s := { s with read := .pend len }) _ hs rfl
  have hend : t.step .sink = some { t with sink := .idle } := by
    show t.sinkStep = _
    rw [Pipe.sinkStep, hpost]
    show some (t.sinkPost readOffset span.offset) = _
    rw [Pipe.sinkPost, if_neg hstale]
  refine ⟨_, _, .snoc ((Path.single trivial hpend).trans hpath) trivial hend,
    ⟨⟨len, hpc⟩, hcountt.trans hcount⟩, rfl, ?_⟩
  have hclaim := h.sink _ _ _ _ hs
  have hpos := hclaim.pos
  have hroom := hclaim.room
  have hcap := h.capacity_pos
  obtain ⟨k, hk⟩ := h.pow
  show t.readOffset ≠ t.writeOffset
  rw [hreadt, hwrite]
  show s.readOffset ≠ span.next s.capacity
  rw [hempty, h.writeOffset, hclaim.fits.next hk]
  have hle := h.returned_prefix.length_le
  exact mod_ne_of_lt (by omega) (by omega)

end Pipe

/-- **The reader is never left waiting on data**, in a run all of whose steps are careful. -/
theorem reader_not_left_sleeping {capacity : ℕ} {garbage : ℕ → UInt8} {es : List PipeEvent}
    {s : Pipe} (h : Path Pipe.step Pipe.Careful (Pipe.create capacity garbage) es s)
    (hblocked : s.Blocked) (hidle : s.sink = .idle) : s.readOffset = s.writeOffset := by
  have hawake : s.Awake :=
    h.invariant (Pipe.awake_of nofun) fun _ _ _ hs hc hstep => hs.step hc hstep
  rcases hawake hblocked with ⟨hempty, -⟩ | ⟨offset, result, hpost⟩
  · exact hempty
  · rw [hidle] at hpost
    cases hpost

/-- A byte goes through the pipe: the reader takes it, and waits for the next one. -/
theorem reader_not_left_sleeping_passed :
    ∃ s, Path Pipe.step Pipe.Careful (Pipe.create 4 fun _ => 0)
      [.callSink [1], .sink, .sink, .sink, .sink, .callRead 8, .read, .read, .read,
        .callRead 8, .read, .read, .read] s ∧ s.returned = [1] ∧ s.readOffset = s.writeOffset :=
  ⟨_, path_get (by decide), by decide,
    reader_not_left_sleeping (path_get (by decide)) ⟨⟨8, by decide⟩, by decide⟩ (by decide)⟩

/-- A call of the sink takes its snapshot with one byte in the ring; the reader takes this byte,
finds the ring empty twice, and waits; the call of the sink ends without a post. -/
def drainedRun : List PipeEvent :=
  [.callSink [1], .sink, .sink, .sink, .sink, .callSink [2], .sink,
    .callRead 8, .read, .read, .read, .callRead 8, .read, .read, .read, .sink, .sink, .sink]

/-- The state at its end. -/
def drainedState : Pipe :=
  (exec Pipe.step anyStep (Pipe.create 4 fun _ => 0) drainedRun).get (by decide)

theorem not_reader_not_left_sleeping :
    ¬ ∀ (capacity : ℕ) (garbage : ℕ → UInt8) (es : List PipeEvent) (s : Pipe),
      Path Pipe.step anyStep (Pipe.create capacity garbage) es s → s.Blocked → s.sink = .idle →
        s.readOffset = s.writeOffset := by
  intro h
  have := h 4 (fun _ => 0) drainedRun drainedState (path_get _) ⟨⟨8, rfl⟩, rfl⟩ rfl
  exact absurd this (by decide)

end OlivePiccolo.Hostbridge
