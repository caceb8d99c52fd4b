import OlivePiccolo.Rpc.Sink

/-!
# From the receiver to the workers

The sink puts a job into the single slot `pending_job` and posts `state.sem`. A worker takes the
semaphore, reads the slot and writes NULL into it, in separate steps. So there must never be more
posts than jobs: the permits and the workers between `sem_wait` and the write are one token, that
is there if and only if the slot is full (`Phase`).

The sink posts also if a packet ends with its declared length but no buffer has been allocated for
it. The worker that this wakes up may clear the slot of the next job (`not_handed_off`).
`jobs_handed_off`: this is what has to be excluded (`HasJob`).
-/

namespace OlivePiccolo.Rpc

open Runs

/-! ## The code -/

/-- Where a worker is in `peridot_rpc_server_service`. -/
inductive WorkerPc
  /-- In `sem_wait(&state.sem)`. -/
  | wait
  /-- In front of `job = state.pending_job`. -/
  | read
  /-- In front of `state.pending_job = NULL`. -/
  | clear (job : Option JobId)
  /-- Executing its job. -/
  | run (job : JobId)
  deriving DecidableEq, Repr

/-- The receiver, `state.sem`, the workers, and which jobs they have read. -/
structure Server (W : ℕ) where
  receiver : Receiver
  sem : ℕ
  workers : Fin W → WorkerPc
  reads : List (Fin W × JobId)

/-- The next step. -/
inductive ServerEvent (W : ℕ)
  /-- The sink consumes a byte. -/
  | byte (b : UInt8)
  /-- `sem_wait` of a worker returns. -/
  | wait (w : Fin W)
  /-- `job = state.pending_job`. -/
  | read (w : Fin W)
  /-- `state.pending_job = NULL`. -/
  | clear (w : Fin W)
  /-- The worker is done with its job. -/
  | finish (w : Fin W)
  deriving DecidableEq, Repr

/-- The number of `sem_post` calls. -/
def posts (acts : List Action) : ℕ := acts.count .semPost

/-- The jobs that have been stored into `pending_job`, latest first. -/
def jobsStored : List Entry → List JobId
  | [] => []
  | .act (.setPending (some job)) :: older => job :: jobsStored older
  | _ :: older => jobsStored older

namespace Server

variable {W : ℕ}

def init : Server W := ⟨.init, 0, fun _ => .wait, []⟩

/-- `state.pending_job`. -/
def pending (s : Server W) : Option JobId := s.receiver.sink.pendingJob

/-- The worker behind the write of NULL: without a job, `peridot_rpc_server_service` returns. -/
def afterClear : Option JobId → WorkerPc
  | none => .wait
  | some job => .run job

/-- `state.pending_job = NULL`. -/
def cleared (r : Receiver) : Receiver := { r with sink := { r.sink with pendingJob := none } }

/-- One step of the sink or of a worker. -/
def step (ok : ℕ → Bool) (s : Server W) : ServerEvent W → Option (Server W)
  | .byte b => (s.receiver.step ok (.byte b)).map fun r =>
      { s with receiver := r, sem := s.sem + posts (s.receiver.sink.sinkByte ok b).2 }
  | .wait w =>
    if s.workers w = .wait ∧ 0 < s.sem then
      some { s with sem := s.sem - 1, workers := Function.update s.workers w .read }
    else none
  | .read w =>
    if s.workers w = .read then
      some { s with workers := Function.update s.workers w (.clear s.pending),
                    reads := s.reads ++ s.pending.toList.map fun job => (w, job) }
    else none
  | .clear w =>
    match s.workers w with
    | .clear job =>
      some { s with receiver := cleared s.receiver,
                    workers := Function.update s.workers w (afterClear job) }
    | _ => none
  | .finish w =>
    match s.workers w with
    | .run _ => some { s with workers := Function.update s.workers w .wait }
    | _ => none

/-- The condition on a step: a byte that ends a packet of its declared length finds a job, or
allocates it. Behind the length field this is always so. -/
def HasJob (ok : ℕ → Bool) (s : Server W) : ServerEvent W → Prop
  | .byte b => SinkState.IsData b ∧ s.receiver.sink.insidePacket = true ∧
        s.receiver.sink.eopPrefix = true ∧
        s.receiver.sink.offset + 1 = (s.receiver.sink.withLength b).lengthValue →
      (s.receiver.sink.offset < 3 → s.receiver.sink.incomingJob ≠ none) ∧
      (s.receiver.sink.offset = 3 → ok s.receiver.sink.mallocs = true)
  | _ => True

instance (ok : ℕ → Bool) (s : Server W) : ∀ e, Decidable (s.HasJob ok e)
  | .byte b => inferInstanceAs (Decidable (SinkState.IsData b ∧ _ → _))
  | .wait _ => inferInstanceAs (Decidable True)
  | .read _ => inferInstanceAs (Decidable True)
  | .clear _ => inferInstanceAs (Decidable True)
  | .finish _ => inferInstanceAs (Decidable True)

/-- How often a job has been read. -/
def readCount (s : Server W) (job : JobId) : ℕ := (s.reads.map Prod.snd).count job

/-- Nothing is lost and nothing is taken twice. -/
structure HandedOff (s : Server W) : Prop where
  /-- A job has been read by exactly one worker, or it is still in the slot. -/
  once : ∀ job ∈ jobsStored s.receiver.log,
    s.readCount job = 1 ∨ s.readCount job = 0 ∧ s.pending = some job
  /-- Only stored jobs are read. -/
  known : ∀ p ∈ s.reads, p.2 ∈ jobsStored s.receiver.log
  /-- A job in the slot that has not been read will be: there is a permit, or a worker has it. -/
  awaited : ∀ job, s.pending = some job → s.readCount job = 0 →
    0 < s.sem ∨ ∃ w, s.workers w = .read

end Server

/-! ## One round of the sink -/

/-- Jobs are stored at most once: the incoming job has not been stored yet. -/
structure Fresh (s : SinkState) (log : List Entry) : Prop where
  older : ∀ job ∈ jobsStored log, job < s.mallocs
  incoming : ∀ job, s.incomingJob = some job → job < s.mallocs ∧ job ∉ jobsStored log

/-- A round leaves the slot as it was and does not post, or it stores a new job and posts once. -/
inductive Handed (slot : Option JobId) (log : List Entry) (r : SinkState × List Action) : Prop
  | nothing (pending : r.1.pendingJob = slot) (post : posts r.2 = 0)
      (stored : jobsStored (logged r.2 log) = jobsStored log)
  | job (job : JobId) (pending : r.1.pendingJob = some job) (post : posts r.2 = 1)
      (stored : jobsStored (logged r.2 log) = job :: jobsStored log)
      (new : job ∉ jobsStored log)

section Round

variable {s : SinkState} {log : List Entry}

theorem Fresh.congr (h : Fresh s log) {s' : SinkState} {log' : List Entry}
    (hi : ∀ job, s'.incomingJob = some job → s.incomingJob = some job)
    (hm : s.mallocs ≤ s'.mallocs) (hlog : jobsStored log' = jobsStored log) :
    Fresh s' log' where
  older := fun job hj => (h.older job (hlog ▸ hj)).trans_le hm
  incoming := fun job hj => by
    obtain ⟨hlt, hnot⟩ := h.incoming job (hi job hj)
    exact ⟨hlt.trans_le hm, by rwa [hlog]⟩

theorem Handed.andThen {slot : Option JobId} {r : SinkState × List Action}
    {f : SinkState → SinkState × List Action} (hposts : posts r.2 = 0)
    (hlog : jobsStored (logged r.2 log) = jobsStored log)
    (h : Handed slot (logged r.2 log) (f r.1)) : Handed slot log (SinkState.andThen r f) := by
  have hsum : posts (SinkState.andThen r f).2 = posts (f r.1).2 := by
    unfold posts SinkState.andThen at *
    rw [List.count_append, hposts, Nat.zero_add]
  cases h with
  | nothing pending post stored =>
    refine .nothing pending (hsum.trans post) ?_
    rw [logged_andThen, stored, hlog]
  | job job pending post stored new =>
    refine .job job pending (hsum.trans post) ?_ (hlog ▸ new)
    rw [logged_andThen, stored, hlog]

theorem handed_dropPacket : Handed s.pendingJob log s.dropPacket := .nothing rfl rfl rfl

theorem Fresh.dropPacket (h : Fresh s log) :
    Fresh s.dropPacket.1 (logged s.dropPacket.2 log) :=
  h.congr nofun le_rfl rfl

theorem Fresh.endOfByte (h : Fresh s log)
    (hjob : s.eopPrefix = true → s.offset = s.lengthValue → s.incomingJob ≠ none) :
    Handed s.pendingJob log s.endOfByte ∧ Fresh s.endOfByte.1 (logged s.endOfByte.2 log) := by
  refine SinkState.endOfByte_elim
    (P := fun r => Handed s.pendingJob log r ∧ Fresh r.1 (logged r.2 log)) s (fun _ => ?_)
    (fun _ _ => ?_)
    (fun heop hlen => ?_)
  · exact ⟨.nothing rfl rfl rfl, h⟩
  · exact ⟨handed_dropPacket, h.dropPacket⟩
  · obtain ⟨job, hj⟩ := Option.ne_none_iff_exists'.mp (hjob heop hlen)
    obtain ⟨hlt, hnew⟩ := h.incoming job hj
    rw [hj]
    refine ⟨.job job rfl rfl rfl hnew, fun job' hmem => ?_, nofun⟩
    rcases List.mem_cons.mp hmem with rfl | hold
    · exact hlt
    · exact h.older job' hold

theorem Fresh.allocate (h : Fresh s log) (ok : ℕ → Bool) :
    Fresh (s.allocate ok).1 (logged (s.allocate ok).2 log) := by
  unfold SinkState.allocate
  split_ifs
  · refine ⟨fun job hj => Nat.lt_succ_of_lt (h.older job hj), fun job hj => ?_⟩
    obtain rfl : s.mallocs = job := by simpa using hj
    exact ⟨Nat.lt_succ_self _, fun hmem => absurd (h.older _ hmem) (Nat.lt_irrefl _)⟩
  · exact h.congr nofun (Nat.le_succ _) rfl
  · exact h

theorem allocate_pendingJob (s : SinkState) (ok : ℕ → Bool) :
    (s.allocate ok).1.pendingJob = s.pendingJob := by
  unfold SinkState.allocate; split_ifs <;> rfl

theorem allocate_lengthValue (s : SinkState) (ok : ℕ → Bool) :
    (s.allocate ok).1.lengthValue = s.lengthValue := by
  unfold SinkState.allocate; split_ifs <;> rfl

theorem posts_allocate (s : SinkState) (ok : ℕ → Bool) : posts (s.allocate ok).2 = 0 := by
  unfold SinkState.allocate; split_ifs <;> rfl

theorem jobsStored_allocate (s : SinkState) (ok : ℕ → Bool) :
    jobsStored (logged (s.allocate ok).2 log) = jobsStored log := by
  unfold SinkState.allocate; split_ifs <;> rfl

/-- With a length of four, the job is there unless `malloc` fails. -/
theorem allocate_incomingJob {ok : ℕ → Bool} (hlen : s.lengthValue = 4)
    (hok : ok s.mallocs = true) : (s.allocate ok).1.incomingJob ≠ none := by
  have hle : toInt32 s.lengthValue ≤ (maxRequestLength : ℤ) := by
    rw [hlen, toInt32_of_lt (by decide)]
    decide
  unfold SinkState.allocate
  rw [if_pos hle, if_pos hok]
  exact Option.some_ne_none _

theorem Fresh.sinkByte (h : Fresh s log) (ok : ℕ → Bool) {b : UInt8}
    (hjob : SinkState.IsData b ∧ s.insidePacket = true ∧ s.eopPrefix = true ∧
        s.offset + 1 = (s.withLength b).lengthValue →
      (s.offset < 3 → s.incomingJob ≠ none) ∧ (s.offset = 3 → ok s.mallocs = true)) :
    Handed s.pendingJob (.byte b :: log) (s.sinkByte ok b) ∧
      Fresh (s.sinkByte ok b).1 (logged (s.sinkByte ok b).2 (.byte b :: log)) := by
  have hbyte : Fresh s (.byte b :: log) := h.congr (fun _ hj => hj) le_rfl rfl
  refine SinkState.sinkByte_elim
    (P := fun r => Handed s.pendingJob (.byte b :: log) r ∧
      Fresh r.1 (logged r.2 (.byte b :: log))) ok s b
    (fun _ => ?_) (fun _ => ?_) (fun _ => ?_) (fun _ _ => ?_) (fun hd hi h3 => ?_)
    (fun hd hi h3 => ?_) (fun _ _ _ _ => ?_) (fun job _ _ h4 hlt hincoming => ?_)
    (fun _ _ h4 hlt _ => ?_)
  · exact ⟨.nothing rfl rfl rfl, hbyte.congr (fun _ hj => hj) le_rfl rfl⟩
  · exact ⟨.nothing rfl rfl rfl, hbyte.congr (fun _ hj => hj) le_rfl rfl⟩
  · exact ⟨.nothing rfl rfl rfl, hbyte.congr (fun _ hj => hj) le_rfl rfl⟩
  · exact ⟨.nothing rfl rfl rfl, hbyte.congr (fun _ hj => hj) le_rfl rfl⟩
  · have hfield : Fresh (s.withLength b) (.byte b :: log) :=
      hbyte.congr (fun _ hj => hj) le_rfl rfl
    exact hfield.endOfByte fun heop hlen => (hjob ⟨hd, hi, heop, hlen⟩).1 h3
  · have hfield : Fresh (s.withLength b) (.byte b :: log) :=
      hbyte.congr (fun _ hj => hj) le_rfl rfl
    obtain ⟨hend, hfresh⟩ := (hfield.allocate ok).endOfByte fun heop hlen => by
      rw [SinkState.allocate_eopPrefix] at heop
      rw [SinkState.allocate_offset, allocate_lengthValue] at hlen
      have hfour : s.offset + 1 = 4 := by omega
      exact allocate_incomingJob (hlen.symm.trans hfour) ((hjob ⟨hd, hi, heop, hlen⟩).2 h3)
    rw [allocate_pendingJob] at hend
    refine ⟨.andThen (posts_allocate _ ok) (jobsStored_allocate _ ok) hend, ?_⟩
    show Fresh (SinkState.andThen _ _).1 _
    rw [logged_andThen, SinkState.andThen_fst]
    exact hfresh
  · have hdrop : Fresh s.unescaped (.byte b :: log) := hbyte.congr (fun _ hj => hj) le_rfl rfl
    exact ⟨handed_dropPacket (s := s.unescaped), hdrop.dropPacket⟩
  · have hstore : Fresh { s.unescaped with offset := s.offset + 1 }
        (.act (.storeByte job s.offset (unescapeIf s.escapePrefix b)) :: .byte b :: log) :=
      hbyte.congr (fun _ hj => hj) le_rfl rfl
    obtain ⟨hend, hfresh⟩ := hstore.endOfByte fun _ _ => by
      show s.incomingJob ≠ none
      rw [hincoming]
      exact Option.some_ne_none _
    refine ⟨.andThen rfl rfl hend, ?_⟩
    rw [logged_andThen]
    exact hfresh
  · have hskip : Fresh s.unescaped (.byte b :: log) := hbyte.congr (fun _ hj => hj) le_rfl rfl
    exact hskip.endOfByte fun _ hlen => absurd hlen (Nat.ne_of_lt hlt)

end Round

/-! ## The token -/

/-- The worker is not between `sem_wait` and the write of NULL. -/
def WorkerPc.Away (pc : WorkerPc) : Prop := pc = .wait ∨ ∃ job, pc = .run job

namespace Server

variable {W : ℕ}

/-- Where the token is. -/
inductive Phase (s : Server W) : Prop
  /-- There is none: the slot is empty. -/
  | empty (slot : s.pending = none) (sem : s.sem = 0) (away : ∀ w, (s.workers w).Away)
  /-- It is in the semaphore. -/
  | posted (job : JobId) (slot : s.pending = some job) (sem : s.sem = 1)
      (away : ∀ w, (s.workers w).Away) (unread : s.readCount job = 0)
  /-- A worker is about to read the slot. -/
  | taken (job : JobId) (w : Fin W) (slot : s.pending = some job) (sem : s.sem = 0)
      (pc : s.workers w = .read) (away : ∀ w', w' ≠ w → (s.workers w').Away)
      (unread : s.readCount job = 0)
  /-- A worker has read the slot and is about to clear it. -/
  | copied (job : JobId) (w : Fin W) (slot : s.pending = some job) (sem : s.sem = 0)
      (pc : s.workers w = .clear (some job)) (away : ∀ w', w' ≠ w → (s.workers w').Away)
      (read : s.readCount job = 1)

/-- The invariant. -/
structure Inv (s : Server W) : Prop where
  phase : s.Phase
  fresh : Fresh s.receiver.sink s.receiver.log
  slot : ∀ job, s.pending = some job → job ∈ jobsStored s.receiver.log
  known : ∀ p ∈ s.reads, p.2 ∈ jobsStored s.receiver.log
  read : ∀ job ∈ jobsStored s.receiver.log, s.pending ≠ some job → s.readCount job = 1

theorem away_update {f : Fin W → WorkerPc} {w w' : Fin W} {pc : WorkerPc}
    (h : w' ≠ w → (f w').Away) (hpc : pc.Away) : (Function.update f w pc w').Away := by
  by_cases hw : w' = w
  · subst hw
    rwa [Function.update_self]
  · rw [Function.update_of_ne hw]
    exact h hw

/-- With the worker `w` between `sem_wait` and the write, only the last two phases are possible. -/
theorem not_away_read : ¬ WorkerPc.Away .read := by
  rintro (h | ⟨job, h⟩) <;> cases h

theorem not_away_clear (job : Option JobId) : ¬ WorkerPc.Away (.clear job) := by
  rintro (h | ⟨job, h⟩) <;> cases h

theorem readCount_eq_zero {s : Server W} {job : JobId}
    (h : ∀ p ∈ s.reads, p.2 ≠ job) : s.readCount job = 0 := by
  refine List.count_eq_zero.mpr fun hmem => ?_
  obtain ⟨p, hp, heq⟩ := List.mem_map.mp hmem
  exact h p hp heq

section Steps

variable {ok : ℕ → Bool} {s t : Server W}

theorem Inv.byte (h : s.Inv) {b : UInt8} (hc : s.HasJob ok (.byte b))
    (ht : s.step ok (.byte b) = some t) : t.Inv := by
  obtain ⟨r, hr, rfl⟩ := Option.map_eq_some_iff.mp ht
  simp only [Receiver.step, Option.ite_none_right_eq_some, Option.some.injEq] at hr
  obtain ⟨hslot, rfl⟩ := hr
  obtain ⟨hhanded, hfresh⟩ := h.fresh.sinkByte ok hc
  have hempty : s.sem = 0 ∧ ∀ w, (s.workers w).Away := by
    cases h.phase with
    | empty _ sem away => exact ⟨sem, away⟩
    | posted job slot => exact absurd (hslot.symm.trans slot) (by simp)
    | taken job w slot => exact absurd (hslot.symm.trans slot) (by simp)
    | copied job w slot => exact absurd (hslot.symm.trans slot) (by simp)
  have hread : ∀ job ∈ jobsStored s.receiver.log, s.readCount job = 1 := by
    intro job hj
    refine h.read job hj ?_
    rw [show s.pending = none from hslot]
    simp
  cases hhanded with
  | nothing pending post stored =>
    refine ⟨.empty (pending.trans hslot) ?_ hempty.2, hfresh, fun job hj => ?_, fun p hp => ?_,
      fun job hj _ => ?_⟩
    · show s.sem + posts _ = 0
      rw [hempty.1, post]
    · exact absurd ((pending.trans hslot).symm.trans hj) (by simp)
    · rw [stored]
      exact h.known p hp
    · rw [stored] at hj
      exact hread job hj
  | job job pending post stored new =>
    refine ⟨.posted job pending ?_ hempty.2 ?_, hfresh, fun job' hj => ?_, fun p hp => ?_,
      fun job' hj hne => ?_⟩
    · show s.sem + posts _ = 1
      rw [hempty.1, post]
    · refine readCount_eq_zero fun p hp heq => new ?_
      exact heq ▸ h.known p hp
    · obtain rfl : job = job' := Option.some.inj (pending.symm.trans hj)
      rw [stored]
      exact List.mem_cons_self
    · rw [stored]
      exact List.mem_cons_of_mem _ (h.known p hp)
    · rw [stored] at hj
      rcases List.mem_cons.mp hj with rfl | hold
      · exact absurd pending hne
      · exact hread job' hold

theorem Inv.wait (h : s.Inv) {w : Fin W} (ht : s.step ok (.wait w) = some t) : t.Inv := by
  simp only [step, Option.ite_none_right_eq_some, Option.some.injEq] at ht
  obtain ⟨⟨hpc, hsem⟩, rfl⟩ := ht
  cases h.phase with
  | empty _ sem => omega
  | posted job slot sem away unread =>
    refine ⟨.taken job w slot ?_ ?_ (fun w' hw => ?_) unread, h.fresh, h.slot, h.known,
      h.read⟩
    · show s.sem - 1 = 0
      omega
    · exact Function.update_self _ _ _
    · show (Function.update s.workers w .read w').Away
      rw [Function.update_of_ne hw]
      exact away w'
  | taken _ _ _ sem => omega
  | copied _ _ _ sem => omega

theorem Inv.readSlot (h : s.Inv) {w : Fin W} (ht : s.step ok (.read w) = some t) : t.Inv := by
  simp only [step, Option.ite_none_right_eq_some, Option.some.injEq] at ht
  obtain ⟨hpc, rfl⟩ := ht
  cases h.phase with
  | empty _ _ away => exact absurd (hpc ▸ away w) not_away_read
  | posted _ _ _ away => exact absurd (hpc ▸ away w) not_away_read
  | copied _ w' _ _ pc away =>
    by_cases hw : w = w'
    · rw [hw, pc] at hpc
      cases hpc
    · exact absurd (hpc ▸ away w hw) not_away_read
  | taken job w' slot sem pc away unread =>
    obtain rfl : w = w' := by
      by_contra hw
      exact absurd (hpc ▸ away w hw) not_away_read
    have hcount : ∀ job', readCount { s with
        workers := Function.update s.workers w (.clear s.pending),
        reads := s.reads ++ s.pending.toList.map fun job => (w, job) } job' =
          s.readCount job' + [job].count job' := by
      intro job'
      unfold readCount
      simp only [slot, Option.toList_some, List.map_append, List.map_cons, List.map_nil,
        List.count_append]
    refine ⟨.copied job w slot sem ?_ (fun w' hw => ?_) ?_, h.fresh, h.slot, fun p hp => ?_,
      fun job' hj hne => ?_⟩
    · show Function.update s.workers w (.clear s.pending) w = _
      rw [Function.update_self, slot]
    · show (Function.update s.workers w _ w').Away
      rw [Function.update_of_ne hw]
      exact away w' hw
    · rw [hcount, unread, List.count_singleton_self]
    · rcases List.mem_append.mp hp with hold | hnew
      · exact h.known p hold
      · rw [slot] at hnew
        obtain rfl := List.mem_singleton.mp hnew
        exact h.slot job slot
    · have hne' : job ≠ job' := fun heq => hne (heq ▸ slot)
      rw [hcount, h.read job' hj hne, List.count_singleton, if_neg (by simpa using hne')]

theorem Inv.clear (h : s.Inv) {w : Fin W} (ht : s.step ok (.clear w) = some t) : t.Inv := by
  simp only [step] at ht
  split at ht
  case h_2 => cases ht
  case h_1 job hpc =>
    cases ht
    cases h.phase with
    | empty _ _ away => exact absurd (hpc ▸ away w) (not_away_clear _)
    | posted _ _ _ away => exact absurd (hpc ▸ away w) (not_away_clear _)
    | taken _ w' _ _ pc away =>
      by_cases hw : w = w'
      · rw [hw, pc] at hpc
        cases hpc
      · exact absurd (hpc ▸ away w hw) (not_away_clear _)
    | copied job' w' slot sem pc away read =>
      obtain rfl : w = w' := by
        by_contra hw
        exact absurd (hpc ▸ away w hw) (not_away_clear _)
      obtain rfl : job = some job' := by
        rw [pc] at hpc
        exact (WorkerPc.clear.inj hpc).symm
      refine ⟨.empty rfl sem fun w' => ?_, ?_, nofun, h.known, fun job hj _ => ?_⟩
      · exact away_update (away w') (.inr ⟨job', rfl⟩)
      · exact h.fresh.congr (fun _ hj => hj) le_rfl rfl
      · by_cases heq : job = job'
        · exact heq ▸ read
        · refine h.read job hj ?_
          rw [slot]
          exact fun hsome => heq (Option.some.inj hsome).symm

theorem Inv.finish (h : s.Inv) {w : Fin W} (ht : s.step ok (.finish w) = some t) : t.Inv := by
  simp only [step] at ht
  split at ht
  case h_2 => cases ht
  case h_1 job hpc =>
    cases ht
    refine ⟨?_, h.fresh, h.slot, h.known, h.read⟩
    cases h.phase with
    | empty slot sem away =>
      exact .empty slot sem fun w' => away_update (fun _ => away w') (.inl rfl)
    | posted job slot sem away unread =>
      exact .posted job slot sem (fun w' => away_update (fun _ => away w') (.inl rfl)) unread
    | taken job w' slot sem pc away unread =>
      have hw : w' ≠ w := by
        rintro rfl
        rw [pc] at hpc
        cases hpc
      refine .taken job w' slot sem ?_ (fun w'' hw'' => ?_) unread
      · exact (Function.update_of_ne hw _ _).trans pc
      · exact away_update (fun _ => away w'' hw'') (.inl rfl)
    | copied job w' slot sem pc away read =>
      have hw : w' ≠ w := by
        rintro rfl
        rw [pc] at hpc
        cases hpc
      refine .copied job w' slot sem ?_ (fun w'' hw'' => ?_) read
      · exact (Function.update_of_ne hw _ _).trans pc
      · exact away_update (fun _ => away w'' hw'') (.inl rfl)

theorem Inv.step (h : s.Inv) {e : ServerEvent W} (hc : s.HasJob ok e)
    (ht : s.step ok e = some t) : t.Inv := by
  cases e with
  | byte b => exact h.byte hc ht
  | wait w => exact h.wait ht
  | read w => exact h.readSlot ht
  | clear w => exact h.clear ht
  | finish w => exact h.finish ht

theorem inv_init : (init : Server W).Inv where
  phase := .empty rfl rfl fun _ => .inl rfl
  fresh := ⟨nofun, nofun⟩
  slot := nofun
  known := nofun
  read := nofun

theorem Inv.handedOff (h : s.Inv) : s.HandedOff where
  once := fun job hj => by
    by_cases hslot : s.pending = some job
    · cases h.phase with
      | empty slot => exact absurd (slot.symm.trans hslot) nofun
      | posted job' slot _ _ unread =>
        obtain rfl := Option.some.inj (slot.symm.trans hslot)
        exact .inr ⟨unread, hslot⟩
      | taken job' _ slot _ _ _ unread =>
        obtain rfl := Option.some.inj (slot.symm.trans hslot)
        exact .inr ⟨unread, hslot⟩
      | copied job' _ slot _ _ _ read =>
        obtain rfl := Option.some.inj (slot.symm.trans hslot)
        exact .inl read
    · exact .inl (h.read job hj hslot)
  known := h.known
  awaited := fun job hslot hunread => by
    cases h.phase with
    | empty slot => exact absurd (slot.symm.trans hslot) nofun
    | posted _ _ sem => exact .inl (sem.symm ▸ Nat.one_pos)
    | taken _ w _ _ pc => exact .inr ⟨w, pc⟩
    | copied job' _ slot _ _ _ read =>
      obtain rfl := Option.some.inj (slot.symm.trans hslot)
      rw [hunread] at read
      cases read

end Steps

end Server

/-- **Nothing is lost between receiver and workers**, in every run with any number of workers in
which each packet that is passed on has a job. -/
theorem jobs_handed_off {W : ℕ} {ok : ℕ → Bool} {es : List (ServerEvent W)} {s : Server W}
    (h : Path (Server.step ok) (Server.HasJob ok) .init es s) : s.HandedOff :=
  (h.invariant Server.inv_init fun _ _ _ hs hc hstep => hs.step hc hstep).handedOff

/-- Two requests for two workers; the second one arrives while the first one is executed. -/
def twoRequests : List (ServerEvent 2) :=
  [0x7a, 5, 0, 0, 0, 0x7b, 0].map .byte ++
    [.wait ⟨0, Nat.two_pos⟩, .read ⟨0, Nat.two_pos⟩, .clear ⟨0, Nat.two_pos⟩] ++
    [0x7a, 5, 0, 0, 0, 0x7b, 1].map .byte ++
    [.wait ⟨1, Nat.one_lt_two⟩, .read ⟨1, Nat.one_lt_two⟩]

theorem jobs_handed_off_two :
    Server.HandedOff ((exec (Server.step fun _ => true) (Server.HasJob fun _ => true) .init
      twoRequests).get (by decide)) :=
  jobs_handed_off (path_get _)

/-- A packet of two bytes that says so in its length field is passed on without a job. The worker
that it wakes up reads NULL, and clears the slot when the next request has been stored. -/
def clearedRequest : Server 1 :=
  (exec (Server.step fun _ => true) anyStep .init
    ([0x7a, 2, 0x7b, 0].map .byte ++ [.wait 0, .read 0] ++
      [0x7a, 5, 0, 0, 0, 0x7b, 0].map .byte ++ [.clear 0])).get (by decide)

theorem not_jobs_handed_off : ¬ ∀ (W : ℕ) (ok : ℕ → Bool) (es : List (ServerEvent W))
    (s : Server W), 1 ≤ W → Path (Server.step ok) anyStep .init es s → s.HandedOff := by
  intro h
  have hlost := (h 1 _ _ clearedRequest (Nat.le_refl 1) (path_get _)).once 0 (by decide)
  exact absurd hlost (by decide)

end OlivePiccolo.Rpc
