import OlivePiccolo.Rpc.Framing

/-!
# Who owns a job buffer

Each buffer that the sink has allocated is in one place: `incoming_job`, `pending_job`, with a
worker that has taken it, or it has been freed (`Accounted`).

`AST_SOP` does not free `incoming_job`, so that the job of a truncated packet stays behind there
while the next packet is received, and is lost with the allocation for that packet
(`not_accounted`). `job_accounted`: this is the only way to break the rule.
-/

namespace OlivePiccolo.Rpc

open Runs

/-- The number of `malloc` calls that returned the buffer. -/
def mallocs (job : JobId) : List Entry → ℕ
  | [] => 0
  | .act (.malloc job' _) :: older => [job'].count job + mallocs job older
  | _ :: older => mallocs job older

/-- The number of `free` calls for the buffer. -/
def frees (job : JobId) : List Entry → ℕ
  | [] => 0
  | .act (.free job') :: older => job'.toList.count job + frees job older
  | _ :: older => frees job older

/-- The receiver and the buffers that the workers have taken. -/
structure Owners where
  receiver : Receiver
  taken : List JobId

namespace Owners

def init : Owners := ⟨.init, []⟩

/-- One event. A worker that takes the pending job owns it from then on. -/
def step (ok : ℕ → Bool) (o : Owners) (e : Event) : Option Owners :=
  (o.receiver.step ok e).map fun r =>
    match e with
    | .byte _ => ⟨r, o.taken⟩
    | .take => ⟨r, o.taken ++ o.receiver.sink.pendingJob.toList⟩

/-- `AST_SOP` finds no incoming job. -/
def Careful (o : Owners) (e : Event) : Prop :=
  e = .byte astSop → o.receiver.sink.incomingJob = none

instance (o : Owners) (e : Event) : Decidable (o.Careful e) :=
  inferInstanceAs (Decidable (_ → _))

end Owners

/-- How often the buffer is held, the calls of `free` included. -/
def held (s : SinkState) (log : List Entry) (taken : List JobId) (job : JobId) : ℕ :=
  s.incomingJob.toList.count job + s.pendingJob.toList.count job + taken.count job +
    frees job log

/-- Each buffer that was allocated is in exactly one place, and the incoming job is a live buffer
that was allocated for the packet being received. -/
structure Accounted (o : Owners) : Prop where
  once : ∀ job, 0 < mallocs job o.receiver.log →
    held o.receiver.sink o.receiver.log o.taken job = 1
  incoming : ∀ job, o.receiver.sink.incomingJob = some job →
    o.receiver.sink.insidePacket = true ∧ frees job o.receiver.log = 0 ∧
      0 < mallocs job (sinceSop o.receiver.log)

/-! ## The invariant -/

/-- The books balance, and a buffer has one allocation, by the next `malloc` call at the latest. -/
structure Balanced (s : SinkState) (log : List Entry) (taken : List JobId) : Prop where
  balance : ∀ job, held s log taken job = mallocs job log
  fresh : ∀ job, s.mallocs ≤ job → mallocs job log = 0
  single : ∀ job, mallocs job log ≤ 1
  incoming : ∀ job, s.incomingJob = some job →
    s.insidePacket = true ∧ 4 ≤ s.offset ∧ 0 < mallocs job (sinceSop log)

section

variable {s : SinkState} {log : List Entry} {taken : List JobId}

theorem Balanced.entry (h : Balanced s log taken) {e : Entry}
    (hm : ∀ job log, mallocs job (e :: log) = mallocs job log)
    (hf : ∀ job log, frees job (e :: log) = frees job log) (he : e ≠ .byte astSop) :
    Balanced s (e :: log) taken where
  balance := fun job => by
    unfold held
    rw [hm, hf]
    exact h.balance job
  fresh := fun job hj => by rw [hm]; exact h.fresh job hj
  single := fun job => by rw [hm]; exact h.single job
  incoming := fun job hj => by
    obtain ⟨hin, h4, hpos⟩ := h.incoming job hj
    refine ⟨hin, h4, ?_⟩
    unfold sinceSop
    rw [List.takeWhile_cons, if_pos (by simpa using he), hm]
    exact hpos

theorem Balanced.congr (h : Balanced s log taken) {s' : SinkState}
    (hi : s'.incomingJob = s.incomingJob) (hp : s'.pendingJob = s.pendingJob)
    (hm : s'.mallocs = s.mallocs)
    (hon : s.insidePacket = true → 4 ≤ s.offset →
      s'.insidePacket = true ∧ 4 ≤ s'.offset) : Balanced s' log taken where
  balance := fun job => by
    unfold held
    rw [hi, hp]
    exact h.balance job
  fresh := fun job hj => h.fresh job (hm ▸ hj)
  single := h.single
  incoming := fun job hj => by
    obtain ⟨hin, h4, hpos⟩ := h.incoming job (hi ▸ hj)
    exact ⟨(hon hin h4).1, (hon hin h4).2, hpos⟩

/-- Without an incoming job, it does not matter where in a packet the sink is. -/
theorem Balanced.congr_of_none (h : Balanced s log taken) (hnone : s.incomingJob = none)
    {s' : SinkState} (hi : s'.incomingJob = none) (hp : s'.pendingJob = s.pendingJob)
    (hm : s.mallocs ≤ s'.mallocs) : Balanced s' log taken where
  balance := fun job => by
    unfold held
    rw [hi, hp, ← hnone]
    exact h.balance job
  fresh := fun job hj => h.fresh job (hm.trans hj)
  single := h.single
  incoming := fun job hj => by
    rw [hi] at hj
    cases hj

theorem Balanced.byte (h : Balanced s log taken) {b : UInt8} (hb : b ≠ astSop) :
    Balanced s (.byte b :: log) taken :=
  h.entry (fun _ _ => rfl) (fun _ _ => rfl) (by simpa using hb)

theorem Balanced.dropPacket (h : Balanced s log taken) :
    Balanced s.dropPacket.1 (logged s.dropPacket.2 log) taken where
  balance := fun job => by
    have := h.balance job
    show 0 + s.pendingJob.toList.count job + taken.count job +
      (s.incomingJob.toList.count job + frees job log) = mallocs job log
    unfold held at this
    omega
  fresh := h.fresh
  single := h.single
  incoming := nofun

theorem Balanced.pass (h : Balanced s log taken) (hp : s.pendingJob = none) :
    Balanced ({ s with pendingJob := s.incomingJob }.nextPacket)
      (logged [.setPending s.incomingJob, .semPost] log) taken where
  balance := fun job => by
    have := h.balance job
    show 0 + s.incomingJob.toList.count job + taken.count job + frees job log = mallocs job log
    unfold held at this
    rw [hp] at this
    simpa using this
  fresh := h.fresh
  single := h.single
  incoming := nofun

theorem Balanced.endOfByte (h : Balanced s log taken) (hp : s.pendingJob = none) :
    Balanced s.endOfByte.1 (logged s.endOfByte.2 log) taken :=
  SinkState.endOfByte_elim (P := fun r => Balanced r.1 (logged r.2 log) taken) s
    (fun _ => h) (fun _ _ => h.dropPacket) (fun _ _ => h.pass hp)

theorem Balanced.allocate (h : Balanced s log taken) (hi : s.incomingJob = none)
    (hin : s.insidePacket = true) (h4 : 4 ≤ s.offset) (ok : ℕ → Bool) :
    Balanced (s.allocate ok).1 (logged (s.allocate ok).2 log) taken := by
  unfold SinkState.allocate
  split_ifs
  · refine ⟨fun job => ?_, fun job hj => ?_, fun job => ?_, fun job hj => ⟨hin, h4, ?_⟩⟩
    · have := h.balance job
      show [s.mallocs].count job + s.pendingJob.toList.count job + taken.count job +
        frees job log = [s.mallocs].count job + mallocs job log
      unfold held at this
      rw [hi] at this
      simp only [Option.toList_none, List.count_nil] at this
      omega
    · have hne : s.mallocs ≠ job := Nat.ne_of_lt hj
      show [s.mallocs].count job + mallocs job log = 0
      rw [h.fresh job (Nat.le_of_succ_le hj), List.count_singleton, if_neg (by simpa using hne)]
    · show [s.mallocs].count job + mallocs job log ≤ 1
      have := h.single job
      rw [List.count_singleton]
      split_ifs with heq
      · have hjob : s.mallocs = job := by simpa using heq
        rw [h.fresh job hjob.le]
      · omega
    · obtain rfl : s.mallocs = job := by simpa using hj
      show 0 < mallocs s.mallocs (sinceSop (.act (.storeLength _ _) :: .act (.malloc _ _) :: log))
      rw [sinceSop_act, sinceSop_act]
      show 0 < [s.mallocs].count s.mallocs + _
      rw [List.count_singleton_self]
      omega
  · have hnext : Balanced { s with incomingJob := none, mallocs := s.mallocs + 1 } log taken :=
      h.congr_of_none hi rfl rfl (Nat.le_succ _)
    exact hnext.entry (e := .act (.mallocFailed s.jobSize)) (fun _ _ => rfl) (fun _ _ => rfl) nofun
  · exact h

theorem Balanced.sinkByte (h : Balanced s log taken) (hp : s.pendingJob = none) (ok : ℕ → Bool)
    {b : UInt8} (hsop : b = astSop → s.incomingJob = none) :
    Balanced (s.sinkByte ok b).1 (logged (s.sinkByte ok b).2 (.byte b :: log)) taken := by
  have hnone : s.offset < 4 → s.incomingJob = none := by
    intro hlt
    rw [Option.eq_none_iff_forall_ne_some]
    intro job hj
    exact absurd (h.incoming job hj).2.1 (by omega)
  refine SinkState.sinkByte_elim
    (P := fun r => Balanced r.1 (logged r.2 (.byte b :: log)) taken) ok s b
    (fun hb => ?_) (fun hb => ?_) (fun hb => ?_) (fun hd hi => ?_) (fun hd hi h3 => ?_)
    (fun hd hi h3 => ?_) (fun hd _ _ _ => ?_) (fun job hd hi h4 hlt hjob => ?_)
    (fun hd _ _ _ _ => ?_)
  · -- nothing is received, so that the older entries do not matter
    refine ⟨h.balance, h.fresh, h.single, fun job hj => ?_⟩
    rw [show s.incomingJob = some job from hj] at hsop
    cases hsop hb
  · exact (h.byte (by rw [hb]; decide)).congr rfl rfl rfl fun hin h4 => ⟨hin, h4⟩
  · exact (h.byte (by rw [hb]; decide)).congr rfl rfl rfl fun hin h4 => ⟨hin, h4⟩
  · exact (h.byte hd.1).congr rfl rfl rfl fun hin h4 => ⟨hin, h4⟩
  · have hno := hnone (by omega)
    have hfield : Balanced (s.withLength b) (.byte b :: log) taken :=
      (h.byte hd.1).congr_of_none hno hno rfl le_rfl
    exact hfield.endOfByte hp
  · have hno := hnone (by omega)
    have hfield : Balanced (s.withLength b) (.byte b :: log) taken :=
      (h.byte hd.1).congr_of_none hno hno rfl le_rfl
    have h4 : 4 ≤ (s.withLength b).offset := by
      show 4 ≤ s.offset + 1
      omega
    have hp' : ((s.withLength b).allocate ok).1.pendingJob = none := by
      unfold SinkState.allocate
      split_ifs <;> exact hp
    show Balanced (SinkState.andThen _ _).1 _ _
    rw [logged_andThen, SinkState.andThen_fst]
    exact (hfield.allocate hno hi h4 ok).endOfByte hp'
  · have hunescaped : Balanced s.unescaped (.byte b :: log) taken :=
      (h.byte hd.1).congr rfl rfl rfl fun hin h4 => ⟨hin, h4⟩
    exact hunescaped.dropPacket
  · have hstore : Balanced { s.unescaped with offset := s.offset + 1 } (.byte b :: log) taken :=
      (h.byte hd.1).congr rfl rfl rfl fun hin h4 => ⟨hin, Nat.le_succ_of_le h4⟩
    rw [logged_andThen]
    exact (hstore.entry (e := .act (.storeByte job s.offset (unescapeIf s.escapePrefix b)))
      (fun _ _ => rfl) (fun _ _ => rfl) nofun).endOfByte hp
  · have hunescaped : Balanced s.unescaped (.byte b :: log) taken :=
      (h.byte hd.1).congr rfl rfl rfl fun hin h4 => ⟨hin, h4⟩
    exact hunescaped.endOfByte hp

theorem Balanced.take (h : Balanced s log taken) :
    Balanced { s with pendingJob := none } log (taken ++ s.pendingJob.toList) where
  balance := fun job => by
    have := h.balance job
    unfold held at this
    show s.incomingJob.toList.count job + 0 + (taken ++ s.pendingJob.toList).count job +
      frees job log = mallocs job log
    rw [List.count_append]
    omega
  fresh := h.fresh
  single := h.single
  incoming := h.incoming

theorem Balanced.accounted (h : Balanced s log taken) : Accounted ⟨⟨s, log⟩, taken⟩ where
  once := fun job hpos => (h.balance job).trans (Nat.le_antisymm (h.single job) hpos)
  incoming := fun job hj => by
    have hbalance := h.balance job
    have hsingle := h.single job
    unfold held at hbalance
    rw [hj, Option.toList_some, List.count_singleton_self] at hbalance
    exact ⟨(h.incoming job hj).1, by show frees job log = 0; omega, (h.incoming job hj).2.2⟩

end

/-- **No leak, no double free.** In every run in which each `AST_SOP` finds no incoming job, each
buffer is in exactly one place. -/
theorem job_accounted {ok : ℕ → Bool} {es : List Event} {o : Owners}
    (h : Path (Owners.step ok) Owners.Careful .init es o) : Accounted o := by
  have hinv : Balanced o.receiver.sink o.receiver.log o.taken := by
    refine h.invariant (I := fun o => Balanced o.receiver.sink o.receiver.log o.taken)
      ⟨fun _ => rfl, fun _ _ => rfl, fun _ => Nat.zero_le _, nofun⟩ ?_
    intro o e o' hI hc hst
    obtain ⟨r, hr, rfl⟩ := Option.map_eq_some_iff.mp hst
    cases e with
    | byte b =>
      simp only [Receiver.step, Option.ite_none_right_eq_some, Option.some.injEq] at hr
      obtain ⟨hp, rfl⟩ := hr
      exact hI.sinkByte hp ok fun hb => hc (congrArg _ hb)
    | take =>
      simp only [Receiver.step, Option.ite_none_left_eq_some, Option.some.injEq] at hr
      obtain ⟨-, rfl⟩ := hr
      exact hI.take
  exact hinv.accounted

/-- The condition is needed: any step that breaks it breaks the rule. -/
theorem Owners.not_accounted_of_not_careful {ok : ℕ → Bool} {o o' : Owners} {e : Event}
    (hc : ¬ o.Careful e) (hstep : o.step ok e = some o') : ¬ Accounted o' := by
  obtain ⟨rfl, hjob⟩ := Classical.not_imp.mp hc
  obtain ⟨job, hjob⟩ := Option.ne_none_iff_exists'.mp hjob
  obtain ⟨r, hr, rfl⟩ := Option.map_eq_some_iff.mp hstep
  simp only [Receiver.step, Option.ite_none_right_eq_some, Option.some.injEq] at hr
  obtain ⟨-, rfl⟩ := hr
  intro h
  have hpos := (h.incoming job hjob).2.2
  exact absurd hpos (Nat.lt_irrefl 0)

/-- Two requests, the first one cut off in its length field; the second one is taken. -/
def cutOff : List Event :=
  [0x7a, 5, 0, 0x7a, 5, 0, 0, 0, 0x7b, 0].map Event.byte ++ [.take]

theorem job_accounted_cutOff :
    Accounted ((exec (Owners.step fun _ => true) Owners.Careful .init cutOff).get (by decide)) :=
  job_accounted (path_get _)

/-- A request is cut off behind its length field, and so is the next one. -/
def cutOffTwice : Owners :=
  (exec (Owners.step fun _ => true) anyStep .init
    ([0x7a, 5, 0, 0, 0, 0x7a, 5, 0, 0, 0].map Event.byte)).get (by decide)

/-- The buffer of the first request is nowhere. -/
theorem not_accounted : ¬ ∀ (ok : ℕ → Bool) (es : List Event) (o : Owners),
    Path (Owners.step ok) anyStep .init es o → Accounted o := by
  intro h
  have hlost := (h _ _ cutOffTwice (path_get _)).once 0 (by decide)
  exact absurd hlost (by decide)

end OlivePiccolo.Rpc
