import OlivePiccolo.Rpc.Sink

/-!
# Stores into the job buffer

A job buffer is allocated for the length its packet declares, and the data bytes of the packet go
where `offset < length` holds. Two things can go wrong: a declared length from -8 to 3 leaves no
room for the length word, and a packet that is too long to be allocated for keeps the job that a
truncated packet before it has left in `incoming_job` (`not_stores_in_bounds`).

`stores_in_bounds`: in every other run, each store is inside its buffer.
-/

namespace OlivePiccolo.Rpc

open Runs

/-- The number of bytes that `malloc` was asked for when it returned the buffer. -/
def bufferSize (job : JobId) : List Entry → ℕ
  | [] => 0
  | .act (.malloc job' size) :: older => if job' = job then size else bufferSize job older
  | _ :: older => bufferSize job older

/-- Every store of the log lies in the data area of its buffer. -/
def InBounds : List Entry → Prop
  | [] => True
  | .act (.storeLength job _) :: older => sizeofJob + 4 ≤ bufferSize job older ∧ InBounds older
  | .act (.storeByte job offset _) :: older =>
    sizeofJob + offset < bufferSize job older ∧ InBounds older
  | _ :: older => InBounds older

/-- The length a packet declares, when `b` is the fourth byte of it. -/
def declaredLength (s : SinkState) (b : UInt8) : ℤ := toInt32 (s.withLength b).lengthValue

/-- The condition on a step that completes a length field: a length that is allocated for is not
from -8 to 3, and a length that is too large finds no job of an earlier packet. -/
def LengthFits (ok : ℕ → Bool) (r : Receiver) : Event → Prop
  | .byte b => SinkState.IsData b ∧ r.sink.insidePacket = true ∧ r.sink.offset = 3 →
      (declaredLength r.sink b ≤ maxRequestLength → ok r.sink.mallocs →
        declaredLength r.sink b < -8 ∨ 3 < declaredLength r.sink b) ∧
      (maxRequestLength < declaredLength r.sink b → r.sink.incomingJob = none)
  | .take => True

instance (ok : ℕ → Bool) (r : Receiver) : ∀ e, Decidable (LengthFits ok r e)
  | .byte b => inferInstanceAs (Decidable (SinkState.IsData b ∧ _ → _))
  | .take => inferInstanceAs (Decidable True)

/-- The stores so far are in bounds, and the job in `incoming_job` has room for the packet, once
the length field has been read. -/
structure BoundsInv (s : SinkState) (log : List Entry) : Prop where
  inBounds : InBounds log
  room : ∀ job, s.incomingJob = some job → 4 ≤ s.offset →
    sizeofJob + s.lengthValue ≤ bufferSize job log

theorem lengthValue_lt (s : SinkState) : s.lengthValue < 2 ^ 32 := leNat_lt_two_pow_32 rfl

/-- The size of a job whose length fits: nothing wraps. -/
theorem jobSize_eq {s : SinkState} (h : toInt32 s.lengthValue ≤ maxRequestLength)
    (hf : toInt32 s.lengthValue < -8 ∨ 3 < toInt32 s.lengthValue) :
    s.jobSize = sizeofJob + s.lengthValue ∧ 4 ≤ s.lengthValue := by
  have hlt := lengthValue_lt s
  unfold SinkState.jobSize
  unfold sizeofJob
  unfold maxRequestLength at h
  by_cases hv : s.lengthValue < 2 ^ 31
  · rw [toInt32_of_lt hv] at h hf
    omega
  · rw [toInt32_of_ge (by omega) hlt] at h hf
    omega

section

variable {s : SinkState} {log : List Entry} {b : UInt8}

theorem BoundsInv.byte (h : BoundsInv s log) : BoundsInv s (.byte b :: log) :=
  ⟨h.inBounds, h.room⟩

theorem BoundsInv.congr (h : BoundsInv s log) {s' : SinkState}
    (hj : s'.incomingJob = s.incomingJob)
    (hl : 4 ≤ s'.offset → 4 ≤ s.offset ∧ s'.lengthValue = s.lengthValue) : BoundsInv s' log :=
  ⟨h.inBounds, fun job hjob h4 => by rw [(hl h4).2]; exact h.room job (hj ▸ hjob) (hl h4).1⟩

theorem BoundsInv.no_job (h : InBounds log) (hj : s.incomingJob = none) : BoundsInv s log :=
  ⟨h, fun job hjob => by rw [hj] at hjob; cases hjob⟩

theorem BoundsInv.endOfByte (h : BoundsInv s log) :
    BoundsInv s.endOfByte.1 (logged s.endOfByte.2 log) := by
  refine SinkState.endOfByte_elim
    (P := fun r => BoundsInv r.1 (logged r.2 log)) s (fun _ => h)
    (fun _ _ => ?_) (fun _ _ => ?_)
  · exact .no_job h.inBounds rfl
  · exact .no_job h.inBounds rfl

/-- What precedes the end of a round decides about it. -/
theorem BoundsInv.andThen {r : SinkState × List Action} (h : BoundsInv r.1 (logged r.2 log)) :
    BoundsInv (SinkState.andThen r SinkState.endOfByte).1
      (logged (SinkState.andThen r SinkState.endOfByte).2 log) := by
  rw [logged_andThen]
  exact h.endOfByte

theorem boundsInv_allocate (h : InBounds log) (ok : ℕ → Bool)
    (hfit : toInt32 s.lengthValue ≤ maxRequestLength → ok s.mallocs →
      toInt32 s.lengthValue < -8 ∨ 3 < toInt32 s.lengthValue)
    (hlarge : maxRequestLength < toInt32 s.lengthValue → s.incomingJob = none) :
    BoundsInv (s.allocate ok).1 (logged (s.allocate ok).2 log) := by
  unfold SinkState.allocate
  split_ifs with hle hok
  · obtain ⟨hsize, hfour⟩ := jobSize_eq hle (hfit hle hok)
    have hroom : sizeofJob + 4 ≤ s.jobSize := by omega
    have hbuf : bufferSize s.mallocs (.act (.malloc s.mallocs s.jobSize) :: log) = s.jobSize :=
      if_pos rfl
    refine ⟨⟨hroom.trans hbuf.ge, h⟩, fun job hjob _ => ?_⟩
    have hjob' : s.mallocs = job := by simpa using hjob
    subst hjob'
    exact hsize.ge.trans hbuf.ge
  · exact .no_job h rfl
  · exact .no_job h (hlarge (by omega))

theorem BoundsInv.sinkByte (h : BoundsInv s log) (ok : ℕ → Bool)
    (hfit : LengthFits ok ⟨s, log⟩ (.byte b)) :
    BoundsInv (s.sinkByte ok b).1 (logged (s.sinkByte ok b).2 (.byte b :: log)) := by
  refine SinkState.sinkByte_elim
    (P := fun r => BoundsInv r.1 (logged r.2 (.byte b :: log))) ok s b (fun _ => ?_) (fun _ => ?_)
    (fun _ => ?_) (fun _ _ => ?_)
    (fun _ _ h3 => ?_) (fun hd hi h3 => ?_) (fun _ _ _ _ => ?_) (fun job _ _ h4 hlt hjob => ?_)
    (fun _ _ _ _ hjob => ?_)
  · exact h.byte.congr rfl fun h4 => absurd h4 (by simp)
  · exact h.byte.congr rfl fun h4 => ⟨h4, rfl⟩
  · exact h.byte.congr rfl fun h4 => ⟨h4, rfl⟩
  · exact h.byte.congr rfl fun h4 => ⟨h4, rfl⟩
  · refine BoundsInv.endOfByte (h.byte.congr rfl fun h4 => ?_)
    have h4' : 4 ≤ s.offset + 1 := h4
    omega
  · -- the length field is complete, so the job is allocated or none is left
    obtain ⟨hc, hl⟩ := hfit ⟨hd, hi, h3⟩
    have hbase : InBounds (.byte b :: log) := h.inBounds
    exact BoundsInv.andThen (boundsInv_allocate (s := s.withLength b) hbase ok hc hl)
  · exact .no_job h.inBounds rfl
  · have hroom : sizeofJob + s.lengthValue ≤ bufferSize job (.byte b :: log) := h.room job hjob h4
    have hlt' : sizeofJob + s.offset < bufferSize job (.byte b :: log) := by omega
    refine BoundsInv.andThen ⟨⟨hlt', h.inBounds⟩, fun job' hjob' _ => ?_⟩
    have hjj : job = job' := by simpa [SinkState.unescaped, hjob] using hjob'
    subst hjj
    exact hroom
  · exact BoundsInv.endOfByte (.no_job h.inBounds hjob)

end

/-- **Stores in bounds.** In every run whose declared lengths fit, each byte and each length word
is stored inside the buffer that was allocated for it. -/
theorem stores_in_bounds (ok : ℕ → Bool) (es : List Event) (r : Receiver)
    (h : Path (Receiver.step ok) (LengthFits ok) .init es r) : InBounds r.log := by
  have hinv : BoundsInv r.sink r.log := by
    refine h.invariant (I := fun r => BoundsInv r.sink r.log)
      (.no_job (show InBounds [] from trivial) rfl) ?_
    intro s e t hI hok hst
    cases e with
    | byte b =>
      simp only [Receiver.step, Option.ite_none_right_eq_some, Option.some.injEq] at hst
      obtain ⟨-, rfl⟩ := hst
      exact hI.sinkByte ok hok
    | take =>
      simp only [Receiver.step, Option.ite_none_left_eq_some, Option.some.injEq] at hst
      obtain ⟨-, rfl⟩ := hst
      exact hI.congr rfl fun h4 => ⟨h4, rfl⟩
  exact hinv.inBounds

/-- A request of five bytes, received in one piece. -/
theorem stores_in_bounds_five : ∃ r : Receiver, InBounds r.log ∧ r.sink.pendingJob = some 0 := by
  have hrun : (exec (Receiver.step fun _ => true) (LengthFits fun _ => true) .init
      ([0x7a, 5, 0, 0, 0, 0x7b, 0].map Event.byte)).isSome = true := by decide
  exact ⟨_, stores_in_bounds _ _ _ (path_get hrun), rfl⟩

/-- A packet that is cut off after a length of four bytes leaves its job behind; the next packet
declares 65537 bytes, is not allocated for, and stores its first data byte behind that job. -/
theorem not_stores_in_bounds : ¬ ∀ (ok : ℕ → Bool) (es : List Event) (r : Receiver),
    Path (Receiver.step ok) anyStep .init es r → InBounds r.log := by
  intro h
  have hrun : (exec (Receiver.step fun _ => true) anyStep .init
      ([0x7a, 4, 0, 0, 0, 0x7a, 1, 0, 1, 0, 0].map Event.byte)).isSome = true := by decide
  have hstore : sizeofJob + 4 < _ := (h _ _ _ (path_get hrun)).1
  exact absurd hstore (by decide)

end OlivePiccolo.Rpc
