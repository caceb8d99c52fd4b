import OlivePiccolo.Library.Runs
import OlivePiccolo.Spi.Master

/-!
# Merged transactions

Several clients call `peridot_spi_master_transfer` on one state, call by call. `slave_locked` keeps
others away from a merged transaction only as long as they call for another slave.
-/

namespace OlivePiccolo.Spi

open Dialog Runs

variable {ι : Type*}

/-! ## Runs -/

/-- A call of a client, what it hears, and how many rounds its loops may take. -/
structure Event (ι : Type*) where
  client : ι
  call : Call
  fuel : ℕ
  hear : ℕ → BitVec 32

/-- A call that has returned, with what it has said. -/
structure Entry (ι : Type*) where
  client : ι
  call : Call
  result : ℤ
  said : List Said
  deriving DecidableEq

structure System (ι : Type*) where
  master : MasterState
  history : List (Entry ι)
  deriving DecidableEq

/-- The `n`-th answer is heard. -/
def hearing (hear : ℕ → BitVec 32) (n : ℕ) (_ : Said) : BitVec 32 × ℕ := (hear n, n + 1)

/-- A whole call. One that does not return is not a step. -/
def System.step (s : System ι) (e : Event ι) : Option (System ι) :=
  ((peridotSpiMasterTransfer s.master e.call e.fuel).run
    (recording (hearing e.hear)) (0, [])).map fun r =>
      ⟨{ s.master with slaveLocked := r.1.slaveLocked },
        s.history ++ [⟨e.client, e.call, r.1.result, r.2.2.map (·.1)⟩]⟩

/-! ## What is asked for -/

/-- A byte is shifted. -/
def Said.Shifts : Said → Prop
  | .iowr .access data => data &&& ACCESS_STA_MSK ≠ 0
  | _ => False

/-- The slave select is negated, by the controller or at the pin. -/
def Said.Negates : Said → Prop
  | .iowr .access data => data &&& ACCESS_SS_MSK = 0
  | .directOutput _ _ => True
  | .selectOutput _ _ => True
  | _ => False

/-- A merged transaction begins or goes on. -/
def Entry.Opens (e : Entry ι) (client : ι) (slave : BitVec 8) : Prop :=
  e.client = client ∧ e.call.slave = slave ∧ e.call.Merges ∧ e.result = 0

/-- The call that ends the transaction. -/
def Entry.Closes (e : Entry ι) (client : ι) (slave : BitVec 8) : Prop :=
  e.client = client ∧ e.call.slave = slave ∧ ¬ e.call.Merges

/-- After these calls, a merged transaction of the client with the slave is in progress. -/
def Open (history : List (Entry ι)) (client : ι) (slave : BitVec 8) : Prop :=
  ∃ before e after, history = before ++ e :: after ∧ e.Opens client slave ∧
    ∀ e' ∈ after, ¬ e'.Closes client slave

/-- The call of another client does not reach the slave: it is told to try again, or that the slave
number is invalid. -/
def Entry.Refused (e : Entry ι) (sp : MasterState) : Prop :=
  (∀ x ∈ e.said, ¬ x.Shifts ∧ ¬ x.Negates) ∧
    (e.result = -EAGAIN ∨ sp.Invalid e.call.slave ∧ e.result = -EINVAL)

/-- While a merged transaction is in progress, the calls of others are refused. -/
def System.Atomic (s : System ι) : Prop :=
  ∀ before e after client slave, s.history = before ++ e :: after → Open before client slave →
    e.client ≠ client → e.Refused s.master

/-- While a merged transaction is in progress, it is for a slave number that is not negative, and
others do not call for the same slave. -/
def OtherSlaves (s : System ι) (e : Event ι) : Prop :=
  ∀ client slave, Open s.history client slave → e.client ≠ client →
    0 ≤ slave.toInt ∧ e.call.slave ≠ slave

section Open

variable {history : List (Entry ι)} {e : Entry ι} {client : ι} {slave : BitVec 8}

theorem not_open_nil : ¬ Open ([] : List (Entry ι)) client slave := by
  rintro ⟨before, e, after, h, -⟩
  exact absurd h (by simp)

theorem open_snoc : Open (history ++ [e]) client slave ↔
    e.Opens client slave ∨ Open history client slave ∧ ¬ e.Closes client slave := by
  constructor
  · rintro ⟨before, x, after, h, hopens, hafter⟩
    rcases List.eq_nil_or_concat after with rfl | ⟨after, y, rfl⟩
    · obtain ⟨-, hlast⟩ := List.append_inj' h rfl
      cases hlast
      exact .inl hopens
    · rw [List.concat_eq_append, ← List.cons_append, ← List.append_assoc] at h
      obtain ⟨hrest, hlast⟩ := List.append_inj' h rfl
      cases hlast
      refine .inr ⟨⟨before, x, after, hrest, hopens, fun e' he' => hafter e' ?_⟩, hafter e ?_⟩
      · rw [List.concat_eq_append]
        exact List.mem_append_left _ he'
      · rw [List.concat_eq_append]
        exact List.mem_append_right _ (List.mem_singleton_self e)
  · rintro (hopens | ⟨⟨before, x, after, rfl, hopens, hafter⟩, hclose⟩)
    · exact ⟨history, e, [], rfl, hopens, fun _ h => absurd h List.not_mem_nil⟩
    · refine ⟨before, x, after ++ [e], by simp, hopens, fun e' he' => ?_⟩
      rcases List.mem_append.mp he' with h | h
      · exact hafter e' h
      · rw [List.mem_singleton.mp h]
        exact hclose

end Open

/-! ## One call -/

/-- The transaction of a call that was let in. -/
def Call.After (c : Call) (o : Outcome) : Prop :=
  o.result = 0 ∧ o.slaveLocked = if c.Merges then c.slave else -1

theorem shiftAll_after (c : Call) (fuel : ℕ) :
    (c.shiftAll fuel).Every (fun _ => True) (fun _ => True) c.After := by
  have hany {α : Type} (d : Dialog Said (BitVec 32) α) :
      d.Every (fun _ => True) (fun _ => True) fun _ => True :=
    .of_forall d (fun _ => trivial) fun _ => trivial
  unfold Call.shiftAll
  refine .bind (hany _) fun _ _ => .ask trivial fun _ _ => .ask trivial fun _ _ => ?_
  refine .bind (hany _) fun left _ => .bind (hany _) fun _ _ => .bind (hany _) fun readData _ => ?_
  refine .ite (fun hmerge => ?_) fun hmerge => ?_
  · exact ⟨rfl, (if_pos hmerge).symm⟩
  · refine .ask trivial fun _ _ => .ask trivial fun _ _ => .ask trivial fun _ _ => ?_
    exact ⟨rfl, (if_neg hmerge).symm⟩

theorem transfer_after {sp : MasterState} {c : Call} (hfree : ¬ sp.Busy c.slave) (fuel : ℕ) :
    (transfer sp c fuel).Every (fun _ => True) (fun _ => True) c.After := by
  rw [transfer, if_neg hfree]
  split
  · refine .ite (fun _ => ?_) fun _ => shiftAll_after c fuel
    exact .access fun func _ => .ask trivial fun _ _ => shiftAll_after c fuel
  · exact shiftAll_after c fuel

section Refused

variable {sp : MasterState} {c : Call} {hear : ℕ → BitVec 32} {o : Outcome} {n : ℕ}
  {log : List (Said × BitVec 32)}

theorem refused_of_invalid (client : ι) (fuel : ℕ) (h : sp.Invalid c.slave)
    (hrun : (peridotSpiMasterTransfer sp c fuel).run (recording (hearing hear)) (0, []) =
      some (o, n, log)) :
    (⟨client, c, o.result, log.map (·.1)⟩ : Entry ι).Refused sp ∧ o.result ≠ 0 ∧
      o.slaveLocked = sp.slaveLocked := by
  rw [peridotSpiMasterTransfer, if_pos h] at hrun
  cases hrun
  exact ⟨⟨fun x hx => absurd hx List.not_mem_nil, .inr ⟨h, rfl⟩⟩,
    show -EINVAL ≠ 0 by decide, rfl⟩

theorem refused_of_busy (client : ι) (fuel : ℕ) (hvalid : ¬ sp.Invalid c.slave)
    (h : sp.Busy c.slave)
    (hrun : (peridotSpiMasterTransfer sp c fuel).run (recording (hearing hear)) (0, []) =
      some (o, n, log)) :
    (⟨client, c, o.result, log.map (·.1)⟩ : Entry ι).Refused sp ∧ o.result ≠ 0 ∧
      o.slaveLocked = sp.slaveLocked := by
  rw [peridotSpiMasterTransfer, if_neg hvalid, transfer, if_pos h] at hrun
  cases hrun
  refine ⟨⟨fun x hx => ?_, .inl rfl⟩, show -EAGAIN ≠ 0 by decide, rfl⟩
  rcases List.mem_cons.mp hx with rfl | hx
  · exact ⟨id, id⟩
  · rw [List.mem_singleton.mp hx]
    exact ⟨id, id⟩

theorem after_of_free (fuel : ℕ) (hvalid : ¬ sp.Invalid c.slave) (hfree : ¬ sp.Busy c.slave)
    (hrun : (peridotSpiMasterTransfer sp c fuel).run (recording (hearing hear)) (0, []) =
      some (o, n, log)) : c.After o := by
  rw [peridotSpiMasterTransfer, if_neg hvalid] at hrun
  refine Every.of_run (A := fun _ => True) (P := fun _ => True) ?_ (fun _ _ => trivial) hrun
  refine .ask trivial fun _ _ => .bind (transfer_after hfree fuel) fun o ho => ?_
  exact .ask trivial fun _ _ => ho

end Refused

/-- How a call ends: it is refused, or it is let in. -/
theorem step_cases {s t : System ι} {e : Event ι} (h : s.step e = some t) :
    ∃ entry : Entry ι, t.history = s.history ++ [entry] ∧ entry.client = e.client ∧
      entry.call = e.call ∧ t.master.ssNPfcMap = s.master.ssNPfcMap ∧
      (entry.Refused s.master ∧ entry.result ≠ 0 ∧
          t.master.slaveLocked = s.master.slaveLocked ∨
        ¬ s.master.Busy e.call.slave ∧
          t.master.slaveLocked = if e.call.Merges then e.call.slave else -1) := by
  rw [System.step, Option.map_eq_some_iff] at h
  obtain ⟨r, hrun, rfl⟩ := h
  refine ⟨_, rfl, rfl, rfl, rfl, ?_⟩
  by_cases hinvalid : s.master.Invalid e.call.slave
  · exact .inl (refused_of_invalid e.client e.fuel hinvalid hrun)
  · by_cases hbusy : s.master.Busy e.call.slave
    · exact .inl (refused_of_busy e.client e.fuel hinvalid hbusy hrun)
    · exact .inr ⟨hbusy, (after_of_free e.fuel hinvalid hbusy hrun).2⟩

/-! ## Any number of calls -/

/-- What holds in every state: the slave of an open transaction is the locked one. -/
structure System.Held (s : System ι) : Prop where
  atomic : s.Atomic
  locked : ∀ client slave, Open s.history client slave → 0 ≤ slave.toInt →
    s.master.slaveLocked = slave

theorem Entry.Refused.of_map {e : Entry ι} {sp sp' : MasterState} (h : e.Refused sp)
    (hmap : sp'.ssNPfcMap = sp.ssNPfcMap) : e.Refused sp' := by
  rw [Entry.Refused, MasterState.Invalid, hmap]
  exact h

theorem System.Held.step {s t : System ι} {e : Event ι} (h : s.Held) (hok : OtherSlaves s e)
    (hstep : s.step e = some t) : t.Held := by
  obtain ⟨entry, hhistory, hclient, hcall, hmap, hcases⟩ := step_cases hstep
  refine ⟨fun before x after client slave hsplit hopen hother => ?_,
    fun client slave hopen hslave => ?_⟩
  · rw [hhistory] at hsplit
    rcases List.eq_nil_or_concat after with rfl | ⟨after, y, rfl⟩
    · -- the call of this step
      obtain ⟨rfl, hlast⟩ := List.append_inj' hsplit rfl
      cases hlast
      rw [hclient] at hother
      obtain ⟨hslave, hne⟩ := hok client slave hopen hother
      have hlocked := h.locked client slave hopen hslave
      rcases hcases with ⟨hrefused, -, -⟩ | ⟨hfree, -⟩
      · exact hrefused.of_map hmap
      · exact absurd ⟨hlocked ▸ hslave, hlocked ▸ hne.symm⟩ hfree
    · rw [List.concat_eq_append, ← List.cons_append, ← List.append_assoc] at hsplit
      obtain ⟨hrest, -⟩ := List.append_inj' hsplit rfl
      exact (h.atomic before x after client slave hrest hopen hother).of_map hmap
  · rw [hhistory, open_snoc] at hopen
    rcases hopen with ⟨-, hsame, hmerges, hzero⟩ | ⟨hopen, hclose⟩
    · rcases hcases with ⟨-, hne, -⟩ | ⟨-, hset⟩
      · exact absurd hzero hne
      · rw [hcall] at hmerges hsame
        rw [hset, if_pos hmerges, hsame]
    · have hlocked := h.locked client slave hopen hslave
      rcases hcases with ⟨-, -, hmaster⟩ | ⟨hfree, hset⟩
      · rw [hmaster, hlocked]
      · -- it was let in, so it is for the locked slave, by the client itself
        have hsame : e.call.slave = slave := by
          by_contra hne
          exact hfree ⟨hlocked ▸ hslave, fun heq => hne (heq.symm.trans hlocked)⟩
        have hown : e.client = client := by
          by_contra hother
          exact (hok client slave hopen hother).2 hsame
        have hmerges : e.call.Merges := by
          by_contra hmerges
          exact hclose ⟨hclient.trans hown, by rw [hcall, hsame], by rwa [hcall]⟩
        rw [hset, if_pos hmerges, hsame]

/-- **Merged transactions are atomic** in a run where nobody else calls for the slave of an open
transaction. -/
theorem merged_is_atomic (sp : MasterState) {es : List (Event ι)} {t : System ι}
    (h : Path System.step OtherSlaves ⟨sp, []⟩ es t) : t.Atomic := by
  have hheld : t.Held := by
    refine h.invariant ⟨fun before e after client slave hsplit => ?_, fun client slave hopen => ?_⟩
      fun s e t hs hok hstep => hs.step hok hstep
    · exact absurd hsplit.symm (by simp)
    · exact absurd hopen not_open_nil
  exact hheld.atomic

/-- The controller is always ready, and the semaphore is never 0. -/
def ready (_ : ℕ) : BitVec 32 := ACCESS_RDY_MSK

/-- Client 0 has merged a transaction with slave 3. -/
def slave3Open : System (Fin 2) :=
  ⟨⟨3, none⟩, [⟨⟨0, Nat.two_pos⟩, ⟨3, 1, [], 0, 0, MASTER_MERGE⟩, 0,
    [.lock, .iord .access, .iowr .config 1, .iowr .access ACCESS_SS_MSK, .unlock]⟩]⟩

/-- Then client 1 calls for slave 5. -/
theorem merged_is_atomic_other : System.Atomic ⟨slave3Open.master, slave3Open.history ++
    [⟨1, ⟨5, 1, [0x5a], 0, 0, 0⟩, -EAGAIN, [.lock, .unlock]⟩]⟩ := by
  have hmerge : System.step ⟨⟨-1, none⟩, []⟩ ⟨0, ⟨3, 1, [], 0, 0, MASTER_MERGE⟩, 1, ready⟩ =
      some slave3Open := by decide
  have hother : slave3Open.step ⟨1, ⟨5, 1, [0x5a], 0, 0, 0⟩, 1, ready⟩ =
      some ⟨slave3Open.master, slave3Open.history ++
        [⟨1, ⟨5, 1, [0x5a], 0, 0, 0⟩, -EAGAIN, [.lock, .unlock]⟩]⟩ := by decide
  refine merged_is_atomic ⟨-1, none⟩ (.snoc (.single (fun _ _ h => absurd h not_open_nil) hmerge)
    (fun client slave h _ => ?_) hother)
  obtain ⟨-, hslave, -⟩ | ⟨hopen, -⟩ := open_snoc.mp (show Open ([] ++ [_]) client slave from h)
  · cases hslave
    exact ⟨by decide, by decide⟩
  · exact absurd hopen not_open_nil

/-- Client 0 says where to program, client 1 reads the status, of the same flash. -/
def statusInside : List (Event (Fin 2)) :=
  [⟨⟨0, Nat.two_pos⟩, ⟨0, 1, [0x02, 0, 0, 0], 4, 0, MASTER_MERGE⟩, 1, ready⟩,
    ⟨⟨1, Nat.one_lt_two⟩, ⟨0, 1, [0x05], 1, 1, 0⟩, 1, ready⟩]

/-- The status read goes into the page program. -/
theorem status_read_intrudes : ¬ ∀ (sp : MasterState) (es : List (Event (Fin 2)))
    (t : System (Fin 2)), Path System.step anyStep ⟨sp, []⟩ es t → t.Atomic := by
  intro h
  have hruns : ((exec System.step anyStep ⟨⟨-1, none⟩, []⟩ statusInside).map fun t =>
      t.history.map fun e => (e.client, e.call.slave, decide e.call.Merges, e.result)) =
        some [(0, 0, true, 0), (1, 0, false, 0)] := by decide +kernel
  obtain ⟨t, hexec, hhistory⟩ := Option.map_eq_some_iff.mp hruns
  obtain ⟨x, _, hsplit, hx, hrest⟩ := List.map_eq_cons_iff.mp hhistory
  obtain ⟨y, _, rfl, hy, hnil⟩ := List.map_eq_cons_iff.mp hrest
  obtain rfl := List.map_eq_nil_iff.mp hnil
  simp only [Prod.mk.injEq, decide_eq_true_eq] at hx hy
  have hopen : Open [x] 0 0 :=
    ⟨[], x, [], rfl, hx, fun _ hnone => absurd hnone List.not_mem_nil⟩
  have hrefused := h _ _ t (path_of_exec hexec) [x] y [] 0 0 hsplit hopen (by rw [hy.1]; decide)
  rcases hrefused.2 with hagain | ⟨-, hinvalid⟩
  · exact absurd (hy.2.2.2.symm.trans hagain) (by decide)
  · exact absurd (hy.2.2.2.symm.trans hinvalid) (by decide)

end OlivePiccolo.Spi
