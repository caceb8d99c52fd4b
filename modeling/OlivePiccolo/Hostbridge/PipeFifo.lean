import Mathlib.Data.List.GetD
import OlivePiccolo.Hostbridge.Pipe

/-!
# A pipe is a lossless bounded FIFO

The invariant counts in positions of the whole stream: the byte at position `i` of the accepted
bytes is in cell `i % capacity`, and the offsets are the numbers of returned and of accepted bytes
modulo the capacity. A call works on positions it has claimed by its snapshot; the other side only
ever gives way (`Inv.sinkStep`, `Inv.readStep`).
-/

namespace OlivePiccolo.Hostbridge

open Runs

/-! ## Spans -/

namespace Span

/-- The span stands for the positions from `total` on. -/
structure Fits (p : Span) (capacity total : ℕ) : Prop where
  offset : p.offset = total % capacity
  first : p.offset + p.first ≤ capacity
  wrap : 0 < p.second → p.offset + p.first = capacity
  second : p.second < capacity

variable {p : Span} {capacity total : ℕ}

theorem Fits.address (h : p.Fits capacity total) {i : ℕ} (hi : i < p.length) :
    p.address i = (total + i) % capacity := by
  have hfirst := h.first
  have hsecond := h.second
  have hlen : p.length = p.first + p.second := rfl
  rw [← Nat.mod_add_mod, ← h.offset]
  unfold Span.address
  split_ifs with hlt
  · rw [Nat.mod_eq_of_lt (by omega)]
  · have hwrap := h.wrap (by omega)
    rw [show p.offset + i = capacity + (i - p.first) by omega, Nat.add_mod_left,
      Nat.mod_eq_of_lt (by omega)]

theorem Fits.next (h : p.Fits capacity total) {k : ℕ} (hpow : capacity = 2 ^ k) :
    p.next capacity = (total + p.length) % capacity := by
  have hsecond := h.second
  have hlen : p.length = p.first + p.second := rfl
  rw [← Nat.mod_add_mod, ← h.offset, hlen]
  unfold Span.next
  split_ifs with hpos
  · rw [← Nat.add_assoc, h.wrap hpos, Nat.add_mod_left, Nat.mod_eq_of_lt hsecond]
  · rw [hpow, Nat.and_two_pow_sub_one_eq_mod, Nat.eq_zero_of_not_pos hpos, Nat.add_zero]

theorem Fits.clamp (h : p.Fits capacity total) (len : ℕ) : (p.clamp len).Fits capacity total := by
  have hfirst := h.first
  have hsecond := h.second
  unfold Span.clamp
  split_ifs with hlt hlt'
  · exact ⟨h.offset, by simp only; omega, fun h0 => absurd h0 (Nat.lt_irrefl 0), by simp only; omega⟩
  · exact ⟨h.offset, hfirst, fun _ => h.wrap (by omega), by simp only; omega⟩
  · exact h

theorem clamp_length_le (p : Span) (len : ℕ) : (p.clamp len).length ≤ p.length := by
  unfold Span.clamp Span.length
  split_ifs
  · simp only; omega
  · simp only; omega
  · exact Nat.le_refl _

theorem clamp_length_pos (p : Span) {len : ℕ} (hfirst : p.first ≠ 0) (hlen : 0 < len) :
    0 < (p.clamp len).length := by
  unfold Span.clamp Span.length
  split_ifs
  · simp only; omega
  · simp only; omega
  · omega

@[simp] theorem clamp_offset (p : Span) (len : ℕ) : (p.clamp len).offset = p.offset := by
  unfold Span.clamp
  split_ifs <;> rfl

theorem clamp_length_le_len (p : Span) (len : ℕ) : (p.clamp len).length ≤ len := by
  unfold Span.clamp Span.length
  split_ifs
  · simp only; omega
  · simp only; omega
  · omega

end Span

section Offsets

variable {capacity taken total : ℕ} (hle : taken ≤ total) (hroom : total < taken + capacity)
include hle hroom

/-- The free bytes are behind the stored ones, but for one. -/
theorem sinkFree_fits :
    (sinkFree capacity (taken % capacity) (total % capacity)).Fits capacity total ∧
      total + (sinkFree capacity (taken % capacity) (total % capacity)).length =
        taken + (capacity - 1) := by
  have hcap : 0 < capacity := by omega
  have htotal := Nat.mod_lt total hcap
  have htaken := Nat.mod_lt taken hcap
  have hcases := add_mod_cases taken (show total - taken < capacity by omega)
  rw [Nat.add_sub_cancel' hle] at hcases
  unfold sinkFree Span.length
  split_ifs with hrw h0
  · refine ⟨⟨rfl, ?_, fun h => absurd h (Nat.lt_irrefl 0), hcap⟩, ?_⟩ <;> simp only <;> omega
  · refine ⟨⟨rfl, ?_, fun _ => ?_, ?_⟩, ?_⟩ <;> simp only <;> omega
  · refine ⟨⟨rfl, ?_, fun h => absurd h (Nat.lt_irrefl 0), hcap⟩, ?_⟩ <;> simp only <;> omega

/-- The bytes that can be read are the stored ones. -/
theorem readAvail_fits :
    (readAvail capacity (taken % capacity) (total % capacity)).Fits capacity taken ∧
      taken + (readAvail capacity (taken % capacity) (total % capacity)).length = total := by
  have hcap : 0 < capacity := by omega
  have htotal := Nat.mod_lt total hcap
  have htaken := Nat.mod_lt taken hcap
  have hcases := add_mod_cases taken (show total - taken < capacity by omega)
  rw [Nat.add_sub_cancel' hle] at hcases
  unfold readAvail Span.length
  split_ifs with hrw
  · refine ⟨⟨rfl, ?_, fun h => absurd h (Nat.lt_irrefl 0), hcap⟩, ?_⟩ <;> simp only <;> omega
  · refine ⟨⟨rfl, ?_, fun _ => ?_, htotal⟩, ?_⟩ <;> simp only <;> omega

end Offsets

/-! ## The invariant -/

/-- The bytes that have been copied by a call of the sink that has not committed yet. -/
def SinkPc.pending : SinkPc → List UInt8
  | .copy data _ _ copied => data.take copied
  | _ => []

/-- The bytes that have been copied by a call of the reader that has not committed yet. -/
def ReadPc.got : ReadPc → List UInt8
  | .copy _ got => got
  | _ => []

namespace Pipe

/-- A call of the sink has claimed free positions; the lengths are those of the streams. -/
structure SinkClaim (capacity accepted returned : ℕ) (data : List UInt8) (span : Span)
    (copied : ℕ) : Prop where
  fits : span.Fits capacity accepted
  pos : 0 < span.length
  copied : copied ≤ span.length
  length : span.length ≤ data.length
  room : accepted + span.length ≤ returned + (capacity - 1)

/-- A call of the reader has claimed stored positions. -/
structure ReadClaim (capacity accepted returned : ℕ) (span : Span) (got : List UInt8) :
    Prop where
  fits : span.Fits capacity returned
  got : got.length ≤ span.length
  stored : returned + span.length ≤ accepted

/-- The invariant. -/
structure Inv (s : Pipe) : Prop where
  pow : ∃ k, s.capacity = 2 ^ k
  readOffset : s.readOffset = s.returned.length % s.capacity
  writeOffset : s.writeOffset = s.accepted.length % s.capacity
  bound : s.accepted.length ≤ s.returned.length + (s.capacity - 1)
  window : Window s.buffer s.capacity (s.accepted ++ s.sink.pending) s.returned.length
  order : s.returned ++ s.read.got <+: s.accepted
  start : ∀ data, s.sink = .start data → data ≠ []
  sink : ∀ data readOffset span copied, s.sink = .copy data readOffset span copied →
    SinkClaim s.capacity s.accepted.length s.returned.length data span copied
  read : ∀ span got, s.read = .copy span got →
    ReadClaim s.capacity s.accepted.length s.returned.length span got

theorem Inv.capacity_pos {s : Pipe} (h : s.Inv) : 0 < s.capacity := by
  obtain ⟨k, hk⟩ := h.pow
  exact hk ▸ Nat.two_pow_pos k

theorem Inv.returned_prefix {s : Pipe} (h : s.Inv) : s.returned <+: s.accepted :=
  (List.prefix_append _ _).trans h.order

theorem inv_create (k : ℕ) (garbage : ℕ → UInt8) : (create (2 ^ k) garbage).Inv where
  pow := ⟨k, rfl⟩
  readOffset := (Nat.zero_mod _).symm
  writeOffset := (Nat.zero_mod _).symm
  bound := Nat.zero_le _
  window := Window.empty _ _
  order := List.prefix_refl _
  start := nofun
  sink := nofun
  read := nofun

/-! ## One step -/

section Steps

variable {s : Pipe} (h : s.Inv)
include h

theorem Inv.sinkSnapshot {data : List UInt8} (hs : s.sink = .start data) :
    (s.sinkSnapshot data).Inv := by
  have hcap := h.capacity_pos
  have hpending : s.sink.pending = [] := by rw [hs]; rfl
  have hwindow := h.window
  have hroom : s.accepted.length < s.returned.length + s.capacity := by
    have := h.bound
    omega
  obtain ⟨hfits, hlen⟩ := sinkFree_fits h.returned_prefix.length_le hroom
  rw [← h.readOffset, ← h.writeOffset] at hfits hlen
  rw [hpending] at hwindow
  unfold Pipe.sinkSnapshot
  split_ifs
  · exact ⟨h.pow, h.readOffset, h.writeOffset, h.bound, hwindow, h.order, nofun, nofun, h.read⟩
  · refine ⟨h.pow, h.readOffset, h.writeOffset, h.bound, hwindow, h.order, nofun, ?_, h.read⟩
    intro data' readOffset span copied heq
    cases heq
    have hpos := Span.clamp_length_pos _ ‹_› (List.length_pos_of_ne_nil (h.start _ hs))
    refine ⟨hfits.clamp _, hpos, Nat.zero_le _, Span.clamp_length_le_len _ _, ?_⟩
    exact hlen ▸ Nat.add_le_add_left (Span.clamp_length_le _ _) _

theorem Inv.sinkCopy {data : List UInt8} {readOffset : ℕ} {span : Span} {copied : ℕ}
    (hs : s.sink = .copy data readOffset span copied) :
    (s.sinkCopy data readOffset span copied).Inv := by
  have hcap := h.capacity_pos
  have hclaim := h.sink _ _ _ _ hs
  have hpending : s.sink.pending = data.take copied := by rw [hs]; rfl
  have hwindow := h.window
  have hcopied := hclaim.copied
  have hlength := hclaim.length
  have hroom := hclaim.room
  rw [hpending] at hwindow
  unfold Pipe.sinkCopy
  split_ifs with hlt
  · have htotal : (s.accepted ++ data.take copied).length = s.accepted.length + copied := by
      rw [List.length_append, List.length_take, Nat.min_eq_left (by omega)]
    have hpush := hwindow.push (by omega) (data.getD copied 0)
    rw [htotal, ← hclaim.fits.address hlt, List.append_assoc,
      List.getD_eq_getElem _ _ (by omega), List.take_append_getElem] at hpush
    rw [List.getD_eq_getElem _ _ (by omega)]
    refine ⟨h.pow, h.readOffset, h.writeOffset, h.bound, hpush, h.order, nofun, ?_, h.read⟩
    intro data' readOffset' span' copied' heq
    cases heq
    exact ⟨hclaim.fits, hclaim.pos, hlt, hlength, hroom⟩
  · have hall : copied = span.length := Nat.le_antisymm hcopied (Nat.not_lt.mp hlt)
    have hlen : (s.accepted ++ data.take span.length).length =
        s.accepted.length + span.length := by
      rw [List.length_append, List.length_take, Nat.min_eq_left hlength]
    obtain ⟨k, hk⟩ := h.pow
    rw [hall] at hwindow
    refine ⟨⟨k, hk⟩, h.readOffset, ?_, ?_, ?_, ?_, nofun, nofun, ?_⟩
    · show span.next s.capacity = (s.accepted ++ data.take span.length).length % s.capacity
      rw [hlen]
      exact hclaim.fits.next hk
    · show (s.accepted ++ data.take span.length).length ≤ _
      rw [hlen]
      exact hroom
    · show Window s.buffer s.capacity (s.accepted ++ data.take span.length ++ []) _
      rwa [List.append_nil]
    · exact h.order.trans (List.prefix_append _ _)
    · intro span' got heq
      have hread := h.read span' got heq
      refine ⟨hread.fits, hread.got, Nat.le_trans hread.stored ?_⟩
      show s.accepted.length ≤ (s.accepted ++ data.take span.length).length
      exact hlen ▸ Nat.le_add_right _ _

theorem Inv.sinkPost {readOffset writeOffset result : ℕ}
    (hs : s.sink = .post readOffset writeOffset result) :
    (s.sinkPost readOffset writeOffset).Inv := by
  have hpending : s.sink.pending = [] := by rw [hs]; rfl
  have hwindow := h.window
  rw [hpending] at hwindow
  unfold Pipe.sinkPost
  split_ifs <;>
    exact ⟨h.pow, h.readOffset, h.writeOffset, h.bound, hwindow, h.order, nofun, nofun, h.read⟩

theorem Inv.readSnapshot (len : ℕ) : (s.readSnapshot len).Inv := by
  have hroom : s.accepted.length < s.returned.length + s.capacity := by
    have := h.bound
    have := h.capacity_pos
    omega
  have horder : s.returned ++ [] <+: s.accepted := by
    rw [List.append_nil]
    exact h.returned_prefix
  obtain ⟨hfits, hlen⟩ := readAvail_fits h.returned_prefix.length_le hroom
  rw [← h.readOffset, ← h.writeOffset] at hfits hlen
  unfold Pipe.readSnapshot
  split_ifs
  · exact ⟨h.pow, h.readOffset, h.writeOffset, h.bound, h.window, horder, h.start, h.sink, nofun⟩
  · refine ⟨h.pow, h.readOffset, h.writeOffset, h.bound, h.window, horder, h.start, h.sink, ?_⟩
    intro span got heq
    cases heq
    refine ⟨hfits.clamp _, Nat.zero_le _, ?_⟩
    calc s.returned.length + _ ≤ s.returned.length + _ :=
          Nat.add_le_add_left (Span.clamp_length_le _ _) _
      _ = s.accepted.length := hlen

theorem Inv.readCopy {span : Span} {got : List UInt8} (hs : s.read = .copy span got) :
    (s.readCopy span got).Inv := by
  have hclaim := h.read _ _ hs
  have hgot := hclaim.got
  have hstored := hclaim.stored
  have horder : s.returned ++ got <+: s.accepted := by
    have := h.order
    rwa [hs] at this
  have htotal : (s.returned ++ got).length = s.returned.length + got.length := List.length_append
  unfold Pipe.readCopy
  split_ifs with hlt
  · have hwindow : Window s.buffer s.capacity s.accepted s.returned.length :=
      h.window.of_prefix (List.prefix_append _ _)
    have hnext := hwindow.snoc_prefix horder (by omega) (by omega)
    rw [htotal, ← hclaim.fits.address hlt, List.append_assoc] at hnext
    refine ⟨h.pow, h.readOffset, h.writeOffset, h.bound, h.window, hnext, h.start, h.sink, ?_⟩
    intro span' got' heq
    cases heq
    refine ⟨hclaim.fits, ?_, hstored⟩
    rw [List.length_append]
    exact hlt
  · have hall : got.length = span.length := Nat.le_antisymm hgot (Nat.not_lt.mp hlt)
    obtain ⟨k, hk⟩ := h.pow
    refine ⟨⟨k, hk⟩, ?_, h.writeOffset, ?_, ?_, ?_, h.start, ?_, nofun⟩
    · show span.next s.capacity = (s.returned ++ got).length % s.capacity
      rw [htotal, hall]
      exact hclaim.fits.next hk
    · refine Nat.le_trans h.bound (Nat.add_le_add_right ?_ _)
      exact htotal ▸ Nat.le_add_right _ _
    · exact h.window.advance (htotal ▸ Nat.le_add_right _ _)
    · show s.returned ++ got ++ [] <+: _
      rwa [List.append_nil]
    · intro data readOffset span' copied heq
      have hsink := h.sink _ _ _ _ heq
      refine ⟨hsink.fits, hsink.pos, hsink.copied, hsink.length, Nat.le_trans hsink.room ?_⟩
      exact Nat.add_le_add_right (htotal ▸ Nat.le_add_right _ _) _

/-- A step of the sink. -/
theorem Inv.sinkStep {t : Pipe} (ht : s.sinkStep = some t) : t.Inv := by
  unfold Pipe.sinkStep at ht
  split at ht
  · cases ht
  · cases ht; exact h.sinkSnapshot ‹_›
  · cases ht; exact h.sinkCopy ‹_›
  · cases ht; exact h.sinkPost ‹_›

/-- A step of the reader. -/
theorem Inv.readStep {t : Pipe} (ht : s.readStep = some t) : t.Inv := by
  unfold Pipe.readStep at ht
  split at ht
  · cases ht
  · cases ht; exact h.readSnapshot _
  · split_ifs at ht
    cases ht
    have horder := h.order
    rw [‹s.read = _›] at horder
    exact ⟨h.pow, h.readOffset, h.writeOffset, h.bound, h.window, horder, h.start, h.sink, nofun⟩
  · cases ht; exact h.readCopy ‹_›

theorem Inv.step {t : Pipe} {e : PipeEvent} (ht : s.step e = some t) : t.Inv := by
  cases e with
  | callSink data =>
    simp only [Pipe.step] at ht
    split_ifs at ht with hcall
    cases ht
    have hwindow := h.window
    rw [hcall.1] at hwindow
    refine ⟨h.pow, h.readOffset, h.writeOffset, h.bound, hwindow, h.order, ?_, nofun, h.read⟩
    intro data' heq
    cases heq
    exact hcall.2
  | sink => exact h.sinkStep ht
  | callRead len =>
    simp only [Pipe.step] at ht
    split_ifs at ht with hcall
    cases ht
    have horder := h.order
    rw [hcall.1] at horder
    exact ⟨h.pow, h.readOffset, h.writeOffset, h.bound, h.window, horder, h.start, h.sink, nofun⟩
  | read => exact h.readStep ht

end Steps

/-! ## The FIFO -/

/-- The cell that the sink is about to write. -/
def sinkTarget (s : Pipe) : Option ℕ :=
  match s.sink with
  | .copy _ _ span copied => if copied < span.length then some (span.address copied) else none
  | _ => none

/-- The cell that the reader is about to read. -/
def readTarget (s : Pipe) : Option ℕ :=
  match s.read with
  | .copy span got => if got.length < span.length then some (span.address got.length) else none
  | _ => none

/-- What a lossless bounded FIFO is. The byte at position `i` of the accepted bytes has its place in
cell `i % capacity`. -/
structure Fifo (s : Pipe) : Prop where
  readOffset : s.readOffset < s.capacity
  writeOffset : s.writeOffset < s.capacity
  /-- At most `capacity - 1` bytes are stored. -/
  stored : s.accepted.length - s.returned.length ≤ s.capacity - 1
  /-- What has been returned are the first bytes that have been accepted. -/
  order : s.returned <+: s.accepted
  /-- The bytes that have not been returned are in their cells. -/
  kept : Window s.buffer s.capacity s.accepted s.returned.length
  /-- None of their cells is about to be overwritten. -/
  written : ∀ a, s.sinkTarget = some a →
    ∀ i, s.returned.length ≤ i → i < s.accepted.length → a ≠ i % s.capacity
  /-- Only their cells are about to be read. -/
  copied : ∀ a, s.readTarget = some a →
    ∃ i, s.returned.length ≤ i ∧ i < s.accepted.length ∧ a = i % s.capacity

theorem Inv.written {s : Pipe} (h : s.Inv) {a : ℕ} (ha : s.sinkTarget = some a) {i : ℕ}
    (hi : s.returned.length ≤ i) (hi' : i < s.accepted.length) : a ≠ i % s.capacity := by
  unfold sinkTarget at ha
  split at ha
  · split_ifs at ha with hlt
    cases ha
    have hclaim := h.sink _ _ _ _ ‹_›
    have hroom := hclaim.room
    have hcap := h.capacity_pos
    rw [hclaim.fits.address hlt]
    exact (mod_ne_of_lt (by omega) (by omega)).symm
  · cases ha

theorem Inv.copied {s : Pipe} (h : s.Inv) {a : ℕ} (ha : s.readTarget = some a) :
    ∃ i, s.returned.length ≤ i ∧ i < s.accepted.length ∧ a = i % s.capacity := by
  unfold readTarget at ha
  split at ha
  · split_ifs at ha with hlt
    cases ha
    have hclaim := h.read _ _ ‹_›
    have hstored := hclaim.stored
    exact ⟨_, Nat.le_add_right _ _, by omega, hclaim.fits.address hlt⟩
  · cases ha

theorem Inv.fifo {s : Pipe} (h : s.Inv) : s.Fifo where
  readOffset := h.readOffset ▸ Nat.mod_lt _ h.capacity_pos
  writeOffset := h.writeOffset ▸ Nat.mod_lt _ h.capacity_pos
  stored := Nat.sub_le_iff_le_add'.mpr h.bound
  order := h.returned_prefix
  kept := h.window.of_prefix (List.prefix_append _ _)
  written := fun _ ha _ => h.written ha
  copied := fun _ => h.copied

end Pipe

/-- **Pipes are lossless bounded FIFOs.** In every interleaving of a writer and a reader, for every
requested capacity. -/
theorem pipe_fifo {requested : UInt32} (h2 : 2 ≤ requested.toNat)
    (h30 : requested.toNat ≤ 2 ^ 30) {garbage : ℕ → UInt8} {es : List PipeEvent} {s : Pipe}
    (h : Path Pipe.step anyStep (Pipe.mkpipe requested garbage) es s) : s.Fifo := by
  have hinit : (Pipe.mkpipe requested garbage).Inv := by
    unfold Pipe.mkpipe
    rw [roundupPow2_toNat (by omega) (by omega)]
    exact Pipe.inv_create _ _
  exact (h.invariant hinit fun _ _ _ hs _ hstep => hs.step hstep).fifo

/-- A run of a pipe with four cells in which calls of both sides overlap. -/
def overlappingRun : List PipeEvent :=
  [.callSink [1, 2], .sink, .sink, .sink, .sink, .sink, .callRead 8, .read, .callSink [3, 4, 5],
    .read, .sink, .read, .sink, .read, .callRead 8, .sink, .sink, .read, .read]

theorem pipe_fifo_overlapping :
    ((exec Pipe.step anyStep (Pipe.mkpipe 3 fun _ => 0) overlappingRun).get (by decide)).Fifo :=
  pipe_fifo (by decide) (by decide) (path_get _)

end OlivePiccolo.Hostbridge
