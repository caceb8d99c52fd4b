import OlivePiccolo.Boot.Decompressor
import OlivePiccolo.Lz4hc.Format

/-!
# The decompressor on a block

Block by block, what the loop at `decompress_lz4` makes of the bytes of a sequence. `Decoding` says
what has been written, and which bytes are still on the flash; the length bytes, the literals and
the copies are runs of their own, and `run_sequence` puts them together.
-/

namespace OlivePiccolo.Boot

open StateTransition Lz4hc

/-! ## Accesses -/

/-- The address of a byte of the destination. -/
def addrOf (start : BitVec 32) (i : ℕ) : BitVec 32 := start + BitVec.ofNat 32 i

/-- The accesses write these bytes one after the other, and read only what they have written. -/
inductive Trace (start : BitVec 32) : List MemoryAccess → List UInt8 → Prop
  | nil : Trace start [] []
  | store {log : List MemoryAccess} {dest : List UInt8} (b : UInt8) : Trace start log dest →
      Trace start (log ++ [.store (addrOf start dest.length) b]) (dest ++ [b])
  | load {log : List MemoryAccess} {dest : List UInt8} {i : ℕ} : Trace start log dest →
      i < dest.length → Trace start (log ++ [.load (addrOf start i)]) dest

/-- The address and the byte of a store. -/
def MemoryAccess.stored : MemoryAccess → Option (BitVec 32 × UInt8)
  | store addr b => some (addr, b)
  | load _ => none

section Trace

variable {start : BitVec 32} {log : List MemoryAccess} {dest : List UInt8}

theorem Trace.stores (h : Trace start log dest) :
    log.filterMap MemoryAccess.stored = dest.mapIdx fun i b => (addrOf start i, b) := by
  induction h with
  | nil => rfl
  | store b _ ih =>
    rw [List.filterMap_append, ih, List.mapIdx_concat]
    rfl
  | load _ _ ih =>
    rw [List.filterMap_append, ih]
    exact List.append_nil _

theorem Trace.exists_store (h : Trace start log dest) {i : ℕ} (hi : i < dest.length) :
    ∃ b, MemoryAccess.store (addrOf start i) b ∈ log := by
  induction h with
  | nil => exact absurd hi (Nat.not_lt_zero i)
  | @store log dest b _ ih =>
    by_cases hold : i < dest.length
    · obtain ⟨b', hb'⟩ := ih hold
      exact ⟨b', List.mem_append_left _ hb'⟩
    · rw [List.length_append, List.length_singleton] at hi
      obtain rfl : i = dest.length := by omega
      exact ⟨b, List.mem_append_right _ List.mem_cons_self⟩
  | load _ _ ih =>
    obtain ⟨b', hb'⟩ := ih hi
    exact ⟨b', List.mem_append_left _ hb'⟩

/-- What is read has been written before. -/
theorem Trace.loads (h : Trace start log dest) {front back : List MemoryAccess} {addr : BitVec 32}
    (heq : log = front ++ .load addr :: back) : ∃ b, MemoryAccess.store addr b ∈ front := by
  induction h generalizing front back with
  | nil =>
    rw [eq_comm, List.append_eq_nil_iff] at heq
    exact absurd heq.2 (List.cons_ne_nil _ _)
  | @store log dest b _ ih =>
    rcases List.eq_nil_or_concat back with rfl | ⟨back, x, rfl⟩
    · obtain ⟨-, hlast⟩ := List.append_inj' heq rfl
      cases hlast
    · rw [List.concat_eq_append, ← List.cons_append, ← List.append_assoc] at heq
      exact ih (List.append_inj_left' heq rfl)
  | @load log dest i h hi ih =>
    rcases List.eq_nil_or_concat back with rfl | ⟨back, x, rfl⟩
    · obtain ⟨rfl, hlast⟩ := List.append_inj' heq rfl
      cases hlast
      exact h.exists_store hi
    · rw [List.concat_eq_append, ← List.cons_append, ← List.append_assoc] at heq
      exact ih (List.append_inj_left' heq rfl)

end Trace

/-! ## Where the decompressor is -/

/-- The bytes `dest` have been written, the others of the block are still on the flash. -/
structure Decoding (s₀ : Machine) (bytes dest rest : List UInt8) (s : Machine) : Prop where
  pPaddr : s.pPaddr = addrOf s₀.pPaddr dest.length
  paddrMend : s.paddrMend = s₀.paddrMend
  lz4_15 : s.lz4_15 = 15
  lz4_255 : s.lz4_255 = 255
  taken : ∃ front, bytes = front ++ rest ∧
    s.sent = s₀.sent ++ List.replicate (front.length + 1) 0 ∧
      s.received = s₀.received + front.length
  memory : ∀ a, s.memory a = (dest[(a - s₀.pPaddr).toNat]?).getD (s₀.memory a)
  accesses : ∃ log, s.accesses = s₀.accesses ++ log ∧ Trace s₀.pPaddr log dest

/-- The flash answers with these bytes from here on. -/
def Fed (flash : List UInt8 → UInt8) (s₀ : Machine) (bytes : List UInt8) : Prop :=
  ∀ k (h : k < bytes.length), flash (s₀.sent ++ List.replicate (k + 1) 0) = bytes[k]

section Decoding

variable {flash : List UInt8 → UInt8} {s₀ s s' : Machine} {bytes dest rest : List UInt8}
  {b : UInt8} {i : ℕ}

theorem addrOf_toNat {start : BitVec 32} (h : start.toNat + i < 2 ^ 32) :
    (addrOf start i).toNat = start.toNat + i := by
  rw [addrOf, BitVec.toNat_add, BitVec.toNat_ofNat]
  omega

theorem addrOf_add (start : BitVec 32) (i j : ℕ) :
    addrOf start i + BitVec.ofNat 32 j = addrOf start (i + j) := by
  rw [addrOf, addrOf, BitVec.add_assoc, ← BitVec.ofNat_add]

theorem sub_addrOf {start : BitVec 32} (h : i < 2 ^ 32) : (addrOf start i - start).toNat = i := by
  rw [addrOf, BitVec.add_comm, BitVec.add_sub_cancel, BitVec.toNat_ofNat, Nat.mod_eq_of_lt h]

/-- The other registers do not matter. -/
theorem Decoding.of_eq (h : Decoding s₀ bytes dest rest s) (hpaddr : s'.pPaddr = s.pPaddr)
    (hmend : s'.paddrMend = s.paddrMend) (h15 : s'.lz4_15 = s.lz4_15)
    (h255 : s'.lz4_255 = s.lz4_255) (hsent : s'.sent = s.sent)
    (hreceived : s'.received = s.received) (hmemory : s'.memory = s.memory)
    (haccesses : s'.accesses = s.accesses) :
    Decoding s₀ bytes dest rest s' where
  pPaddr := hpaddr.trans h.pPaddr
  paddrMend := hmend.trans h.paddrMend
  lz4_15 := h15.trans h.lz4_15
  lz4_255 := h255.trans h.lz4_255
  taken := by
    rw [hsent, hreceived]
    exact h.taken
  memory := by
    rw [hmemory]
    exact h.memory
  accesses := by
    rw [haccesses]
    exact h.accesses

/-- The next byte of the block. -/
theorem Decoding.receive (hfed : Fed flash s₀ bytes) (h : Decoding s₀ bytes dest (b :: rest) s) :
    (s.flashRxtxByte flash).spimRead = b.toBitVec.setWidth 32 ∧
      Decoding s₀ bytes dest rest (s.flashRxtxByte flash) := by
  obtain ⟨front, hbytes, hsent, hreceived⟩ := h.taken
  have hlt : front.length < bytes.length := by
    rw [hbytes, List.length_append, List.length_cons]
    omega
  have hbyte : bytes[front.length] = b := by
    have hget := congrArg (·[front.length]?) hbytes
    rw [List.getElem?_append_right (Nat.le_refl _), Nat.sub_self,
      List.getElem?_eq_getElem hlt] at hget
    exact Option.some.inj hget
  have hnext : flash s.sent = b := by
    rw [hsent, hfed front.length hlt, hbyte]
  constructor
  · show (flash s.sent).toBitVec.setWidth 32 = _
    rw [hnext]
  · refine ⟨h.pPaddr, h.paddrMend, h.lz4_15, h.lz4_255, ⟨front ++ [b], ?_, ?_, ?_⟩, h.memory,
      h.accesses⟩
    · rw [hbytes, List.append_assoc, List.singleton_append]
    · show s.sent ++ [0] = _
      rw [hsent, List.length_append, List.length_singleton, List.append_assoc,
        ← List.replicate_succ']
    · show s.received + 1 = _
      rw [hreceived, List.length_append, List.length_singleton, Nat.add_assoc]

/-- A byte is written. -/
theorem Decoding.store (h : Decoding s₀ bytes dest rest s)
    (hroom : s₀.pPaddr.toNat + dest.length < 2 ^ 32) (b : UInt8) :
    Decoding s₀ bytes (dest ++ [b]) rest
      { s.stb s.pPaddr b with pPaddr := s.pPaddr + 1 } := by
  obtain ⟨log, hlog, htrace⟩ := h.accesses
  refine ⟨?_, h.paddrMend, h.lz4_15, h.lz4_255, h.taken, fun a => ?_,
    ⟨log ++ [.store s.pPaddr b], ?_, ?_⟩⟩
  · show s.pPaddr + 1 = _
    rw [h.pPaddr, List.length_append, List.length_singleton, ← addrOf_add]
    rfl
  · show Function.update s.memory s.pPaddr b a = _
    by_cases ha : a = s.pPaddr
    · subst ha
      rw [Function.update_self, h.pPaddr, sub_addrOf (by omega),
        List.getElem?_append_right (Nat.le_refl _), Nat.sub_self]
      rfl
    · rw [Function.update_of_ne ha, h.memory a]
      have hne : (a - s₀.pPaddr).toNat ≠ dest.length := by
        intro heq
        apply ha
        rw [h.pPaddr, addrOf, ← heq, BitVec.ofNat_toNat, BitVec.setWidth_eq, BitVec.add_comm,
          BitVec.sub_add_cancel]
      congr 1
      by_cases hlt : (a - s₀.pPaddr).toNat < dest.length
      · rw [List.getElem?_append_left hlt]
      · rw [List.getElem?_eq_none (by omega), List.getElem?_eq_none (by
          rw [List.length_append, List.length_singleton]
          omega)]
  · show s.accesses ++ [_] = _
    rw [hlog, List.append_assoc]
  · rw [h.pPaddr]
    exact htrace.store b

/-- A byte that has been written is read. -/
theorem Decoding.load (h : Decoding s₀ bytes dest rest s)
    (hroom : s₀.pPaddr.toNat + dest.length < 2 ^ 32) (hi : i < dest.length) :
    s.memory (addrOf s₀.pPaddr i) = dest[i] ∧ Decoding s₀ bytes dest rest
      { s with accesses := s.accesses ++ [.load (addrOf s₀.pPaddr i)] } := by
  obtain ⟨log, hlog, htrace⟩ := h.accesses
  constructor
  · rw [h.memory, sub_addrOf (by omega), List.getElem?_eq_getElem hi]
    rfl
  · refine ⟨h.pPaddr, h.paddrMend, h.lz4_15, h.lz4_255, h.taken, h.memory,
      ⟨log ++ [.load (addrOf s₀.pPaddr i)], ?_, htrace.load hi⟩⟩
    show s.accesses ++ [_] = _
    rw [hlog, List.append_assoc]

end Decoding

/-! ## Runs of blocks -/

section Runs

variable {flash : List UInt8 → UInt8} {s₀ s : Machine} {bytes dest rest : List UInt8} {size : ℕ}

theorem setWidth_byte (b : UInt8) : (⟨(b.toBitVec.setWidth 32).setWidth 8⟩ : UInt8) = b := by
  apply UInt8.toBitVec_inj.mp
  apply BitVec.eq_of_toNat_eq
  have hlt := b.toBitVec.isLt
  show ((b.toBitVec.setWidth 32).setWidth 8).toNat = _
  rw [BitVec.toNat_setWidth, BitVec.toNat_setWidth]
  omega

/-- The bytes of a length are added to a register, in the two blocks that jump to themselves. -/
theorem run_length (hfed : Fed flash s₀ bytes) (here next : Label)
    (put : Machine → BitVec 32 → Machine)
    (hstep : ∀ s v, step flash (here, put s v) =
      some (if (s.flashRxtxByte flash).spimRead = s.lz4_255 then here else next,
        put (s.flashRxtxByte flash) (v + (s.flashRxtxByte flash).spimRead)))
    (k : ℕ) (hk : 15 ≤ k) (h : Decoding s₀ bytes dest (lengthBytes k ++ rest) s) (v : BitVec 32) :
    ∃ s', Decoding s₀ bytes dest rest s' ∧ s'.lz4Lit = s.lz4Lit ∧ s'.lz4Match = s.lz4Match ∧
      s'.lz4Window = s.lz4Window ∧
        Reaches (step flash) (here, put s v) (next, put s' (v + BitVec.ofNat 32 (k - 15))) := by
  induction k using Nat.strong_induction_on generalizing s v with
  | _ k ih =>
    by_cases hlong : 270 ≤ k
    · -- a byte of 255
      have hff : (255 : UInt8).toBitVec.setWidth 32 = BitVec.ofNat 32 255 := rfl
      rw [lengthBytes_step hlong] at h
      obtain ⟨hbyte, h'⟩ := h.receive hfed
      have hfirst := hstep s v
      rw [hbyte, h.lz4_255, hff, if_pos (show 255#32 = 255 from rfl)] at hfirst
      obtain ⟨s', hs', hlit, hmatch, hwindow, hreach⟩ := ih (k - 255) (by omega) (by omega) h'
        (v + BitVec.ofNat 32 255)
      refine ⟨s', hs', hlit, hmatch, hwindow, Relation.ReflTransGen.head hfirst ?_⟩
      rwa [BitVec.add_assoc, ← BitVec.ofNat_add,
        show 255 + (k - 255 - 15) = k - 15 by omega] at hreach
    · -- the last byte
      rw [lengthBytes_last hk (by omega)] at h
      obtain ⟨hbyte, h'⟩ := h.receive hfed
      have hvalue : (UInt8.ofNat (k - 15)).toBitVec.setWidth 32 = BitVec.ofNat 32 (k - 15) := by
        apply BitVec.eq_of_toNat_eq
        rw [BitVec.toNat_setWidth, BitVec.toNat_ofNat]
        change (k - 15) % 2 ^ 8 % 2 ^ 32 = _
        omega
      have hne : BitVec.ofNat 32 (k - 15) ≠ (255 : BitVec 32) := by
        intro heq
        have hnat := congrArg BitVec.toNat heq
        rw [BitVec.toNat_ofNat] at hnat
        change (k - 15) % 2 ^ 32 = 255 at hnat
        omega
      have hlast := hstep s v
      rw [hbyte, hvalue, h.lz4_255, if_neg hne] at hlast
      exact ⟨s.flashRxtxByte flash, h', rfl, rfl, rfl, .single hlast⟩

theorem addrOf_lt_iff (start : BitVec 32) {i j : ℕ} (hi : start.toNat + i < 2 ^ 32)
    (hj : start.toNat + j < 2 ^ 32) : addrOf start i < addrOf start j ↔ i < j := by
  rw [BitVec.lt_def, addrOf_toNat hi, addrOf_toNat hj]
  omega

theorem addrOf_inj (start : BitVec 32) {i j : ℕ} (hi : start.toNat + i < 2 ^ 32)
    (hj : start.toNat + j < 2 ^ 32) : addrOf start i = addrOf start j ↔ i = j := by
  rw [← BitVec.toNat_inj, addrOf_toNat hi, addrOf_toNat hj]
  omega

/-- The literals are copied. Behind them is the test of the end. -/
theorem run_literals (hfed : Fed flash s₀ bytes) (hroom : s₀.pPaddr.toNat + size < 2 ^ 32)
    (hmend : s₀.paddrMend = addrOf s₀.pPaddr size) (literals : List UInt8) (hne : literals ≠ [])
    (h : Decoding s₀ bytes dest (literals ++ rest) s)
    (hlit : s.lz4Lit = addrOf s₀.pPaddr (dest.length + literals.length))
    (hle : dest.length + literals.length ≤ size) :
    ∃ s', Decoding s₀ bytes (dest ++ literals) rest s' ∧ s'.lz4Match = s.lz4Match ∧
      Reaches (step flash) (.copyLiteral, s)
        (if dest.length + literals.length = size then .nextProgramHeader else .readOffset, s') := by
  induction literals generalizing dest s with
  | nil => exact absurd rfl hne
  | cons b l ih =>
    rw [List.length_cons] at hlit hle
    obtain ⟨hbyte, h'⟩ := h.receive hfed
    have hstore := h'.store (by omega) b
    have hpaddr := hstore.pPaddr
    rw [List.length_append, List.length_singleton] at hpaddr
    have hstep : step flash (.copyLiteral, s) = some
        (if addrOf s₀.pPaddr (dest.length + 1) < s.lz4Lit then .copyLiteral
          else if addrOf s₀.pPaddr (dest.length + 1) = s.paddrMend then .nextProgramHeader
          else .readOffset,
        { (s.flashRxtxByte flash).stb (s.flashRxtxByte flash).pPaddr b with
          pPaddr := (s.flashRxtxByte flash).pPaddr + 1 }) := by
      rw [← hpaddr, ← setWidth_byte b, ← hbyte]
      rfl
    have hlt := addrOf_lt_iff s₀.pPaddr (show _ + (dest.length + 1) < _ by omega)
      (show _ + (dest.length + (l.length + 1)) < _ by omega)
    have heq := addrOf_inj s₀.pPaddr (show _ + (dest.length + 1) < _ by omega) hroom
    rw [hlit, h.paddrMend, hmend] at hstep
    rcases List.eq_nil_or_concat l with hl | ⟨_, _, hl⟩
    · subst hl
      rw [if_neg fun hless => absurd (hlt.mp hless) (Nat.lt_irrefl _)] at hstep
      simp only [heq] at hstep
      exact ⟨_, hstore, rfl, .single hstep⟩
    · have hmore : l ≠ [] := by
        rw [hl, List.concat_eq_append]
        exact List.append_ne_nil_of_right_ne_nil _ (List.cons_ne_nil _ _)
      have hpos := List.length_pos_of_ne_nil hmore
      rw [if_pos (hlt.mpr (by omega))] at hstep
      have hsum : (dest ++ [b]).length + l.length = dest.length + (l.length + 1) := by
        rw [List.length_append, List.length_singleton]
        omega
      obtain ⟨s', hs', hmatch, hreach⟩ := ih hmore hstore (by rw [hsum]; exact hlit) (by omega)
      rw [hsum] at hreach
      rw [List.append_assoc] at hs'
      exact ⟨s', hs', hmatch, Relation.ReflTransGen.head hstep hreach⟩

/-- The copy runs from `offset` back; it may run into what it writes itself. -/
theorem run_copyMatch (hroom : s₀.pPaddr.toNat + size < 2 ^ 32) {offset : ℕ} (hpos : 0 < offset)
    (n : ℕ) (hn : 0 < n) (h : Decoding s₀ bytes dest rest s) (hoffset : offset ≤ dest.length)
    (hle : dest.length + n ≤ size)
    (hwindow : s.lz4Window = addrOf s₀.pPaddr (dest.length - offset))
    (hmatch : s.lz4Match = addrOf s₀.pPaddr (dest.length - offset + n)) :
    ∃ s', Decoding s₀ bytes (Lz77.copyMatch offset n dest) rest s' ∧
      Reaches (step flash) (.copyMatch, s) (.readToken, s') := by
  induction n generalizing dest s with
  | zero => omega
  | succ n ih =>
    have hsource : dest.length - offset < dest.length := by omega
    obtain ⟨hbyte, h'⟩ := h.load (by omega) hsource
    rw [← hwindow] at hbyte h'
    have hnext : s.lz4Window + 1 = addrOf s₀.pPaddr (dest.length - offset + 1) := by
      rw [hwindow, ← addrOf_add]
      rfl
    have hlt := addrOf_lt_iff s₀.pPaddr (show _ + (dest.length - offset + 1) < _ by omega)
      (show _ + (dest.length - offset + (n + 1)) < _ by omega)
    have hstore := h'.store (by omega) dest[dest.length - offset]
    have hnew : Decoding s₀ bytes (dest ++ [dest[dest.length - offset]]) rest
        { ({ s with accesses := s.accesses ++ [.load s.lz4Window] } : Machine).stb s.pPaddr
            dest[dest.length - offset] with
          lz4Window := s.lz4Window + 1
          pPaddr := s.pPaddr + 1 } := hstore.of_eq rfl rfl rfl rfl rfl rfl rfl rfl
    have hstep : step flash (.copyMatch, s) = some
        (if s.lz4Window + 1 < s.lz4Match then .copyMatch else .readToken,
          { ({ s with accesses := s.accesses ++ [.load s.lz4Window] } : Machine).stb s.pPaddr
              dest[dest.length - offset] with
            lz4Window := s.lz4Window + 1
            pPaddr := s.pPaddr + 1 }) := by
      rw [← hbyte]
      rfl
    have hdest : dest ++ dest[dest.length - offset]?.toList =
        dest ++ [dest[dest.length - offset]] := by
      rw [List.getElem?_eq_getElem hsource]
      rfl
    rw [Lz77.copyMatch, hdest]
    by_cases hlast : n = 0
    · subst hlast
      have hstop : ¬ s.lz4Window + 1 < s.lz4Match := by
        rw [hnext, hmatch, hlt]
        omega
      rw [if_neg hstop] at hstep
      exact ⟨_, hnew, .single hstep⟩
    · have hgo : s.lz4Window + 1 < s.lz4Match := by
        rw [hnext, hmatch, hlt]
        omega
      rw [if_pos hgo] at hstep
      have hlength : (dest ++ [dest[dest.length - offset]]).length = dest.length + 1 := by
        rw [List.length_append, List.length_singleton]
      have hback : dest.length + 1 - offset = dest.length - offset + 1 := by omega
      obtain ⟨s', hs', hreach⟩ := ih (by omega) hnew (by omega) (by omega)
        (by rw [hlength, hback]; exact hnext)
        (by rw [hlength, hback, Nat.add_assoc, Nat.add_comm 1 n]; exact hmatch)
      exact ⟨s', hs', Relation.ReflTransGen.head hstep hreach⟩

/-- The two lengths of a token. -/
theorem token_fields (literals copied : ℕ) :
    (token literals copied).toBitVec.setWidth 32 >>> 4 = BitVec.ofNat 32 (min literals 15) ∧
      (token literals copied).toBitVec.setWidth 32 &&& (15 : BitVec 32) =
        BitVec.ofNat 32 (min copied 15) := by
  have hvalue : ((token literals copied).toBitVec.setWidth 32).toNat =
      min literals 15 * 16 + min copied 15 := by
    rw [BitVec.toNat_setWidth]
    change (min literals 15 * 16 + min copied 15) % 2 ^ 8 % 2 ^ 32 = _
    omega
  constructor
  · apply BitVec.eq_of_toNat_eq
    rw [BitVec.toNat_ushiftRight, hvalue, BitVec.toNat_ofNat, Nat.shiftRight_eq_div_pow]
    omega
  · apply BitVec.eq_of_toNat_eq
    rw [BitVec.toNat_and, hvalue, BitVec.toNat_ofNat]
    change (min literals 15 * 16 + min copied 15) &&& (2 ^ 4 - 1) = _
    rw [Nat.and_two_pow_sub_one_eq_mod]
    omega

/-- The token, and the number of literals. -/
theorem run_literalLength (hfed : Fed flash s₀ bytes) {n copied : ℕ}
    (h : Decoding s₀ bytes dest (token n copied :: (lengthBytes n ++ rest)) s) :
    ∃ s', Decoding s₀ bytes dest rest s' ∧ s'.lz4Lit = BitVec.ofNat 32 n ∧
      s'.lz4Match = BitVec.ofNat 32 (min copied 15) ∧
        Reaches (step flash) (.readToken, s) (.readLiteral, s') := by
  obtain ⟨hbyte, h'⟩ := h.receive hfed
  obtain ⟨hlit, hmatch⟩ := token_fields n copied
  have hstep : step flash (.readToken, s) = some
      (if BitVec.ofNat 32 (min n 15) ≠ 15 then .readLiteral else .moreLiteralLength,
        { s.flashRxtxByte flash with
          lz4Lit := BitVec.ofNat 32 (min n 15)
          lz4Match := BitVec.ofNat 32 (min copied 15) }) := by
    rw [← hlit, ← hmatch, ← hbyte, ← h.lz4_15]
    rfl
  by_cases hshort : n < 15
  · have hne : BitVec.ofNat 32 (min n 15) ≠ 15 := by
      intro heq
      have hnat := congrArg BitVec.toNat heq
      rw [BitVec.toNat_ofNat] at hnat
      change min n 15 % 2 ^ 32 = 15 at hnat
      omega
    rw [if_pos hne] at hstep
    rw [lengthBytes, if_pos hshort] at h'
    have hnew : Decoding s₀ bytes dest rest { s.flashRxtxByte flash with
        lz4Lit := BitVec.ofNat 32 (min n 15)
        lz4Match := BitVec.ofNat 32 (min copied 15) } :=
      h'.of_eq rfl rfl rfl rfl rfl rfl rfl rfl
    exact ⟨_, hnew, congrArg (BitVec.ofNat 32) (Nat.min_eq_left (Nat.le_of_lt hshort)), rfl,
      .single hstep⟩
  · rw [Nat.min_eq_right (Nat.le_of_not_lt hshort), if_neg (not_not.mpr (show 15#32 = 15 from rfl))]
      at hstep
    have hread : Decoding s₀ bytes dest (lengthBytes n ++ rest)
        { s.flashRxtxByte flash with lz4Match := BitVec.ofNat 32 (min copied 15) } :=
      h'.of_eq rfl rfl rfl rfl rfl rfl rfl rfl
    obtain ⟨s', hs', -, hmatch', -, hreach⟩ := run_length hfed .moreLiteralLength .readLiteral
      (fun s v => { s with lz4Lit := v }) (fun _ _ => rfl) n (Nat.le_of_not_lt hshort) hread 15#32
    have hsum : 15#32 + BitVec.ofNat 32 (n - 15) = BitVec.ofNat 32 n := by
      rw [← BitVec.ofNat_add, Nat.add_sub_cancel' (Nat.le_of_not_lt hshort)]
    have hnew : Decoding s₀ bytes dest rest
        { s' with lz4Lit := 15#32 + BitVec.ofNat 32 (n - 15) } :=
      hs'.of_eq rfl rfl rfl rfl rfl rfl rfl rfl
    exact ⟨_, hnew, hsum, hmatch', Relation.ReflTransGen.head hstep hreach⟩

/-- The literals; only behind some of them is the test of the end. -/
theorem run_literal (hfed : Fed flash s₀ bytes) (hroom : s₀.pPaddr.toNat + size < 2 ^ 32)
    (hmend : s₀.paddrMend = addrOf s₀.pPaddr size) {literals : List UInt8}
    (h : Decoding s₀ bytes dest (literals ++ rest) s)
    (hlit : s.lz4Lit = BitVec.ofNat 32 literals.length)
    (hle : dest.length + literals.length ≤ size) :
    ∃ s', Decoding s₀ bytes (dest ++ literals) rest s' ∧ s'.lz4Match = s.lz4Match ∧
      Reaches (step flash) (.readLiteral, s)
        (if literals ≠ [] ∧ dest.length + literals.length = size then .nextProgramHeader
          else .readOffset, s') := by
  have hend : s.lz4Lit + s.pPaddr = addrOf s₀.pPaddr (dest.length + literals.length) := by
    rw [hlit, h.pPaddr, BitVec.add_comm, addrOf_add]
  have hstep : step flash (.readLiteral, s) = some
      (if s.pPaddr = s.lz4Lit + s.pPaddr then .readOffset else .copyLiteral,
        { s with lz4Lit := s.lz4Lit + s.pPaddr }) := rfl
  have heq := addrOf_inj s₀.pPaddr (show _ + dest.length < _ by omega)
    (show _ + (dest.length + literals.length) < _ by omega)
  by_cases hnil : literals = []
  · subst hnil
    rw [if_pos (by rw [hend, h.pPaddr]; rfl)] at hstep
    have hnew : Decoding s₀ bytes dest rest { s with lz4Lit := s.lz4Lit + s.pPaddr } :=
      h.of_eq rfl rfl rfl rfl rfl rfl rfl rfl
    rw [if_neg fun hboth => hboth.1 rfl, List.append_nil]
    exact ⟨_, hnew, rfl, .single hstep⟩
  · have hpos := List.length_pos_of_ne_nil hnil
    rw [if_neg (by rw [hend, h.pPaddr, heq]; omega)] at hstep
    have hnew : Decoding s₀ bytes dest (literals ++ rest)
        { s with lz4Lit := s.lz4Lit + s.pPaddr } := h.of_eq rfl rfl rfl rfl rfl rfl rfl rfl
    obtain ⟨s', hs', hmatch, hreach⟩ := run_literals hfed hroom hmend literals hnil hnew hend hle
    simp only [ne_eq, hnil, not_false_eq_true, true_and]
    exact ⟨s', hs', hmatch, Relation.ReflTransGen.head hstep hreach⟩

/-- The offset, and the length of the copy. -/
theorem run_offset (hfed : Fed flash s₀ bytes) (hroom : s₀.pPaddr.toNat + dest.length < 2 ^ 32)
    {offset copied : ℕ} (hoffset : offset ≤ dest.length) (hlt : offset < 2 ^ 16)
    (h : Decoding s₀ bytes dest (leBytes 2 offset ++ (lengthBytes copied ++ rest)) s)
    (hmatch : s.lz4Match = BitVec.ofNat 32 (min copied 15)) :
    ∃ s', Decoding s₀ bytes dest rest s' ∧ s'.lz4Match = BitVec.ofNat 32 copied ∧
      s'.lz4Window = addrOf s₀.pPaddr (dest.length - offset) ∧
        Reaches (step flash) (.readOffset, s) (.adjustMatch, s') := by
  have hbytes : leBytes 2 offset = [UInt8.ofNat offset, UInt8.ofNat (offset / 256)] := rfl
  rw [hbytes] at h
  obtain ⟨hlow, h₁⟩ := h.receive hfed
  have hwindow₁ : Decoding s₀ bytes dest
      (UInt8.ofNat (offset / 256) :: (lengthBytes copied ++ rest)) { s.flashRxtxByte flash with
        lz4Window := s.pPaddr - (UInt8.ofNat offset).toBitVec.setWidth 32 } :=
    h₁.of_eq rfl rfl rfl rfl rfl rfl rfl rfl
  obtain ⟨hhigh, h₂⟩ := hwindow₁.receive hfed
  -- the two bytes are subtracted one after the other
  have hback : s.pPaddr - (UInt8.ofNat offset).toBitVec.setWidth 32 -
      (UInt8.ofNat (offset / 256)).toBitVec.setWidth 32 <<< 8 =
        addrOf s₀.pPaddr (dest.length - offset) := by
    have hlow' : ((UInt8.ofNat offset).toBitVec.setWidth 32).toNat = offset % 256 := by
      rw [BitVec.toNat_setWidth]
      change offset % 2 ^ 8 % 2 ^ 32 = _
      omega
    have hhigh' : ((UInt8.ofNat (offset / 256)).toBitVec.setWidth 32 <<< 8).toNat =
        offset / 256 * 256 := by
      rw [BitVec.toNat_shiftLeft, BitVec.toNat_setWidth, Nat.shiftLeft_eq]
      change offset / 256 % 2 ^ 8 % 2 ^ 32 * 2 ^ 8 % 2 ^ 32 = _
      omega
    apply BitVec.eq_of_toNat_eq
    rw [BitVec.toNat_sub, BitVec.toNat_sub, hlow', hhigh', h.pPaddr, addrOf_toNat hroom,
      addrOf_toNat (by omega)]
    omega
  obtain ⟨s₂, hs₂, hmatch₂, hwindow₂, hstep⟩ : ∃ s₂,
      Decoding s₀ bytes dest (lengthBytes copied ++ rest) s₂ ∧
        s₂.lz4Match = BitVec.ofNat 32 (min copied 15) ∧
          s₂.lz4Window = addrOf s₀.pPaddr (dest.length - offset) ∧
            step flash (.readOffset, s) = some
              (if BitVec.ofNat 32 (min copied 15) ≠ 15 then .adjustMatch else .moreMatchLength,
                s₂) := by
    refine ⟨{ (({ s.flashRxtxByte flash with
        lz4Window := s.pPaddr - (UInt8.ofNat offset).toBitVec.setWidth 32 } :
          Machine).flashRxtxByte flash) with
        spimRead := (UInt8.ofNat (offset / 256)).toBitVec.setWidth 32 <<< 8
        lz4Window := addrOf s₀.pPaddr (dest.length - offset) },
      h₂.of_eq rfl rfl rfl rfl rfl rfl rfl rfl, hmatch, rfl, ?_⟩
    rw [← hback, ← hhigh, ← hlow, ← hmatch, ← h.lz4_15]
    rfl
  by_cases hshort : copied < 15
  · have hne : BitVec.ofNat 32 (min copied 15) ≠ 15 := by
      intro heq
      have hnat := congrArg BitVec.toNat heq
      rw [BitVec.toNat_ofNat] at hnat
      change min copied 15 % 2 ^ 32 = 15 at hnat
      omega
    rw [if_pos hne] at hstep
    rw [lengthBytes, if_pos hshort] at hs₂
    rw [Nat.min_eq_left (Nat.le_of_lt hshort)] at hmatch₂
    exact ⟨s₂, hs₂, hmatch₂, hwindow₂, .single hstep⟩
  · rw [Nat.min_eq_right (Nat.le_of_not_lt hshort)] at hstep hmatch₂
    rw [if_neg (not_not.mpr (show 15#32 = 15 from rfl))] at hstep
    obtain ⟨s', hs', -, -, hwindow', hreach⟩ := run_length hfed .moreMatchLength .adjustMatch
      (fun s v => { s with lz4Match := v }) (fun _ _ => rfl) copied (Nat.le_of_not_lt hshort) hs₂
      s₂.lz4Match
    have hsum : s₂.lz4Match + BitVec.ofNat 32 (copied - 15) = BitVec.ofNat 32 copied := by
      rw [hmatch₂, ← BitVec.ofNat_add, Nat.add_sub_cancel' (Nat.le_of_not_lt hshort)]
    have hnew : Decoding s₀ bytes dest rest
        { s' with lz4Match := s₂.lz4Match + BitVec.ofNat 32 (copied - 15) } :=
      hs'.of_eq rfl rfl rfl rfl rfl rfl rfl rfl
    exact ⟨_, hnew, hsum, hwindow'.trans hwindow₂, Relation.ReflTransGen.head hstep hreach⟩

/-- The copy, from its length on. -/
theorem run_adjustMatch (hroom : s₀.pPaddr.toNat + size < 2 ^ 32) {offset n : ℕ}
    (hpos : 0 < offset) (h : Decoding s₀ bytes dest rest s) (hoffset : offset ≤ dest.length)
    (hn : 4 ≤ n) (hle : dest.length + n ≤ size)
    (hmatch : s.lz4Match = BitVec.ofNat 32 (n - 4))
    (hwindow : s.lz4Window = addrOf s₀.pPaddr (dest.length - offset)) :
    ∃ s', Decoding s₀ bytes (Lz77.copyMatch offset n dest) rest s' ∧
      Reaches (step flash) (.adjustMatch, s) (.readToken, s') := by
  have hend : s.lz4Match + 4 + s.lz4Window = addrOf s₀.pPaddr (dest.length - offset + n) := by
    have hfour : (4 : BitVec 32) = BitVec.ofNat 32 4 := rfl
    rw [hmatch, hwindow, BitVec.add_comm, ← addrOf_add, hfour, ← BitVec.ofNat_add,
      Nat.sub_add_cancel hn]
  have hstep : step flash (.adjustMatch, s) =
      some (.copyMatch, { s with lz4Match := s.lz4Match + 4 + s.lz4Window }) := rfl
  have hnew : Decoding s₀ bytes dest rest { s with lz4Match := s.lz4Match + 4 + s.lz4Window } :=
    h.of_eq rfl rfl rfl rfl rfl rfl rfl rfl
  obtain ⟨s', hs', hreach⟩ := run_copyMatch hroom hpos n (by omega) hnew hoffset hle hwindow hend
  exact ⟨s', hs', Relation.ReflTransGen.head hstep hreach⟩

/-- **A sequence.** -/
theorem run_sequence (hfed : Fed flash s₀ bytes) (hroom : s₀.pPaddr.toNat + size < 2 ^ 32)
    (hmend : s₀.paddrMend = addrOf s₀.pPaddr size) {q : Lz77.Sequence UInt8} (hq : Encodable q)
    (hoffset : q.offset ≤ (dest ++ q.literals).length)
    (hle : (dest ++ q.literals).length + q.length ≤ size)
    (h : Decoding s₀ bytes dest (sequenceBytes q ++ rest) s) :
    ∃ s', Decoding s₀ bytes (q.expand dest) rest s' ∧
      Reaches (step flash) (.readToken, s) (.readToken, s') := by
  have hge := hq.length_ge
  have hlt := hq.offset_le
  rw [List.length_append] at hoffset hle
  simp only [sequenceBytes, List.cons_append, List.append_assoc] at h
  obtain ⟨s₁, h₁, hlit, hmatch, hreach₁⟩ := run_literalLength hfed h
  obtain ⟨s₂, h₂, hmatch₂, hreach₂⟩ := run_literal hfed hroom hmend h₁ hlit (by omega)
  rw [if_neg fun hboth => by have := hboth.2; omega] at hreach₂
  obtain ⟨s₃, h₃, hmatch₃, hwindow₃, hreach₃⟩ := run_offset hfed
    (show _ + (dest ++ q.literals).length < _ by rw [List.length_append]; omega)
    (show _ ≤ (dest ++ q.literals).length by rw [List.length_append]; exact hoffset) (by omega) h₂
    (hmatch₂.trans hmatch)
  obtain ⟨s₄, h₄, hreach₄⟩ := run_adjustMatch hroom hq.offset_pos h₃
    (by rw [List.length_append]; exact hoffset) hge (by rw [List.length_append]; exact hle) hmatch₃
    hwindow₃
  exact ⟨s₄, h₄, ((hreach₁.trans hreach₂).trans hreach₃).trans hreach₄⟩

end Runs

end OlivePiccolo.Boot
