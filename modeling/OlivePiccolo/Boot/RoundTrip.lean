import OlivePiccolo.Boot.Decoding
import OlivePiccolo.Lz4hc.RoundTrip

/-!
# From the compressor to the boot loader

The loop at `decompress_lz4` does not know how many bytes there are to read. It stops behind
literals that end where the segment ends; and what `LZ4_compress` writes ends with literals, unless
it is empty (`decompress_undoes_compress`).
-/

namespace OlivePiccolo.Boot

open StateTransition Lz4hc

section Block

variable {flash : List UInt8 → UInt8} {s₀ s : Machine} {bytes dest rest last : List UInt8}
  {size : ℕ}

/-- The last literals. -/
theorem run_last (hfed : Fed flash s₀ bytes) (hroom : s₀.pPaddr.toNat + size < 2 ^ 32)
    (hmend : s₀.paddrMend = addrOf s₀.pPaddr size) (hlast : last ≠ [])
    (hsize : dest.length + last.length = size)
    (h : Decoding s₀ bytes dest (lastBytes last ++ rest) s) :
    ∃ s', Decoding s₀ bytes (dest ++ last) rest s' ∧
      Reaches (step flash) (.readToken, s) (.nextProgramHeader, s') := by
  simp only [lastBytes, List.cons_append, List.append_assoc] at h
  obtain ⟨s₁, h₁, hlit, -, hreach₁⟩ := run_literalLength hfed h
  obtain ⟨s₂, h₂, -, hreach₂⟩ := run_literal hfed hroom hmend h₁ hlit (by omega)
  rw [if_pos ⟨hlast, hsize⟩] at hreach₂
  exact ⟨s₂, h₂, hreach₁.trans hreach₂⟩

/-- A block, sequence after sequence. -/
theorem run_block (hfed : Fed flash s₀ bytes) (hroom : s₀.pPaddr.toNat + size < 2 ^ 32)
    (hmend : s₀.paddrMend = addrOf s₀.pPaddr size) (l : List (Lz77.Sequence UInt8))
    (hvalid : Lz77.Valid dest l) (hl : ∀ q ∈ l, Encodable q) (hlast : last ≠ [])
    (hsize : (l.foldl Lz77.Sequence.expand dest).length + last.length = size)
    (h : Decoding s₀ bytes dest (blockBytes l last ++ rest) s) :
    ∃ s', Decoding s₀ bytes (l.foldl Lz77.Sequence.expand dest ++ last) rest s' ∧
      Reaches (step flash) (.readToken, s) (.nextProgramHeader, s') := by
  induction l generalizing dest s with
  | nil => exact run_last hfed hroom hmend hlast hsize h
  | cons q l ih =>
    obtain ⟨hpos, hoffset, hrest⟩ := hvalid
    have hlength := Lz77.expand_length hpos hoffset
    have hmore := hrest.length_le
    rw [List.foldl_cons] at hsize
    rw [blockBytes, List.flatMap_cons, List.append_assoc, List.append_assoc] at h
    obtain ⟨s₁, h₁, hreach₁⟩ := run_sequence hfed hroom hmend (hl q List.mem_cons_self) hoffset
      (by omega) h
    rw [← List.append_assoc] at h₁
    obtain ⟨s₂, h₂, hreach₂⟩ := ih hrest (fun q' hq' => hl q' (List.mem_cons_of_mem q hq')) hsize h₁
    exact ⟨s₂, h₂, hreach₁.trans hreach₂⟩

end Block

/-- What the decompressor leaves behind: it has written the bytes one after the other, and nothing
else; it has read only what it had written; and it has taken the bytes of the block, with one
transfer more under way. -/
structure Undone (src result : List UInt8) (s₀ s : Machine) : Prop where
  memory : ∀ a, s.memory a = (src[(a - s₀.pPaddr).toNat]?).getD (s₀.memory a)
  accesses : ∃ log, s.accesses = s₀.accesses ++ log ∧
    log.filterMap MemoryAccess.stored = (src.mapIdx fun i b => (addrOf s₀.pPaddr i, b)) ∧
      ∀ front addr back, log = front ++ .load addr :: back →
        ∃ b, MemoryAccess.store addr b ∈ front
  sent : s.sent = s₀.sent ++ List.replicate (result.length + 1) 0
  received : s.received = s₀.received + result.length

theorem Decoding.undone {s₀ s : Machine} {bytes dest : List UInt8}
    (h : Decoding s₀ bytes dest [] s) : Undone dest bytes s₀ s := by
  obtain ⟨front, hfront, hsent, hreceived⟩ := h.taken
  rw [List.append_nil] at hfront
  obtain ⟨log, hlog, htrace⟩ := h.accesses
  exact ⟨h.memory, ⟨log, hlog, htrace.stores, fun _ _ _ heq => htrace.loads heq⟩, hfront ▸ hsent,
    hfront ▸ hreceived⟩

/-- **The decompressor undoes the compressor.** -/
theorem decompress_undoes_compress (src : Mem) (hsrc : src ≠ []) (compressionLevel : ℤ) :
    ∃ out result, lz4Compress src compressionLevel = some (out, result) ∧
      ∀ (flash : List UInt8 → UInt8) (s₀ : Machine),
        s₀.paddrMend.toNat = s₀.pPaddr.toNat + src.length → Fed flash s₀ result →
          ∃ s, (.nextProgramHeader, s) ∈ eval (step flash) (.decompressLz4, s₀) ∧
            Undone src result s₀ s := by
  obtain ⟨⟨out, result⟩, hresult, l, pos, hcompressed, hbytes⟩ :=
    lz4Compress_spec src compressionLevel
  refine ⟨out, result, hresult, fun flash s₀ hmend hfed => ?_⟩
  have hlt := s₀.paddrMend.isLt
  have hpos := List.length_pos_of_ne_nil hsrc
  have hple := hcompressed.pos_le
  have hexpand := hcompressed.parse.expand_eq
  have hroom : s₀.pPaddr.toNat + src.length < 2 ^ 32 := by omega
  have hend : s₀.paddrMend = addrOf s₀.pPaddr src.length := by
    apply BitVec.eq_of_toNat_eq
    rw [hmend, addrOf_toNat hroom]
  have hlast : src.drop pos ≠ [] := by
    rw [ne_eq, List.drop_eq_nil_iff]
    omega
  have hsize : (l.foldl Lz77.Sequence.expand []).length + (src.drop pos).length = src.length := by
    rw [← Lz77.expand, hexpand, List.length_take, List.length_drop]
    omega
  have hstep : step flash (.decompressLz4, s₀) =
      some (.readToken, { s₀.flashTx 0 with lz4_255 := 255, lz4_15 := 15 }) := rfl
  have hstart : Decoding s₀ result [] (blockBytes l (src.drop pos) ++ [])
      { s₀.flashTx 0 with lz4_255 := 255, lz4_15 := 15 } := by
    refine ⟨(BitVec.add_zero _).symm, rfl, rfl, rfl, ⟨[], ?_, rfl, rfl⟩, fun _ => rfl,
      ⟨[], (List.append_nil _).symm, .nil⟩⟩
    rw [List.append_nil]
    exact hbytes
  obtain ⟨s, hs, hreach⟩ := run_block hfed hroom hend l hcompressed.parse.valid
    hcompressed.encodable hlast hsize hstart
  rw [← Lz77.expand, hexpand, List.take_append_drop] at hs
  exact ⟨s, mem_eval.mpr ⟨Relation.ReflTransGen.head hstep hreach, rfl⟩, hs.undone⟩

/-- A flash that sends these bytes after its selection. -/
def flashOf (bytes : List UInt8) (sent : List UInt8) : UInt8 := bytes.getD (sent.length - 1) 0

/-- The loader in front of a segment of `size` bytes. -/
def Machine.atSegment (start size : BitVec 32) : Machine where
  spimRead := 0
  pPaddr := start
  paddrMend := start + size
  lz4_15 := 0
  lz4_255 := 0
  lz4Lit := 0
  lz4Match := 0
  lz4Window := 0
  memory := fun _ => 0xff
  sent := []
  received := 0
  accesses := []

/-- Five times four bytes. -/
def repeating : Mem := (List.replicate 5 [0x61, 0x62, 0x63, 0x64]).flatten

/-- Four literals with a match of eleven bytes at the distance four, and the last five literals. -/
def packed : List UInt8 := [71, 97, 98, 99, 100, 4, 0, 80, 100, 97, 98, 99, 100]

theorem repeating_packed : (lz4Compress repeating 9).map Prod.snd = some packed := by
  decide +kernel

/-- `decompress_undoes_compress` of a text with a match. -/
theorem decompress_undoes_compress_repeating : ∃ s, (.nextProgramHeader, s) ∈
    eval (step (flashOf packed)) (.decompressLz4, .atSegment 0x8000 20) ∧
      Undone repeating packed (.atSegment 0x8000 20) s := by
  obtain ⟨out, result, hresult, hrun⟩ :=
    decompress_undoes_compress repeating (List.cons_ne_nil _ _) 9
  have hpacked := repeating_packed
  rw [hresult, Option.map_some, Option.some.injEq] at hpacked
  obtain rfl : result = packed := hpacked
  refine hrun _ _ rfl fun k hk => ?_
  rw [flashOf, List.length_append, List.length_replicate]
  show packed.getD (0 + (k + 1) - 1) 0 = _
  rw [Nat.zero_add, Nat.add_sub_cancel, List.getD_eq_getElem?_getD, List.getElem?_eq_getElem hk]
  rfl

end OlivePiccolo.Boot
