import OlivePiccolo.Lz4hc.Decompress
import OlivePiccolo.Lz4hc.Parser

/-!
# The round trip of the boot image

`LZ4_compress` ends for every input and every level, and reads no array element that is not there; its
matches can be encoded; and `LZ4_decompress` gets the input back (`lz4_roundTrip`).
-/

namespace OlivePiccolo.Lz4hc

/-! ## The code -/

/-- A round of the loop over a block of the result. -/
def receiveByte (ho8 : TclArray UInt8) (len i : ℤ) (s : ℤ × List UInt8) :
    Access (Round (ℤ × List UInt8) (List UInt8)) :=
  let (j, tmp) := s
  if j < len ∧ j < i + 1024 then do
    let b ← ho8 j
    return .again (j + 1, tmp ++ [b])
  else some (.done tmp)

/-- A round of the loop over the blocks of the result. -/
def receiveBlock (ho8 : TclArray UInt8) (len : ℤ) (s : ℤ × List UInt8) :
    Access (Round (ℤ × List UInt8) (List UInt8)) :=
  let (i, result) := s
  if i < len then do
    let tmp ← loop (receiveByte ho8 len i) 1025 (i, [])
    return .again (i + 1024, result ++ tmp)
  else some (.done result)

/-- `Receive result`. -/
def receiveResult (ho8 : TclArray UInt8) (len : ℤ) : Access (List UInt8) :=
  loop (receiveBlock ho8 len) (len.toNat + 1) (0, [])

/-- `LZ4_compress`: the output heap, and the result. -/
def lz4Compress (src : Mem) (compressionLevel : ℤ) : Access (Output × List UInt8) := do
  let out ← lz4hcCompressGeneric src compressionLevel
  let result ← receiveResult out.ho8 out.op
  return (out, result)

/-! ## The result -/

section Receive

variable {m ho8 : TclArray UInt8} {l : List UInt8}

theorem receiveByte_spec (h : Wrote m ho8 0 l) (a : ℕ) :
    Ensures (loop (receiveByte ho8 l.length a) 1025 (a, [])) fun tmp => tmp = (l.drop a).take 1024 := by
  refine Ensures.loop (s := ((a : ℤ), []))
    (I := fun s => ∃ k : ℕ, k ≤ 1024 ∧ s = (((a + k : ℕ) : ℤ), (l.drop a).take k))
    (m := fun s => ((a : ℤ) + 1024 - s.1).toNat) ?_ ⟨0, Nat.zero_le _, rfl⟩ (by
      show ((a : ℤ) + 1024 - a).toNat < 1025
      omega)
  rintro _ ⟨k, hk, rfl⟩
  refine .ite (fun hgo => ?_) fun hstop => .pure ?_
  · have hlt : a + k < l.length := by omega
    have hbyte := h.bytes (a + k) hlt
    rw [zero_add, List.getElem?_eq_getElem hlt] at hbyte
    refine .bind_of_eq hbyte (.pure ⟨⟨k + 1, by omega, ?_⟩, ?_⟩)
    · rw [List.take_add_one, List.getElem?_drop, List.getElem?_eq_getElem hlt]
      rfl
    · show ((a : ℤ) + 1024 - ((a + k : ℕ) + 1)).toNat < ((a : ℤ) + 1024 - (a + k : ℕ)).toNat
      omega
  · show (l.drop a).take k = (l.drop a).take 1024
    by_cases hfull : k = 1024
    · rw [hfull]
    · have hlen : (l.drop a).length ≤ k := by
        rw [List.length_drop]
        omega
      rw [List.take_of_length_le hlen, List.take_of_length_le (hlen.trans hk)]

theorem receiveResult_spec (h : Wrote m ho8 0 l) :
    Ensures (receiveResult ho8 l.length) fun result => result = l := by
  refine Ensures.loop (s := ((0 : ℤ), [])) (I := fun s => ∃ a : ℕ, s = ((a : ℤ), l.take a))
    (m := fun s => ((l.length : ℤ) - s.1).toNat) ?_ ⟨0, rfl⟩ (by
      show ((l.length : ℤ) - 0).toNat < (l.length : ℤ).toNat + 1
      omega)
  rintro _ ⟨a, rfl⟩
  refine .ite (fun hgo => ?_) fun hstop => .pure (List.take_of_length_le (by omega))
  refine (receiveByte_spec h a).bind ?_
  rintro _ rfl
  refine .pure ⟨⟨a + 1024, ?_⟩, ?_⟩
  · rw [← List.take_add]
    rfl
  · show ((l.length : ℤ) - (a + 1024)).toNat < ((l.length : ℤ) - a).toNat
    omega

end Receive

/-- **`LZ4_compress`** ends, and its result is a block of sequences that are the input. -/
theorem lz4Compress_spec (src : Mem) (compressionLevel : ℤ) :
    Ensures (lz4Compress src compressionLevel) fun r =>
      ∃ l pos, Compressed src r.1 l pos ∧ r.2 = blockBytes l (src.drop pos) := by
  refine (lz4hcCompressGeneric_spec src compressionLevel).bind fun out hout => ?_
  obtain ⟨l, pos, hcompressed⟩ := hout
  have hreceive := receiveResult_spec hcompressed.wrote
  rw [← hcompressed.op_eq] at hreceive
  exact hreceive.bind fun result hresult => .pure ⟨l, pos, hcompressed, hresult⟩

/-- **Round trip.** Compression ends and reads only elements that are there, at every level; the
matches that it emits can be encoded; and what is decompressed is the input. -/
theorem lz4_roundTrip (src : Mem) (compressionLevel : ℤ) :
    ∃ out result, lz4Compress src compressionLevel = some (out, result) ∧
      (∀ e ∈ out.emitted, 1 ≤ e.1 ∧ e.1 ≤ 65535 ∧ 4 ≤ e.2) ∧ lz4Decompress result = some src := by
  obtain ⟨⟨out, result⟩, hresult, l, pos, hcompressed, hbytes⟩ :=
    lz4Compress_spec src compressionLevel
  obtain ⟨text, hdecompress, htext⟩ := lz4Decompress_blockBytes hcompressed.parse.valid
    hcompressed.encodable (src.drop pos)
  refine ⟨out, result, hresult, fun e he => ?_, ?_⟩
  · rw [hcompressed.emitted_eq] at he
    obtain ⟨s, hs, rfl⟩ := List.mem_map.mp he
    obtain ⟨hpos, hle, hge⟩ := hcompressed.encodable s hs
    dsimp only
    omega
  · rw [show result = _ from hbytes, hdecompress, htext, hcompressed.parse.expand_eq,
      List.take_append_drop]

end OlivePiccolo.Lz4hc
