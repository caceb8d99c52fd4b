import OlivePiccolo.Library.Loop
import OlivePiccolo.Library.Memory
import OlivePiccolo.Lz4hc.Format

/-!
# Decompression

`LZ4_decompress` reads sequence after sequence. From a block of sequences whose copies start inside of
what has been written, it gets what they expand to (`lz4Decompress_blockBytes`).
-/

namespace OlivePiccolo.Lz4hc

/-! ## The code -/

/-- A byte that `binary scan` reads as a signed number. -/
def signedByte (b : UInt8) : ℤ := (b.toNat : ℤ).bmod 256

/-- `binary scan [ string range $src $ip $ip ] c`: a signed byte. The variable keeps its value behind the
end; one that has no value cannot be read. -/
def scanChar (src : Mem) (ip : ℕ) (old : Option ℤ) : Option ℤ :=
  match src[ip]? with
  | some b => some (signedByte b)
  | none => old

/-- `binary scan [ string range $src $ip [ expr { $ip + 1 } ] ] s`: a signed number of two bytes. -/
def scanShort (src : Mem) (ip : ℕ) (old : Option ℤ) : Option ℤ :=
  match src[ip]?, src[ip + 1]? with
  | some low, some high => some ((low.toNat + 256 * high.toNat : ℤ).bmod 65536)
  | _, _ => old

/-- Where a length is read. -/
structure LengthReader where
  ip : ℕ
  len : ℕ
  /-- `el`, which has no value at first. -/
  el : Option ℤ

/-- A round of the loops that read the rest of a length. -/
def readLengthRound (src : Mem) (s : LengthReader) : Access (Round LengthReader LengthReader) := do
  let el ← scanChar src s.ip s.el
  let el := el % 256
  let next := ⟨s.ip + 1, s.len + el.toNat, some el⟩
  return if el < 255 then .done next else .again next

/-- The rest of a length, if there is one. -/
def readLength (src : Mem) (short : ℕ) (s : LengthReader) : Access LengthReader :=
  if s.len = short then loop (readLengthRound src) (src.length + 1) s else some s

/-- `Combine match data`. -/
def combineMatch : ℕ → ℤ → Mem → Mem
  | 0, _, dest => dest
  | n + 1, j, dest => combineMatch n (j + 1) (dest ++ (dest.peek j).toList)

/-- The variables of `LZ4_decompress`. -/
structure Decoder where
  ip : ℕ
  dest : Mem
  el : Option ℤ
  ofs : Option ℤ

/-- What follows the literals: `dest` is the result behind the end, and nothing if the offset is 0. -/
def readMatch (src : Mem) (token : ℤ) (d : Decoder) : Access (Round Decoder Mem) :=
  if src.length ≤ d.ip then some (.done d.dest)
  else do
    let ofs ← scanShort src d.ip d.ofs
    if ofs = 0 then return .done []
    else
      let s ← readLength src 19 ⟨d.ip + 2, (token % 16).toNat + 4, d.el⟩
      let j := d.dest.length - ofs % 65536
      return .again ⟨s.ip, combineMatch s.len j d.dest, s.el, some ofs⟩

/-- A round of the loop of `LZ4_decompress`. -/
def decodeRound (src : Mem) (d : Decoder) : Access (Round Decoder Mem) :=
  if d.ip < src.length then do
    let token ← scanChar src d.ip none
    let s ← readLength src 15 ⟨d.ip + 1, ((token >>> (4 : ℕ)) % 16).toNat, d.el⟩
    let d := if 0 < s.len then
        { d with ip := s.ip + s.len, dest := d.dest ++ (src.drop s.ip).take s.len, el := s.el }
      else { d with ip := s.ip, el := s.el }
    readMatch src token d
  else some (.done d.dest)

/-- `LZ4_decompress`. -/
def lz4Decompress (src : Mem) : Access Mem :=
  loop (decodeRound src) (src.length + 1) ⟨0, [], none, none⟩

/-! ## Lengths -/

section Lengths

variable {src : Mem} {ip n short : ℕ} {rest : List UInt8} {b : UInt8} {el : Option ℤ}

theorem drop_cons (h : src.drop ip = b :: rest) : src[ip]? = some b ∧ src.drop (ip + 1) = rest := by
  refine ⟨?_, ?_⟩
  · rw [← List.head?_drop, h, List.head?_cons]
  · rw [← List.drop_drop, h, List.drop_one, List.tail_cons]

theorem lt_length_of_drop (h : src.drop ip = b :: rest) : ip < src.length := by
  by_contra hle
  rw [List.drop_eq_nil_of_le (Nat.le_of_not_lt hle)] at h
  cases h

theorem signedByte_eq (b : UInt8) :
    signedByte b = if (b.toNat : ℤ) % 256 < 128 then (b.toNat : ℤ) % 256
      else (b.toNat : ℤ) % 256 - 256 := Int.bmod_def _ 256

theorem signedByte_emod (b : UInt8) : signedByte b % 256 = b.toNat := by
  have hlt := b.toNat_lt
  have hsigned := signedByte_eq b
  omega

/-- Where a length is read. -/
def ReadingLength (src : Mem) (ip n : ℕ) (rest : List UInt8) (c : ℕ) (s : LengthReader) : Prop :=
  ∃ k, 15 ≤ k ∧ s.len + k = c + n ∧ src.drop s.ip = lengthBytes k ++ rest ∧
    s.ip + (lengthBytes k).length = ip + (lengthBytes n).length

/-- **The rest of a length**, behind what is in the token. -/
theorem readLength_spec (h : src.drop ip = lengthBytes n ++ rest) (c : ℕ) (el : Option ℤ) :
    Ensures (readLength src (15 + c) ⟨ip, min n 15 + c, el⟩) fun s =>
      s.ip = ip + (lengthBytes n).length ∧ s.len = n + c := by
  refine .ite (fun heq => ?_) fun hne => .pure ?_
  · have heq : min n 15 + c = 15 + c := heq
    refine Ensures.loop (I := ReadingLength src ip n rest (15 + c))
      (m := fun s => src.length - s.ip) (fun s hs => ?_)
      ⟨n, by omega, by show min n 15 + c + n = 15 + c + n; omega, h, rfl⟩ (by
        show src.length - ip < src.length + 1
        omega)
    obtain ⟨k, hk, hlen, hdrop, hip⟩ := hs
    have hstep {b : UInt8} {rest' : List UInt8} (hb : src.drop s.ip = b :: rest') :
        scanChar src s.ip s.el = some (signedByte b) := by
      rw [scanChar, (drop_cons hb).1]
    by_cases hlong : 270 ≤ k
    · -- a byte of 255
      rw [lengthBytes_step hlong] at hdrop hip
      have hlt := lt_length_of_drop hdrop
      rw [List.length_cons] at hip
      refine .bind_of_eq (hstep hdrop) (.pure ?_)
      rw [signedByte_emod, show ((255 : UInt8).toNat : ℤ) = 255 from rfl, if_neg (lt_irrefl _)]
      refine ⟨⟨k - 255, by omega, ?_, (drop_cons hdrop).2, ?_⟩, ?_⟩
      · show s.len + 255 + (k - 255) = 15 + c + n
        omega
      · show s.ip + 1 + (lengthBytes (k - 255)).length = _
        omega
      · show src.length - (s.ip + 1) < src.length - s.ip
        omega
    · -- the last byte
      rw [lengthBytes_last hk (by omega)] at hdrop hip
      rw [List.length_singleton] at hip
      refine .bind_of_eq (hstep hdrop) (.pure ?_)
      have hval : (UInt8.ofNat (k - 15)).toNat = k - 15 := by
        rw [UInt8.toNat_ofNat']
        omega
      rw [signedByte_emod, hval, if_pos (by omega)]
      refine ⟨hip, ?_⟩
      show s.len + ((k - 15 : ℕ) : ℤ).toNat = n + c
      omega
  · have hne : ¬ min n 15 + c = 15 + c := hne
    rw [show lengthBytes n = [] from if_pos (by omega)]
    exact ⟨rfl, by show min n 15 + c = n + c; omega⟩

end Lengths

/-! ## Sequences -/

section Sequences

variable {src : Mem} {rest : List UInt8}

/-- The loop over the match data copies from `offset` back. -/
theorem combineMatch_eq {offset : ℕ} (h0 : 0 < offset) (n : ℕ) (dest : Mem)
    (hle : offset ≤ dest.length) :
    combineMatch n (dest.length - offset) dest = Lz77.copyMatch offset n dest := by
  induction n generalizing dest with
  | zero => rfl
  | succ n ih =>
    have hpeek : dest.peek (dest.length - offset) = dest[dest.length - offset]? := by
      rw [Mem.peek, if_pos (by omega), show ((dest.length : ℤ) - offset).toNat =
        dest.length - offset by omega]
    obtain ⟨b, hb⟩ : ∃ b, dest[dest.length - offset]? = some b :=
      ⟨_, List.getElem?_eq_getElem (by omega)⟩
    have hlen : (((dest ++ [b]).length : ℕ) : ℤ) - offset = dest.length - offset + 1 := by
      rw [List.length_append, List.length_singleton]
      omega
    have hnext := ih (dest ++ [b]) (by rw [List.length_append]; omega)
    rw [hlen] at hnext
    rw [combineMatch, Lz77.copyMatch, hpeek, hb]
    exact hnext

theorem token_nibbles (literals copied : ℕ) :
    ((signedByte (token literals copied) >>> (4 : ℕ)) % 16).toNat = min literals 15 ∧
      (signedByte (token literals copied) % 16).toNat = min copied 15 := by
  have hval : (token literals copied).toNat = min literals 15 * 16 + min copied 15 := by
    rw [token, UInt8.toNat_ofNat']
    omega
  have hsigned := signedByte_eq (token literals copied)
  rw [Int.shiftRight_eq_div_pow]
  omega

theorem scanShort_leBytes {ip offset : ℕ} (h : src.drop ip = leBytes 2 offset ++ rest)
    (hpos : 1 ≤ offset) (hle : offset ≤ 65535) (old : Option ℤ) :
    ∃ ofs, scanShort src ip old = some ofs ∧ ofs ≠ 0 ∧ ofs % 65536 = offset := by
  have hcons : src.drop ip = UInt8.ofNat offset :: UInt8.ofNat (offset / 256) :: rest := h
  obtain ⟨hlow, hnext⟩ := drop_cons hcons
  obtain ⟨hhigh, -⟩ := drop_cons hnext
  have hval : ((UInt8.ofNat offset).toNat + 256 * (UInt8.ofNat (offset / 256)).toNat : ℤ) = offset := by
    rw [UInt8.toNat_ofNat', UInt8.toNat_ofNat']
    omega
  refine ⟨(offset : ℤ).bmod 65536, ?_, ?_, ?_⟩
  · rw [scanShort, hlow, hhigh]
    simp only [hval]
  · have hsigned := Int.bmod_def offset 65536
    omega
  · have hsigned := Int.bmod_def offset 65536
    omega

theorem readMatch_spec {s : Lz77.Sequence UInt8} {d : Decoder}
    (h : src.drop d.ip = leBytes 2 s.offset ++ lengthBytes (s.length - 4) ++ rest)
    (hs : Encodable s) (hle : s.offset ≤ d.dest.length) :
    Ensures (readMatch src (signedByte (token s.literals.length (s.length - 4))) d) fun r =>
      ∃ el ofs, r = .again ⟨d.ip + 2 + (lengthBytes (s.length - 4)).length,
        Lz77.copyMatch s.offset s.length d.dest, el, ofs⟩ := by
  rw [List.append_assoc] at h
  obtain ⟨ofs, hscan, hne, hofs⟩ := scanShort_leBytes h hs.offset_pos hs.offset_le d.ofs
  have hcons : src.drop d.ip = UInt8.ofNat s.offset :: UInt8.ofNat (s.offset / 256) ::
      (lengthBytes (s.length - 4) ++ rest) := h
  have hlt := lt_length_of_drop hcons
  have hrest : src.drop (d.ip + 2) = lengthBytes (s.length - 4) ++ rest :=
    (drop_cons (drop_cons hcons).2).2
  refine .ite (fun hge => absurd hlt hge.not_gt) fun _ => .bind_of_eq hscan ?_
  refine .ite (fun hzero => absurd hzero hne) fun _ => ?_
  rw [(token_nibbles _ _).2]
  refine (readLength_spec hrest 4 d.el).bind fun r hr => .pure ⟨r.el, some ofs, ?_⟩
  have hlen : r.len = s.length := by
    rw [hr.2, Nat.sub_add_cancel hs.length_ge]
  rw [hofs, combineMatch_eq hs.offset_pos _ _ hle, hlen, hr.1]

theorem readLiterals_spec {literals : List UInt8} {copied : ℕ} {d : Decoder}
    (h : src.drop d.ip = token literals.length copied :: (lengthBytes literals.length ++
      literals ++ rest)) {Q : Round Decoder Mem → Prop}
    (hQ : ∀ el, src.drop (d.ip + 1 + (lengthBytes literals.length).length + literals.length) = rest →
      Ensures (readMatch src (signedByte (token literals.length copied))
        ⟨d.ip + 1 + (lengthBytes literals.length).length + literals.length, d.dest ++ literals, el,
          d.ofs⟩) Q) : Ensures (decodeRound src d) Q := by
  obtain ⟨hbyte, hnext⟩ := drop_cons h
  have hscan : scanChar src d.ip none = some (signedByte (token literals.length copied)) := by
    rw [scanChar, hbyte]
  refine .ite (fun _ => .bind_of_eq hscan ?_) fun hge => absurd (lt_length_of_drop h) hge
  rw [(token_nibbles _ _).1]
  rw [List.append_assoc] at hnext
  refine (readLength_spec hnext 0 d.el).bind fun r hr => ?_
  obtain ⟨ip, len, el⟩ := r
  obtain ⟨rfl, rfl⟩ := hr
  have hdrop : src.drop (d.ip + 1 + (lengthBytes literals.length).length) = literals ++ rest := by
    rw [← List.drop_drop, hnext, List.drop_left]
  have hskip : src.drop (d.ip + 1 + (lengthBytes literals.length).length + literals.length) =
      rest := by
    rw [← List.drop_drop, hdrop, List.drop_left]
  have hnone : literals.length + 0 = literals.length := Nat.add_zero _
  rw [hnone]
  split_ifs with hpos
  · dsimp only
    rw [hdrop, List.take_left]
    exact hQ el hskip
  · obtain rfl := List.length_eq_zero_iff.mp (Nat.eq_zero_of_not_pos hpos)
    have hall := hQ el hskip
    rwa [List.append_nil] at hall

/-- The sequences that are still to be read. -/
def Decoding (src : Mem) (last text : List UInt8) (d : Decoder) : Prop :=
  ∃ l, Lz77.Valid d.dest l ∧ (∀ s ∈ l, Encodable s) ∧ src.drop d.ip = blockBytes l last ∧
    l.foldl Lz77.Sequence.expand d.dest ++ last = text

theorem Decoding.round {last text : List UInt8} {d : Decoder} (h : Decoding src last text d) :
    Ensures (decodeRound src d) (Ensures.AfterRound (Decoding src last text)
      (fun d => src.length - d.ip) (fun r => r = text) d) := by
  obtain ⟨l, hvalid, hencodable, hdrop, htext⟩ := h
  cases l with
  | nil =>
    have hlast : src.drop d.ip = token last.length 0 :: (lengthBytes last.length ++ last ++ []) := by
      rw [List.append_nil]
      exact hdrop
    refine readLiterals_spec hlast fun el hend => .ite (fun _ => .pure htext) fun hlt => ?_
    exact absurd (List.drop_eq_nil_iff.mp hend) hlt
  | cons s l =>
    obtain ⟨-, hle, hvalid⟩ := hvalid
    have hbytes : src.drop d.ip = token s.literals.length (s.length - 4) ::
        (lengthBytes s.literals.length ++ s.literals ++ (leBytes 2 s.offset ++
          lengthBytes (s.length - 4) ++ blockBytes l last)) := by
      rw [hdrop]
      simp only [blockBytes, sequenceBytes, List.flatMap_cons, List.cons_append, List.append_assoc]
    have hlt := lt_length_of_drop hbytes
    refine readLiterals_spec hbytes fun el hnext => ?_
    refine (readMatch_spec hnext (hencodable s List.mem_cons_self) hle).mono ?_
    rintro _ ⟨el', ofs, rfl⟩
    refine ⟨⟨l, hvalid, fun s hs => hencodable s (List.mem_cons_of_mem _ hs), ?_, htext⟩, ?_⟩
    · dsimp only
      rw [Nat.add_assoc _ 2, ← List.drop_drop, hnext]
      refine List.drop_left' ?_
      rw [List.length_append, leBytes_length]
    · dsimp only
      omega

/-- **`LZ4_decompress`** gets back what a block has been made of. -/
theorem lz4Decompress_blockBytes {l : List (Lz77.Sequence UInt8)} (hvalid : Lz77.Valid [] l)
    (hencodable : ∀ s ∈ l, Encodable s) (last : List UInt8) :
    Ensures (lz4Decompress (blockBytes l last)) fun r => r = Lz77.expand l ++ last :=
  Ensures.loop (fun _ => Decoding.round) ⟨l, hvalid, hencodable, rfl, rfl⟩ (Nat.lt_succ_self _)

end Sequences

end OlivePiccolo.Lz4hc
