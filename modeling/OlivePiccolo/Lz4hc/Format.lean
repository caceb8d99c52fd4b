import OlivePiccolo.Library.LittleEndian
import OlivePiccolo.Library.Lz77

/-!
# The block format

What LZ4 writes for a text of sequences: a token with two lengths of up to 15, each of them followed by
more bytes if it is 15; the literals and the offset. The last literals are not followed by a copy. The
shortest copy has four letters.
-/

namespace OlivePiccolo.Lz4hc

/-- The bytes of a length that follow the token. -/
def lengthBytes (n : ℕ) : List UInt8 :=
  if n < 15 then [] else List.replicate ((n - 15) / 255) 255 ++ [UInt8.ofNat ((n - 15) % 255)]

/-- The number of literals, and of the letters of a copy beyond the fourth. -/
def token (literals copied : ℕ) : UInt8 := UInt8.ofNat (min literals 15 * 16 + min copied 15)

/-- The bytes of a sequence. -/
def sequenceBytes (s : Lz77.Sequence UInt8) : List UInt8 :=
  token s.literals.length (s.length - 4) :: (lengthBytes s.literals.length ++ s.literals ++
    leBytes 2 s.offset ++ lengthBytes (s.length - 4))

/-- The bytes of the last literals. -/
def lastBytes (literals : List UInt8) : List UInt8 :=
  token literals.length 0 :: (lengthBytes literals.length ++ literals)

/-- The bytes of a block. -/
def blockBytes (l : List (Lz77.Sequence UInt8)) (last : List UInt8) : List UInt8 :=
  l.flatMap sequenceBytes ++ lastBytes last

/-- What the format can hold. -/
structure Encodable (s : Lz77.Sequence UInt8) : Prop where
  offset_pos : 1 ≤ s.offset
  offset_le : s.offset ≤ 65535
  length_ge : 4 ≤ s.length

theorem lengthBytes_step {n : ℕ} (h : 270 ≤ n) : lengthBytes n = 255 :: lengthBytes (n - 255) := by
  have hdiv : (n - 15) / 255 = (n - 255 - 15) / 255 + 1 := by omega
  have hmod : (n - 15) % 255 = (n - 255 - 15) % 255 := by omega
  rw [lengthBytes, lengthBytes, if_neg (by omega), if_neg (by omega), hdiv, hmod,
    List.replicate_succ, List.cons_append]

theorem lengthBytes_last {n : ℕ} (h : 15 ≤ n) (hlt : n < 270) :
    lengthBytes n = [UInt8.ofNat (n - 15)] := by
  rw [lengthBytes, if_neg (by omega), Nat.div_eq_of_lt (by omega), Nat.mod_eq_of_lt (by omega)]
  rfl

end OlivePiccolo.Lz4hc
