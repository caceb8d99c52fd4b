import OlivePiccolo.Library.LittleEndian
import OlivePiccolo.Library.SineSeries

/-!
# The MD5 message digest

The algorithm as it is specified: the message is padded to a whole number of blocks of 64 bytes, and
each block changes four registers by 64 operations in four rounds. The operations are listed with the
order in which they name the registers. The constants are the integer parts of multiples of sines
(`Md5.sineWord`); `Md5.digest` takes them as a parameter, so that a table can stand for them.
-/

namespace OlivePiccolo.Md5

/-- A word of the registers and of the message. -/
abbrev Word := BitVec 32

/-- The registers. -/
structure Registers where
  A : Word
  B : Word
  C : Word
  D : Word
  deriving DecidableEq

/-- The four auxiliary functions, one for each round. -/
inductive Aux
  | F | G | H | I
  deriving DecidableEq

def Aux.apply : Aux → Word → Word → Word → Word
  | .F, x, y, z => (x &&& y) ||| (~~~x &&& z)
  | .G, x, y, z => (x &&& z) ||| (y &&& ~~~z)
  | .H, x, y, z => x ^^^ y ^^^ z
  | .I, x, y, z => y ^^^ (x ||| ~~~z)

/-- The order in which an operation names the registers. -/
inductive Order
  | abcd | dabc | cdab | bcda
  deriving DecidableEq

/-- The registers in that order. -/
def Order.view : Order → Registers → Registers
  | .abcd, q => q
  | .dabc, q => ⟨q.D, q.A, q.B, q.C⟩
  | .cdab, q => ⟨q.C, q.D, q.A, q.B⟩
  | .bcda, q => ⟨q.B, q.C, q.D, q.A⟩

/-- The register named first takes a new value. -/
def Order.store : Order → Word → Registers → Registers
  | .abcd, v, q => { q with A := v }
  | .dabc, v, q => { q with D := v }
  | .cdab, v, q => { q with C := v }
  | .bcda, v, q => { q with B := v }

/-- One operation: the function of its round, the order of the registers, the word of the block, the
distance of the rotation and the number of the constant. -/
structure Operation where
  aux : Aux
  order : Order
  k : ℕ
  s : ℕ
  i : ℕ
  deriving DecidableEq

def operations : List Operation :=
  [⟨.F, .abcd, 0, 7, 1⟩, ⟨.F, .dabc, 1, 12, 2⟩, ⟨.F, .cdab, 2, 17, 3⟩, ⟨.F, .bcda, 3, 22, 4⟩,
   ⟨.F, .abcd, 4, 7, 5⟩, ⟨.F, .dabc, 5, 12, 6⟩, ⟨.F, .cdab, 6, 17, 7⟩, ⟨.F, .bcda, 7, 22, 8⟩,
   ⟨.F, .abcd, 8, 7, 9⟩, ⟨.F, .dabc, 9, 12, 10⟩, ⟨.F, .cdab, 10, 17, 11⟩, ⟨.F, .bcda, 11, 22, 12⟩,
   ⟨.F, .abcd, 12, 7, 13⟩, ⟨.F, .dabc, 13, 12, 14⟩, ⟨.F, .cdab, 14, 17, 15⟩,
   ⟨.F, .bcda, 15, 22, 16⟩,
   ⟨.G, .abcd, 1, 5, 17⟩, ⟨.G, .dabc, 6, 9, 18⟩, ⟨.G, .cdab, 11, 14, 19⟩, ⟨.G, .bcda, 0, 20, 20⟩,
   ⟨.G, .abcd, 5, 5, 21⟩, ⟨.G, .dabc, 10, 9, 22⟩, ⟨.G, .cdab, 15, 14, 23⟩, ⟨.G, .bcda, 4, 20, 24⟩,
   ⟨.G, .abcd, 9, 5, 25⟩, ⟨.G, .dabc, 14, 9, 26⟩, ⟨.G, .cdab, 3, 14, 27⟩, ⟨.G, .bcda, 8, 20, 28⟩,
   ⟨.G, .abcd, 13, 5, 29⟩, ⟨.G, .dabc, 2, 9, 30⟩, ⟨.G, .cdab, 7, 14, 31⟩, ⟨.G, .bcda, 12, 20, 32⟩,
   ⟨.H, .abcd, 5, 4, 33⟩, ⟨.H, .dabc, 8, 11, 34⟩, ⟨.H, .cdab, 11, 16, 35⟩, ⟨.H, .bcda, 14, 23, 36⟩,
   ⟨.H, .abcd, 1, 4, 37⟩, ⟨.H, .dabc, 4, 11, 38⟩, ⟨.H, .cdab, 7, 16, 39⟩, ⟨.H, .bcda, 10, 23, 40⟩,
   ⟨.H, .abcd, 13, 4, 41⟩, ⟨.H, .dabc, 0, 11, 42⟩, ⟨.H, .cdab, 3, 16, 43⟩, ⟨.H, .bcda, 6, 23, 44⟩,
   ⟨.H, .abcd, 9, 4, 45⟩, ⟨.H, .dabc, 12, 11, 46⟩, ⟨.H, .cdab, 15, 16, 47⟩, ⟨.H, .bcda, 2, 23, 48⟩,
   ⟨.I, .abcd, 0, 6, 49⟩, ⟨.I, .dabc, 7, 10, 50⟩, ⟨.I, .cdab, 14, 15, 51⟩, ⟨.I, .bcda, 5, 21, 52⟩,
   ⟨.I, .abcd, 12, 6, 53⟩, ⟨.I, .dabc, 3, 10, 54⟩, ⟨.I, .cdab, 10, 15, 55⟩, ⟨.I, .bcda, 1, 21, 56⟩,
   ⟨.I, .abcd, 8, 6, 57⟩, ⟨.I, .dabc, 15, 10, 58⟩, ⟨.I, .cdab, 6, 15, 59⟩, ⟨.I, .bcda, 13, 21, 60⟩,
   ⟨.I, .abcd, 4, 6, 61⟩, ⟨.I, .dabc, 11, 10, 62⟩, ⟨.I, .cdab, 2, 15, 63⟩, ⟨.I, .bcda, 9, 21, 64⟩]

section Digest

variable (T : ℕ → Word)

/-- `a = b + ((a + f (b, c, d) + X[k] + T[i]) <<< s)`, with `a`, `b`, `c` and `d` named in order. -/
def Operation.apply (X : ℕ → Word) (q : Registers) (op : Operation) : Registers :=
  let v := op.order.view q
  op.order.store (v.B + (v.A + op.aux.apply v.B v.C v.D + X op.k + T op.i).rotateLeft op.s) q

/-- A block of 16 words changes the registers. -/
def block (X : ℕ → Word) (q : Registers) : Registers :=
  let r := operations.foldl (Operation.apply T X) q
  ⟨q.A + r.A, q.B + r.B, q.C + r.C, q.D + r.D⟩

def initial : Registers := ⟨0x67452301, 0xefcdab89, 0x98badcfe, 0x10325476⟩

/-- How many zero bytes come between the mark and the length. -/
def zeros (n : ℕ) : ℕ := (119 - n % 64) % 64

/-- The message with its mark, zeros up to 8 bytes before the end of a block, and its length in bits
modulo `2 ^ 64`. -/
def padded (message : List UInt8) : List UInt8 :=
  message ++ 0x80 :: List.replicate (zeros message.length) 0 ++ leBytes 8 (8 * message.length)

/-- The word at an offset, its low byte first. -/
def wordAt (bytes : List UInt8) (offset : ℕ) : Word :=
  BitVec.ofNat 32 (leNat ((bytes.drop offset).take 4))

/-- The registers after the first `n` blocks of a padded message. -/
def blocks (bytes : List UInt8) (n : ℕ) : Registers :=
  (List.range n).foldl (fun q i => block T (fun k => wordAt bytes (64 * i + 4 * k)) q) initial

/-- The bytes of the registers, each with its low byte first. -/
def Registers.output (q : Registers) : List UInt8 :=
  [q.A, q.B, q.C, q.D].flatMap fun w => leBytes 4 w.toNat

/-- The digest of a message. -/
def digest (message : List UInt8) : List UInt8 :=
  (blocks T (padded message) ((padded message).length / 64)).output

end Digest

/-- The constants: the integer part of `2 ^ 32 * |sin i|`, with `i` in radians. -/
noncomputable def sineWord (i : ℕ) : Word := BitVec.ofNat 32 ⌊(4294967296 : ℕ) * |Real.sin i|⌋₊

/-- MD5. -/
noncomputable def md5 (message : List UInt8) : List UInt8 := digest sineWord message

/-! ## Padding -/

theorem padded_length (message : List UInt8) :
    (padded message).length = message.length + zeros message.length + 9 := by
  unfold padded
  rw [List.length_append, List.length_append, List.length_cons, List.length_replicate,
    leBytes_length]
  omega

/-- The zeros fill the block, and they are fewer than 64. -/
theorem zeros_spec (n : ℕ) : (n + zeros n + 9) % 64 = 0 ∧ zeros n < 64 := by
  unfold zeros
  omega

/-! ## Tables -/

/-- Only the constants that the operations name count. -/
theorem block_congr {T T' : ℕ → Word} (h : ∀ op ∈ operations, T op.i = T' op.i) (X : ℕ → Word)
    (q : Registers) : block T X q = block T' X q := by
  have hrun : ∀ ops : List Operation, (∀ op ∈ ops, T op.i = T' op.i) → ∀ q,
      ops.foldl (Operation.apply T X) q = ops.foldl (Operation.apply T' X) q := by
    intro ops
    induction ops with
    | nil => exact fun _ _ => rfl
    | cons op ops ih =>
      intro hops q
      have hfirst : Operation.apply T X q op = Operation.apply T' X q op := by
        unfold Operation.apply
        rw [hops op List.mem_cons_self]
      rw [List.foldl_cons, List.foldl_cons, hfirst,
        ih fun o ho => hops o (List.mem_cons_of_mem op ho)]
  unfold block
  rw [hrun operations h q]

theorem digest_congr {T T' : ℕ → Word} (h : ∀ op ∈ operations, T op.i = T' op.i)
    (message : List UInt8) : digest T message = digest T' message := by
  have hblock : block T = block T' := by
    funext X q
    exact block_congr h X q
  unfold digest blocks
  rw [hblock]

end OlivePiccolo.Md5
