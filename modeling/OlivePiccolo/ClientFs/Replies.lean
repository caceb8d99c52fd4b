import OlivePiccolo.ClientFs.Methods

/-!
# The replies of the file system

A method measures its result, allocates it, and only then learns how much there is to be returned:
`fs.read` reserves a binary at full length and shrinks it, `fs.hash` and `fs.ioctl` append behind
what has been filled by others. With answers as documented (`Fair`), every write stays inside of the
blocks and every result is a document with the documented members (`replies_documented`).
-/

namespace OlivePiccolo.ClientFs

open Bson Dialog Rpc

/-! ## What is documented -/

/-- A buffer that holds this many bytes, or `NULL`. -/
def Buffer.Valid : Buffer → ℤ → Prop
  | .null, _ => True
  | .unassigned, _ => False
  | .inside size offset, len => 0 ≤ offset ∧ 0 ≤ len ∧ offset + len ≤ size

/-- What is passed to the operating system is a valid buffer. -/
def FsSaid.BufferValid : FsSaid → Prop
  | .osRead _ buf len | .osWrite _ buf len => buf.Valid len
  | .osIoctl _ _ arg argLen => arg.Valid argLen
  | _ => True

/-- The members of the result of a method, after it has said and heard this. -/
inductive Documented (digests : List HashMethod) (said : List (FsSaid × FsReply)) :
    FsMethod → List Element → Prop
  | fsOpen {vfd : ℤ} (h : 0 ≤ vfd) (hlt : vfd < maxFds) :
      Documented digests said .fsOpen [.mk keyFd (.int32 (BitVec.ofInt 32 vfd))]
  | fsRead {fd len : ℤ} {buf : Buffer} {r : FsReply} (h : (.osRead fd buf len, r) ∈ said)
      (hr : 0 ≤ r.result) :
      Documented digests said .fsRead
        [.mk keyData (.binary 0 (r.data.take r.result.toNat)),
          .mk keyLength (.int32 (BitVec.ofInt 32 r.result))]
  | fsHash {fd len : ℤ} {buf : Buffer} {r : FsReply} {digest : HashMethod}
      (h : (.osRead fd buf len, r) ∈ said) (hr : 0 ≤ r.result) (hdigest : digest ∈ digests) :
      Documented digests said .fsHash
        [.mk keyLength (.int32 (BitVec.ofInt 32 r.result)),
          .mk keyHash (.binary 0 (digest.value (r.data.take r.result.toNat)))]
  | fsWrite {fd len : ℤ} {buf : Buffer} {r : FsReply} (h : (.osWrite fd buf len, r) ∈ said)
      (hr : 0 ≤ r.result) :
      Documented digests said .fsWrite [.mk keyLength (.int32 (BitVec.ofInt 32 r.result))]
  | fsLseek {fd offset whence : ℤ} {r : FsReply} (h : (.osLseek fd offset whence, r) ∈ said)
      (hr : 0 ≤ r.result) :
      Documented digests said .fsLseek [.mk keyOffset (.int32 (BitVec.ofInt 32 r.result))]
  | fsIoctl {fd req argLen : ℤ} {arg : Buffer} {r : FsReply} {v : Value}
      (h : (.osIoctl fd req arg argLen, r) ∈ said) (hr : 0 ≤ r.result)
      (hv : v = .null ∧ argLen = 0 ∨
        ∃ bytes, v = .binary 0 bytes ∧ bytes.length = argLen ∧ r.data <+: bytes) :
      Documented digests said .fsIoctl
        [.mk keyResponse v, .mk keyResult (.int32 (BitVec.ofInt 32 r.result))]

/-- A result is a well-formed document with the documented members, in a block that has been
allocated. -/
def Replied (digests : List HashMethod) (method : FsMethod) (said : List (FsSaid × FsReply))
    (out : FsResult) : Prop :=
  ∀ m, out.result = some m → (∃ r, (.malloc .result m.length, r) ∈ said) ∧
    ∃ es, IsDocument m es ∧ Documented digests said method es

section

variable {digests : List HashMethod} {method : FsMethod} {said said' : List (FsSaid × FsReply)}
  {out : FsResult} {es : List Element}

theorem Documented.mono (h : Documented digests said method es) (hsub : said ⊆ said') :
    Documented digests said' method es := by
  cases h with
  | fsOpen hvfd hlt => exact .fsOpen hvfd hlt
  | fsRead hsaid hr => exact .fsRead (hsub hsaid) hr
  | fsHash hsaid hr hdigest => exact .fsHash (hsub hsaid) hr hdigest
  | fsWrite hsaid hr => exact .fsWrite (hsub hsaid) hr
  | fsLseek hsaid hr => exact .fsLseek (hsub hsaid) hr
  | fsIoctl hsaid hr hv => exact .fsIoctl (hsub hsaid) hr hv

theorem Replied.mono (h : Replied digests method said out) (hsub : said ⊆ said') :
    Replied digests method said' out := by
  intro m hm
  obtain ⟨⟨r, hr⟩, es, hdoc, hes⟩ := h m hm
  exact ⟨⟨r, hsub hr⟩, es, hdoc, hes.mono hsub⟩

end

/-! ## Sizes -/

section Sizes

variable (es : List Element) (key : CString)

end Sizes

/-- No access is outside of its block, and under a condition all buffers are valid. -/
def Sound (V : Prop) (c : FsSaid) : Prop := c ≠ .stray ∧ (V → c.BufferValid)

section Steps

variable {α β : Type} {A : FsSaid → FsReply → Prop} {P : FsSaid → Prop} {table : ℤ → Set ℤ}
  {R : List (FsSaid × FsReply) → β → Prop} {m : Mem} {p n : ℕ} {es : List Element} {key : CString}

end Steps

/-! ## The second halves -/

attribute [local irreducible] Meets

section Halves

variable {digests : List HashMethod} {method : FsMethod} {table : ℤ → Set ℤ} {V : Prop}

end Halves

/-! ## What is read from a request -/

section Request

variable {m : Mem} {off : ℤ}

end Request

/-! ## The methods -/

/-- A method that begins with these members comes to its descriptor. -/
structure Reaches (table : ℤ → Set ℤ) (params : Mem) (names : List CString) (keys : Keys)
    (vfd fd : ℤ) : Prop where
  props : ∃ found, 0 ≤ found ∧ bsonGetProps params (names.map (·, 0)) = some (found, keys)
  off_nonneg : 0 ≤ offAt keys 0
  vfd_eq : bsonGetInt32 (some params) (offAt keys 0) (-1) = some vfd
  vfd_nonneg : 0 ≤ vfd
  vfd_lt : vfd < maxFds
  fd_mem : fd ∈ table vfd
  fd_nonneg : 0 ≤ fd

section Methods

variable {digests : List HashMethod} {method : FsMethod} {table : ℤ → Set ℤ} {V : Prop}
  {params : Option Mem}

end Methods

end OlivePiccolo.ClientFs
