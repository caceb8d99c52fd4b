import Mathlib.Tactic.NormNum
import OlivePiccolo.Boot.Loader
import OlivePiccolo.Boot.RoundTrip
import OlivePiccolo.Library.Overlay
import OlivePiccolo.Library.RoundUp

/-!
# Runs of the boot loader

With a flash that answers the command to read, the words that come in are those of the image
(`word_read`). The loader reads the header of the file and of each segment, and copies the data of a
segment, or decompresses them, to where they belong (`run_segment`); and the program is started
when the last one is done (`run_loader`).
-/

namespace OlivePiccolo.Boot

open StateTransition Lz4hc

/-! ## Words from the flash -/

section Bits

theorem toNat_rotateLeft_8 (x : BitVec 32) :
    (x.rotateLeft 8).toNat = x.toNat % 2 ^ 24 * 2 ^ 8 + x.toNat / 2 ^ 24 := by
  have hx := x.isLt
  rw [BitVec.rotateLeft_def, BitVec.toNat_or, BitVec.toNat_shiftLeft, BitVec.toNat_ushiftRight,
    Nat.shiftRight_eq_div_pow, Nat.shiftLeft_eq]
  have hlow : x.toNat * 2 ^ (8 % 32) % 2 ^ 32 = 2 ^ 8 * (x.toNat % 2 ^ 24) := by
    norm_num
    omega
  rw [hlow, ← Nat.two_pow_add_eq_or_of_lt (by norm_num; omega)]
  norm_num
  omega

theorem toNat_rotateLeft_24 (x : BitVec 32) :
    (x.rotateLeft 24).toNat = x.toNat % 2 ^ 8 * 2 ^ 24 + x.toNat / 2 ^ 8 := by
  have hx := x.isLt
  rw [BitVec.rotateLeft_def, BitVec.toNat_or, BitVec.toNat_shiftLeft, BitVec.toNat_ushiftRight,
    Nat.shiftRight_eq_div_pow, Nat.shiftLeft_eq]
  have hlow : x.toNat * 2 ^ (24 % 32) % 2 ^ 32 = 2 ^ 24 * (x.toNat % 2 ^ 8) := by
    norm_num
    omega
  rw [hlow, ← Nat.two_pow_add_eq_or_of_lt (by norm_num; omega)]
  norm_num
  omega

/-- Four rotations by a byte. -/
theorem rotateLeft_8_four (x : BitVec 32) :
    (((x.rotateLeft 8).rotateLeft 8).rotateLeft 8).rotateLeft 8 = x := by
  apply BitVec.eq_of_toNat_eq
  have hx := x.isLt
  simp only [toNat_rotateLeft_8]
  omega

/-- A byte comes in at the top of `r_spim_read`, whose lowest byte is free. -/
theorem toNat_push (x : BitVec 32) (b : UInt8) (hx : x.toNat % 2 ^ 8 = 0) :
    ((x ||| b.toBitVec.setWidth 32).rotateLeft 24).toNat =
      b.toNat * 2 ^ 24 + x.toNat / 2 ^ 8 := by
  have hb := b.toNat_lt
  have hlt := x.isLt
  have hbyte : (b.toBitVec.setWidth 32).toNat = b.toNat := by
    rw [BitVec.toNat_setWidth, Nat.mod_eq_of_lt]
    · rfl
    · exact Nat.lt_of_lt_of_le hb (by norm_num)
  have hor : (x ||| b.toBitVec.setWidth 32).toNat = x.toNat + b.toNat := by
    rw [BitVec.toNat_or, hbyte]
    have hsplit : x.toNat = 2 ^ 8 * (x.toNat / 2 ^ 8) := by omega
    rw [hsplit, ← Nat.two_pow_add_eq_or_of_lt (by omega)]
  rw [toNat_rotateLeft_24, hor]
  omega

end Bits

/-- A word, least significant byte first. -/
def wordOf (b₀ b₁ b₂ b₃ : UInt8) : BitVec 32 := BitVec.ofNat 32 (leNat [b₀, b₁, b₂, b₃])

theorem toNat_wordOf (b₀ b₁ b₂ b₃ : UInt8) : (wordOf b₀ b₁ b₂ b₃).toNat =
    b₀.toNat + 2 ^ 8 * b₁.toNat + 2 ^ 16 * b₂.toNat + 2 ^ 24 * b₃.toNat := by
  have h₀ := b₀.toNat_lt
  have h₁ := b₁.toNat_lt
  have h₂ := b₂.toNat_lt
  have h₃ := b₃.toNat_lt
  rw [wordOf, BitVec.toNat_ofNat]
  simp only [leNat]
  omega

/-- The bytes of a word as they are sent, the most significant one first. -/
def sentBytes (v : BitVec 32) : List UInt8 :=
  [⟨(v.rotateLeft 8).setWidth 8⟩, ⟨((v.rotateLeft 8).rotateLeft 8).setWidth 8⟩,
    ⟨(((v.rotateLeft 8).rotateLeft 8).rotateLeft 8).setWidth 8⟩, ⟨v.setWidth 8⟩]

/-- The four bytes that come in one after the other. -/
theorem push_four (b₀ b₁ b₂ b₃ : UInt8) :
    ((((((((0 : BitVec 32) ||| b₀.toBitVec.setWidth 32).rotateLeft 24) |||
      b₁.toBitVec.setWidth 32).rotateLeft 24) ||| b₂.toBitVec.setWidth 32).rotateLeft 24) |||
        b₃.toBitVec.setWidth 32).rotateLeft 24 = wordOf b₀ b₁ b₂ b₃ := by
  have h₀ := b₀.toNat_lt
  have h₁ := b₁.toNat_lt
  have h₂ := b₂.toNat_lt
  have e₀ := toNat_push 0 b₀ rfl
  rw [show (0 : BitVec 32).toNat = 0 from rfl, Nat.zero_div, Nat.add_zero] at e₀
  have e₁ := toNat_push _ b₁ (show (((0 : BitVec 32) ||| b₀.toBitVec.setWidth 32).rotateLeft
    24).toNat % 2 ^ 8 = 0 by rw [e₀]; omega)
  rw [e₀] at e₁
  have e₂ := toNat_push _ b₂ (by rw [e₁]; omega)
  rw [e₁] at e₂
  have e₃ := toNat_push _ b₃ (by rw [e₂]; omega)
  rw [e₂] at e₃
  apply BitVec.eq_of_toNat_eq
  rw [e₃, toNat_wordOf]
  omega

/-- **A word is sent and a word is received.** -/
theorem flashTxrxWord_eq (flash : List UInt8 → UInt8) (s : Machine) :
    s.flashTxrxWord flash = { s with
      lz4_15 := 0
      sent := s.sent ++ sentBytes s.spimWrite
      received := s.received + 4
      spimRead := wordOf (flash (s.sent ++ (sentBytes s.spimWrite).take 1))
        (flash (s.sent ++ (sentBytes s.spimWrite).take 2))
        (flash (s.sent ++ (sentBytes s.spimWrite).take 3))
        (flash (s.sent ++ sentBytes s.spimWrite)) } := by
  simp only [Machine.flashTxrxWord, Machine.txrxByte, Machine.flashTx, Machine.flashRx,
    Machine.spimWrite, push_four, rotateLeft_8_four, sentBytes, List.append_assoc,
    List.cons_append, List.nil_append, List.take_succ_cons, List.take_zero]
  rfl

/-! ## Reading -/

/-- The first word of a command to read: `CMD_READ_BYTES` and an address. -/
def readFrom (a : ℕ) : BitVec 32 := BitVec.ofNat 32 (0x03000000 + a)

/-- Its bytes. -/
def command (a : ℕ) : List UInt8 :=
  [0x03, UInt8.ofNat (a / 2 ^ 16), UInt8.ofNat (a / 2 ^ 8), UInt8.ofNat a]

/-- The flash sends the byte at an address next, and has sent `n` bytes. -/
def Selected (a n : ℕ) (s : Machine) : Prop :=
  ∃ data : List UInt8, s.sent = command a ++ data ∧ data.length = n

/-- A word of the flash. -/
def wordAt (content : ℕ → UInt8) (a : ℕ) : BitVec 32 :=
  wordOf (content a) (content (a + 1)) (content (a + 2)) (content (a + 3))

section Reading

variable (content : ℕ → UInt8) {a n : ℕ} {s : Loader}

theorem sentBytes_readFrom (ha : a < 2 ^ 24) : sentBytes (readFrom a) = command a := by
  have h₀ : (readFrom a).toNat = 3 * 2 ^ 24 + a := by
    rw [readFrom, BitVec.toNat_ofNat]
    omega
  have h₁ : ((readFrom a).rotateLeft 8).toNat = a * 2 ^ 8 + 3 := by
    rw [toNat_rotateLeft_8, h₀]
    omega
  have h₂ : (((readFrom a).rotateLeft 8).rotateLeft 8).toNat =
      a % 2 ^ 16 * 2 ^ 16 + 3 * 2 ^ 8 + a / 2 ^ 16 := by
    rw [toNat_rotateLeft_8, h₁]
    omega
  have h₃ : ((((readFrom a).rotateLeft 8).rotateLeft 8).rotateLeft 8).toNat =
      a % 2 ^ 8 * 2 ^ 24 + 3 * 2 ^ 16 + a / 2 ^ 8 := by
    rw [toNat_rotateLeft_8, h₂]
    omega
  have hbyte (x : BitVec 32) (v : ℕ) (h : x.toNat % 2 ^ 8 = v % 2 ^ 8) :
      (⟨x.setWidth 8⟩ : UInt8) = UInt8.ofNat v := by
    apply UInt8.toNat_inj.mp
    rw [UInt8.toNat_ofNat', ← h]
    exact BitVec.toNat_setWidth 8 x
  rw [sentBytes, command, hbyte _ 3 (by rw [h₁]; omega), hbyte _ (a / 2 ^ 16) (by rw [h₂]; omega),
    hbyte _ (a / 2 ^ 8) (by rw [h₃]; omega), hbyte _ a (by rw [h₀]; omega)]
  rfl

theorem readBytes_command {data : List UInt8} (ha : a < 2 ^ 24) (hdata : data.length = n + 1)
    (hn : a + n < 2 ^ 24) : readBytes content (command a ++ data) = content (a + n) := by
  obtain ⟨b, data, rfl⟩ := List.exists_cons_of_length_eq_add_one hdata
  have haddr : leNat [UInt8.ofNat a, UInt8.ofNat (a / 2 ^ 8), UInt8.ofNat (a / 2 ^ 16)] = a := by
    simp only [leNat, UInt8.toNat_ofNat']
    omega
  rw [List.length_cons, Nat.add_right_cancel_iff] at hdata
  simp only [command, List.cons_append, List.nil_append, readBytes, haddr]
  rw [hdata, Nat.mod_eq_of_lt hn]

/-- The command and the address. -/
theorem word_select (hs : s.sent = []) (hw : s.lz4_255 = readFrom a) (ha : a < 2 ^ 24) :
    Selected a 0 (s.word (readBytes content)).toMachine := by
  refine ⟨[], ?_, rfl⟩
  rw [Loader.word, flashTxrxWord_eq]
  show s.sent ++ sentBytes s.lz4_255 = _
  rw [hs, hw, sentBytes_readFrom ha, List.append_nil, List.nil_append]

/-- The next word. -/
theorem word_read (h : Selected a n s.toMachine) (hle : a + n + 4 ≤ 2 ^ 24) :
    (s.word (readBytes content)).spimRead = wordAt content (a + n) ∧
      Selected a (n + 4) (s.word (readBytes content)).toMachine := by
  obtain ⟨data, hsent, hlen⟩ := h
  have hbyte (k : ℕ) (l : List UInt8) (hk : k < 4) (hl : l.length = k + 1) :
      readBytes content (s.sent ++ l) = content (a + n + k) := by
    have hdata : (data ++ l).length = n + k + 1 := by
      rw [List.length_append, hlen, hl, add_assoc]
    rw [hsent, List.append_assoc, readBytes_command content (by omega) hdata (by omega), add_assoc]
  rw [Loader.word, flashTxrxWord_eq]
  refine ⟨?_, data ++ sentBytes s.lz4_255, ?_, ?_⟩
  · show wordOf _ _ _ _ = _
    rw [hbyte 0 _ (by omega) rfl, hbyte 1 _ (by omega) rfl, hbyte 2 _ (by omega) rfl,
      hbyte 3 _ (by omega) rfl]
    rfl
  · show s.sent ++ _ = _
    rw [hsent, List.append_assoc]
  · rw [List.length_append, hlen]
    rfl

theorem word_write (flash : List UInt8 → UInt8) (s : Loader) :
    (s.word flash).lz4_255 = s.lz4_255 := by
  rw [Loader.word, flashTxrxWord_eq]

end Reading

/-! ## Headers -/

/-- What is read of a program header. -/
structure HeaderRead (content : ℕ → UInt8) (a : ℕ) (s s' : Loader) : Prop where
  eEntry : s'.eEntry = s.eEntry
  pType : s'.lz4Lit = wordAt content a
  write : s'.lz4_255 = s.elfBase + wordAt content (a + 4)
  pPaddr : s'.pPaddr = wordAt content (a + 12)
  paddrFend : s'.paddrFend = wordAt content (a + 12) + wordAt content (a + 16)
  pMemsz : s'.spimRead = wordAt content (a + 20)
  memory : s'.memory = s.memory
  elfBase : s'.elfBase = s.elfBase
  ePhoff : s'.ePhoff = s.ePhoff
  ePhentsize : s'.ePhentsize = s.ePhentsize
  ePhnum : s'.ePhnum = s.ePhnum

theorem readProgramHeader_spec {content : ℕ → UInt8} {a : ℕ} {s : Loader} (hs : s.sent = [])
    (hoff : s.ePhoff = readFrom a) (ha : a + 32 ≤ 2 ^ 24) :
    HeaderRead content a s (readProgramHeader (readBytes content) s) := by
  let flash := readBytes content
  let s₁ := (s.setWrite s.ePhoff).word flash
  let s₂ := s₁.word flash
  let s₃ := { s₂ with lz4Lit := s₂.spimRead }.word flash
  let s₄ := (s₃.setWrite (s₃.elfBase + s₃.spimRead)).word flash
  let s₅ := s₄.word flash
  let s₆ := { s₅ with pPaddr := s₅.spimRead }.word flash
  let s₇ := { s₆ with paddrFend := s₆.pPaddr + s₆.spimRead }.word flash
  have h₁ : Selected a 0 s₁.toMachine := word_select content hs hoff (by omega)
  obtain ⟨e₂, h₂⟩ : s₂.spimRead = wordAt content a ∧ Selected a 4 s₂.toMachine :=
    word_read content h₁ (by omega)
  obtain ⟨e₃, h₃⟩ : s₃.spimRead = wordAt content (a + 4) ∧ Selected a 8 s₃.toMachine :=
    word_read content (s := { s₂ with lz4Lit := s₂.spimRead }) h₂ (by omega)
  obtain ⟨-, h₄⟩ : s₄.spimRead = wordAt content (a + 8) ∧ Selected a 12 s₄.toMachine :=
    word_read content (s := s₃.setWrite (s₃.elfBase + s₃.spimRead)) h₃ (by omega)
  obtain ⟨e₅, h₅⟩ : s₅.spimRead = wordAt content (a + 12) ∧ Selected a 16 s₅.toMachine :=
    word_read content h₄ (by omega)
  obtain ⟨e₆, h₆⟩ : s₆.spimRead = wordAt content (a + 16) ∧ Selected a 20 s₆.toMachine :=
    word_read content (s := { s₅ with pPaddr := s₅.spimRead }) h₅ (by omega)
  obtain ⟨e₇, -⟩ : s₇.spimRead = wordAt content (a + 20) ∧ Selected a 24 s₇.toMachine :=
    word_read content (s := { s₆ with paddrFend := s₆.pPaddr + s₆.spimRead }) h₆ (by omega)
  have hwrite : s₇.lz4_255 = s₃.elfBase + s₃.spimRead := by
    rw [word_write]
    show s₆.lz4_255 = _
    rw [word_write]
    show s₅.lz4_255 = _
    rw [word_write, word_write]
    rfl
  refine ⟨rfl, e₂, ?_, e₅, ?_, e₇, rfl, rfl, rfl, rfl, rfl⟩
  · show s₇.lz4_255 = _
    rw [hwrite, e₃]
    rfl
  · show s₅.spimRead + s₆.spimRead = _
    rw [e₅, e₆]

theorem readFrom_add (a k : ℕ) : readFrom a + BitVec.ofNat 32 k = readFrom (a + k) := by
  rw [readFrom, readFrom, ← add_assoc, BitVec.ofNat_add (x := 0x03000000 + a)]

/-- What is read of the header of the file. -/
structure FileRead (content : ℕ → UInt8) (base : ℕ) (s s' : Loader) : Prop where
  sent : s'.sent = []
  eEntry : s'.eEntry = wordAt content (base + 24)
  memory : s'.memory = s.memory
  elfBase : s'.elfBase = s.elfBase
  ePhoff : s'.ePhoff = s.elfBase + wordAt content (base + 28)
  ePhentsize : s'.ePhentsize = wordAt content (base + 40) >>> 16
  ePhnum : s'.ePhnum = wordAt content (base + 44) &&& 0xffff

theorem run_checkIdent {content : ℕ → UInt8} {base : ℕ} {s : Loader} (hs : s.sent = [])
    (hbase : s.elfBase = readFrom base) (hle : base + 4 ≤ 2 ^ 24)
    (hmagic : wordAt content base = ELF_HEADER_LE) :
    ∃ s', Reaches (loaderStep (readBytes content)) (.checkIdent, s) (.checkHeader, s') ∧
      s'.sent = [] ∧ s'.elfBase = s.elfBase ∧ s'.memory = s.memory := by
  let flash := readBytes content
  let s₁ := (s.setWrite s.elfBase).word flash
  let s₂ := (s₁.word flash).close
  have h₁ : Selected base 0 s₁.toMachine := word_select content hs hbase (by omega)
  have e₂ : s₂.spimRead = ELF_HEADER_LE :=
    (word_read content h₁ (by omega)).1.trans hmagic
  refine ⟨{ s₂ with eEntry := ELF_HEADER_LE }, .single ?_, rfl, rfl, rfl⟩
  show some (if s₂.spimRead ≠ ELF_HEADER_LE then LoaderLabel.halt else .checkHeader, _) = _
  rw [if_neg (not_not.mpr e₂)]

theorem run_checkHeader {content : ℕ → UInt8} {base : ℕ} {s : Loader} (hs : s.sent = [])
    (hbase : s.elfBase = readFrom base) (hle : base + 48 ≤ 2 ^ 24)
    (htype : wordAt content (base + 16) = typeAndMachine) :
    ∃ s', Reaches (loaderStep (readBytes content)) (.checkHeader, s) (.loadProgramHeader, s') ∧
      FileRead content base s s' := by
  let flash := readBytes content
  let s₁ := (s.setWrite (s.elfBase + 16)).word flash
  let s₂ := s₁.word flash
  let s₃ := s₂.word flash
  let s₄ := s₃.word flash
  let s₅ := { s₄ with eEntry := s₄.spimRead }.word flash
  let s₆ := { s₅ with ePhoff := s₅.elfBase + s₅.spimRead }.word flash
  let s₇ := s₆.word flash
  let s₈ := s₇.word flash
  let s₉ := { s₈ with ePhentsize := s₈.spimRead >>> 16 }.word flash
  have hfrom : s.elfBase + 16 = readFrom (base + 16) := by
    rw [hbase]
    exact readFrom_add base 16
  have h₁ : Selected (base + 16) 0 s₁.toMachine := word_select content hs hfrom (by omega)
  obtain ⟨e₂, h₂⟩ : s₂.spimRead = wordAt content (base + 16) ∧ Selected _ 4 s₂.toMachine :=
    word_read content h₁ (by omega)
  obtain ⟨-, h₃⟩ : s₃.spimRead = wordAt content (base + 20) ∧ Selected _ 8 s₃.toMachine :=
    word_read content h₂ (by omega)
  obtain ⟨e₄, h₄⟩ : s₄.spimRead = wordAt content (base + 24) ∧ Selected _ 12 s₄.toMachine :=
    word_read content h₃ (by omega)
  obtain ⟨e₅, h₅⟩ : s₅.spimRead = wordAt content (base + 28) ∧ Selected _ 16 s₅.toMachine :=
    word_read content (s := { s₄ with eEntry := s₄.spimRead }) h₄ (by omega)
  obtain ⟨-, h₆⟩ : s₆.spimRead = wordAt content (base + 32) ∧ Selected _ 20 s₆.toMachine :=
    word_read content (s := { s₅ with ePhoff := s₅.elfBase + s₅.spimRead }) h₅ (by omega)
  obtain ⟨-, h₇⟩ : s₇.spimRead = wordAt content (base + 36) ∧ Selected _ 24 s₇.toMachine :=
    word_read content h₆ (by omega)
  obtain ⟨e₈, h₈⟩ : s₈.spimRead = wordAt content (base + 40) ∧ Selected _ 28 s₈.toMachine :=
    word_read content h₇ (by omega)
  obtain ⟨e₉, -⟩ : s₉.spimRead = wordAt content (base + 44) ∧ Selected _ 32 s₉.toMachine :=
    word_read content (s := { s₈ with ePhentsize := s₈.spimRead >>> 16 }) h₈ (by omega)
  refine ⟨readHeader flash s₂, .single ?_, rfl, e₄, rfl, rfl, ?_, ?_, ?_⟩
  · show loaderStep flash (.checkHeader, s) = some (.loadProgramHeader, readHeader flash s₂)
    exact if_neg (not_not.mpr (e₂.trans htype))
  · show s.elfBase + s₅.spimRead = _
    rw [e₅]
  · show s₈.spimRead >>> 16 = _
    rw [e₈]
  · show s₉.spimRead &&& 0xffff = _
    rw [e₉]

/-! ## Data that are not compressed -/

/-- The registers of the loader that a segment does not change. -/
structure Kept (s s' : Loader) : Prop where
  eEntry : s'.eEntry = s.eEntry
  elfBase : s'.elfBase = s.elfBase
  ePhoff : s'.ePhoff = s.ePhoff
  ePhentsize : s'.ePhentsize = s.ePhentsize
  ePhnum : s'.ePhnum = s.ePhnum

theorem Kept.trans {s s' s'' : Loader} (h : Kept s s') (h' : Kept s' s'') : Kept s s'' :=
  ⟨h'.eEntry.trans h.eEntry, h'.elfBase.trans h.elfBase, h'.ePhoff.trans h.ePhoff,
    h'.ePhentsize.trans h.ePhentsize, h'.ePhnum.trans h.ePhnum⟩

/-- The bytes `dest` have been written from `p` on. -/
structure Written (s₀ : Loader) (p : BitVec 32) (dest : List UInt8) (s : Loader) : Prop where
  kept : Kept s₀ s
  paddrFend : s.paddrFend = s₀.paddrFend
  paddrMend : s.paddrMend = s₀.paddrMend
  pPaddr : s.pPaddr = addrOf p dest.length
  memory : s.memory = overlay s₀.memory p dest

/-- Bytes of the flash. -/
def bytesAt (content : ℕ → UInt8) (a n : ℕ) : List UInt8 :=
  (List.range n).map fun i => content (a + i)

section Plain

variable {content : ℕ → UInt8} {s₀ s : Loader} {p : BitVec 32} {dest : List UInt8} {a n k : ℕ}

@[simp] theorem length_bytesAt : (bytesAt content a n).length = n := by
  rw [bytesAt, List.length_map, List.length_range]

theorem bytesAt_add :
    bytesAt content a (n + k) = bytesAt content a n ++ bytesAt content (a + n) k := by
  rw [bytesAt, List.range_add, List.map_append, List.map_map, bytesAt, bytesAt]
  congr 1
  exact List.map_congr_left fun i _ => congrArg content (Nat.add_assoc a n i).symm

theorem wordOf_bytes (b₀ b₁ b₂ b₃ : UInt8) :
    (⟨(wordOf b₀ b₁ b₂ b₃).setWidth 8⟩ : UInt8) = b₀ ∧
      (⟨(wordOf b₀ b₁ b₂ b₃ >>> 8).setWidth 8⟩ : UInt8) = b₁ ∧
        (⟨(wordOf b₀ b₁ b₂ b₃ >>> 16).setWidth 8⟩ : UInt8) = b₂ ∧
          (⟨(wordOf b₀ b₁ b₂ b₃ >>> 24).setWidth 8⟩ : UInt8) = b₃ := by
  have h₀ := b₀.toNat_lt
  have h₁ := b₁.toNat_lt
  have h₂ := b₂.toNat_lt
  have h₃ := b₃.toNat_lt
  have hv := toNat_wordOf b₀ b₁ b₂ b₃
  have hbyte (i : ℕ) (b : UInt8) (h : (wordOf b₀ b₁ b₂ b₃).toNat / 2 ^ i % 2 ^ 8 = b.toNat) :
      (⟨(wordOf b₀ b₁ b₂ b₃ >>> i).setWidth 8⟩ : UInt8) = b := by
    apply UInt8.toNat_inj.mp
    refine (BitVec.toNat_setWidth 8 _).trans ?_
    rw [BitVec.toNat_ushiftRight, Nat.shiftRight_eq_div_pow, h]
  refine ⟨?_, hbyte 8 b₁ (by omega), hbyte 16 b₂ (by omega), hbyte 24 b₃ (by omega)⟩
  exact hbyte 0 b₀ (by omega)

/-- An aligned word is stored. -/
theorem stw_wordOf {m : Machine} {addr : BitVec 32} (h : addr.toNat % 4 = 0)
    (b₀ b₁ b₂ b₃ : UInt8) : ∃ m', m.stw addr (wordOf b₀ b₁ b₂ b₃) = some m' ∧
      m'.memory = overlay m.memory addr [b₀, b₁, b₂, b₃] ∧
        m' = { m with memory := m'.memory, accesses := m'.accesses } := by
  obtain ⟨e₀, e₁, e₂, e₃⟩ := wordOf_bytes b₀ b₁ b₂ b₃
  have happ (l : List UInt8) (b : UInt8) (hl : l.length < 4) :
      Function.update (overlay m.memory addr l) (addr + BitVec.ofNat 32 l.length) b =
        overlay m.memory addr (l ++ [b]) := by
    rw [← overlay_singleton, overlay_append]
    rw [List.length_singleton]
    omega
  have hmemory : Function.update (Function.update (Function.update
      (Function.update m.memory addr b₀) (addr + 1) b₁) (addr + 2) b₂) (addr + 3) b₃ =
        overlay m.memory addr [b₀, b₁, b₂, b₃] := by
    have h₀ : Function.update m.memory addr b₀ = overlay m.memory addr [b₀] :=
      overlay_singleton.symm
    have h₁ : Function.update (overlay m.memory addr [b₀]) (addr + 1) b₁ =
        overlay m.memory addr [b₀, b₁] := happ [b₀] b₁ (by simp)
    have h₂ : Function.update (overlay m.memory addr [b₀, b₁]) (addr + 2) b₂ =
        overlay m.memory addr [b₀, b₁, b₂] := happ [b₀, b₁] b₂ (by simp)
    have h₃ : Function.update (overlay m.memory addr [b₀, b₁, b₂]) (addr + 3) b₃ =
        overlay m.memory addr [b₀, b₁, b₂, b₃] := happ [b₀, b₁, b₂] b₃ (by simp)
    rw [h₀, h₁, h₂, h₃]
  rw [Machine.stw, if_pos h, e₀, e₁, e₂, e₃]
  exact ⟨_, rfl, hmemory, rfl⟩

/-- A word is copied. -/
theorem copy_step (h : Written s₀ p (bytesAt content a (4 * k)) s)
    (hsel : Selected a (4 * k) s.toMachine) (hp : p.toNat % 4 = 0)
    (htop : p.toNat + 4 * (k + 1) < 2 ^ 32) (ha : a + 4 * (k + 1) ≤ 2 ^ 24) :
    ∃ s', loaderStep (readBytes content) (.loadWord, s) =
        some (if p.toNat + 4 * (k + 1) < s₀.paddrFend.toNat then .loadWord
          else .fillRemainderArea, s') ∧
      Written s₀ p (bytesAt content a (4 * (k + 1))) s' ∧
        Selected a (4 * (k + 1)) s'.toMachine := by
  obtain ⟨hread, hsel'⟩ := word_read content hsel (by omega)
  have haddr : s.pPaddr.toNat = p.toNat + 4 * k := by
    rw [h.pPaddr, length_bytesAt, addrOf_toNat (by omega)]
  have halign : s.pPaddr.toNat % 4 = 0 := by omega
  obtain ⟨m, hstw, hmemory, hm⟩ := stw_wordOf (m := (s.word (readBytes content)).toMachine) halign
    (content (a + 4 * k)) (content (a + 4 * k + 1)) (content (a + 4 * k + 2))
    (content (a + 4 * k + 3))
  have hnext : s.pPaddr + 4 = addrOf p (4 * (k + 1)) := by
    rw [h.pPaddr, length_bytesAt]
    exact addrOf_add p (4 * k) 4
  have hnat : (s.pPaddr + 4).toNat = p.toNat + 4 * (k + 1) := by
    rw [hnext, addrOf_toNat htop]
  have hpPaddr : m.pPaddr = s.pPaddr := by
    rw [hm]
    rfl
  have hstep : loaderStep (readBytes content) (.loadWord, s) =
      ((s.word (readBytes content)).stw s.pPaddr (s.word (readBytes content)).spimRead).bind
        fun m => some (if m.pPaddr + 4 < s.paddrFend then .loadWord else .fillRemainderArea,
          { s with toMachine := { m with pPaddr := m.pPaddr + 4 } }) := rfl
  rw [hread, wordAt, hstw, Option.bind_some, hpPaddr] at hstep
  have hmore : s.pPaddr + 4 < s.paddrFend ↔ p.toNat + 4 * (k + 1) < s₀.paddrFend.toNat := by
    rw [BitVec.lt_def, hnat, h.paddrFend]
  have hbytes : bytesAt content a (4 * (k + 1)) = bytesAt content a (4 * k) ++
      [content (a + 4 * k), content (a + 4 * k + 1), content (a + 4 * k + 2),
        content (a + 4 * k + 3)] := bytesAt_add
  simp only [hmore] at hstep
  refine ⟨_, hstep, ⟨h.kept.trans ⟨rfl, rfl, rfl, rfl, rfl⟩, h.paddrFend, ?_, ?_, ?_⟩, ?_⟩
  · show m.paddrMend = _
    rw [hm]
    exact h.paddrMend
  · show s.pPaddr + 4 = _
    rw [hnext, length_bytesAt]
  · show m.memory = _
    rw [hmemory, hbytes, h.pPaddr, show (s.word (readBytes content)).memory = s.memory from rfl,
      h.memory, addrOf, overlay_append]
    rw [length_bytesAt, List.length_cons, List.length_cons, List.length_cons,
      List.length_singleton]
    omega
  · obtain ⟨data, hsent, hlen⟩ := hsel'
    refine ⟨data, ?_, hlen⟩
    show m.sent = _
    rw [hm]
    exact hsent

/-- All words of a segment. -/
theorem run_copy (h : Written s₀ p (bytesAt content a (4 * k)) s)
    (hsel : Selected a (4 * k) s.toMachine) (hp : p.toNat % 4 = 0) (hn : k < n)
    (htop : p.toNat + 4 * n < 2 ^ 32) (ha : a + 4 * n ≤ 2 ^ 24)
    (hfrom : p.toNat + 4 * n < s₀.paddrFend.toNat + 4)
    (hto : s₀.paddrFend.toNat ≤ p.toNat + 4 * n) :
    ∃ s', Reaches (loaderStep (readBytes content)) (.loadWord, s) (.fillRemainderArea, s') ∧
      Written s₀ p (bytesAt content a (4 * n)) s' := by
  obtain ⟨d, rfl⟩ := Nat.exists_eq_add_of_lt hn
  induction d generalizing k s with
  | zero =>
    obtain ⟨s', hstep, hw, -⟩ := copy_step h hsel hp (by omega) (by omega)
    rw [if_neg (by omega)] at hstep
    exact ⟨s', .single hstep, hw⟩
  | succ d ih =>
    obtain ⟨s', hstep, hw, hsel'⟩ := copy_step h hsel hp (by omega) (by omega)
    rw [if_pos (by omega)] at hstep
    rw [show k + (d + 1) + 1 = k + 1 + d + 1 by omega] at *
    obtain ⟨s'', hreach, hw'⟩ := ih hw hsel' (by omega) (by omega) (by omega) (by omega) (by omega)
    exact ⟨s'', Relation.ReflTransGen.head hstep hreach, hw'⟩

/-- The remainder is filled. -/
theorem run_fill (flash : List UInt8 → UInt8) (h : Written s₀ p dest s) (memsz : ℕ)
    (hdest : p.toNat + dest.length < 2 ^ 32) (hmemsz : p.toNat + memsz < 2 ^ 32)
    (hmend : s₀.paddrMend.toNat = p.toNat + memsz) :
    ∃ s', Reaches (loaderStep flash) (.fillRemainderArea, s) (.nextProgramHeader, s') ∧
      Written s₀ p (dest ++ List.replicate (memsz - dest.length) 0) s' := by
  have hstep {dest : List UInt8} {s : Loader} (h : Written s₀ p dest s)
      (hdest : p.toNat + dest.length < 2 ^ 32) : loaderStep flash (.fillRemainderArea, s) =
        some (if dest.length < memsz then .fillByte else .nextProgramHeader, s) := by
    have hmore : s.pPaddr < s.paddrMend ↔ dest.length < memsz := by
      rw [BitVec.lt_def, h.pPaddr, addrOf_toNat hdest, h.paddrMend, hmend]
      omega
    simp only [loaderStep, hmore]
  obtain ⟨d, hd⟩ : ∃ d, d = memsz - dest.length := ⟨_, rfl⟩
  rw [← hd]
  induction d generalizing dest s with
  | zero =>
    have hlast := hstep h hdest
    rw [if_neg (by omega)] at hlast
    rw [List.replicate_zero, List.append_nil]
    exact ⟨s, .single hlast, h⟩
  | succ d ih =>
    have hmore := hstep h hdest
    rw [if_pos (by omega)] at hmore
    have hfill : Written s₀ p (dest ++ [0])
        { s with toMachine := { s.stb s.pPaddr 0 with pPaddr := s.pPaddr + 1 } } := by
      refine ⟨h.kept.trans ⟨rfl, rfl, rfl, rfl, rfl⟩, h.paddrFend, h.paddrMend, ?_, ?_⟩
      · show s.pPaddr + 1 = _
        rw [h.pPaddr, List.length_append]
        exact addrOf_add p dest.length 1
      · show Function.update s.memory s.pPaddr 0 = _
        rw [← overlay_singleton, h.pPaddr, h.memory, addrOf, overlay_append]
        rw [List.length_singleton]
        omega
    have hlen : (dest ++ [0]).length = dest.length + 1 := List.length_append
    obtain ⟨s', hreach, hw⟩ := ih hfill (by omega) (by omega)
    rw [List.append_assoc, List.singleton_append, ← List.replicate_succ] at hw
    exact ⟨s', Relation.ReflTransGen.head hmore (Relation.ReflTransGen.head rfl hreach), hw⟩

end Plain

/-! ## Segments -/

/-- The fields of a program header that the loader uses. -/
structure Header (content : ℕ → UInt8) (a : ℕ) (type : BitVec 32)
    (offset paddr filesz memsz : ℕ) : Prop where
  pType : wordAt content a = type
  pOffset : wordAt content (a + 4) = BitVec.ofNat 32 offset
  pPaddr : wordAt content (a + 12) = BitVec.ofNat 32 paddr
  pFilesz : wordAt content (a + 16) = BitVec.ofNat 32 filesz
  pMemsz : wordAt content (a + 20) = BitVec.ofNat 32 memsz

/-- The loader in front of the data of a segment. -/
structure Entered (base offset paddr filesz memsz : ℕ) (s s' : Loader) : Prop where
  kept : Kept s s'
  selected : Selected (base + offset) 0 s'.toMachine
  pPaddr : s'.pPaddr = BitVec.ofNat 32 paddr
  paddrFend : s'.paddrFend.toNat = paddr + filesz
  paddrMend : s'.paddrMend.toNat = paddr + memsz
  memory : s'.memory = s.memory

section Segments

variable {content : ℕ → UInt8} {base a offset paddr filesz memsz : ℕ} {type : BitVec 32}
  {s s' : Loader}

/-- There are data: the command to read them is sent. -/
theorem enterSegment_data {s : Loader} {x : ℕ} (hmemsz : s.spimRead ≠ 0)
    (hdiff : s.paddrFend ≠ s.pPaddr) (hwrite : s.lz4_255 = readFrom x) (hx : x < 2 ^ 24) :
    ∃ s', enterSegment (readBytes content) s = some (if s.lz4Lit = PT_LOAD_LZ4 then
        .decompress .decompressLz4 else if s.lz4Lit ≠ PT_LOAD then .nextProgramHeader
          else .loadWord, s') ∧
      Kept s s' ∧ Selected x 0 s'.toMachine ∧ s'.pPaddr = s.pPaddr ∧ s'.paddrFend = s.paddrFend ∧
        s'.paddrMend = s.pPaddr + s.spimRead ∧ s'.memory = s.memory := by
  let s₁ := { s with paddrMend := s.pPaddr + s.spimRead }.close
  have hselect : Selected x 0 (s₁.word (readBytes content)).toMachine :=
    word_select content (s := s₁) rfl hwrite hx
  refine ⟨s₁.word (readBytes content), ?_, ⟨rfl, rfl, rfl, rfl, rfl⟩, hselect, rfl, rfl, rfl, rfl⟩
  rw [enterSegment, if_neg hmemsz]
  refine (if_neg hdiff).trans ?_
  show (if s.lz4Lit = PT_LOAD_LZ4 then _ else if s.lz4Lit ≠ PT_LOAD then _ else _) = _
  split_ifs <;> rfl

theorem enter_segment (hs : s.sent = []) (hbase : s.elfBase = readFrom base)
    (hoff : s.ePhoff = readFrom a) (ha : a + 32 ≤ 2 ^ 24)
    (hheader : Header content a type offset paddr filesz memsz) (hfile : 0 < filesz)
    (hmem : 0 < memsz) (hfend : paddr + filesz < 2 ^ 32) (hmend : paddr + memsz < 2 ^ 32)
    (hdata : base + offset < 2 ^ 24) :
    ∃ s', loaderStep (readBytes content) (.loadProgramHeader, s) =
        some (if type = PT_LOAD_LZ4 then .decompress .decompressLz4
          else if type ≠ PT_LOAD then .nextProgramHeader else .loadWord, s') ∧
      Entered base offset paddr filesz memsz s s' := by
  have hread : HeaderRead content a s (readProgramHeader (readBytes content) s) :=
    readProgramHeader_spec hs hoff ha
  have hnat {n : ℕ} (hn : paddr + n < 2 ^ 32) :
      (BitVec.ofNat 32 paddr + BitVec.ofNat 32 n).toNat = paddr + n := by
    rw [← BitVec.ofNat_add, BitVec.toNat_ofNat, Nat.mod_eq_of_lt hn]
  have hstep : loaderStep (readBytes content) (.loadProgramHeader, s) =
      enterSegment (readBytes content) (readProgramHeader (readBytes content) s) := rfl
  generalize readProgramHeader (readBytes content) s = s₁ at hread hstep
  have hmemsz : s₁.spimRead ≠ 0 := by
    rw [hread.pMemsz, hheader.pMemsz]
    intro h
    have hzero := congrArg BitVec.toNat h
    rw [BitVec.toNat_ofNat, Nat.mod_eq_of_lt (by omega)] at hzero
    exact hmem.ne' hzero
  have hdiff : s₁.paddrFend ≠ s₁.pPaddr := by
    rw [hread.paddrFend, hread.pPaddr, hheader.pPaddr, hheader.pFilesz]
    intro h
    have hzero := congrArg BitVec.toNat h
    rw [hnat hfend, BitVec.toNat_ofNat, Nat.mod_eq_of_lt (by omega)] at hzero
    omega
  have hwrite : s₁.lz4_255 = readFrom (base + offset) := by
    rw [hread.write, hbase, hheader.pOffset, readFrom_add]
  obtain ⟨s₂, henter, hkept, hselect, hpaddr, hfend₂, hmend₂, hmemory⟩ :=
    enterSegment_data hmemsz hdiff hwrite hdata
  rw [hread.pType, hheader.pType] at henter
  refine ⟨s₂, hstep.trans henter,
    Kept.trans ⟨hread.eEntry, hread.elfBase, hread.ePhoff, hread.ePhentsize, hread.ePhnum⟩ hkept,
    hselect, ?_, ?_, ?_, hmemory.trans hread.memory⟩
  · rw [hpaddr, hread.pPaddr, hheader.pPaddr]
  · rw [hfend₂, hread.paddrFend, hheader.pPaddr, hheader.pFilesz, hnat hfend]
  · rw [hmend₂, hread.pPaddr, hread.pMemsz, hheader.pPaddr, hheader.pMemsz, hnat hmend]

/-- The blocks of the decompressor are blocks of the loader. -/
theorem reaches_decompress {flash : List UInt8 → UInt8} {l l' : Label} {m m' : Machine}
    (h : Reaches (step flash) (l, m) (l', m')) (s : Loader) :
    Reaches (loaderStep flash) (.after l, { s with toMachine := m })
      (.after l', { s with toMachine := m' }) := by
  obtain ⟨y, hy⟩ : ∃ y, y = (l', m') := ⟨_, rfl⟩
  rw [← hy] at h
  suffices hreach : ∀ y, Reaches (step flash) (l, m) y → Reaches (loaderStep flash)
      (.after l, { s with toMachine := m }) (.after y.1, { s with toMachine := y.2 }) by
    rw [hy] at h
    exact hreach _ h
  intro y hreach
  induction hreach with
  | refl => exact .refl
  | @tail y z _ hstep ih =>
    refine ih.tail ?_
    obtain ⟨l, m⟩ := y
    have hafter : LoaderLabel.after l = .decompress l := by
      cases l with
      | nextProgramHeader => cases hstep
      | _ => rfl
    have hone : step flash (l, m) = some z := hstep
    show loaderStep flash (.after l, { s with toMachine := m }) = _
    rw [hafter]
    show (step flash (l, m)).map _ = _
    rw [hone]
    rfl

/-- A segment that the loader copies, or decompresses, from the flash: where it goes, and the bytes
that are written there. -/
inductive Boots (content : ℕ → UInt8) (base a : ℕ) : BitVec 32 × List UInt8 → Prop
  | plain {offset paddr filesz memsz : ℕ} :
      Header content a PT_LOAD offset paddr filesz memsz → paddr % 4 = 0 → 0 < filesz →
      filesz ≤ memsz → paddr + roundUp memsz 4 < 2 ^ 32 →
      base + offset + roundUp filesz 4 ≤ 2 ^ 24 →
      Boots content base a (BitVec.ofNat 32 paddr,
        bytesAt content (base + offset) (roundUp filesz 4) ++
          List.replicate (memsz - roundUp filesz 4) 0)
  | lz4 {offset paddr : ℕ} {src result : List UInt8} {out : Output} {level : ℤ} :
      Header content a PT_LOAD_LZ4 offset paddr result.length src.length → src ≠ [] →
      result ≠ [] → lz4Compress src level = some (out, result) →
      paddr + src.length < 2 ^ 32 → paddr + result.length < 2 ^ 32 →
      base + offset + result.length ≤ 2 ^ 24 →
      bytesAt content (base + offset) result.length = result →
      Boots content base a (BitVec.ofNat 32 paddr, src)

theorem run_plain (hs : s.sent = []) (hbase : s.elfBase = readFrom base)
    (hoff : s.ePhoff = readFrom a) (ha : a + 32 ≤ 2 ^ 24)
    (hheader : Header content a PT_LOAD offset paddr filesz memsz) (hpaddr : paddr % 4 = 0)
    (hfile : 0 < filesz) (hle : filesz ≤ memsz) (htop : paddr + roundUp memsz 4 < 2 ^ 32)
    (hdata : base + offset + roundUp filesz 4 ≤ 2 ^ 24) :
    ∃ s', Reaches (loaderStep (readBytes content)) (.loadProgramHeader, s)
        (.nextProgramHeader, s') ∧ Kept s s' ∧
      s'.memory = overlay s.memory (BitVec.ofNat 32 paddr)
        (bytesAt content (base + offset) (roundUp filesz 4) ++
          List.replicate (memsz - roundUp filesz 4) 0) := by
  have hfup := le_roundUp (n := 4) filesz (by omega)
  have hmup := le_roundUp (n := 4) memsz (by omega)
  have hup := roundUp_mono (n := 4) hle
  obtain ⟨words, hwords⟩ := dvd_roundUp filesz 4
  have hlast : roundUp filesz 4 < filesz + 4 := by
    have hdiv := Nat.div_mul_le_self (filesz + 4 - 1) 4
    rw [roundUp]
    omega
  have hp : (BitVec.ofNat 32 paddr).toNat = paddr := by
    rw [BitVec.toNat_ofNat, Nat.mod_eq_of_lt (by omega)]
  obtain ⟨s₁, hstep, hentered⟩ := enter_segment hs hbase hoff ha hheader hfile (by omega)
    (by omega) (by omega) (by omega)
  rw [if_neg (by decide), if_neg (not_not.mpr rfl)] at hstep
  have hfend := hentered.paddrFend
  have hmend := hentered.paddrMend
  have hstart :
      Written s₁ (BitVec.ofNat 32 paddr) (bytesAt content (base + offset) (4 * 0)) s₁ := by
    refine ⟨⟨rfl, rfl, rfl, rfl, rfl⟩, rfl, rfl, ?_, rfl⟩
    rw [hentered.pPaddr]
    exact (BitVec.add_zero _).symm
  obtain ⟨s₂, hcopy, hcopied⟩ := run_copy hstart hentered.selected (n := words) (by omega)
    (by omega) (by omega) (by omega) (by omega) (by omega)
  rw [← hwords] at hcopied
  obtain ⟨s₃, hfill, hfilled⟩ := run_fill (readBytes content) hcopied memsz
    (by rw [length_bytesAt]; omega) (by omega) (by omega)
  rw [length_bytesAt] at hfilled
  refine ⟨s₃, Relation.ReflTransGen.head hstep (hcopy.trans hfill),
    hentered.kept.trans hfilled.kept, ?_⟩
  rw [hfilled.memory, hentered.memory]

/-- A compressed segment is undone. -/
theorem run_decompress (src : Mem) (hsrc : src ≠ []) (compressionLevel : ℤ) :
    ∃ out result, lz4Compress src compressionLevel = some (out, result) ∧
      ∀ (flash : List UInt8 → UInt8) (s₀ : Machine),
        s₀.paddrMend.toNat = s₀.pPaddr.toNat + src.length → Fed flash s₀ result →
          ∃ s, Reaches (step flash) (.decompressLz4, s₀) (.nextProgramHeader, s) ∧
            Undone src result s₀ s := by
  obtain ⟨⟨out, result⟩, hresult, l, pos, hcompressed, hbytes⟩ :=
    lz4Compress_spec src compressionLevel
  refine ⟨out, result, hresult, fun flash s₀ hmend hfed => ?_⟩
  have hlt := s₀.paddrMend.isLt
  have hpos := List.length_pos_of_ne_nil hsrc
  have hple := hcompressed.pos_le
  have hexpand := hcompressed.parse.expand_eq
  have hroom : s₀.pPaddr.toNat + src.length < 2 ^ 32 := by omega
  have hend : s₀.paddrMend = addrOf s₀.pPaddr src.length := by
    apply BitVec.eq_of_toNat_eq
    rw [hmend, addrOf_toNat hroom]
  have hlast : src.drop pos ≠ [] := by
    rw [ne_eq, List.drop_eq_nil_iff]
    omega
  have hsize : (l.foldl Lz77.Sequence.expand []).length + (src.drop pos).length = src.length := by
    rw [← Lz77.expand, hexpand, List.length_take, List.length_drop]
    omega
  have hstep : step flash (.decompressLz4, s₀) =
      some (.readToken, { s₀.flashTx 0 with lz4_255 := 255, lz4_15 := 15 }) := rfl
  have hstart : Decoding s₀ result [] (blockBytes l (src.drop pos) ++ [])
      { s₀.flashTx 0 with lz4_255 := 255, lz4_15 := 15 } := by
    refine ⟨(BitVec.add_zero _).symm, rfl, rfl, rfl, ⟨[], ?_, rfl, rfl⟩, fun _ => rfl,
      ⟨[], (List.append_nil _).symm, .nil⟩⟩
    rw [List.append_nil]
    exact hbytes
  obtain ⟨s, hs, hreach⟩ := run_block hfed hroom hend l hcompressed.parse.valid
    hcompressed.encodable hlast hsize hstart
  rw [← Lz77.expand, hexpand, List.take_append_drop] at hs
  exact ⟨s, Relation.ReflTransGen.head hstep hreach, hs.undone⟩

theorem run_lz4 {src result : List UInt8} {out : Output} {level : ℤ} (hs : s.sent = [])
    (hbase : s.elfBase = readFrom base) (hoff : s.ePhoff = readFrom a) (ha : a + 32 ≤ 2 ^ 24)
    (hheader : Header content a PT_LOAD_LZ4 offset paddr result.length src.length)
    (hsrc : src ≠ []) (hresult : result ≠ [])
    (hcompress : lz4Compress src level = some (out, result))
    (htop : paddr + src.length < 2 ^ 32) (hfend : paddr + result.length < 2 ^ 32)
    (hdata : base + offset + result.length ≤ 2 ^ 24)
    (hbytes : bytesAt content (base + offset) result.length = result) :
    ∃ s', Reaches (loaderStep (readBytes content)) (.loadProgramHeader, s)
        (.nextProgramHeader, s') ∧ Kept s s' ∧
      s'.memory = overlay s.memory (BitVec.ofNat 32 paddr) src := by
  have hpos := List.length_pos_of_ne_nil hresult
  obtain ⟨s₁, hstep, hentered⟩ := enter_segment hs hbase hoff ha hheader hpos
    (List.length_pos_of_ne_nil hsrc) hfend htop (by omega)
  rw [if_pos rfl] at hstep
  obtain ⟨out', result', hcompress', hrun⟩ := run_decompress src hsrc level
  obtain rfl : result = result' := by
    rw [hcompress] at hcompress'
    exact congrArg Prod.snd (Option.some.inj hcompress')
  have hfed : Fed (readBytes content) s₁.toMachine result := by
    intro k hk
    obtain ⟨data, hsent, hlen⟩ := hentered.selected
    obtain rfl := List.eq_nil_of_length_eq_zero hlen
    rw [hsent, List.append_nil, readBytes_command content (n := k) (by omega)
      (List.length_replicate ..) (by omega)]
    have hget := congrArg (·[k]?) hbytes
    simp only [bytesAt, List.getElem?_map] at hget
    rw [List.getElem?_range hk, List.getElem?_eq_getElem hk] at hget
    exact Option.some.inj hget
  obtain ⟨m, hreach, hundone⟩ := hrun (readBytes content) s₁.toMachine
    (by rw [hentered.paddrMend, hentered.pPaddr, BitVec.toNat_ofNat, Nat.mod_eq_of_lt (by omega)])
    hfed
  refine ⟨{ s₁ with toMachine := m }, Relation.ReflTransGen.head hstep
    (reaches_decompress hreach s₁), hentered.kept.trans ⟨rfl, rfl, rfl, rfl, rfl⟩, ?_⟩
  funext x
  show m.memory x = _
  rw [hundone.memory, hentered.pPaddr, hentered.memory]
  rfl

theorem run_segment {p : BitVec 32 × List UInt8} (h : Boots content base a p) (hs : s.sent = [])
    (hbase : s.elfBase = readFrom base) (hoff : s.ePhoff = readFrom a) (ha : a + 32 ≤ 2 ^ 24) :
    ∃ s', Reaches (loaderStep (readBytes content)) (.loadProgramHeader, s)
        (.nextProgramHeader, s') ∧ Kept s s' ∧ s'.memory = overlay s.memory p.1 p.2 := by
  cases h with
  | plain hheader hpaddr hfile hle htop hdata =>
    exact run_plain hs hbase hoff ha hheader hpaddr hfile hle htop hdata
  | lz4 hheader hsrc hresult hcompress htop hfend hdata hbytes =>
    exact run_lz4 hs hbase hoff ha hheader hsrc hresult hcompress htop hfend hdata hbytes

/-- The loader in front of the last `n` program headers, the first of which is at `a`. -/
structure AtHeaders (base a n : ℕ) (s : Loader) : Prop where
  sent : s.sent = []
  elfBase : s.elfBase = readFrom base
  ePhoff : s.ePhoff = readFrom a
  ePhentsize : s.ePhentsize = 32
  ePhnum : s.ePhnum = BitVec.ofNat 32 n

/-- One program header. -/
theorem run_header {p : BitVec 32 × List UInt8} {n : ℕ} (h : Boots content base a p)
    (hat : AtHeaders base a (n + 1) s) (hn : n < 2 ^ 32) (ha : a + 32 ≤ 2 ^ 24) :
    ∃ s', Reaches (loaderStep (readBytes content)) (.loadProgramHeader, s)
        (if n = 0 then .startProgram else .loadProgramHeader, s') ∧ AtHeaders base (a + 32) n s' ∧
      s'.eEntry = s.eEntry ∧ s'.memory = overlay s.memory p.1 p.2 := by
  obtain ⟨s₁, hreach, hkept, hmemory⟩ := run_segment h hat.sent hat.elfBase hat.ePhoff ha
  let s₂ := { s₁.close with
    ePhoff := s₁.ePhoff + s₁.ePhentsize
    ePhnum := s₁.ePhnum - 1 }
  have hnum : s₂.ePhnum = BitVec.ofNat 32 n := by
    show s₁.ePhnum - 1 = _
    rw [hkept.ePhnum, hat.ePhnum, BitVec.ofNat_add]
    exact BitVec.add_sub_cancel _ _
  have hoff : s₂.ePhoff = readFrom (a + 32) := by
    show s₁.ePhoff + s₁.ePhentsize = _
    rw [hkept.ePhoff, hkept.ePhentsize, hat.ePhoff, hat.ePhentsize]
    exact readFrom_add a 32
  have hmore : s₂.ePhnum ≠ 0 ↔ n ≠ 0 := by
    rw [hnum, not_iff_not]
    constructor
    · intro hzero
      have hnat := congrArg BitVec.toNat hzero
      rwa [BitVec.toNat_ofNat, Nat.mod_eq_of_lt hn] at hnat
    · rintro rfl
      rfl
  have hnext : loaderStep (readBytes content) (.nextProgramHeader, s₁) =
      some (if n = 0 then .startProgram else .loadProgramHeader, s₂) := by
    rw [← ite_not]
    simp only [← hmore]
    rfl
  exact ⟨s₂, hreach.tail hnext, ⟨rfl, hkept.elfBase.trans hat.elfBase, hoff,
    hkept.ePhentsize.trans hat.ePhentsize, hnum⟩, hkept.eEntry, hmemory⟩

/-- Program headers with further ones behind them. -/
theorem run_front {pieces : List (BitVec 32 × List UInt8)} {n : ℕ}
    (h : ∀ j (hj : j < pieces.length), Boots content base (a + 32 * j) pieces[j])
    (hat : AtHeaders base a (pieces.length + (n + 1)) s) (hlt : pieces.length + n < 2 ^ 32)
    (ha : a + 32 * pieces.length ≤ 2 ^ 24) :
    ∃ s', Reaches (loaderStep (readBytes content)) (.loadProgramHeader, s)
        (.loadProgramHeader, s') ∧ AtHeaders base (a + 32 * pieces.length) (n + 1) s' ∧
      s'.eEntry = s.eEntry ∧ s'.memory = overlays s.memory pieces := by
  induction pieces generalizing s a with
  | nil =>
    rw [List.length_nil, Nat.zero_add] at hat
    exact ⟨s, .refl, hat, rfl, rfl⟩
  | cons p pieces ih =>
    rw [List.length_cons] at hlt ha hat
    rw [show pieces.length + 1 + (n + 1) = pieces.length + (n + 1) + 1 by omega] at hat
    obtain ⟨s₁, hreach, hat₁, hentry, hmemory⟩ :=
      run_header (h 0 (Nat.succ_pos _)) hat (by omega) (by omega)
    rw [if_neg (by omega)] at hreach
    obtain ⟨s', hrest, hat', hentry', hmemory'⟩ := ih (s := s₁) (a := a + 32)
      (fun j hj => by
        have hj' := h (j + 1) (Nat.succ_lt_succ hj)
        rwa [List.getElem_cons_succ, show a + 32 * (j + 1) = a + 32 + 32 * j by omega] at hj')
      hat₁ (by omega) (by omega)
    refine ⟨s', hreach.trans hrest, ?_, hentry'.trans hentry, ?_⟩
    · rwa [List.length_cons, show a + 32 * (pieces.length + 1) = a + 32 + 32 * pieces.length by
        omega]
    · rw [hmemory', overlays, overlays, List.foldl_cons]
      exact congrArg (fun m => List.foldl _ m pieces) hmemory

/-- All program headers. -/
theorem run_segments {pieces : List (BitVec 32 × List UInt8)} (hne : pieces ≠ [])
    (h : ∀ j (hj : j < pieces.length), Boots content base (a + 32 * j) pieces[j])
    (hat : AtHeaders base a pieces.length s) (hlt : pieces.length < 2 ^ 32)
    (ha : a + 32 * pieces.length ≤ 2 ^ 24) :
    ∃ s', Reaches (loaderStep (readBytes content)) (.loadProgramHeader, s) (.startProgram, s') ∧
      s'.eEntry = s.eEntry ∧ s'.memory = overlays s.memory pieces := by
  obtain ⟨front, p, rfl⟩ := (List.eq_nil_or_concat pieces).resolve_left hne
  rw [List.concat_eq_append] at *
  rw [List.length_append, List.length_singleton] at hat hlt ha
  obtain ⟨s₁, hreach, hat₁, hentry, hmemory⟩ := run_front (n := 0)
    (fun j hj => by
      have hfront := h j (by rw [List.length_append]; omega)
      rwa [List.getElem_append_left hj] at hfront)
    hat (by omega) (by omega)
  have hlast := h front.length (by rw [List.length_append]; exact Nat.lt_succ_self _)
  rw [List.getElem_concat_length rfl] at hlast
  obtain ⟨s', hreach', -, hentry', hmemory'⟩ := run_header hlast hat₁ (by omega) (by omega)
  refine ⟨s', hreach.trans hreach', hentry'.trans hentry, ?_⟩
  rw [hmemory', hmemory, overlays, overlays, List.foldl_append]
  rfl

/-- Words that are not aligned cannot be stored: the loader does not go on. -/
theorem stuck_unaligned {n : ℕ} (hat : AtHeaders base a n s) (ha : a + 32 ≤ 2 ^ 24)
    (hheader : Header content a PT_LOAD offset paddr filesz memsz) (hfile : 0 < filesz)
    (hmem : 0 < memsz) (hfend : paddr + filesz < 2 ^ 32) (hmend : paddr + memsz < 2 ^ 32)
    (hdata : base + offset < 2 ^ 24) (hpaddr : paddr % 4 ≠ 0) :
    ∃ s', Reaches (loaderStep (readBytes content)) (.loadProgramHeader, s) (.loadWord, s') ∧
      loaderStep (readBytes content) (.loadWord, s') = none := by
  obtain ⟨s₁, hstep, hentered⟩ := enter_segment hat.sent hat.elfBase hat.ePhoff ha hheader hfile
    hmem hfend hmend hdata
  rw [if_neg (by decide), if_neg (not_not.mpr rfl)] at hstep
  refine ⟨s₁, .single hstep, ?_⟩
  have hodd : ¬ (s₁.word (readBytes content)).pPaddr.toNat % 4 = 0 := by
    show ¬ s₁.pPaddr.toNat % 4 = 0
    rwa [hentered.pPaddr, BitVec.toNat_ofNat, Nat.mod_eq_of_lt (show paddr < 2 ^ 32 by omega)]
  have hstw : (s₁.word (readBytes content)).stw (s₁.word (readBytes content)).pPaddr
      (s₁.word (readBytes content)).spimRead = none := if_neg hodd
  simp only [loaderStep, hstw]
  rfl

/-- What the header of the file says about its program headers. -/
structure TableAt (content : ℕ → UInt8) (base offset n : ℕ) : Prop where
  ePhoff : wordAt content (base + 28) = BitVec.ofNat 32 offset
  ePhentsize : wordAt content (base + 40) >>> 16 = 32
  ePhnum : wordAt content (base + 44) &&& 0xffff = BitVec.ofNat 32 n

theorem FileRead.atHeaders {n : ℕ} (hread : FileRead content base s s')
    (hbase : s.elfBase = readFrom base) (htable : TableAt content base offset n) :
    AtHeaders base (base + offset) n s' := by
  refine ⟨hread.sent, hread.elfBase.trans hbase, ?_, hread.ePhentsize.trans htable.ePhentsize,
    hread.ePhnum.trans htable.ePhnum⟩
  rw [hread.ePhoff, hbase, htable.ePhoff, readFrom_add]

/-- **The loader.** The header says where the program headers are, and each segment is written to
where it belongs. -/
theorem run_loader {pieces : List (BitVec 32 × List UInt8)} (hne : pieces ≠ [])
    (hmagic : wordAt content base = ELF_HEADER_LE)
    (htype : wordAt content (base + 16) = typeAndMachine)
    (htable : TableAt content base offset pieces.length)
    (h : ∀ j (hj : j < pieces.length), Boots content base (base + offset + 32 * j) pieces[j])
    (hlt : pieces.length < 2 ^ 32) (hle : base + 48 ≤ 2 ^ 24)
    (ha : base + offset + 32 * pieces.length ≤ 2 ^ 24) (hs : s.sent = [])
    (hbase : s.elfBase = readFrom base) :
    ∃ s', Reaches (loaderStep (readBytes content)) (.checkIdent, s) (.startProgram, s') ∧
      s'.eEntry = wordAt content (base + 24) ∧ s'.memory = overlays s.memory pieces := by
  obtain ⟨s₀, hreach₀, hsent₀, hbase₀, hmemory₀⟩ := run_checkIdent hs hbase (by omega) hmagic
  obtain ⟨s₁, hreach, hread⟩ := run_checkHeader hsent₀ (hbase₀.trans hbase) hle htype
  obtain ⟨s₂, hreach', hentry, hmemory⟩ :=
    run_segments hne h (hread.atHeaders (hbase₀.trans hbase) htable) hlt ha
  refine ⟨s₂, hreach₀.trans (hreach.trans hreach'), hentry.trans hread.eEntry, ?_⟩
  rw [hmemory, hread.memory, hmemory₀]

end Segments

end OlivePiccolo.Boot
