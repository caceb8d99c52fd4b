import OlivePiccolo.Bson.Grammar

/-!
# Reading documents

The readers of `bson.c`. A document is the memory from its first byte on, and a pointer into it an
offset. C's `int` arithmetic on lengths wraps (`toInt32`).
-/

namespace OlivePiccolo.Bson

/-! ## The code -/

/-- `read_unaligned_int`. -/
def readUnalignedInt (m : Mem) (p : ℤ) : Access ℤ := do
  let b0 ← m.peek p
  let b1 ← m.peek (p + 1)
  let b2 ← m.peek (p + 2)
  let b3 ← m.peek (p + 3)
  return toInt32 (leNat [b0, b1, b2, b3])

/-- The end of `measure_value`: `skip` is `data - start`. -/
def measured (len skip : ℤ) : ℤ := if len < 0 then -1 else (len + skip).bmod (2 ^ 32)

/-- A string of a regular expression; the result is `data` behind its NUL, if there is one. -/
def skipString (m : Mem) (data fin : ℤ) : Access (Option ℤ) := do
  let n ← m.strnlen data (fin - data).toNat
  if fin ≤ data + n + 1 then return none
  else
    let b ← m.peek (data + n)
    return if b = 0 then some (data + n + 1) else none

/-- `measure_value`. -/
def measureValue (m : Mem) (type : UInt8) (data fin : ℤ) : Access ℤ :=
  match type with
  | 0x01 | 0x09 | 0x11 | 0x12 => some (measured 8 0)
  | 0x02 | 0x0d | 0x0e | 0x0f => do return measured (← readUnalignedInt m data) 4
  | 0x03 | 0x04 => do return measured (← readUnalignedInt m data) 0
  | 0x05 => do return measured (← readUnalignedInt m data) (4 + 1)
  | 0x06 | 0x0a => some (measured 0 0)
  | 0x07 => some (measured 12 0)
  | 0x08 => some (measured 1 0)
  | 0x0b => do
    match ← skipString m data fin with
    | none => return -1
    | some data' =>
      match ← skipString m data' fin with
      | none => return -1
      | some data'' => return measured 0 (data'' - data)
  | 0x0c => do return measured (← readUnalignedInt m data) (4 + 12)
  | 0x10 => some (measured 4 0)
  | 0x13 => some (measured 16 0)
  | _ => some (-1)

/-- The keys asked for, each with the `int` its offset goes to. -/
abbrev Keys := List (CString × ℤ)

/-- Give the offset of an element to the first key without an offset that has its name. -/
def assignOffset (m : Mem) (name : ℤ) : Keys → Access (Option Keys)
  | [] => some none
  | (key, off) :: keys =>
    if off < 0 then do
      if ← m.strcmpEq name key.bytes then return some ((key, name - 1) :: keys)
      else return (← assignOffset m name keys).map ((key, off) :: ·)
    else do return (← assignOffset m name keys).map ((key, off) :: ·)

/-- The loop of `bson_get_props` over the elements from `data` on, at most so many of them. -/
def scanElements (m : Mem) (fin : ℤ) (total : ℕ) : ℕ → ℤ → ℕ → Keys → Access (ℤ × Keys)
  | 0, _, scanned, keys => some (scanned, keys)
  | fuel + 1, data, scanned, keys =>
    if data < fin then do
      let type ← m.peek data
      if type = 0 then return (scanned, keys)
      else
        match ← skipString m (data + 1) fin with
        | none => return (-1, keys)
        | some value =>
          let hit ← assignOffset m (data + 1) keys
          if hit.isSome ∧ scanned + 1 = total then return ((scanned + 1 : ℕ), hit.getD keys)
          else
            let len ← measureValue m type value fin
            if len < 0 then return (-1, hit.getD keys)
            else
              scanElements m fin total fuel (value + len)
                (if hit.isSome then scanned + 1 else scanned) (hit.getD keys)
    else some (scanned, keys)

/-- `bson_get_props`. Each element takes at least one byte of the document. -/
def bsonGetProps (m : Mem) (keys : Keys) : Access (ℤ × Keys) := do
  let len ← readUnalignedInt m 0
  if len ≤ 4 then return (-1, keys)
  else
    let b ← m.peek (len - 1)
    if b ≠ 0 then return (-1, keys)
    else scanElements m len keys.length (len - 4).toNat 4 0 (keys.map fun k => (k.1, -1))

/-- `seek_data`: the value of an element of one of two types, and the end of the document. -/
def seekData (doc : Option Mem) (offset : ℤ) (type type' : UInt8) : Access (Option (ℤ × ℤ)) :=
  match doc with
  | none => some none
  | some m =>
    if offset < 4 then some none
    else do
      let fin ← readUnalignedInt m 0
      if fin ≤ offset then return none
      else
        let b ← m.peek (fin - 1)
        if b ≠ 0 then return none
        else
          let t ← m.peek offset
          if t ≠ type ∧ t ≠ type' then return none
          else return (← skipString m (offset + 1) fin).map (·, fin)

/-- `bson_get_string`: a pointer to the string, unless it is the default value. -/
def bsonGetString (doc : Option Mem) (offset : ℤ) : Access (Option ℤ) := do
  match doc, ← seekData doc offset 0x02 0x02 with
  | some m, some (data, fin) =>
    let len ← readUnalignedInt m data
    if len ≤ 0 ∨ fin - (data + 4) < len then return none
    else
      let b ← m.peek (data + 4 + len - 1)
      return if b = 0 then some (data + 4) else none
  | _, _ => return none

/-- `bson_get_subdocument`: a pointer to the document, unless it is the default value. -/
def bsonGetSubdocument (doc : Option Mem) (offset : ℤ) : Access (Option ℤ) := do
  return (← seekData doc offset 0x04 0x03).map (·.1)

/-- `bson_get_binary`: a pointer to the data and its length, unless it is `NULL`. -/
def bsonGetBinary (doc : Option Mem) (offset : ℤ) : Access (Option (ℤ × ℤ)) := do
  match doc, ← seekData doc offset 0x05 0x05 with
  | some m, some (data, fin) =>
    let binlen ← readUnalignedInt m data
    if binlen ≤ 0 ∨ fin - (data + (4 + 1)) < binlen then return none
    else return some (data + (4 + 1), binlen)
  | _, _ => return none

/-- `bson_get_boolean`. -/
def bsonGetBoolean (doc : Option Mem) (offset defaultValue : ℤ) : Access ℤ := do
  match doc, ← seekData doc offset 0x08 0x08 with
  | some m, some (data, _) => return if (← m.peek data) ≠ 0 then 1 else 0
  | _, _ => return defaultValue

/-- `bson_get_int32`. -/
def bsonGetInt32 (doc : Option Mem) (offset defaultValue : ℤ) : Access ℤ := do
  match doc, ← seekData doc offset 0x10 0x10 with
  | some m, some (data, _) => readUnalignedInt m data
  | _, _ => return defaultValue

/-! ## Reading what stands there -/

section

variable {m : Mem} {p data fin : ℤ}

/-- A length that stands in memory. -/
theorem readUnalignedInt_eq {v : ℕ} (h : m.HasAt p (leBytes 4 v)) (hv : v < 2 ^ 32) :
    readUnalignedInt m p = some (toInt32 v) := by
  have hle := leNat_leBytes (n := 4) (v := v) (by omega)
  obtain ⟨b0, b1, b2, b3, hb⟩ : ∃ b0 b1 b2 b3, leBytes 4 v = [b0, b1, b2, b3] := ⟨_, _, _, _, rfl⟩
  rw [hb] at h hle
  have h1 : m.HasAt (p + 1) [b1, b2, b3] := h.tail
  have h2 : m.HasAt (p + 2) [b2, b3] := by
    have := h1.tail
    rwa [add_assoc] at this
  have h3 : m.HasAt (p + 3) [b3] := by
    have := h2.tail
    rwa [add_assoc] at this
  simp only [readUnalignedInt, h.peek, h1.peek, h2.peek, h3.peek, hle, Option.bind_eq_bind,
    Option.bind_some, Option.pure_def]

theorem readUnalignedInt_length {v : ℕ} (h : m.HasAt p (leBytes 4 v)) (hv : v < 2 ^ 31) :
    readUnalignedInt m p = some (v : ℤ) := by
  rw [readUnalignedInt_eq h (by omega), toInt32_of_lt hv]

theorem measured_eq {len skip : ℕ} (h : len + skip < 2 ^ 31) :
    measured len skip = (len + skip : ℕ) := by
  rw [measured, if_neg (by omega), Int.bmod_eq_of_le] <;> omega

/-- A string with room for more behind it. -/
theorem skipString_eq (s : CString) (h : m.HasAt data s.encode)
    (hfin : data + s.encode.length < fin) :
    skipString m data fin = some (some (data + s.encode.length)) := by
  rw [CString.encode_length] at hfin
  have hlen : s.bytes.length < (fin - data).toNat := by omega
  have hnul : m.HasAt (data + s.bytes.length) [0] := h.right
  have hnext : data + (s.encode.length : ℤ) = data + s.bytes.length + 1 := by
    rw [CString.encode_length]
    omega
  have hroom : ¬ fin ≤ data + s.bytes.length + 1 := by omega
  simp only [skipString, Mem.HasAt.strnlen s.no_nul hlen h, hnul.peek, Option.bind_eq_bind,
    Option.bind_some, Option.pure_def, if_neg hroom, if_true, hnext]

/-- A value that starts with a length. -/
theorem measured_of_length (skip : ℕ) {len size : ℕ} {rest : List UInt8}
    (h : m.HasAt data (leBytes 4 len ++ rest)) (hsize : len + skip = size)
    (hlt : size < 2 ^ 31) :
    (do return measured (← readUnalignedInt m data) skip : Access ℤ) = some (size : ℤ) := by
  rw [readUnalignedInt_length h.left (by omega), Option.bind_eq_bind, Option.bind_some,
    measured_eq (by omega), hsize]
  rfl

/-- A value of fixed size. -/
theorem measured_fixed {n : ℕ} (bytes : List.Vector UInt8 n) (hlt : n < 2 ^ 31) :
    (some (measured n 0) : Access ℤ) = some ((bytes.toList.length + 0 : ℕ) : ℤ) := by
  rw [List.Vector.toList_length]
  exact congrArg some (measured_eq (by omega))

/-- By how much `measure_value` is too large: the length of code with scope already counts its own
four bytes. -/
def Value.overhang (v : Value) : ℕ := if v.isCodeWithScope then 4 else 0

theorem Value.overhang_le (v : Value) : v.overhang ≤ 4 := by
  unfold Value.overhang
  split_ifs <;> omega

/-- **Sizes.** `measure_value` is right about every type but for code with scope. -/
theorem measureValue_eq (v : Value) (h : m.HasAt data v.encode)
    (hfin : data + v.encode.length < fin) (hlen : v.encode.length + 4 < 2 ^ 31) :
    measureValue m v.typeCode data fin = some ((v.encode.length + v.overhang : ℕ) : ℤ) := by
  have hover := v.overhang_le
  cases v with
  | double bytes | utcDatetime bytes | timestamp bytes | int64 bytes | objectId bytes
  | decimal128 bytes => exact measured_fixed bytes (by omega)
  | undefined | null | boolean b | int32 v => rfl
  | string s | code s | symbol s =>
    rw [Value.encode] at h hlen ⊢
    rw [encodeString, List.append_assoc] at h
    rw [encodeString_length] at hlen ⊢
    exact measured_of_length 4 h rfl (by omega)
  | document es | array es =>
    rw [Value.encode] at h hlen ⊢
    rw [encodeBody, List.append_assoc] at h
    rw [encodeBody_length] at hlen ⊢
    exact measured_of_length 0 h rfl (by omega)
  | binary subtype bytes =>
    have h0 : (Value.binary subtype bytes).overhang = 0 := rfl
    rw [Value.encode] at h hlen ⊢
    rw [List.length_append, leBytes_length, List.length_cons] at hlen ⊢
    exact measured_of_length 5 h (by omega) (by omega)
  | dbPointer s bytes =>
    have h0 : (Value.dbPointer s bytes).overhang = 0 := rfl
    rw [Value.encode] at h hlen ⊢
    rw [encodeString, List.append_assoc, List.append_assoc] at h
    rw [List.length_append, encodeString_length, List.Vector.toList_length] at hlen ⊢
    exact measured_of_length 16 h (by omega) (by omega)
  | codeWithScope s scope =>
    have h4 : (Value.codeWithScope s scope).overhang = 4 := rfl
    rw [Value.encode] at h hlen ⊢
    rw [List.append_assoc] at h
    rw [List.length_append, List.length_append, leBytes_length, encodeBody_length] at hlen ⊢
    exact measured_of_length 4 h (by omega) (by omega)
  | regex pt op =>
    have h0 : (Value.regex pt op).overhang = 0 := rfl
    rw [Value.encode] at h hlen hfin ⊢
    rw [List.length_append] at hlen hfin ⊢
    have hp : skipString m data fin = _ := skipString_eq pt h.left (by omega)
    have ho : skipString m (data + pt.encode.length) fin = _ := skipString_eq op h.right (by omega)
    have hsize : data + (pt.encode.length : ℤ) + op.encode.length - data =
        (pt.encode.length + op.encode.length : ℕ) := by omega
    have hm : measured (0 : ℕ) (pt.encode.length + op.encode.length : ℕ) = _ :=
      measured_eq (by omega)
    simp only [Value.typeCode, measureValue, hp, ho, Option.bind_eq_bind, Option.bind_some, hsize,
      h0]
    rw [Nat.zero_add] at hm
    exact congrArg some hm

end

/-! ## Reading inside -/

section Inside

variable {m : Mem} {p data fin : ℤ}

theorem readUnalignedInt_isSome :
    (readUnalignedInt m p).isSome ↔ 0 ≤ p ∧ p + 4 ≤ m.length := by
  constructor
  · intro h
    obtain ⟨v, hv⟩ := Option.isSome_iff_exists.mp h
    obtain ⟨b0, h0, hv⟩ := Option.bind_eq_some_iff.mp hv
    obtain ⟨b1, -, hv⟩ := Option.bind_eq_some_iff.mp hv
    obtain ⟨b2, -, hv⟩ := Option.bind_eq_some_iff.mp hv
    obtain ⟨b3, h3, -⟩ := Option.bind_eq_some_iff.mp hv
    have hfirst := Mem.peek_isSome.mp (Option.isSome_iff_exists.mpr ⟨b0, h0⟩)
    have hlast := Mem.peek_isSome.mp (Option.isSome_iff_exists.mpr ⟨b3, h3⟩)
    omega
  · rintro ⟨hp, hle⟩
    obtain ⟨b0, h0⟩ := Mem.exists_peek (m := m) hp (by omega)
    obtain ⟨b1, h1⟩ := Mem.exists_peek (m := m) (p := p + 1) (by omega) (by omega)
    obtain ⟨b2, h2⟩ := Mem.exists_peek (m := m) (p := p + 2) (by omega) (by omega)
    obtain ⟨b3, h3⟩ := Mem.exists_peek (m := m) (p := p + 3) (by omega) (by omega)
    rw [readUnalignedInt, h0, h1, h2, h3]
    rfl

/-- A length that has been read is an `int`. -/
theorem readUnalignedInt_lt {v : ℤ} (h : readUnalignedInt m p = some v) : v < 2 ^ 31 := by
  obtain ⟨b0, -, h⟩ := Option.bind_eq_some_iff.mp h
  obtain ⟨b1, -, h⟩ := Option.bind_eq_some_iff.mp h
  obtain ⟨b2, -, h⟩ := Option.bind_eq_some_iff.mp h
  obtain ⟨b3, -, h⟩ := Option.bind_eq_some_iff.mp h
  rw [← Option.some.inj h]
  exact Int.bmod_lt (by decide)

theorem exists_readUnalignedInt (hp : 0 ≤ p) (hle : p + 4 ≤ m.length) :
    ∃ v, readUnalignedInt m p = some v :=
  Option.isSome_iff_exists.mp (readUnalignedInt_isSome.mpr ⟨hp, hle⟩)

/-- A string in front of the end is stepped over, and anything else is not valid. -/
theorem skipString_inside (hdata : 0 ≤ data) (hle : data ≤ fin) (hfin : fin ≤ m.length) :
    skipString m data fin = some none ∨ ∃ s : CString, m.HasAt data s.encode ∧
      data + s.encode.length < fin ∧
      skipString m data fin = some (some (data + s.encode.length)) := by
  obtain ⟨s, hlen, hsle, hs⟩ := Mem.strnlen_inside (m := m) (n := (fin - data).toNat) hdata
    (by omega)
  by_cases hroom : fin ≤ data + s.bytes.length + 1
  · refine .inl ?_
    simp only [skipString, hlen, Option.bind_eq_bind, Option.bind_some, if_pos hroom,
      Option.pure_def]
  · have henc := s.encode_length
    have hat := hs.resolve_left (by omega)
    exact .inr ⟨s, hat, by omega, skipString_eq s hat (by omega)⟩

/-- The types whose value starts with a length. -/
def startsWithLength (type : UInt8) : Bool :=
  type ∈ [0x02, 0x03, 0x04, 0x05, 0x0c, 0x0d, 0x0e, 0x0f]

theorem isSome_measured (skip : ℤ) :
    (do return measured (← readUnalignedInt m data) skip : Access ℤ).isSome ↔
      0 ≤ data ∧ data + 4 ≤ m.length := by
  rw [← readUnalignedInt_isSome]
  cases readUnalignedInt m data <;> rfl

/-- `measure_value` reads up to the end of the document, and a length. -/
theorem measureValue_isSome {type : UInt8} (hdata : 0 ≤ data) (hle : data ≤ fin)
    (hfin : fin ≤ m.length) :
    (measureValue m type data fin).isSome ↔
      (startsWithLength type = true → data + 4 ≤ m.length) := by
  have hlength (skip : ℤ) (h : startsWithLength type = true) :
      (do return measured (← readUnalignedInt m data) skip : Access ℤ).isSome ↔
        (startsWithLength type = true → data + 4 ≤ m.length) := by
    rw [isSome_measured]
    exact ⟨fun hd _ => hd.2, fun hd => ⟨hdata, hd h⟩⟩
  unfold measureValue
  split
  case h_16 =>
    -- a regular expression: two strings
    refine iff_of_true ?_ fun h => absurd h (by decide)
    rcases skipString_inside (m := m) hdata hle hfin with hp | ⟨s, -, hlt, hp⟩
    · simp only [hp, Option.bind_eq_bind, Option.bind_some, Option.pure_def, Option.isSome_some]
    · rcases skipString_inside (show 0 ≤ data + s.encode.length by omega) (by omega) hfin with
        ho | ⟨_, -, -, ho⟩ <;>
      simp only [hp, ho, Option.bind_eq_bind, Option.bind_some, Option.pure_def,
        Option.isSome_some]
  case h_20 => simp_all [startsWithLength]
  all_goals
    first
    | exact hlength _ rfl
    | exact iff_of_true rfl fun h => absurd h (by decide)

/-- It is measured by this number. -/
theorem measureValue_length {type : UInt8} (h : startsWithLength type = true) :
    ∃ skip : ℕ, (skip = 0 ∨ 4 ≤ skip) ∧ skip ≤ 16 ∧ ∀ (m : Mem) (data fin : ℤ),
      measureValue m type data fin = (readUnalignedInt m data).map (measured · skip) := by
  have hlength (m : Mem) (data skip : ℤ) :
      (do return measured (← readUnalignedInt m data) skip : Access ℤ) =
        (readUnalignedInt m data).map (measured · skip) := by
    cases readUnalignedInt m data <;> rfl
  simp only [startsWithLength, List.mem_cons, List.not_mem_nil, or_false, decide_eq_true_eq] at h
  rcases h with rfl | rfl | rfl | rfl | rfl | rfl | rfl | rfl
  · exact ⟨4, by omega, by omega, fun m data _ => hlength m data 4⟩
  · exact ⟨0, by omega, by omega, fun m data _ => hlength m data 0⟩
  · exact ⟨0, by omega, by omega, fun m data _ => hlength m data 0⟩
  · exact ⟨5, by omega, by omega, fun m data _ => hlength m data 5⟩
  · exact ⟨16, by omega, by omega, fun m data _ => hlength m data 16⟩
  · exact ⟨4, by omega, by omega, fun m data _ => hlength m data 4⟩
  · exact ⟨4, by omega, by omega, fun m data _ => hlength m data 4⟩
  · exact ⟨4, by omega, by omega, fun m data _ => hlength m data 4⟩

theorem measured_lt (len skip : ℤ) : measured len skip < 2 ^ 31 := by
  unfold measured
  split_ifs
  · decide
  · exact Int.bmod_lt (by decide)

/-- A size is an `int`. -/
theorem measureValue_lt {type : UInt8} {size : ℤ} (h : measureValue m type data fin = some size) :
    size < 2 ^ 31 := by
  have hlength {skip : ℤ}
      (h : (do return measured (← readUnalignedInt m data) skip : Access ℤ) = some size) :
      size < 2 ^ 31 := by
    obtain ⟨len, -, h⟩ := Option.bind_eq_some_iff.mp h
    exact Option.some.inj h ▸ measured_lt _ _
  have hfixed {len skip : ℤ} (h : some (measured len skip) = some size) : size < 2 ^ 31 :=
    Option.some.inj h ▸ measured_lt _ _
  unfold measureValue at h
  split at h
  case h_16 =>
    -- a regular expression
    obtain ⟨o, -, h⟩ := Option.bind_eq_some_iff.mp h
    cases o with
    | none => exact Option.some.inj h ▸ by decide
    | some p =>
      obtain ⟨o, -, h⟩ := Option.bind_eq_some_iff.mp h
      cases o with
      | none => exact Option.some.inj h ▸ by decide
      | some p => exact hfixed h
  case h_20 => exact Option.some.inj h ▸ by decide
  all_goals
    first
    | exact hlength h
    | exact hfixed h

end Inside

/-! ## Reading in a larger memory -/

theorem readUnalignedInt_stable (p : ℤ) : Mem.Stable fun m => readUnalignedInt m p :=
  .bind (.peek _) fun _ => .bind (.peek _) fun _ => .bind (.peek _) fun _ =>
    .bind (.peek _) fun _ => .const _

theorem skipString_stable (data fin : ℤ) : Mem.Stable fun m => skipString m data fin :=
  .bind (.strnlen _ _) fun _ => .ite (.const _) (.bind (.peek _) fun _ => .const _)

theorem measureValue_stable (type : UInt8) (data fin : ℤ) :
    Mem.Stable fun m => measureValue m type data fin := by
  have hlength (skip : ℤ) : Mem.Stable fun m =>
      (do return measured (← readUnalignedInt m data) skip : Access ℤ) :=
    .bind (readUnalignedInt_stable _) fun _ => .const _
  unfold measureValue
  split
  case h_16 =>
    refine .bind (skipString_stable _ _) fun first => ?_
    cases first with
    | none => exact .const _
    | some data' =>
      refine .bind (skipString_stable _ _) fun second => ?_
      cases second with
      | none => exact .const _
      | some data'' => exact .const _
  all_goals
    first
    | exact .const _
    | exact hlength _

theorem assignOffset_stable (name : ℤ) (keys : Keys) :
    Mem.Stable fun m => assignOffset m name keys := by
  induction keys with
  | nil => exact .const _
  | cons k keys ih =>
    exact .ite (.bind (.strcmpEq _ _) fun _ => .ite (.const _) (.bind ih fun _ => .const _))
      (.bind ih fun _ => .const _)

theorem scanElements_stable (fin : ℤ) (total fuel : ℕ) (data : ℤ) (scanned : ℕ) (keys : Keys) :
    Mem.Stable fun m => scanElements m fin total fuel data scanned keys := by
  induction fuel generalizing data scanned keys with
  | zero => exact .const _
  | succ fuel ih =>
    refine .ite (.bind (.peek _) fun type => .ite (.const _)
      (.bind (skipString_stable _ _) fun next => ?_)) (.const _)
    cases next with
    | none => exact .const _
    | some value =>
      exact .bind (assignOffset_stable _ _) fun hit => .ite (.const _)
        (.bind (measureValue_stable _ _ _) fun len => .ite (.const _) (ih _ _ _))

theorem bsonGetProps_stable (keys : Keys) : Mem.Stable fun m => bsonGetProps m keys :=
  .bind (readUnalignedInt_stable _) fun _ => .ite (.const _)
    (.bind (.peek _) fun _ => .ite (.const _) (scanElements_stable _ _ _ _ _ _))

theorem seekData_stable (offset : ℤ) (type type' : UInt8) :
    Mem.Stable fun m => seekData (some m) offset type type' :=
  .ite (.const _) (.bind (readUnalignedInt_stable _) fun _ => .ite (.const _)
    (.bind (.peek _) fun _ => .ite (.const _)
      (.bind (.peek _) fun _ => .ite (.const _) (.bind (skipString_stable _ _) fun _ => .const _))))

theorem bsonGetString_stable (offset : ℤ) : Mem.Stable fun m => bsonGetString (some m) offset := by
  refine .bind (seekData_stable _ _ _) fun found => ?_
  cases found with
  | none => exact .const _
  | some found =>
    exact .bind (readUnalignedInt_stable _) fun _ => .ite (.const _)
      (.bind (.peek _) fun _ => .const _)

theorem bsonGetSubdocument_stable (offset : ℤ) :
    Mem.Stable fun m => bsonGetSubdocument (some m) offset :=
  .bind (seekData_stable _ _ _) fun _ => .const _

end OlivePiccolo.Bson
