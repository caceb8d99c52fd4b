import OlivePiccolo.Bson.Reader

/-!
# Element lookup

`bson_get_props` should find each requested key at the first top-level element with its name. It
steps from element to element by `measure_value`, which is four bytes too large for JavaScript code
with scope (`0x0f`). So it is right as long as it does not have to step over such an element to
another one, and in a document with distinct names it is right for all keys only if there is no such
element in front of another one (`lookup_right`).
-/

namespace OlivePiccolo.Bson

/-! ## The right answer -/

/-- The offset of the first element with the name, the elements standing at `pos`; -1 if there is
none. -/
def offsetOf (key : CString) : List Element → ℤ → ℤ
  | [], _ => -1
  | e :: es, pos => if e.name = key then pos else offsetOf key es (pos + e.encode.length)

/-- The number of the keys that have an offset. -/
def found (keys : Keys) : ℕ := keys.countP (0 ≤ ·.2)

/-- The keys without an offset, looked up in the elements at `pos`. -/
def fill (es : List Element) (pos : ℤ) (keys : Keys) : Keys :=
  keys.map fun k => (k.1, if k.2 < 0 then offsetOf k.1 es pos else k.2)

/-- The keys with an offset, once the element of the name has been found at `pos`. -/
def assign (name : CString) (pos : ℤ) (keys : Keys) : Keys :=
  keys.map fun k => (k.1, if k.2 < 0 ∧ k.1 = name then pos else k.2)

/-- The first open key with the name gets the offset, if there is one. -/
def assignFirst (name : CString) (pos : ℤ) : Keys → Option Keys
  | [] => none
  | k :: keys => if k.2 < 0 ∧ k.1 = name then some ((k.1, pos) :: keys)
    else (assignFirst name pos keys).map (k :: ·)

/-- What `bson_get_props` should return and store. -/
def lookup (es : List Element) (keys : List CString) : ℤ × Keys :=
  (((keys.countP fun k => es.any (·.name = k) : ℕ) : ℤ), keys.map fun k => (k, offsetOf k es 4))

/-- No code with scope has to be stepped over to another element. -/
def ScopeHarmless (es : List Element) (keys : List CString) : Prop :=
  ∀ front e back, es = front ++ e :: back → e.value.isCodeWithScope = true → back ≠ [] →
    keys ≠ [] ∧ ∀ k ∈ keys, ∃ f ∈ front ++ [e], f.name = k

/-! ## Keys and offsets -/

section Keys

variable {key name : CString} {es : List Element} {e : Element} {pos : ℤ} {keys : Keys}

theorem offsetOf_nonneg (hpos : 0 ≤ pos) :
    0 ≤ offsetOf key es pos ↔ es.any (·.name = key) = true := by
  induction es generalizing pos with
  | nil => simp [offsetOf]
  | cons e es ih =>
    rw [offsetOf, List.any_cons]
    split_ifs with h
    · simp [h, hpos]
    · rw [ih (by omega)]
      simp [h]

theorem offsetOf_append {es' : List Element} (h : ∀ f ∈ es, f.name ≠ key) :
    offsetOf key (es ++ es') pos = offsetOf key es' (pos + (encodeElements es).length) := by
  induction es generalizing pos with
  | nil => simp [encodeElements]
  | cons e es ih =>
    rw [List.cons_append, offsetOf, if_neg (h e List.mem_cons_self),
      ih fun f hf => h f (List.mem_cons_of_mem _ hf), encodeElements, List.length_append]
    congr 1
    omega

theorem fill_nil (h : ∀ k ∈ keys, k.2 = -1 ∨ 0 ≤ k.2) : fill [] pos keys = keys := by
  unfold fill
  conv_rhs => rw [← List.map_id keys]
  apply List.map_congr_left
  intro k hk
  split_ifs with hneg
  · rw [offsetOf, ← (h k hk).resolve_right (by omega)]
    rfl
  · rfl

/-- Looking up in a list of elements is looking up in the first one, then in the others. -/
theorem fill_cons (hpos : 0 ≤ pos) :
    fill (e :: es) pos keys = fill es (pos + e.encode.length) (assign e.name pos keys) := by
  unfold fill assign
  rw [List.map_map]
  apply List.map_congr_left
  intro k _
  rw [Function.comp_apply, offsetOf]
  by_cases hneg : k.2 < 0
  · by_cases hname : k.1 = e.name
    · rw [if_pos hneg, if_pos hname.symm, if_pos ⟨hneg, hname⟩, if_neg (by omega)]
    · rw [if_pos hneg, if_neg (Ne.symm hname), if_neg (by tauto), if_pos hneg]
  · rw [if_neg hneg, if_neg (by tauto), if_neg hneg]

/-- Keys that all have an offset keep it. -/
theorem fill_of_found (h : ∀ k ∈ keys, 0 ≤ k.2) : fill es pos keys = keys := by
  unfold fill
  conv_rhs => rw [← List.map_id keys]
  apply List.map_congr_left
  intro k hk
  rw [if_neg (Int.not_lt.mpr (h k hk))]
  rfl

theorem assign_fst : (assign name pos keys).map (·.1) = keys.map (·.1) := by
  unfold assign
  rw [List.map_map]
  rfl

theorem assign_ok (hpos : 0 ≤ pos) (h : ∀ k ∈ keys, k.2 = -1 ∨ 0 ≤ k.2) :
    ∀ k ∈ assign name pos keys, k.2 = -1 ∨ 0 ≤ k.2 := by
  intro k hk
  obtain ⟨k', hk', rfl⟩ := List.mem_map.mp hk
  show (if _ then _ else _ : ℤ) = -1 ∨ 0 ≤ (if _ then _ else _ : ℤ)
  split_ifs
  · exact .inr hpos
  · exact h k' hk'

/-- A name that no open key has. -/
theorem assign_eq_self (h : ∀ k ∈ keys, ¬ (k.2 < 0 ∧ k.1 = name)) :
    assign name pos keys = keys := by
  unfold assign
  conv_rhs => rw [← List.map_id keys]
  apply List.map_congr_left
  intro k hk
  rw [if_neg (h k hk)]
  rfl

/-- All keys have an offset when as many have one as there are. -/
theorem found_eq_length : found keys = keys.length ↔ ∀ k ∈ keys, 0 ≤ k.2 := by
  unfold found
  rw [List.countP_eq_length]
  simp

theorem found_le (keys : Keys) : found keys ≤ keys.length := List.countP_le_length

/-- The elements' name is an open key: one more has an offset. -/
theorem found_assign (hpos : 0 ≤ pos) (hnodup : (keys.map (·.1)).Nodup)
    (h : ∃ k ∈ keys, k.2 < 0 ∧ k.1 = name) : found (assign name pos keys) = found keys + 1 := by
  induction keys with
  | nil =>
    obtain ⟨k, hk, -⟩ := h
    cases hk
  | cons k keys ih =>
    rw [List.map_cons, List.nodup_cons] at hnodup
    obtain ⟨hnot, hnodup⟩ := hnodup
    have hcons : assign name pos (k :: keys) =
        (k.1, if k.2 < 0 ∧ k.1 = name then pos else k.2) :: assign name pos keys := rfl
    rw [hcons]
    unfold found at ih ⊢
    rw [List.countP_cons, List.countP_cons]
    by_cases hk : k.2 < 0 ∧ k.1 = name
    · have hrest : assign name pos keys = keys := by
        apply assign_eq_self
        rintro k' hk' ⟨-, hname⟩
        exact hnot (List.mem_map.mpr ⟨k', hk', hname.trans hk.2.symm⟩)
      rw [if_pos hk, hrest]
      simp [hpos, hk.1]
    · obtain ⟨k', hk', hopen⟩ := h
      rcases List.mem_cons.mp hk' with rfl | hk'
      · exact absurd hopen hk
      · rw [if_neg hk, ih hnodup ⟨k', hk', hopen⟩]
        exact Nat.add_right_comm _ _ _

/-- The first open key with the name gets the offset. -/
theorem assignFirst_of_nodup (hnodup : (keys.map (·.1)).Nodup) :
    assignFirst name pos keys =
      if ∃ k ∈ keys, k.2 < 0 ∧ k.1 = name then some (assign name pos keys) else none := by
  induction keys with
  | nil =>
    rw [if_neg (by simp)]
    rfl
  | cons k keys ih =>
    rw [List.map_cons, List.nodup_cons] at hnodup
    obtain ⟨hnot, hnodup⟩ := hnodup
    have hcons : assign name pos (k :: keys) =
        (k.1, if k.2 < 0 ∧ k.1 = name then pos else k.2) :: assign name pos keys := rfl
    rw [assignFirst, hcons]
    by_cases hopen : k.2 < 0 ∧ k.1 = name
    · have hrest : assign name pos keys = keys := by
        apply assign_eq_self
        rintro k' hk' ⟨-, hk⟩
        exact hnot (List.mem_map.mpr ⟨k', hk', hk.trans hopen.2.symm⟩)
      rw [if_pos hopen, if_pos hopen, if_pos ⟨k, List.mem_cons_self, hopen⟩, hrest]
    · have hex : (∃ k' ∈ k :: keys, k'.2 < 0 ∧ k'.1 = name) ↔
          ∃ k ∈ keys, k.2 < 0 ∧ k.1 = name := by
        rw [List.exists_mem_cons_iff]
        exact or_iff_right hopen
      rw [if_neg hopen, if_neg hopen, ih hnodup]
      simp only [hex]
      split_ifs <;> rfl

end Keys

/-! ## The code on elements -/

section Scan

variable {m : Mem} {fin data : ℤ}

/-- The name of an element is compared with the open keys, up to the first one that has it. -/
theorem assignOffset_eq_assignFirst {name : CString} {p : ℤ} (h : m.HasAt p name.encode)
    (keys : Keys) : assignOffset m p keys = some (assignFirst name (p - 1) keys) := by
  induction keys with
  | nil => rfl
  | cons k keys ih =>
    obtain ⟨key, off⟩ := k
    have hcmp : m.strcmpEq p key.bytes = some (decide (key = name)) := by
      rw [Mem.HasAt.strcmpEq name.no_nul key.no_nul h]
      congr 2
      exact propext ⟨fun heq => by cases key; cases name; cases heq; rfl, fun heq => by rw [heq]⟩
    rw [assignFirst]
    by_cases hopen : off < 0 ∧ key = name
    · rw [if_pos hopen]
      simp only [assignOffset, if_pos hopen.1, hcmp, Option.bind_eq_bind, Option.bind_some,
        decide_eq_true hopen.2, if_true, Option.pure_def]
    · rw [if_neg hopen]
      by_cases hoff : off < 0
      · have hname : decide (key = name) = false := decide_eq_false fun h => hopen ⟨hoff, h⟩
        simp only [assignOffset, if_pos hoff, hcmp, ih, Option.bind_eq_bind, Option.bind_some,
          hname, Bool.false_eq_true, if_false, Option.pure_def]
      · simp only [assignOffset, if_neg hoff, ih, Option.bind_eq_bind, Option.bind_some,
          Option.pure_def]

/-- The first open key that has the name of the element gets its offset. -/
theorem assignOffset_eq {name : CString} {keys : Keys} {p : ℤ} (h : m.HasAt p name.encode)
    (hnodup : (keys.map (·.1)).Nodup) :
    assignOffset m p keys = some (if ∃ k ∈ keys, k.2 < 0 ∧ k.1 = name then
      some (assign name (p - 1) keys) else none) := by
  rw [assignOffset_eq_assignFirst h, assignFirst_of_nodup hnodup]

/-- The elements of a document and its NUL stand at `data`. -/
structure ElementsAt (m : Mem) (data fin : ℤ) (es : List Element) : Prop where
  hasAt : m.HasAt data (encodeElements es ++ [0])
  fin_eq : fin = data + (encodeElements es).length + 1
  fin_lt : fin < 2 ^ 31
  data_le : 4 ≤ data

/-- The head of an element: its type and its name. -/
theorem ElementsAt.head {e : Element} {es : List Element} (h : ElementsAt m data fin (e :: es)) :
    m.peek data = some e.value.typeCode ∧ m.HasAt (data + 1) e.name.encode ∧
      skipString m (data + 1) fin = some (some (data + 1 + e.name.encode.length)) ∧
      measureValue m e.value.typeCode (data + 1 + e.name.encode.length) fin =
        some ((e.value.encode.length + e.value.overhang : ℕ) : ℤ) ∧
      data + 1 + e.name.encode.length + e.value.encode.length = data + e.encode.length := by
  have hat := h.hasAt
  have hfin := h.fin_eq
  have hlt := h.fin_lt
  have hdata := h.data_le
  rw [encodeElements, Element.encode_eq, List.append_assoc, List.cons_append] at hat
  rw [encodeElements, List.length_append, Element.encode_length] at hfin
  have hname := (List.append_assoc _ _ _ ▸ hat.tail).left
  have hvalue := (List.append_assoc _ _ _ ▸ hat.tail).right.left
  have hlen := e.name.encode_length
  refine ⟨hat.peek, hname, skipString_eq _ hname (by omega),
    measureValue_eq _ hvalue (by omega) (by omega), ?_⟩
  rw [Element.encode_length]
  omega

/-- The elements behind the first one. -/
theorem ElementsAt.tail {e : Element} {es : List Element} (h : ElementsAt m data fin (e :: es)) :
    ElementsAt m (data + e.encode.length) fin es := by
  have hat := h.hasAt
  have hfin := h.fin_eq
  have hdata := h.data_le
  rw [encodeElements, List.append_assoc] at hat
  rw [encodeElements, List.length_append] at hfin
  exact ⟨hat.right, by omega, h.fin_lt, by omega⟩

theorem ElementsAt.append {front rest : List Element} (h : ElementsAt m data fin (front ++ rest)) :
    ElementsAt m (data + (encodeElements front).length) fin rest := by
  obtain ⟨hat, hfin, hlt, hle⟩ := h
  rw [encodeElements_append, List.append_assoc] at hat
  rw [encodeElements_append, List.length_append] at hfin
  exact ⟨hat.right, by omega, hlt, by omega⟩

/-- The value of the first element. -/
theorem ElementsAt.value {e : Element} {es : List Element} (h : ElementsAt m data fin (e :: es)) :
    m.HasAt (data + 1 + e.name.encode.length) e.value.encode := by
  have hat := h.hasAt
  rw [encodeElements, Element.encode_eq, List.append_assoc, List.cons_append] at hat
  exact (List.append_assoc _ _ _ ▸ hat.tail).right.left

/-- One round of the loop: the element is assigned to an open key with its name, and stepped over,
unless the last key has been found. -/
theorem scanElements_cons {e : Element} {es : List Element} (h : ElementsAt m data fin (e :: es))
    {keys : Keys} (hnodup : (keys.map (·.1)).Nodup) (total fuel scanned : ℕ) :
    scanElements m fin total (fuel + 1) data scanned keys =
      if (∃ k ∈ keys, k.2 < 0 ∧ k.1 = e.name) ∧ scanned + 1 = total then
        some (((scanned + 1 : ℕ) : ℤ), assign e.name data keys)
      else
        scanElements m fin total fuel (data + e.encode.length + e.value.overhang)
          (if ∃ k ∈ keys, k.2 < 0 ∧ k.1 = e.name then scanned + 1 else scanned)
          (assign e.name data keys) := by
  obtain ⟨htype, hname, hskip, hsize, hnext⟩ := h.head
  have hlt : data < fin := by
    have hfin := h.fin_eq
    omega
  have hlen0 : ¬ ((e.value.encode.length + e.value.overhang : ℕ) : ℤ) < 0 := by omega
  have hdata : data + 1 + ↑e.name.encode.length + ↑(e.value.encode.length + e.value.overhang) =
      data + e.encode.length + e.value.overhang := by omega
  rw [scanElements, if_pos hlt]
  simp only [htype, hskip, Option.bind_eq_bind, Option.bind_some, if_neg e.value.typeCode_ne_zero,
    assignOffset_eq hname hnodup, add_sub_cancel_right, hsize, if_neg hlen0, hdata]
  by_cases hmatch : ∃ k ∈ keys, k.2 < 0 ∧ k.1 = e.name
  · rw [if_pos hmatch, if_pos hmatch]
    simp only [Option.isSome_some, true_and, hmatch, if_true, Option.getD_some]
    rfl
  · have hself : assign e.name data keys = keys :=
      assign_eq_self fun k hk hopen => hmatch ⟨k, hk, hopen⟩
    rw [if_neg hmatch, if_neg hmatch, hself]
    simp only [Option.isSome_none, Bool.false_eq_true, false_and, if_false, hmatch,
      Option.getD_none]

/-- No element behind which there are others is code with scope, or all keys have been found there.
-/
def ScopeHarmlessFor (es : List Element) (keys : Keys) : Prop :=
  ∀ front e back, es = front ++ e :: back → e.value.isCodeWithScope = true → back ≠ [] →
    keys ≠ [] ∧ ∀ k ∈ keys, 0 ≤ k.2 ∨ ∃ f ∈ front ++ [e], f.name = k.1

/-- Keys that are still open, and how many have been found. -/
structure Open (keys : Keys) (scanned : ℕ) : Prop where
  nodup : (keys.map (·.1)).Nodup
  ok : ∀ k ∈ keys, k.2 = -1 ∨ 0 ≤ k.2
  scanned_eq : scanned = found keys
  open_key : keys = [] ∨ scanned < keys.length

/-- The elements behind the first one are harmless for the keys that are left. -/
theorem ScopeHarmlessFor.tail {e : Element} {es : List Element} {keys : Keys} {pos : ℤ}
    (h : ScopeHarmlessFor (e :: es) keys) (hpos : 0 ≤ pos) :
    ScopeHarmlessFor es (assign e.name pos keys) := by
  intro front f back heq hs hne
  obtain ⟨hkeys, hall⟩ := h (e :: front) f back (by rw [heq]; rfl) hs hne
  refine ⟨fun hnil => hkeys (List.map_eq_nil_iff.mp hnil), fun k' hk' => ?_⟩
  obtain ⟨k, hk, rfl⟩ := List.mem_map.mp hk'
  show 0 ≤ (if _ then _ else _ : ℤ) ∨ _
  by_cases hopen : k.2 < 0 ∧ k.1 = e.name
  · rw [if_pos hopen]
    exact .inl hpos
  · rw [if_neg hopen]
    rcases hall k hk with hk0 | ⟨g, hg, hname⟩
    · exact .inl hk0
    · rcases List.mem_cons.mp hg with rfl | hg
      · exact .inl (by
          by_contra hneg
          exact hopen ⟨by omega, hname.symm⟩)
      · exact .inr ⟨g, hg, hname⟩

/-- At code with scope in front of other elements, all keys have been found. -/
theorem ScopeHarmlessFor.all_found {e : Element} {es : List Element} {keys : Keys} {pos : ℤ}
    (h : ScopeHarmlessFor (e :: es) keys) (hpos : 0 ≤ pos)
    (hs : e.value.isCodeWithScope = true) (hne : es ≠ []) :
    assign e.name pos keys ≠ [] ∧ ∀ k ∈ assign e.name pos keys, 0 ≤ k.2 := by
  obtain ⟨hkeys, hall⟩ := h [] e es rfl hs hne
  refine ⟨fun hnil => hkeys (List.map_eq_nil_iff.mp hnil), fun k' hk' => ?_⟩
  obtain ⟨k, hk, rfl⟩ := List.mem_map.mp hk'
  show 0 ≤ (if _ then _ else _ : ℤ)
  split_ifs with hopen
  · exact hpos
  · rcases hall k hk with hk0 | ⟨f, hf, hname⟩
    · exact hk0
    · rw [List.mem_singleton.mp hf] at hname
      by_contra hneg
      exact hopen ⟨by omega, hname.symm⟩

/-- While keys are open, not all of them have been found. -/
theorem Open.last_of_scope {keys : Keys} {scanned : ℕ} (ho : Open keys scanned)
    {es : List Element} (hall : es ≠ [] → keys ≠ [] ∧ ∀ k ∈ keys, 0 ≤ k.2) : es = [] := by
  by_contra hne
  obtain ⟨hkeys, hfound⟩ := hall hne
  have hlt := ho.open_key.resolve_left hkeys
  rw [ho.scanned_eq, found_eq_length.mpr hfound] at hlt
  exact Nat.lt_irrefl _ hlt

/-- The loop over elements, none of which is code with scope that has to be stepped over. -/
theorem scanElements_eq {es : List Element} (h : ElementsAt m data fin es) {scanned : ℕ}
    (fuel : ℕ) (hfuel : (fin - data).toNat ≤ fuel) {keys : Keys} (ho : Open keys scanned)
    (hscope : ScopeHarmlessFor es keys) :
    scanElements m fin keys.length fuel data scanned keys =
      some (((found (fill es data keys) : ℕ) : ℤ), fill es data keys) := by
  induction es generalizing data fuel scanned keys with
  | nil =>
    have hfin := h.fin_eq
    rw [encodeElements, List.length_nil] at hfin
    obtain ⟨fuel, rfl⟩ := Nat.exists_eq_succ_of_ne_zero (show fuel ≠ 0 by omega)
    have hpeek : m.peek data = some 0 := Mem.HasAt.peek (l := []) h.hasAt
    rw [fill_nil ho.ok, ← ho.scanned_eq, scanElements, if_pos (by omega)]
    simp only [hpeek, Option.bind_eq_bind, Option.bind_some, if_true, Option.pure_def]
  | cons e es ih =>
    have htail := h.tail
    have hpos : 0 ≤ data := Int.le_trans (by decide) h.data_le
    have hlen := e.encode_length
    have hfin := htail.fin_eq
    obtain ⟨fuel, rfl⟩ := Nat.exists_eq_succ_of_ne_zero (show fuel ≠ 0 by omega)
    have hscope' : ScopeHarmlessFor es (assign e.name data keys) := hscope.tail hpos
    have hlength : (assign e.name data keys).length = keys.length := List.length_map _
    -- the other elements, looked up for the keys that are still open
    have hrest {scanned : ℕ} (ho' : Open (assign e.name data keys) scanned) :
        scanElements m fin keys.length fuel (data + e.encode.length + e.value.overhang) scanned
            (assign e.name data keys) =
          some (((found (fill (e :: es) data keys) : ℕ) : ℤ), fill (e :: es) data keys) := by
      rw [fill_cons hpos]
      by_cases hs : e.value.isCodeWithScope = true
      · obtain rfl : es = [] := ho'.last_of_scope (hscope.all_found hpos hs)
        have hover : e.value.overhang = 4 := if_pos hs
        rw [encodeElements, List.length_nil] at hfin
        rw [fill_nil ho'.ok, ← ho'.scanned_eq]
        cases fuel with
        | zero => rfl
        | succ fuel => rw [scanElements, if_neg (by omega)]
      · have hover : e.value.overhang = 0 := if_neg hs
        rw [hover, Int.natCast_zero, add_zero, ← hlength]
        exact ih htail fuel (by omega) ho' hscope'
    rw [scanElements_cons h ho.nodup]
    by_cases hmatch : ∃ k ∈ keys, k.2 < 0 ∧ k.1 = e.name
    · have hfound : found (assign e.name data keys) = scanned + 1 := by
        rw [found_assign hpos ho.nodup hmatch, ho.scanned_eq]
      by_cases hall : scanned + 1 = keys.length
      · -- the last key has been found
        have hdone : ∀ k ∈ assign e.name data keys, 0 ≤ k.2 :=
          found_eq_length.mp (by rw [hfound, hall, hlength])
        rw [if_pos ⟨hmatch, hall⟩, fill_cons hpos, fill_of_found hdone, hfound]
      · rw [if_neg fun h => hall h.2, if_pos hmatch]
        apply hrest
        have hle := found_le (assign e.name data keys)
        exact ⟨by rw [assign_fst]; exact ho.nodup, assign_ok hpos ho.ok, hfound.symm,
          .inr (by omega)⟩
    · have hself : assign e.name data keys = keys :=
        assign_eq_self fun k hk hopen => hmatch ⟨k, hk, hopen⟩
      rw [if_neg fun h => hmatch h.1, if_neg hmatch]
      exact hrest (by rw [hself]; exact ho)

/-- An offset that is stored is not in front of `data`. -/
def StoredFrom (data : ℤ) (keys keys' : Keys) : Prop :=
  List.Forall₂ (fun k k' => k'.2 = k.2 ∨ data ≤ k'.2) keys keys'

theorem StoredFrom.refl (data : ℤ) (keys : Keys) : StoredFrom data keys keys := by
  unfold StoredFrom
  induction keys with
  | nil => exact .nil
  | cons k keys ih => exact .cons (.inl rfl) ih

theorem StoredFrom.trans {data data' : ℤ} {keys keys' keys'' : Keys} (hle : data ≤ data')
    (h : StoredFrom data keys keys') (h' : StoredFrom data' keys' keys'') :
    StoredFrom data keys keys'' := by
  unfold StoredFrom at h h' ⊢
  induction h generalizing keys'' with
  | nil =>
    cases h'
    exact .nil
  | cons hk _ ih =>
    cases h' with
    | cons hk' h' =>
      refine .cons ?_ (ih h')
      rcases hk' with heq | hge
      · rw [heq]
        exact hk
      · exact .inr (by omega)

theorem assignOffset_storedFrom {name : ℤ} {keys keys' : Keys}
    (h : assignOffset m name keys = some (some keys')) : StoredFrom (name - 1) keys keys' := by
  induction keys generalizing keys' with
  | nil => cases h
  | cons k keys ih =>
    obtain ⟨key, off⟩ := k
    have hrest {r : Option Keys} (hr : assignOffset m name keys = some r)
        (heq : r.map ((key, off) :: ·) = some keys') :
        StoredFrom (name - 1) ((key, off) :: keys) keys' := by
      obtain ⟨keys1, rfl, rfl⟩ := Option.map_eq_some_iff.mp heq
      exact .cons (.inl rfl) (ih hr)
    rw [assignOffset] at h
    split_ifs at h with hoff
    · obtain ⟨b, -, hb⟩ := Option.bind_eq_some_iff.mp h
      cases b with
      | true =>
        cases hb
        exact .cons (.inr (Int.le_refl _)) (StoredFrom.refl _ _)
      | false =>
        obtain ⟨r, hr, heq⟩ := Option.bind_eq_some_iff.mp hb
        exact hrest hr (Option.some.inj heq)
    · obtain ⟨r, hr, heq⟩ := Option.bind_eq_some_iff.mp h
      exact hrest hr (Option.some.inj heq)

theorem skipString_between {value : ℤ} (h : skipString m data fin = some (some value)) :
    data < value ∧ value < fin := by
  obtain ⟨n, -, h⟩ := Option.bind_eq_some_iff.mp h
  split_ifs at h with hroom
  · cases h
  · obtain ⟨b, -, h⟩ := Option.bind_eq_some_iff.mp h
    have hv := Option.some.inj h
    split_ifs at hv
    cases hv
    omega

/-- Whatever stands in memory, the loop stores no offset in front of where it starts. -/
theorem scanElements_storedFrom {total fuel scanned : ℕ} {keys keys' : Keys} {r : ℤ}
    (h : scanElements m fin total fuel data scanned keys = some (r, keys')) :
    StoredFrom data keys keys' := by
  induction fuel generalizing data scanned keys with
  | zero =>
    cases h
    exact .refl _ _
  | succ fuel ih =>
    rw [scanElements] at h
    split_ifs at h with hlt
    · obtain ⟨type, -, h⟩ := Option.bind_eq_some_iff.mp h
      split_ifs at h with htype
      · cases h
        exact .refl _ _
      · obtain ⟨value, hskip, h⟩ := Option.bind_eq_some_iff.mp h
        cases value with
        | none =>
          cases h
          exact .refl _ _
        | some value =>
          have hvalue := (skipString_between hskip).1
          obtain ⟨hit, hhit, h⟩ := Option.bind_eq_some_iff.mp h
          have hstored : StoredFrom data keys (hit.getD keys) := by
            cases hit with
            | none => exact .refl _ _
            | some keys1 =>
              have hname := assignOffset_storedFrom hhit
              rwa [add_sub_cancel_right] at hname
          by_cases hlast : hit.isSome = true ∧ scanned + 1 = total
          · rw [if_pos hlast] at h
            cases h
            exact hstored
          · rw [if_neg hlast] at h
            obtain ⟨len, -, h⟩ := Option.bind_eq_some_iff.mp h
            by_cases hneg : len < 0
            · rw [if_pos hneg] at h
              cases h
              exact hstored
            · rw [if_neg hneg] at h
              exact hstored.trans (by omega) (ih h)
    · cases h
      exact .refl _ _

end Scan

/-! ## Documents -/

/-- A well-formed document stands at the start of the memory. -/
structure IsDocument (m : Mem) (es : List Element) : Prop where
  hasAt : m.HasAt 0 (encodeDocument es)
  length_lt : (encodeDocument es).length < 2 ^ 31

section Documents

variable {m : Mem} {es : List Element}

theorem encodeDocument_length (es : List Element) :
    (encodeDocument es).length = (encodeElements es).length + 5 := encodeBody_length _

theorem IsDocument.length_eq (h : IsDocument m es) :
    readUnalignedInt m 0 = some ((encodeDocument es).length : ℤ) := by
  have hat := h.hasAt
  have hlt := h.length_lt
  rw [encodeDocument, encodeBody, List.append_assoc] at hat
  rw [encodeDocument_length] at hlt ⊢
  exact readUnalignedInt_length hat.left hlt

theorem IsDocument.elementsAt (h : IsDocument m es) :
    ElementsAt m 4 (encodeDocument es).length es := by
  have hat := h.hasAt
  have hlt := h.length_lt
  rw [encodeDocument, encodeBody, List.append_assoc] at hat
  have hbody := hat.right
  rw [leBytes_length] at hbody
  exact ⟨hbody, by rw [encodeDocument_length]; omega, by omega, Int.le_refl _⟩

/-- The NUL at the end. -/
theorem IsDocument.peek_last (h : IsDocument m es) :
    m.peek ((encodeDocument es).length - 1) = some 0 := by
  have hat := h.hasAt
  rw [encodeDocument, encodeBody] at hat
  have hnul := hat.right.peek
  rw [List.length_append, leBytes_length] at hnul
  rw [← hnul, encodeDocument_length]
  congr 1
  omega

/-- `bson_get_props` of a document: the scan of its elements. -/
theorem IsDocument.bsonGetProps_eq (h : IsDocument m es) (keys : Keys) :
    bsonGetProps m keys = scanElements m (encodeDocument es).length keys.length
      ((encodeDocument es).length - 4) 4 0 (keys.map fun k => (k.1, -1)) := by
  have hlen := encodeDocument_length es
  have hfuel : (((encodeDocument es).length : ℤ) - 4).toNat = (encodeDocument es).length - 4 := by
    omega
  have hge : ¬ ((encodeDocument es).length : ℤ) ≤ 4 := by omega
  simp only [bsonGetProps, h.length_eq, Option.bind_eq_bind, Option.bind_some, if_neg hge,
    h.peek_last, ne_eq, not_true_eq_false, if_false, hfuel]

/-- The right answer, when no code with scope has to be stepped over to another element. -/
theorem bsonGetProps_eq_lookup (h : IsDocument m es) {keys : Keys}
    (hnodup : (keys.map (·.1)).Nodup) (hscope : ScopeHarmless es (keys.map (·.1))) :
    bsonGetProps m keys = some (lookup es (keys.map (·.1))) := by
  have hlen := encodeDocument_length es
  have hclear : (keys.map fun k => (k.1, (-1 : ℤ))).length = keys.length := List.length_map _
  have hfst : (keys.map fun k => (k.1, (-1 : ℤ))).map (·.1) = keys.map (·.1) := by
    rw [List.map_map]
    rfl
  have hneg : ∀ k ∈ keys.map fun k => (k.1, (-1 : ℤ)), k.2 = -1 := by
    intro k hk
    obtain ⟨k', -, rfl⟩ := List.mem_map.mp hk
    rfl
  have hzero : found (keys.map fun k => (k.1, (-1 : ℤ))) = 0 := by
    unfold found
    rw [List.countP_eq_zero]
    intro k hk
    rw [hneg k hk]
    decide
  have hopen : Open (keys.map fun k => (k.1, (-1 : ℤ))) 0 := by
    refine ⟨by rw [hfst]; exact hnodup, fun k hk => .inl (hneg k hk), hzero.symm, ?_⟩
    cases keys with
    | nil => exact .inl rfl
    | cons k keys => exact .inr (Nat.succ_pos _)
  have hharmless : ScopeHarmlessFor es (keys.map fun k => (k.1, (-1 : ℤ))) := by
    intro front e back heq hs hne
    obtain ⟨hkeys, hall⟩ := hscope front e back heq hs hne
    refine ⟨fun hnil => hkeys ?_, fun k hk => .inr (hall k.1 ?_)⟩
    · rw [← hfst, hnil]
      rfl
    · rw [← hfst]
      exact List.mem_map_of_mem hk
  have hscan := scanElements_eq h.elementsAt ((encodeDocument es).length - 4) (by omega) hopen
    hharmless
  rw [hclear] at hscan
  rw [h.bsonGetProps_eq, hscan]
  have hfill : fill es 4 (keys.map fun k => (k.1, (-1 : ℤ))) =
      (keys.map (·.1)).map fun k => (k, offsetOf k es 4) := by
    unfold fill
    rw [List.map_map, List.map_map]
    rfl
  have hcount : found ((keys.map (·.1)).map fun k => (k, offsetOf k es 4)) =
      (keys.map (·.1)).countP fun k => es.any (·.name = k) := by
    unfold found
    rw [List.countP_map]
    apply List.countP_congr
    intro k _
    show decide (0 ≤ offsetOf k es 4) = true ↔ _
    rw [decide_eq_true_iff, offsetOf_nonneg (by decide)]
  rw [hfill, hcount]
  rfl

/-- No code with scope stands in front of another element. -/
def ScopeLast (es : List Element) : Prop :=
  ∀ front e back, es = front ++ e :: back → e.value.isCodeWithScope = true → back = []

/-- The first code with scope in front of another element. -/
theorem exists_scope_of_not_scopeLast (h : ¬ ScopeLast es) :
    ∃ front e next back, es = front ++ e :: next :: back ∧ e.value.isCodeWithScope = true ∧
      ∀ f ∈ front, f.value.isCodeWithScope = false := by
  induction es with
  | nil => exact absurd (fun front e back heq => absurd heq (by simp)) h
  | cons e es ih =>
    by_cases hs : e.value.isCodeWithScope = true
    · obtain ⟨next, back, rfl⟩ : ∃ next back, es = next :: back := by
        apply List.exists_cons_of_ne_nil
        rintro rfl
        apply h
        intro front e' back heq _
        cases front with
        | nil => exact (List.cons.inj heq).2.symm
        | cons f front => exact absurd (List.cons.inj heq).2 (by simp)
      exact ⟨[], e, next, back, rfl, hs, fun f hf => absurd hf List.not_mem_nil⟩
    · have htail : ¬ ScopeLast es := by
        intro hlast
        apply h
        intro front e' back heq hs'
        cases front with
        | nil =>
          rw [← (List.cons.inj heq).1] at hs'
          exact absurd hs' hs
        | cons f front => exact hlast front e' back (List.cons.inj heq).2 hs'
      obtain ⟨front, e', next, back, rfl, hs', hfront⟩ := ih htail
      refine ⟨e :: front, e', next, back, rfl, hs', fun f hf => ?_⟩
      rcases List.mem_cons.mp hf with rfl | hf
      · simpa using hs
      · exact hfront f hf

/-- Elements without the name, and without code with scope, are stepped over. -/
theorem scanElements_front {fin data : ℤ} {front rest : List Element} {key : CString} (off : ℤ)
    (h : ElementsAt m data fin (front ++ rest)) (fuel : ℕ)
    (hfuel : (fin - data).toNat ≤ fuel) (hname : ∀ f ∈ front, f.name ≠ key)
    (hscope : ∀ f ∈ front, f.value.isCodeWithScope = false) :
    ∃ fuel', (fin - (data + (encodeElements front).length)).toNat ≤ fuel' ∧
      ElementsAt m (data + (encodeElements front).length) fin rest ∧
      scanElements m fin 1 fuel data 0 [(key, off)] =
        scanElements m fin 1 fuel' (data + (encodeElements front).length) 0 [(key, off)] := by
  induction front generalizing data fuel with
  | nil =>
    refine ⟨fuel, ?_, ?_, ?_⟩ <;> rw [encodeElements, List.length_nil, Int.natCast_zero, add_zero]
    · exact hfuel
    · exact h
  | cons e front ih =>
    have htail : ElementsAt m (data + e.encode.length) fin (front ++ rest) := h.tail
    have hlen := e.encode_length
    have hfin := htail.fin_eq
    obtain ⟨fuel, rfl⟩ := Nat.exists_eq_succ_of_ne_zero (show fuel ≠ 0 by omega)
    have hone : ([(key, off)].map (·.1)).Nodup := List.nodup_singleton key
    have hstep := scanElements_cons h hone 1 fuel 0
    have hmiss : ¬ ∃ k ∈ [(key, off)], k.2 < 0 ∧ k.1 = e.name := by
      rintro ⟨k, hk, -, heq⟩
      rw [List.mem_singleton.mp hk] at heq
      exact hname e List.mem_cons_self heq.symm
    have hself : assign e.name data [(key, off)] = [(key, off)] :=
      assign_eq_self fun k hk hopen => hmiss ⟨k, hk, hopen⟩
    have hover : e.value.overhang = 0 :=
      if_neg (by rw [hscope e List.mem_cons_self]; exact Bool.false_ne_true)
    rw [if_neg fun hh => hmiss hh.1, if_neg hmiss, hself, hover, Int.natCast_zero, add_zero]
      at hstep
    obtain ⟨fuel', hfuel', hat, hrun⟩ := ih htail fuel (by omega)
      (fun f hf => hname f (List.mem_cons_of_mem _ hf))
      (fun f hf => hscope f (List.mem_cons_of_mem _ hf))
    have hsum : data + ((encodeElements (e :: front)).length : ℤ) =
        data + e.encode.length + (encodeElements front).length := by
      rw [encodeElements, List.length_append]
      omega
    rw [hsum]
    exact ⟨fuel', hfuel', hat, hstep.trans hrun⟩

/-- In front of another element with a name of its own, code with scope makes it unfindable. -/
theorem not_lookup_of_scope {front back : List Element} {e next : Element}
    (h : IsDocument m (front ++ e :: next :: back))
    (hnames : ((front ++ e :: next :: back).map Element.name).Nodup)
    (hs : e.value.isCodeWithScope = true)
    (hfront : ∀ f ∈ front, f.value.isCodeWithScope = false) :
    bsonGetProps m [(next.name, -1)] ≠
      some (lookup (front ++ e :: next :: back) [next.name]) := by
  intro heq
  rw [List.map_append, List.map_cons, List.map_cons] at hnames
  have hnotFront : ∀ f ∈ front, f.name ≠ next.name := fun f hf =>
    (List.nodup_append.mp hnames).2.2 _ (List.mem_map_of_mem hf) _ (by simp)
  have hnotScope : e.name ≠ next.name := by
    have hne := (List.nodup_cons.mp (List.nodup_append.mp hnames).2.1).1
    rintro heq
    exact hne (heq ▸ List.mem_cons_self)
  -- the right offset
  have hoffset : offsetOf next.name (front ++ e :: next :: back) 4 =
      4 + (encodeElements front).length + e.encode.length := by
    rw [offsetOf_append hnotFront, offsetOf, if_neg hnotScope, offsetOf, if_pos rfl]
  have hsize := (h.elementsAt).fin_eq
  -- what the code does up to the code with scope
  obtain ⟨fuel, hfuel, hat, hscan⟩ := scanElements_front (-1) h.elementsAt
    ((encodeDocument (front ++ e :: next :: back)).length - 4) (by omega) hnotFront hfront
  have hroom := hat.fin_eq
  rw [encodeElements, List.length_append] at hroom
  obtain ⟨fuel, rfl⟩ := Nat.exists_eq_succ_of_ne_zero (show fuel ≠ 0 by omega)
  have hmiss : ¬ ∃ k ∈ [(next.name, (-1 : ℤ))], k.2 < 0 ∧ k.1 = e.name := by
    rintro ⟨k, hk, -, hk'⟩
    rw [List.mem_singleton.mp hk] at hk'
    exact hnotScope hk'.symm
  have hone : ([(next.name, (-1 : ℤ))].map (·.1)).Nodup := List.nodup_singleton next.name
  have hstep := scanElements_cons hat hone 1 fuel 0
  have hself : assign e.name (4 + (encodeElements front).length) [(next.name, -1)] =
      [(next.name, -1)] := assign_eq_self fun k hk hopen => hmiss ⟨k, hk, hopen⟩
  have hover : e.value.overhang = 4 := if_pos hs
  rw [if_neg fun hh => hmiss hh.1, if_neg hmiss, hself, hover] at hstep
  -- and so it starts four bytes behind the offset
  have hcode := h.bsonGetProps_eq [(next.name, -1)]
  rw [List.map_singleton, List.length_singleton, hscan, hstep, heq, lookup] at hcode
  have hstored := scanElements_storedFrom hcode.symm
  rw [List.map_singleton, hoffset] at hstored
  cases hstored with
  | cons hk _ => omega

/-- **Lookup.** In every well-formed document and for all distinct keys, `bson_get_props` is right
if no code with scope has to be stepped over to another element. And if the names are distinct, it
is right for all keys if and only if no code with scope stands in front of another element. -/
theorem lookup_right (h : IsDocument m es) :
    (∀ keys : Keys, (keys.map (·.1)).Nodup → ScopeHarmless es (keys.map (·.1)) →
      bsonGetProps m keys = some (lookup es (keys.map (·.1)))) ∧
    ((es.map Element.name).Nodup →
      ((∀ keys : Keys, (keys.map (·.1)).Nodup →
        bsonGetProps m keys = some (lookup es (keys.map (·.1)))) ↔ ScopeLast es)) := by
  refine ⟨fun keys hnodup hscope => bsonGetProps_eq_lookup h hnodup hscope, fun hnames =>
    ⟨fun hright => ?_, fun hlast keys hnodup => ?_⟩⟩
  · by_contra hnot
    obtain ⟨front, e, next, back, rfl, hs, hfront⟩ := exists_scope_of_not_scopeLast hnot
    exact not_lookup_of_scope h hnames hs hfront (hright [(next.name, -1)] (by simp))
  · apply bsonGetProps_eq_lookup h hnodup
    intro front e back heq hs hne
    exact absurd (hlast front e back heq hs) hne

end Documents

/-! ## The failing document -/

/-- Names for the documents below. -/
def nameA : CString := ⟨[0x61], by decide⟩

def nameB : CString := ⟨[0x62], by decide⟩

def nameC : CString := ⟨[0x63], by decide⟩

def nameD : CString := ⟨[0x64], by decide⟩

/-- Code with scope in front of another element. -/
def scopeFirst : List Element := [.mk nameA (.codeWithScope [] []), .mk nameB .null]

/-- Code with scope behind another element. -/
def scopeSecond : List Element := [.mk nameB .null, .mk nameA (.codeWithScope [] [])]

theorem isDocument_encodeDocument (es : List Element) (h : (encodeDocument es).length < 2 ^ 31) :
    IsDocument (encodeDocument es) es := ⟨Mem.hasAt_self _, h⟩

/-- `lookup_right` of a document with code with scope at its end. -/
theorem lookup_right_scopeSecond :
    bsonGetProps (encodeDocument scopeSecond) [(nameB, -1), (nameA, -1)] =
      some (lookup scopeSecond [nameB, nameA]) := by
  have hlast : ScopeLast scopeSecond := by
    intro front e back heq hs
    rcases front with _ | ⟨f, _ | ⟨g, front⟩⟩ <;> simp [scopeSecond] at heq
    · obtain ⟨rfl, -⟩ := heq
      cases hs
    · exact heq.2.2
  have hright := lookup_right (isDocument_encodeDocument scopeSecond (by decide))
  exact (hright.2 (by decide)).mpr hlast [(nameB, -1), (nameA, -1)] (by decide)

/-- The key behind the code with scope is not found. -/
theorem not_lookup_right :
    ¬ ∀ (m : Mem) (es : List Element), IsDocument m es → ∀ keys : Keys,
      (keys.map (·.1)).Nodup → bsonGetProps m keys = some (lookup es (keys.map (·.1))) := by
  intro hall
  have hright := hall (encodeDocument scopeFirst) scopeFirst (isDocument_encodeDocument _ (by decide))
    [(nameB, -1)] (by decide)
  have hcode : bsonGetProps (encodeDocument scopeFirst) [(nameB, -1)] =
      some (0, [(nameB, -1)]) := by decide
  have hlookup : lookup scopeFirst [nameB] = (1, [(nameB, 21)]) := by decide
  rw [hcode, List.map_singleton, hlookup] at hright
  exact absurd hright (by decide)

end OlivePiccolo.Bson
