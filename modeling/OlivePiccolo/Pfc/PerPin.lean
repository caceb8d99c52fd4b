import Mathlib.Data.List.Infix
import Mathlib.Order.Fin.Basic
import OlivePiccolo.Library.Digits
import OlivePiccolo.Pfc.Interface

/-!
# One value and one function for each pin

What the calls are for: each of them changes the pins and functions that it names (`Pins.call`). The
registers do the same, but for `peridot_pfc_interface_direct_output`. It shifts `~1u`, which leaves
the mask of all lower pins of the bank at 0, so that the hardware writes them as well; they get 0.
The registers follow the model in exactly those runs where these pins are 0 already
(`driver_refines_iff`).
-/

namespace OlivePiccolo.Pfc

/-! ## The model -/

/-- The value and the function of each pin, and the pin that each function of a bank reads. -/
@[ext] structure Pins where
  value : Fin 32 → Bool
  func : Fin 32 → BitVec 4
  source : Fin 4 → Fin 8 → BitVec 4

def bank (pin : Fin 32) : Fin 4 := ⟨pin / 8, by omega⟩

/-- The place of a pin in its bank. -/
def place (pin : Fin 32) : Fin 8 := ⟨pin % 8, by omega⟩

/-- The value that a pin gets. To set it wins, then to toggle it. -/
def newValue (set clear toggle old : Bool) : Bool :=
  if set then true else if toggle then !old else if clear then false else old

/-- What a call changes. -/
def Pins.call (s : Pins) : Call → Pins
  | .directOutput pin value => { s with value := Function.update s.value pin (value ≠ 0) }
  | .directOutputBank b set clear toggle =>
    { s with
      value := fun pin =>
        if bank pin = b then
          newValue (set.getLsbD (place pin)) (clear.getLsbD (place pin))
            (toggle.getLsbD (place pin)) (s.value pin)
        else s.value pin }
  | .selectOutput pin func => { s with func := Function.update s.func pin (func.setWidth 4) }
  | .selectOutputBank b bits func =>
    { s with
      func := fun pin =>
        if bank pin = b ∧ bits.getLsbD (place pin) then func.setWidth 4 else s.func pin }
  | .selectInput b func pin =>
    { s with
      source := Function.update s.source b
        (Function.update (s.source b) (func.setWidth 3).toFin (pin.setWidth 4)) }

def Pins.run (s : Pins) (calls : List Call) : Pins := calls.foldl Pins.call s

/-- A field of four bits. -/
def field (word : BitVec 32) (i : Fin 8) : BitVec 4 := word.extractLsb' (4 * i) 4

/-- What the registers say about the pins. -/
def Banks.view (r : Banks) : Pins where
  value pin := (r (bank pin)).pinDoutReg.getLsbD (place pin)
  func pin := field (r (bank pin)).pinselReg (place pin)
  source b i := field (r b).funcselReg i

/-! ## Registers -/

section Registers

variable (r : Banks) (b : Fin 4) (d : BitVec 32)

theorem pin_bank (pin : Fin 32) : BitVec.ofNat 32 pin >>> 3 = BitVec.ofNat 32 (bank pin) := by
  revert pin
  decide

theorem pin_place (pin : Fin 32) : BitVec.ofNat 32 pin &&& 7 = BitVec.ofNat 32 (place pin) := by
  revert pin
  decide

theorem bank_mask : BitVec.ofNat 32 b &&& 3 = BitVec.ofNat 32 b := by
  revert b
  decide

theorem DIROUT_address : bankOf (DIROUT (BitVec.ofNat 32 b)) = b ∧
    (DIROUT (BitVec.ofNat 32 b)).extractLsb' 0 2 = 1 := by
  revert b
  decide

theorem OUTPUT_address : bankOf (OUTPUT (BitVec.ofNat 32 b)) = b ∧
    (OUTPUT (BitVec.ofNat 32 b)).extractLsb' 0 2 = 2 := by
  revert b
  decide

theorem INPUT_address : bankOf (INPUT (BitVec.ofNat 32 b)) = b ∧
    (INPUT (BitVec.ofNat 32 b)).extractLsb' 0 2 = 3 := by
  revert b
  decide

theorem iord_DIROUT : iord r (DIROUT (BitVec.ofNat 32 b)) = (r b).pinDoutReg.setWidth 32 := by
  obtain ⟨hbank, hreg⟩ := DIROUT_address b
  rw [iord, hbank, hreg]
  rfl

theorem iord_OUTPUT : iord r (OUTPUT (BitVec.ofNat 32 b)) = (r b).pinselReg := by
  obtain ⟨hbank, hreg⟩ := OUTPUT_address b
  rw [iord, hbank, hreg]
  rfl

theorem iord_INPUT : iord r (INPUT (BitVec.ofNat 32 b)) = (r b).funcselReg := by
  obtain ⟨hbank, hreg⟩ := INPUT_address b
  rw [iord, hbank, hreg]
  rfl

/-- The pins when a bank gets other registers. -/
theorem view_update (new : Bank) : (Banks.view (Function.update r b new)) =
    { value := fun pin =>
        if bank pin = b then new.pinDoutReg.getLsbD (place pin) else r.view.value pin
      func := fun pin =>
        if bank pin = b then field new.pinselReg (place pin) else r.view.func pin
      source := fun b' i => if b' = b then field new.funcselReg i else r.view.source b' i } := by
  apply Pins.ext
  · funext pin
    simp only [Banks.view, Function.update_apply]
    split_ifs <;> rfl
  · funext pin
    simp only [Banks.view, Function.update_apply]
    split_ifs <;> rfl
  · funext b' i
    simp only [Banks.view, Function.update_apply]
    split_ifs <;> rfl

/-- What a write leaves alone. -/
theorem ite_bank {α : Type} (f : Bank → α) (b' : Fin 4) :
    (if b' = b then f (r b) else f (r b')) = f (r b') := by
  split_ifs with h
  · rw [h]
  · rfl

theorem write_pinDoutReg (old : Bank) {i : ℕ} (h : i < 8) :
    (old.write 1 d).pinDoutReg.getLsbD i =
      if d.getLsbD (8 + i) then old.pinDoutReg.getLsbD i else d.getLsbD i := by
  show ((old.pinDoutReg &&& d.extractLsb' 8 8) |||
    (d.extractLsb' 0 8 &&& ~~~(d.extractLsb' 8 8))).getLsbD i = _
  rw [BitVec.getLsbD_or, BitVec.getLsbD_and, BitVec.getLsbD_and, BitVec.getLsbD_not,
    BitVec.getLsbD_extractLsb', BitVec.getLsbD_extractLsb', decide_eq_true h, Nat.zero_add]
  cases d.getLsbD (8 + i) <;> simp

/-- A write to the data keeps the pins whose bit in the mask is set. -/
theorem view_DIROUT : (iowr r (DIROUT (BitVec.ofNat 32 b)) d).view =
    { r.view with
      value := fun pin =>
        if bank pin = b then
          if d.getLsbD (8 + place pin) then r.view.value pin else d.getLsbD (place pin)
        else r.view.value pin } := by
  obtain ⟨hbank, hreg⟩ := DIROUT_address b
  rw [iowr, hbank, hreg, view_update]
  apply Pins.ext
  · funext pin
    by_cases hb : bank pin = b
    · subst hb
      dsimp only
      rw [if_pos rfl, if_pos rfl, write_pinDoutReg d _ (place pin).isLt]
      rfl
    · dsimp only
      rw [if_neg hb, if_neg hb]
  · funext pin
    exact ite_bank r b (fun x => field x.pinselReg (place pin)) (bank pin)
  · funext b' i
    exact ite_bank r b (fun x => field x.funcselReg i) b'

/-- A write to the functions of the pins. -/
theorem view_OUTPUT : (iowr r (OUTPUT (BitVec.ofNat 32 b)) d).view =
    { r.view with
      func := fun pin => if bank pin = b then field d (place pin) else r.view.func pin } := by
  obtain ⟨hbank, hreg⟩ := OUTPUT_address b
  rw [iowr, hbank, hreg, view_update]
  apply Pins.ext
  · funext pin
    exact ite_bank r b (fun x => x.pinDoutReg.getLsbD (place pin)) (bank pin)
  · rfl
  · funext b' i
    exact ite_bank r b (fun x => field x.funcselReg i) b'

/-- A write to the pins of the functions. -/
theorem view_INPUT : (iowr r (INPUT (BitVec.ofNat 32 b)) d).view =
    { r.view with source := Function.update r.view.source b (field d) } := by
  obtain ⟨hbank, hreg⟩ := INPUT_address b
  rw [iowr, hbank, hreg, view_update]
  apply Pins.ext
  · funext pin
    exact ite_bank r b (fun x => x.pinDoutReg.getLsbD (place pin)) (bank pin)
  · funext pin
    exact ite_bank r b (fun x => field x.pinselReg (place pin)) (bank pin)
  · funext b' i
    by_cases hb : b' = b
    · subst hb
      dsimp only
      rw [if_pos rfl, Function.update_self]
      rfl
    · dsimp only
      rw [if_neg hb, Function.update_of_ne hb]

end Registers

/-! ## Words -/

section Words

variable (word value : BitVec 32) (i k : Fin 8)

theorem getLsbD_field {j : ℕ} (h : j < 4) :
    (field word i).getLsbD j = word.getLsbD (4 * i + j) := by
  rw [field, BitVec.getLsbD_extractLsb', decide_eq_true h, Bool.true_and]

theorem field_not : field (~~~word) i = ~~~field word i := by
  apply BitVec.eq_of_getLsbD_eq
  intro j hj
  have hi := i.isLt
  rw [getLsbD_field _ _ hj, BitVec.getLsbD_not, BitVec.getLsbD_not, getLsbD_field _ _ hj,
    decide_eq_true hj, decide_eq_true (by omega)]

theorem shift_toNat : (0 + 4 * BitVec.ofNat 32 k).toNat = 4 * k.val := by
  revert k
  decide

/-- Four bits, moved to a field. -/
theorem field_moved : field ((value &&& 0xf) <<< (0 + 4 * BitVec.ofNat 32 k)) i =
    if i = k then value.setWidth 4 else 0#4 := by
  apply BitVec.eq_of_getLsbD_eq
  intro j hj
  have hi := i.isLt
  have hlow : ∀ n : ℕ, (value &&& 0xf).getLsbD n = (value.getLsbD n && decide (n < 4)) := by
    intro n
    have hmask : (0xf : BitVec 32).getLsbD n = (decide (n < 32) && decide (n < 4)) := by
      rw [← Nat.testBit_two_pow_sub_one 4 n]
      exact BitVec.getLsbD_ofNat 32 15 n
    rw [BitVec.getLsbD_and, hmask]
    by_cases hn : n < 4
    · rw [decide_eq_true hn, decide_eq_true (by omega), Bool.true_and]
    · rw [decide_eq_false hn, Bool.and_false]
  rw [getLsbD_field _ _ hj, BitVec.shiftLeft_eq', shift_toNat, BitVec.getLsbD_shiftLeft, hlow,
    decide_eq_true (by omega), Bool.true_and]
  split_ifs with h
  · subst h
    rw [Nat.add_sub_cancel_left, decide_eq_true hj, decide_eq_false (by omega), Bool.not_false,
      Bool.true_and, Bool.and_true, BitVec.getLsbD_setWidth, decide_eq_true hj, Bool.true_and]
  · have hne : i.val ≠ k.val := fun heq => h (Fin.ext heq)
    rw [BitVec.getLsbD_zero]
    by_cases hlt : 4 * i.val + j < 4 * k.val
    · rw [decide_eq_true hlt, Bool.not_true, Bool.false_and]
    · rw [decide_eq_false (by omega : ¬ 4 * i.val + j - 4 * k.val < 4), Bool.and_false,
        Bool.and_false]

/-- Another value in a field. -/
theorem field_setField : field (setField word (BitVec.ofNat 32 k) value) i =
    if i = k then value.setWidth 4 else field word i := by
  have hmask : field ((0xf : BitVec 32) <<< (0 + 4 * BitVec.ofNat 32 k)) i =
      if i = k then 0xf#4 else 0#4 := field_moved 0xf i k
  rw [setField, field, BitVec.extractLsb'_or, BitVec.extractLsb'_and, ← field, ← field, ← field,
    field_not, hmask, field_moved]
  split_ifs with h
  · rw [show ~~~0xf#4 = 0#4 from rfl, BitVec.and_zero, BitVec.zero_or]
  · rw [show ~~~0#4 = BitVec.allOnes 4 from rfl, BitVec.and_allOnes, BitVec.or_zero]

/-- Only the pins of a bank count. -/
theorem spread_low (bits : BitVec 32) : spread (bits &&& 0xff) = spread bits := by
  rw [spread, spread, BitVec.and_assoc, BitVec.and_assoc]
  rfl

theorem exists_low (bits : BitVec 32) : ∃ b : Fin 256, bits &&& 0xff = BitVec.ofNat 32 b := by
  refine ⟨⟨bits.toNat % 256, Nat.mod_lt _ (by decide)⟩, BitVec.eq_of_toNat_eq ?_⟩
  rw [BitVec.toNat_and, BitVec.toNat_ofNat]
  have hmask : bits.toNat &&& 255 = bits.toNat % 256 := Nat.and_two_pow_sub_one_eq_mod _ 8
  have hlt : bits.toNat % 256 < 2 ^ 32 := (Nat.mod_lt _ (by decide)).trans (by decide)
  rw [Nat.mod_eq_of_lt hlt]
  exact hmask

/-- The fields of a bank's bits are 1 or 0. -/
theorem spread_toNat (bits : BitVec 32) : (spread bits).toNat = ones 16 bits.getLsbD 8 := by
  have hall : ∀ b : Fin 256, (spread (BitVec.ofNat 32 b)).toNat =
      ones 16 (BitVec.ofNat 32 b).getLsbD 8 := by decide +kernel
  obtain ⟨b, hb⟩ := exists_low bits
  rw [← spread_low, hb, hall, ← hb]
  refine ones_congr fun i hi => ?_
  rw [BitVec.getLsbD_and]
  have hmask : (0xff : BitVec 32).getLsbD i = true := by
    revert i
    decide
  rw [hmask, Bool.and_true]

theorem spread_not (bits : BitVec 32) : spread bits ^^^ 0x11111111 = spread (~~~bits) := by
  have hall : ∀ b : Fin 256, spread (BitVec.ofNat 32 b) ^^^ 0x11111111 =
      spread (~~~BitVec.ofNat 32 b) := by decide +kernel
  obtain ⟨b, hb⟩ := exists_low bits
  have hnot : ~~~bits &&& 0xff = ~~~(bits &&& 0xff) &&& 0xff := by
    apply BitVec.eq_of_getLsbD_eq
    intro i hi
    simp only [BitVec.getLsbD_and, BitVec.getLsbD_not, hi, decide_true, Bool.true_and]
    cases bits.getLsbD i <;> cases (0xff : BitVec 32).getLsbD i <;> rfl
  rw [← spread_low bits, ← spread_low (~~~bits), hnot, hb, hall, spread_low]

theorem field_spread_mul (bits : BitVec 32) :
    field (spread bits * (value &&& 0xf)) i = if bits.getLsbD i then value.setWidth 4 else 0#4 := by
  have hvalue : (value &&& 0xf).toNat = value.toNat % 16 := by
    rw [BitVec.toNat_and]
    exact Nat.and_two_pow_sub_one_eq_mod _ 4
  have hlt : (value &&& 0xf).toNat < 16 := hvalue ▸ Nat.mod_lt _ (by decide)
  have hroom : ones 16 bits.getLsbD 8 * (value &&& 0xf).toNat < 2 ^ 32 :=
    ones_mul_lt hlt bits.getLsbD 8
  apply BitVec.eq_of_toNat_eq
  rw [field, BitVec.extractLsb'_toNat, BitVec.toNat_mul, spread_toNat, Nat.mod_eq_of_lt hroom,
    Nat.shiftRight_eq_div_pow, Nat.pow_mul]
  refine (ones_mul hlt bits.getLsbD 8 i i.isLt).trans ?_
  split_ifs
  · rw [hvalue, BitVec.toNat_setWidth]
  · rfl

/-- Another value in some fields. -/
theorem field_spread (bits : BitVec 32) :
    field ((word &&& (spread bits ^^^ 0x11111111) * 0xf) ||| (spread bits * (value &&& 0xf))) i =
      if bits.getLsbD i then value.setWidth 4 else field word i := by
  have hmask : field (spread (~~~bits) * 0xf) i = if (~~~bits).getLsbD i then 0xf#4 else 0#4 :=
    field_spread_mul 0xf i _
  rw [spread_not, field, BitVec.extractLsb'_or, BitVec.extractLsb'_and, ← field, ← field, ← field,
    hmask, field_spread_mul, BitVec.getLsbD_not, decide_eq_true (by omega), Bool.true_and]
  cases bits.getLsbD i with
  | true =>
    show field word i &&& 0#4 ||| value.setWidth 4 = value.setWidth 4
    rw [BitVec.and_zero, BitVec.zero_or]
  | false =>
    show field word i &&& BitVec.allOnes 4 ||| 0#4 = field word i
    rw [BitVec.and_allOnes, BitVec.or_zero]

/-- The bits that `peridot_pfc_interface_direct_output` writes: the mask is set above the pin. -/
theorem direct_bits : ((~~~(1 : BitVec 32) <<< (8 + BitVec.ofNat 32 k) &&& 0xff00#32) |||
    (if value ≠ 0 then (1 : BitVec 32) <<< (0 + BitVec.ofNat 32 k) else 0)).getLsbD (8 + i) =
      decide (k < i) ∧
    ((~~~(1 : BitVec 32) <<< (8 + BitVec.ofNat 32 k) &&& 0xff00#32) |||
      (if value ≠ 0 then (1 : BitVec 32) <<< (0 + BitVec.ofNat 32 k) else 0)).getLsbD i =
        (decide (i = k) && decide (value ≠ 0)) := by
  by_cases hv : value ≠ 0
  · rw [if_pos hv, decide_eq_true hv]
    revert i k
    decide
  · rw [if_neg hv, decide_eq_false hv]
    revert i k
    decide

/-- The bits that `peridot_pfc_interface_direct_output_bank` writes. -/
theorem bank_bits (named set : BitVec 32) :
    ((~~~named <<< 8 &&& 0xff00#32) ||| (set <<< 0 &&& 0xff#32)).getLsbD (8 + i) =
        !named.getLsbD i ∧
      ((~~~named <<< 8 &&& 0xff00#32) ||| (set <<< 0 &&& 0xff#32)).getLsbD i = set.getLsbD i := by
  have hi := i.isLt
  have hhigh : (0xff00#32).getLsbD (8 + i) = true ∧ (0xff00#32).getLsbD i = false := by
    revert i
    decide
  have hlow : (0xff#32).getLsbD (8 + i) = false ∧ (0xff#32).getLsbD i = true := by
    revert i
    decide
  constructor
  · rw [BitVec.getLsbD_or, BitVec.getLsbD_and, BitVec.getLsbD_and, hhigh.1, hlow.1,
      BitVec.getLsbD_shiftLeft, Nat.add_sub_cancel_left, BitVec.getLsbD_not,
      decide_eq_true (by omega : 8 + i.val < 32), decide_eq_false (by omega : ¬ 8 + i.val < 8),
      decide_eq_true (by omega : i.val < 32)]
    simp
  · rw [BitVec.getLsbD_or, BitVec.getLsbD_and, BitVec.getLsbD_and, hhigh.2, hlow.2,
      BitVec.shiftLeft_zero, Bool.and_false, Bool.false_or, Bool.and_true]

theorem withToggle_bits (now set clear toggle : BitVec 32) {i : ℕ} (h : i < 32) :
    (withToggle now set clear toggle).1.getLsbD i =
        (set.getLsbD i || (!now.getLsbD i && toggle.getLsbD i)) ∧
      (withToggle now set clear toggle).2.getLsbD i =
        (clear.getLsbD i || (now.getLsbD i && toggle.getLsbD i)) := by
  rw [withToggle]
  split_ifs with ht
  · simp only [BitVec.getLsbD_or, BitVec.getLsbD_and, BitVec.getLsbD_not, h, decide_true,
      Bool.true_and, and_self]
  · rw [ne_eq, not_not] at ht
    subst ht
    simp

end Words

/-! ## Calls -/

/-- `peridot_pfc_interface_direct_output` spoils no pin: those below in the bank are 0. -/
def Pins.Safe (s : Pins) : Call → Prop
  | .directOutput pin _ => ∀ pin' < pin, bank pin' = bank pin → s.value pin' = false
  | _ => True

section Calls

variable (r : Banks)

theorem bank_place {pin pin' : Fin 32} (h : bank pin' = bank pin) :
    (place pin' = place pin ↔ pin' = pin) ∧ (place pin < place pin' ↔ pin < pin') := by
  revert pin pin'
  decide

/-- What `peridot_pfc_interface_direct_output` does: the pins below get 0 as well. -/
theorem view_directOutput (pin : Fin 32) (value : BitVec 32) :
    (r.call (.directOutput pin value)).view =
      { r.view with
        value := fun pin' =>
          if bank pin' = bank pin ∧ pin' < pin then false
          else (r.view.call (.directOutput pin value)).value pin' } := by
  rw [Banks.call, peridotPfcInterfaceDirectOutput, pin_bank, pin_place, view_DIROUT]
  apply Pins.ext
  · funext pin'
    obtain ⟨hmask, hdata⟩ := direct_bits value (place pin') (place pin)
    dsimp only
    rw [hmask, hdata, Pins.call]
    dsimp only
    rw [Function.update_apply]
    by_cases hb : bank pin' = bank pin
    · obtain ⟨heq, hlt⟩ := bank_place hb
      rw [if_pos hb]
      simp only [heq, hlt]
      rcases lt_trichotomy pin' pin with h | h | h
      · simp [hb, h, h.not_gt, h.ne]
      · subst h
        simp
      · simp [h, h.not_gt, h.ne']
    · rw [if_neg hb, if_neg fun hand => hb hand.1, if_neg fun h => hb (congrArg bank h)]
  · rfl
  · rfl

theorem view_directOutputBank (b : Fin 4) (set clear toggle : BitVec 32) :
    (r.call (.directOutputBank b set clear toggle)).view =
      r.view.call (.directOutputBank b set clear toggle) := by
  rw [Banks.call, peridotPfcInterfaceDirectOutputBank, bank_mask, iord_DIROUT]
  dsimp only
  rw [view_DIROUT, Pins.call]
  apply Pins.ext
  · funext pin
    dsimp only
    by_cases hb : bank pin = b
    · subst hb
      have hi := (place pin).isLt
      obtain ⟨hnamed, hdata⟩ := bank_bits (place pin)
        ((withToggle ((r (bank pin)).pinDoutReg.setWidth 32 >>> 0) set clear toggle).1 |||
          (withToggle ((r (bank pin)).pinDoutReg.setWidth 32 >>> 0) set clear toggle).2 ||| toggle)
        (withToggle ((r (bank pin)).pinDoutReg.setWidth 32 >>> 0) set clear toggle).1
      obtain ⟨hset, hclear⟩ := withToggle_bits
        ((r (bank pin)).pinDoutReg.setWidth 32 >>> 0) set clear toggle
        (by omega : (place pin).val < 32)
      have hnow : ((r (bank pin)).pinDoutReg.setWidth 32 >>> 0).getLsbD (place pin) =
          r.view.value pin := by
        rw [BitVec.ushiftRight_zero, BitVec.getLsbD_setWidth, decide_eq_true (by omega),
          Bool.true_and]
        rfl
      rw [if_pos rfl, if_pos rfl, hnamed, hdata, BitVec.getLsbD_or, BitVec.getLsbD_or, hset, hclear,
        hnow, newValue]
      cases set.getLsbD (place pin) <;> cases clear.getLsbD (place pin) <;>
        cases toggle.getLsbD (place pin) <;> cases r.view.value pin <;> rfl
    · rw [if_neg hb, if_neg hb]
  · rfl
  · rfl

theorem view_selectOutput (pin : Fin 32) (func : BitVec 32) :
    (r.call (.selectOutput pin func)).view = r.view.call (.selectOutput pin func) := by
  rw [Banks.call, peridotPfcInterfaceSelectOutput]
  rw [pin_bank, pin_place, iord_OUTPUT, view_OUTPUT, Pins.call]
  apply Pins.ext
  · rfl
  · funext pin'
    dsimp only
    rw [field_setField, Function.update_apply]
    by_cases hb : bank pin' = bank pin
    · rw [if_pos hb, ← hb]
      exact if_congr (bank_place hb).1 rfl rfl
    · rw [if_neg hb, if_neg fun h => hb (congrArg bank h)]
  · rfl

theorem view_selectOutputBank (b : Fin 4) (bits func : BitVec 32) :
    (r.call (.selectOutputBank b bits func)).view =
      r.view.call (.selectOutputBank b bits func) := by
  rw [Banks.call, peridotPfcInterfaceSelectOutputBank]
  rw [bank_mask, iord_OUTPUT, view_OUTPUT, Pins.call]
  apply Pins.ext
  · rfl
  · funext pin
    dsimp only
    rw [field_spread]
    by_cases hb : bank pin = b
    · subst hb
      rw [if_pos rfl]
      exact if_congr (by simp) rfl rfl
    · rw [if_neg hb, if_neg fun h => hb h.1]
  · rfl

theorem func_mask (func : BitVec 32) :
    func &&& 7 = BitVec.ofNat 32 (func.setWidth 3).toFin := by
  apply BitVec.eq_of_toNat_eq
  have hmask : func.toNat &&& 7 = func.toNat % 8 := Nat.and_two_pow_sub_one_eq_mod _ 3
  have hlt : func.toNat % 8 < 2 ^ 32 := (Nat.mod_lt _ (by decide)).trans (by decide)
  rw [BitVec.toNat_and, BitVec.toNat_ofNat, BitVec.val_toFin, BitVec.toNat_setWidth]
  exact hmask.trans (Nat.mod_eq_of_lt hlt).symm

theorem view_selectInput (b : Fin 4) (func pin : BitVec 32) :
    (r.call (.selectInput b func pin)).view = r.view.call (.selectInput b func pin) := by
  rw [Banks.call, peridotPfcInterfaceSelectInput]
  rw [bank_mask, iord_INPUT, view_INPUT, Pins.call, func_mask]
  apply Pins.ext
  · rfl
  · rfl
  · refine congrArg (Function.update r.view.source b) ?_
    funext i
    rw [field_setField, Function.update_apply]
    rfl

/-- A call does what it is for, and nothing else, where it spoils no pin. -/
theorem view_call_iff (c : Call) : (r.call c).view = r.view.call c ↔ r.view.Safe c := by
  cases c with
  | directOutput pin value =>
    rw [view_directOutput]
    constructor
    · intro h pin' hlt hb
      have hvalue := congrFun (congrArg Pins.value h) pin'
      dsimp only at hvalue
      rw [if_pos ⟨hb, hlt⟩, Pins.call] at hvalue
      dsimp only at hvalue
      rw [Function.update_of_ne hlt.ne] at hvalue
      exact hvalue.symm
    · intro hsafe
      apply Pins.ext
      · funext pin'
        dsimp only
        split_ifs with h
        · rw [Pins.call]
          dsimp only
          rw [Function.update_of_ne h.2.ne]
          exact (hsafe pin' h.2 h.1).symm
        · rfl
      · rfl
      · rfl
  | directOutputBank b set clear toggle =>
    exact iff_of_true (view_directOutputBank r b set clear toggle) trivial
  | selectOutput pin func => exact iff_of_true (view_selectOutput r pin func) trivial
  | selectOutputBank b bits func => exact iff_of_true (view_selectOutputBank r b bits func) trivial
  | selectInput b func pin => exact iff_of_true (view_selectInput r b func pin) trivial

end Calls

/-! ## Runs -/

/-- Every `peridot_pfc_interface_direct_output` of a sequence finds the pins below it at 0. -/
def Pins.Careful (s : Pins) : List Call → Prop
  | [] => True
  | c :: calls => s.Safe c ∧ (s.call c).Careful calls

/-- The registers agree with the model after each call. -/
def Banks.Refines (r : Banks) (calls : List Call) : Prop :=
  ∀ done, done <+: calls → (r.run done).view = r.view.run done

theorem Banks.refines_cons (r : Banks) (c : Call) (calls : List Call) :
    r.Refines (c :: calls) ↔ (r.call c).view = r.view.call c ∧ (r.call c).Refines calls := by
  constructor
  · intro h
    have hcall : (r.call c).view = r.view.call c := h [c] ⟨calls, rfl⟩
    refine ⟨hcall, fun done hdone => ?_⟩
    rw [hcall]
    exact h (c :: done) ((List.prefix_cons_inj c).mpr hdone)
  · rintro ⟨hcall, hrest⟩ done hdone
    cases done with
    | nil => rfl
    | cons c' done =>
      obtain ⟨rfl, hprefix⟩ := List.cons_prefix_cons.mp hdone
      have h := hrest done hprefix
      rwa [hcall] at h

/-- The driver keeps one value and one function for each pin in exactly the careful sequences. -/
theorem driver_refines_iff (r : Banks) (calls : List Call) :
    r.Refines calls ↔ r.view.Careful calls := by
  induction calls generalizing r with
  | nil =>
    refine iff_of_true (fun done hdone => ?_) trivial
    rw [List.prefix_nil.mp hdone]
    rfl
  | cons c calls ih =>
    rw [Banks.refines_cons, view_call_iff, ih, Pins.Careful]
    refine and_congr_right fun hsafe => ?_
    rw [(view_call_iff r c).mpr hsafe]

/-- All pins of bank 1 are 1, and pin 11 is set to 1: pins 8 to 10 become 0. -/
theorem direct_output_clears_lower :
    ¬ ∀ (r : Banks) (calls : List Call), (r.run calls).view = r.view.run calls := by
  intro h
  have hpin := congrFun (congrArg Pins.value
    (h (fun _ => ⟨0xff, 0, 0⟩) [.directOutput 11 1])) 8
  revert hpin
  decide

end OlivePiccolo.Pfc
