import Mathlib.Data.Fin.Basic
import Mathlib.Logic.Function.Basic

/-!
# The pin function controller and its driver

The four banks of `peridot_pfc.v`, as `olive_std_top.v` puts them on the bus, and the functions of
`peridot_pfc_interface.c` that write to them.
-/

namespace OlivePiccolo.Pfc

/-! ## The registers -/

/-- The registers of a `peridot_pfc` that can be written. -/
structure Bank where
  pinDoutReg : BitVec 8
  pinselReg : BitVec 32
  funcselReg : BitVec 32

/-- What `peridot_pfc` does with a write. Register 0 is read only. -/
def Bank.write (b : Bank) (avsAddress : BitVec 2) (avsWritedata : BitVec 32) : Bank :=
  match avsAddress with
  | 1 =>
    let mask := avsWritedata.extractLsb' 8 8
    { b with pinDoutReg := (b.pinDoutReg &&& mask) ||| (avsWritedata.extractLsb' 0 8 &&& ~~~mask) }
  | 2 => { b with pinselReg := avsWritedata }
  | 3 => { b with funcselReg := avsWritedata }
  | _ => b

/-- `avs_readdata`, with the pins as they are read at register 0. -/
def Bank.readdata (b : Bank) (pinDinReg : BitVec 8) (avsAddress : BitVec 2) : BitVec 32 :=
  match avsAddress with
  | 0 => pinDinReg.setWidth 32
  | 1 => b.pinDoutReg.setWidth 32
  | 2 => b.pinselReg
  | _ => b.funcselReg

abbrev Banks := Fin 4 → Bank

/-- The bank that a word address selects. -/
def bankOf (address : BitVec 32) : Fin 4 := (address.extractLsb' 2 2).toFin

/-- `IORD`, of a register that is not an input. -/
def iord (r : Banks) (address : BitVec 32) : BitVec 32 :=
  (r (bankOf address)).readdata 0 (address.extractLsb' 0 2)

/-- `IOWR`. -/
def iowr (r : Banks) (address data : BitVec 32) : Banks :=
  Function.update r (bankOf address) ((r (bankOf address)).write (address.extractLsb' 0 2) data)

/-! ## The driver -/

/-- `PERIDOT_PFC_DIROUT_REG`. -/
def DIROUT (bank : BitVec 32) : BitVec 32 := 1 + 4 * bank

/-- `PERIDOT_PFC_OUTPUT_REG`. -/
def OUTPUT (bank : BitVec 32) : BitVec 32 := 2 + 4 * bank

/-- `PERIDOT_PFC_INPUT_REG`. -/
def INPUT (bank : BitVec 32) : BitVec 32 := 3 + 4 * bank

/-- `peridot_pfc_interface_direct_output`. -/
def peridotPfcInterfaceDirectOutput (r : Banks) (pin value : BitVec 32) : Banks :=
  iowr r (DIROUT (pin >>> 3))
    ((~~~(1 : BitVec 32) <<< (8 + (pin &&& 7)) &&& 0xff00#32) |||
      (if value ≠ 0 then (1 : BitVec 32) <<< (0 + (pin &&& 7)) else 0))

/-- A word with another value in one of its fields of four bits. -/
def setField (word field value : BitVec 32) : BitVec 32 :=
  (word &&& ~~~((0xf : BitVec 32) <<< (0 + 4 * field))) ||| ((value &&& 0xf) <<< (0 + 4 * field))

/-- `peridot_pfc_interface_select_output`. -/
def peridotPfcInterfaceSelectOutput (r : Banks) (pin func : BitVec 32) : Banks :=
  let bank := pin >>> 3
  iowr r (OUTPUT bank) (setField (iord r (OUTPUT bank)) (pin &&& 7) func)

/-- `peridot_pfc_interface_select_input`. -/
def peridotPfcInterfaceSelectInput (r : Banks) (bank func pin : BitVec 32) : Banks :=
  let bank := bank &&& 3
  iowr r (INPUT bank) (setField (iord r (INPUT bank)) (func &&& 7) pin)

/-- `set` and `clear` of `peridot_pfc_interface_direct_output_bank`, with the pins to toggle. -/
def withToggle (now set clear toggle : BitVec 32) : BitVec 32 × BitVec 32 :=
  if toggle ≠ 0 then (set ||| (~~~now &&& toggle), clear ||| (now &&& toggle)) else (set, clear)

/-- `peridot_pfc_interface_direct_output_bank`. -/
def peridotPfcInterfaceDirectOutputBank (r : Banks) (bank set clear toggle : BitVec 32) : Banks :=
  let bank := bank &&& 3
  let (set, clear) := withToggle (iord r (DIROUT bank) >>> 0) set clear toggle
  iowr r (DIROUT bank)
    ((~~~(set ||| clear ||| toggle) <<< 8 &&& 0xff00#32) ||| (set <<< 0 &&& 0xff#32))

/-- The bits of a bank, spread to every fourth bit of a word. -/
def spread (bits : BitVec 32) : BitVec 32 :=
  ((bits &&& 0x55) * 0x00041041 &&& 0x01010101) ||| ((bits &&& 0xaa) * 0x00208208 &&& 0x10101010)

/-- `peridot_pfc_interface_select_output_bank`. -/
def peridotPfcInterfaceSelectOutputBank (r : Banks) (bank bits func : BitVec 32) : Banks :=
  let bank := bank &&& 3
  let mask := spread bits
  iowr r (OUTPUT bank)
    ((iord r (OUTPUT bank) &&& (mask ^^^ 0x11111111) * 0xf) ||| (mask * (func &&& 0xf)))

/-! ## Calls -/

/-- A call of the driver, for a pin or a bank that is there. -/
inductive Call
  | directOutput (pin : Fin 32) (value : BitVec 32)
  | directOutputBank (bank : Fin 4) (set clear toggle : BitVec 32)
  | selectOutput (pin : Fin 32) (func : BitVec 32)
  | selectOutputBank (bank : Fin 4) (bits func : BitVec 32)
  | selectInput (bank : Fin 4) (func pin : BitVec 32)
  deriving DecidableEq, Repr

def Banks.call (r : Banks) : Call → Banks
  | .directOutput pin value => peridotPfcInterfaceDirectOutput r (BitVec.ofNat 32 pin) value
  | .directOutputBank bank set clear toggle =>
    peridotPfcInterfaceDirectOutputBank r (BitVec.ofNat 32 bank) set clear toggle
  | .selectOutput pin func => peridotPfcInterfaceSelectOutput r (BitVec.ofNat 32 pin) func
  | .selectOutputBank bank bits func =>
    peridotPfcInterfaceSelectOutputBank r (BitVec.ofNat 32 bank) bits func
  | .selectInput bank func pin =>
    peridotPfcInterfaceSelectInput r (BitVec.ofNat 32 bank) func pin

def Banks.run (r : Banks) (calls : List Call) : Banks := calls.foldl Banks.call r

end OlivePiccolo.Pfc
