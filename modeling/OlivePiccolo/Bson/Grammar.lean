import Mathlib.Data.Vector.Basic
import OlivePiccolo.Library.Memory

/-!
# BSON documents

The grammar of BSON documents as a type, and their encoding: a document is its length, its elements
and a NUL; an element is the type code, the name and the value. Every type code from `0x01` to
`0x13` is here.
-/

namespace OlivePiccolo.Bson

mutual

/-- The value of an element. -/
inductive Value
  | double (bytes : List.Vector UInt8 8)
  | string (s : List UInt8)
  | document (elements : List Element)
  | array (elements : List Element)
  | binary (subtype : UInt8) (bytes : List UInt8)
  | undefined
  | objectId (bytes : List.Vector UInt8 12)
  | boolean (b : Bool)
  | utcDatetime (bytes : List.Vector UInt8 8)
  | null
  | regex (pattern options : CString)
  | dbPointer (s : List UInt8) (bytes : List.Vector UInt8 12)
  | code (s : List UInt8)
  | symbol (s : List UInt8)
  | codeWithScope (s : List UInt8) (scope : List Element)
  | int32 (v : BitVec 32)
  | timestamp (bytes : List.Vector UInt8 8)
  | int64 (bytes : List.Vector UInt8 8)
  | decimal128 (bytes : List.Vector UInt8 16)

/-- An element of a document. -/
inductive Element
  | mk (name : CString) (value : Value)

end

def Element.name : Element → CString
  | mk name _ => name

def Element.value : Element → Value
  | mk _ value => value

/-- The type code of a value. -/
def Value.typeCode : Value → UInt8
  | double _ => 0x01
  | string _ => 0x02
  | document _ => 0x03
  | array _ => 0x04
  | binary _ _ => 0x05
  | undefined => 0x06
  | objectId _ => 0x07
  | boolean _ => 0x08
  | utcDatetime _ => 0x09
  | null => 0x0a
  | regex _ _ => 0x0b
  | dbPointer _ _ => 0x0c
  | code _ => 0x0d
  | symbol _ => 0x0e
  | codeWithScope _ _ => 0x0f
  | int32 _ => 0x10
  | timestamp _ => 0x11
  | int64 _ => 0x12
  | decimal128 _ => 0x13

/-- JavaScript code with scope. -/
def Value.isCodeWithScope : Value → Bool
  | codeWithScope _ _ => true
  | _ => false

/-! ## Encoding -/

/-- A length, counting the NUL, the bytes and the NUL. -/
def encodeString (s : List UInt8) : List UInt8 := leBytes 4 (s.length + 1) ++ s ++ [0]

/-- The length of the whole, the elements and the NUL. -/
def encodeBody (body : List UInt8) : List UInt8 := leBytes 4 (body.length + 5) ++ body ++ [0]

mutual

/-- The bytes of a value. -/
def Value.encode : Value → List UInt8
  | .double bytes => bytes.toList
  | .string s => encodeString s
  | .document elements => encodeBody (encodeElements elements)
  | .array elements => encodeBody (encodeElements elements)
  | .binary subtype bytes => leBytes 4 bytes.length ++ subtype :: bytes
  | .undefined => []
  | .objectId bytes => bytes.toList
  | .boolean b => [if b then 1 else 0]
  | .utcDatetime bytes => bytes.toList
  | .null => []
  | .regex pattern options => pattern.encode ++ options.encode
  | .dbPointer s bytes => encodeString s ++ bytes.toList
  | .code s => encodeString s
  | .symbol s => encodeString s
  | .codeWithScope s scope =>
    leBytes 4 (4 + (encodeString s).length + (encodeElements scope).length + 5) ++
      encodeString s ++ encodeBody (encodeElements scope)
  | .int32 v => leBytes 4 v.toNat
  | .timestamp bytes => bytes.toList
  | .int64 bytes => bytes.toList
  | .decimal128 bytes => bytes.toList

/-- The bytes of an element. -/
def Element.encode : Element → List UInt8
  | .mk name value => value.typeCode :: (name.encode ++ value.encode)

/-- The bytes of elements. -/
def encodeElements : List Element → List UInt8
  | [] => []
  | e :: es => e.encode ++ encodeElements es

end

/-- The bytes of a document. -/
def encodeDocument (es : List Element) : List UInt8 := encodeBody (encodeElements es)

theorem encodeElements_append (es es' : List Element) :
    encodeElements (es ++ es') = encodeElements es ++ encodeElements es' := by
  induction es with
  | nil => rfl
  | cons e es ih => rw [List.cons_append, encodeElements, encodeElements, ih, List.append_assoc]

theorem encodeElements_singleton (e : Element) : encodeElements [e] = e.encode := by
  rw [encodeElements, encodeElements, List.append_nil]

theorem Element.encode_eq (e : Element) :
    e.encode = e.value.typeCode :: (e.name.encode ++ e.value.encode) := by
  cases e with
  | mk name value => rw [Element.encode]; rfl

@[simp] theorem encodeString_length (s : List UInt8) :
    (encodeString s).length = s.length + 5 := by
  unfold encodeString
  simp only [List.length_append, leBytes_length, List.length_singleton]
  omega

@[simp] theorem encodeBody_length (body : List UInt8) :
    (encodeBody body).length = body.length + 5 := by
  unfold encodeBody
  simp only [List.length_append, leBytes_length, List.length_singleton]
  omega

theorem Element.encode_length (e : Element) :
    e.encode.length = e.name.bytes.length + 2 + e.value.encode.length := by
  rw [Element.encode_eq, List.length_cons, List.length_append, CString.encode_length]
  omega

theorem Value.typeCode_ne_zero (v : Value) : v.typeCode ≠ 0 := by
  cases v <;> simp [Value.typeCode]

end OlivePiccolo.Bson
