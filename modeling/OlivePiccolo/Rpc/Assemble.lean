import OlivePiccolo.Bson.Build
import OlivePiccolo.Rpc.Service

/-!
# Documents in buffers

A reply is put together in buffers: a block of memory is filled with a document step by step
(`HoldsDocument.append`), a second document may stand behind the first one in the same block
(`HoldsDocument.behind`), and a buffer of the very size that was measured holds nothing but the
document in the end (`HoldsDocument.eq_encode`).
-/

namespace OlivePiccolo.Rpc

open Bson

/-- A write through a pointer into a block. -/
def atPointer (m : Mem) (p : ℕ) (write : Mem → Access Mem) : Access Mem :=
  (write (m.drop p)).map (m.take p ++ ·)

/-- The first `p` bytes hold a document, and behind them stands `back`. -/
structure HoldsDocument (m : Mem) (p : ℕ) (back : Mem) (es : List Element) : Prop where
  isDocument : IsDocument m es
  room : (encodeDocument es).length ≤ p
  drop_eq : m.drop p = back
  length_eq : m.length = p + back.length
  lt : p < 2 ^ 31

section

variable {m : Mem} {p : ℕ} {back : Mem} {es : List Element} {e : Element}
  {set : Option Mem → Written}

theorem holdsDocument_create (h : 5 ≤ p) (hlt : p < 2 ^ 31) (hdrop : m.drop p = back)
    (hlen : m.length = p + back.length) :
    ∃ m', bsonCreateEmptyDocument m = some m' ∧ HoldsDocument m' p back [] := by
  have hroom : 5 ≤ m.length := by omega
  have hcreate := bsonCreateEmptyDocument_eq hroom
  refine ⟨_, hcreate, isDocument_nil hcreate, ?_, ?_, ?_, hlt⟩
  · rw [encodeDocument_nil]
    exact h
  · rw [encodeDocument_nil, List.drop_append, List.drop_drop, ← hdrop, Nat.add_comm]
    rw [List.drop_eq_nil_of_le (by exact h), List.nil_append]
    congr 1
    exact Nat.sub_add_cancel h
  · rw [List.length_append, List.length_drop, encodeDocument_nil]
    exact (Nat.add_sub_cancel' hroom).trans hlen

theorem holdsDocument_start (h : 5 ≤ m.length) (hlt : m.length < 2 ^ 31) :
    ∃ m', bsonCreateEmptyDocument m = some m' ∧ HoldsDocument m' m.length [] [] :=
  holdsDocument_create h hlt (List.drop_length) rfl

namespace HoldsDocument

theorem appended (h : HoldsDocument m p back es)
    (hroom : (encodeDocument (es ++ [e])).length ≤ p) :
    HoldsDocument (Bson.appended m (encodeElements es) e.encode) p back (es ++ [e]) := by
  have hlen := encodeDocument_concat_length es e
  have hlt := h.lt
  have hm := h.length_eq
  have hgrown : (encodeElements es ++ e.encode).length + 5 = (encodeDocument (es ++ [e])).length := by
    rw [List.length_append]
    omega
  refine ⟨isDocument_appended m (by omega), hroom, ?_, ?_, hlt⟩
  · rw [Bson.appended, List.drop_append, List.drop_drop,
      List.drop_eq_nil_of_le (by rw [encodeBody_length]; omega), List.nil_append, ← h.drop_eq]
    congr 1
    rw [encodeBody_length]
    omega
  · rw [Bson.appended, List.length_append, encodeBody_length, List.length_drop]
    omega

theorem append (h : HoldsDocument m p back es) (happends : Appends set e.encode)
    (hroom : (encodeDocument (es ++ [e])).length ≤ p) :
    ∃ m', written (set (some m)) = some m' ∧ HoldsDocument m' p back (es ++ [e]) := by
  have hlen := encodeDocument_concat_length es e
  have hlt := h.lt
  have hm := h.length_eq
  have hset := happends.append h.isDocument.hasAt (by omega) (by omega)
  exact ⟨_, by rw [written, hset]; rfl, h.appended hroom⟩

/-- What stands behind the document is changed. -/
theorem behind {back' : Mem} (h : HoldsDocument m p back es) (write : Mem → Access Mem)
    (hwrite : write back = some back') (hlen : back'.length = back.length) :
    ∃ m', atPointer m p write = some m' ∧ HoldsDocument m' p back' es := by
  have hm := h.length_eq
  have htake : (m.take p).length = p := by
    rw [List.length_take]
    omega
  obtain ⟨rest, hrest⟩ := Mem.hasAt_zero.mp h.isDocument.hasAt
  refine ⟨m.take p ++ back', by rw [atPointer, h.drop_eq, hwrite]; rfl, ⟨?_, h.isDocument.length_lt⟩,
    h.room, ?_, ?_, h.lt⟩
  · rw [Mem.hasAt_zero]
    refine ⟨rest.take (p - (encodeDocument es).length) ++ back', ?_⟩
    rw [hrest, List.take_append, List.take_of_length_le h.room, List.append_assoc]
  · rw [List.drop_append, List.drop_eq_nil_of_le (by omega), List.nil_append, htake, Nat.sub_self,
      List.drop_zero]
  · rw [List.length_append, htake]

theorem eq_encode (h : HoldsDocument m p back es) (hfull : (encodeDocument es).length = p) :
    m = encodeDocument es ++ back := by
  obtain ⟨rest, hrest⟩ := Mem.hasAt_zero.mp h.isDocument.hasAt
  rw [← h.drop_eq, ← hfull, hrest, List.drop_left]

end HoldsDocument

end

end OlivePiccolo.Rpc
