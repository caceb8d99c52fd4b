import OlivePiccolo.Bson.Containment
import OlivePiccolo.Rpc.Service

/-!
# Parameters inside the request

A handler gets a pointer to the subdocument `params` of a request. From there to the end of the
request is all that it may read, and whether it reads more is decided by the bytes from there on:
by the length of the subdocument and the numbers at the end of it (`Contained`).
-/

namespace OlivePiccolo.Rpc

open Bson

/-- A request of `n` bytes at the start of the memory, and a pointer to its `params`, found at an
offset that `bson_get_props` has stored. -/
structure ParamsAt (m : Mem) (n p : ℕ) : Prop where
  le : n ≤ m.length
  length_eq : readUnalignedInt m 0 = some (n : ℤ)
  found : ∃ keys r keys' off, bsonGetProps m keys = some (r, keys') ∧ (keyParams, off) ∈ keys' ∧
    bsonGetSubdocument (some m) off = some (some (p : ℤ))

/-- The bytes of the request from the pointer on. -/
def fromParams (m : Mem) (n p : ℕ) : Mem := (m.take n).drop p

section

variable {m : Mem} {n p : ℕ}

theorem ParamsAt.lt (h : ParamsAt m n p) : p < n := by
  obtain ⟨keys, r, keys', off, -, -, hsub⟩ := h.found
  obtain ⟨found, hseek, hfound⟩ := Option.bind_eq_some_iff.mp hsub
  obtain ⟨⟨value, fin⟩, rfl, hvalue⟩ := Option.map_eq_some_iff.mp (Option.some.inj hfound)
  rw [seekData] at hseek
  split_ifs at hseek with hoff
  · cases hseek
  · obtain ⟨fin', hlen, hseek⟩ := Option.bind_eq_some_iff.mp hseek
    obtain rfl := Option.some.inj (h.length_eq.symm.trans hlen)
    split_ifs at hseek with hfin
    · cases hseek
    · obtain ⟨b, -, hseek⟩ := Option.bind_eq_some_iff.mp hseek
      split_ifs at hseek with hnul
      · cases hseek
      · obtain ⟨t, -, hseek⟩ := Option.bind_eq_some_iff.mp hseek
        split_ifs at hseek with htype
        · cases hseek
        · obtain ⟨next, hskip, hseek⟩ := Option.bind_eq_some_iff.mp hseek
          obtain ⟨value', rfl, heq⟩ := Option.map_eq_some_iff.mp (Option.some.inj hseek)
          cases heq
          have hlt := skipString_between hskip
          simp only at hvalue
          omega

/-- The memory from the pointer on: first the rest of the request. -/
theorem ParamsAt.drop_eq (h : ParamsAt m n p) : m.drop p = fromParams m n p ++ m.drop n := by
  have hlt := h.lt
  have hle := h.le
  rw [fromParams, ← List.drop_append_of_le_length (by rw [List.length_take]; omega),
    List.take_append_drop]

/-- What is read inside the request does not depend on the memory behind it. -/
theorem ParamsAt.bsonGetProps_eq (h : ParamsAt m n p) (hin : Inside (fromParams m n p))
    (keys : Keys) : bsonGetProps (m.drop p) keys = bsonGetProps (fromParams m n p) keys := by
  obtain ⟨r, keys', hprops, -⟩ := hin keys
  rw [h.drop_eq, hprops]
  exact bsonGetProps_stable keys _ _ _ hprops

end

/-! ## The failing request -/

end OlivePiccolo.Rpc
