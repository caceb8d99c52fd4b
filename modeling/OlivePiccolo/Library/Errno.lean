import Mathlib.Data.Int.Notation

/-!
# Error numbers

Those of `errno.h`, as calls return them.
-/

namespace OlivePiccolo

def ENOENT : ℤ := 2
def ESRCH : ℤ := 3
def EIO : ℤ := 5
def EBADF : ℤ := 9
def EAGAIN : ℤ := 11
def ENOMEM : ℤ := 12
def EACCES : ℤ := 13
def EFAULT : ℤ := 14
def EBUSY : ℤ := 16
def EEXIST : ℤ := 17
def ENODEV : ℤ := 19
def EINVAL : ℤ := 22
def EMFILE : ℤ := 24
def ENOSPC : ℤ := 28
def ETIMEDOUT : ℤ := 116
def ENOTSUP : ℤ := 134
def EILSEQ : ℤ := 138
def ECANCELED : ℤ := 140

end OlivePiccolo
