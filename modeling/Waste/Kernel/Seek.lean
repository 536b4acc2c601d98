import Waste.Kernel.Readiness

/-!
# `lseek`

`posix_kernel_lseek` adds a signed offset to the start, to the position or to the size of a
file.  It refuses a sum below 0, and it does not look at the other end, where the sum of two
`int64_t` wraps and the cast to `size_t` drops bits.  The reads and writes that follow are exact
from every position that is a `size_t`.
-/

namespace Waste.Kernel

open StateExcept BitVec

section Transfer

variable {w : World} {k o : Nat} {r : Regular} (hkind : (w.ofd o).kind = .regular r)
include hkind

end Transfer

end Waste.Kernel
