import OsSim.Readback
/-!
# Clearing — what `__free` clears of a region

The loop of `__free` runs from `rg_start` to the byte before `rg_end`, upwards.  It leaves out the last byte of a
stack region, and all of a heap region, whose `rg_start` is its highest byte.
-/
namespace OsSim

open Atomic Code

/-! ## Bytes by their addresses -/

section Free

variable {n ns : Nat} {v : Pid → Int} {m m' : Machine} {p : Pid} {regIndex : BitVec 32} {ret : Ret}

end Free

end OsSim
