import Rvr.Emit.Dispatch

/-!
# Address translation

What each address mode promises about a guest access (`AddressMode` in `rvr-emit/src/config.rs`):
the host index at which guest memory is accessed, or a trap.
-/

namespace Rvr

/-- Where a guest access ends: at an index from the base of guest memory, in the trap handler, or at
no place the text defines, because the assembler rejects it or its behaviour is undefined. -/
inductive Access
  | index (i : ℤ)
  | trap
  | rejected
  | undefined
  deriving DecidableEq

/-- The access that a mode promises for a guest address. -/
def AddressMode.translate {X : Xlen} (mode : AddressMode) (memoryBits : ℕ) (addr : X.Reg) :
    Access :=
  match mode with
  | .unchecked => .index addr.toNat
  | .wrap => .index (addr.toNat % 2 ^ memoryBits : ℕ)
  | .bounds => if addr.toNat < 2 ^ memoryBits then .index addr.toNat else .trap

end Rvr
