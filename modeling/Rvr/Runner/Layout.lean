import Rvr.Lib.Layout
import Rvr.Runner.State

/-!
# The layout of the machine state

`RvState` of `rvr-state/src/state.rs` is `repr(C)`.  Its tracer and suspender are zero-sized if it
has none.
-/

namespace Rvr

open Layout

/-- `X::Reg`. -/
def Xlen.regShape (X : Xlen) : Shape := scalar X.regBytes

/-- A pointer of the host, which has 64-bit addresses. -/
def pointer : Shape := scalar 8

/-- `InstretSuspender` or `()`. -/
def suspenderShape (hasSuspender : Bool) : Shape := if hasSuspender then scalar 8 else ⟨0, 1⟩

namespace RvState

/-- The fields of `RvState`, in order. -/
def fields (X : Xlen) (n : RegCount) (hasSuspender : Bool) (tracer : Shape) : List Shape :=
  [array X.regShape n.count,      -- regs
    X.regShape,                   -- pc
    scalar 8,                     -- instret
    suspenderShape hasSuspender,  -- suspender
    X.regShape,                   -- reservation_addr
    scalar 1,                     -- reservation_valid
    scalar 1,                     -- has_exited
    scalar 1,                     -- exit_code
    scalar 1,                     -- _pad0
    X.regShape,                   -- brk
    X.regShape,                   -- start_brk
    pointer,                      -- memory
    tracer,                       -- tracer
    array X.regShape numCsrs]     -- csrs

/-- The index of the tracer. -/
def tracerField : ℕ := 12

/-- `size_of::<RvState<..>>()`. -/
def sizeOf (X : Xlen) (n : RegCount) (hasSuspender : Bool) (tracer : Shape) : ℕ :=
  (struct (fields X n hasSuspender tracer)).size

/-- The offsets that the source's own tests expect. -/
example : offset (fields .rv64 .i false ⟨0, 1⟩) 13 = 312 ∧ sizeOf .rv64 .i false ⟨0, 1⟩ =
    33080 := by
  decide

example : offset (fields .rv32 .i false ⟨0, 1⟩) 2 = 136 := by
  decide

end RvState

end Rvr
