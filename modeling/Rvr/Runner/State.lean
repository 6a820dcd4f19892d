import Rvr.Elf.Image

/-!
# The state of a runner

`RvState` of `rvr-state/src/state.rs` with its tracers and suspender, and `GuardedMemory` of
`rvr-state/src/memory.rs`.  The layout of the state in memory is not looked at here.  The field
`memory` of the source, the host address of the guest memory, is left out: it is set when the runner
is created and always points to the runner's own memory.
-/

namespace Rvr

/-! ## Tracers -/

/-- Preflight tracer state - records execution for replay/proofs. -/
structure PreflightTracer where
  data : U64 := 0
  dataIdx : BitVec 32 := 0
  dataCapacity : BitVec 32 := 0
  pc : U64 := 0
  pcIdx : BitVec 32 := 0
  pcCapacity : BitVec 32 := 0
  deriving DecidableEq

/-- Debug tracer state - writes PCs to file for debugging. -/
structure DebugTracer where
  fp : U64 := 0
  pcs : U64 := 0
  deriving DecidableEq

/-- What the diff tracers record of an instruction. -/
structure DiffEntry (X : Xlen) where
  pc : X.Reg := 0
  opcode : BitVec 32 := 0
  rd : BitVec 8 := 0
  hasRd : BitVec 8 := 0
  hasMem : BitVec 8 := 0
  isWrite : BitVec 8 := 0
  rdValue : X.Reg := 0
  memAddr : X.Reg := 0
  memValue : X.Reg := 0
  memWidth : BitVec 8 := 0
  deriving DecidableEq

/-- Diff tracer state - captures single-instruction state for differential testing. -/
structure DiffTracer (X : Xlen) where
  current : DiffEntry X := {}
  valid : BitVec 8 := 0
  deriving DecidableEq

/-- Buffered diff tracer state - ring buffer of instruction entries. -/
structure BufferedDiffTracer (X : Xlen) where
  buffer : U64 := 0
  capacity : BitVec 32 := 0
  head : BitVec 32 := 0
  count : BitVec 32 := 0
  dropped : BitVec 32 := 0
  current : DiffEntry X := {}
  currentValid : BitVec 8 := 0
  deriving DecidableEq

/-- `PreflightTracer::setup`. -/
def PreflightTracer.setup (data : U64) (dataCapacity : BitVec 32) (pc : U64)
    (pcCapacity : BitVec 32) : PreflightTracer :=
  { data, dataIdx := 0, dataCapacity, pc, pcIdx := 0, pcCapacity }

/-- `BufferedDiffTracer::setup`, which keeps the current entry. -/
def BufferedDiffTracer.setup {X : Xlen} (t : BufferedDiffTracer X) (buffer : U64)
    (capacity : BitVec 32) : BufferedDiffTracer X :=
  { t with buffer, capacity, head := 0, count := 0, dropped := 0, currentValid := 0 }

/-- The tracer in a state; `none` is the zero-sized one. -/
inductive Tracer (X : Xlen)
  | none
  | preflight (t : PreflightTracer)
  | stats (addrBitmap : U64)
  | debug (t : DebugTracer)
  | diff (t : DiffTracer X)
  | bufferedDiff (t : BufferedDiffTracer X)
  deriving DecidableEq

/-! ## The machine state -/

/-- `NUM_REGS_I` and `NUM_REGS_E`. -/
inductive RegCount
  | i
  | e
  deriving DecidableEq

/-- The number of general-purpose registers. -/
def RegCount.count : RegCount → ℕ
  | i => 32
  | e => 16

/-- `NUM_CSRS`. -/
def numCsrs : ℕ := 4096

/-- RISC-V machine state.  The suspender is the target instret, if the state has one. -/
@[ext]
structure RvState (X : Xlen) (n : RegCount) where
  regs : Fin n.count → X.Reg
  pc : X.Reg
  instret : U64
  suspender : Option U64
  reservationAddr : X.Reg
  reservationValid : BitVec 8
  hasExited : BitVec 8
  exitCode : BitVec 8
  brk : X.Reg
  startBrk : X.Reg
  tracer : Tracer X
  csrs : Fin numCsrs → X.Reg

namespace RvState

variable {X : Xlen} {n : RegCount}

/-- A new zeroed state, for the given suspender and tracer. -/
def new (suspender : Option U64) (tracer : Tracer X) : RvState X n where
  regs := fun _ => 0
  pc := 0
  instret := 0
  suspender
  reservationAddr := 0
  reservationValid := 0
  hasExited := 0
  exitCode := 0
  brk := 0
  startBrk := 0
  tracer
  csrs := fun _ => 0

/-- Reset state to initial values. -/
def reset (s : RvState X n) : RvState X n :=
  { s with
    regs := fun _ => 0
    pc := 0
    instret := 0
    reservationAddr := 0
    reservationValid := 0
    hasExited := 0
    exitCode := 0 }

/-- Clear execution status and payload to allow further execution. -/
def clearExit (s : RvState X n) : RvState X n := { s with hasExited := 0, exitCode := 0 }

/-- Set a register value; `x0` is not written. -/
def setReg (s : RvState X n) (idx : ℕ) (val : X.Reg) : RvState X n :=
  { s with regs := fun i => if i.val = idx ∧ idx ≠ 0 then val else s.regs i }

end RvState

/-! ## Guest memory -/

/-- Guard page size. -/
def guardSize : ℕ := 2 ^ 14

/-- The sizes of guest memory that are not refused. -/
structure MemSize where
  val : ℕ
  pos : 0 < val
  lt : val + 2 * guardSize < 2 ^ 64

/-- The usable part of a `GuardedMemory`. -/
abbrev Memory (size : MemSize) := Fin size.val → BitVec 8

namespace Memory

variable {size : MemSize}

/-- How an access to guest memory goes wrong. -/
inductive Fault
  /-- Bytes outside guest memory are written. -/
  | writesOutside
  deriving DecidableEq

/-- Zero the entire memory region. -/
def clear (_ : Memory size) : Memory size := fun _ => 0

/-- The memory with the bytes of `data` at an offset. -/
def write (m : Memory size) (offset : ℕ) (data : List (BitVec 8)) : Memory size :=
  fun i => if offset ≤ i.val then (data[i.val - offset]?).getD (m i) else m i

/-- Copy data into memory at the given offset.  The bound is only a `debug_assert!`: without debug
assertions the bytes past the end are written all the same. -/
def copyFrom (debug : Bool) (m : Memory size) (offset : ℕ) (data : List (BitVec 8)) :
    Outcome Fault (Memory size) :=
  if offset + data.length ≤ size.val then .ok (m.write offset data)
  else if debug then .panic
  else .err .writesOutside

/-- `read_memory`: the bytes from an address on, up to the end of memory. -/
def read (m : Memory size) (addr len : ℕ) : List (BitVec 8) :=
  ((List.ofFn m).drop addr).take len

end Memory

end Rvr
