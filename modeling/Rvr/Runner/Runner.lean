import Rvr.Emit.Emitter
import Rvr.Runner.Layout

/-!
# Runners

The runner implementations of `rvr/src/runner/` and the parts of `Runner` that create, reset and
execute them.  The implementations share most of their code, so they are one type here, `Runner`,
whose kind says which one it is; where they differ (`new`, `reset`) there is a case for each.  A
compiled library is a function of the state, the guest memory and the start address.  Times and
speeds of a run are left out of its result.
-/

namespace Rvr

/-! ## Creating runners -/

/-- Tracer kind matches `RV_TRACER_KIND` in generated C code. -/
inductive TracerKind
  | none
  | preflight
  | stats
  | ffi
  | dynamic
  | debug
  | spike
  | diff
  | bufferedDiff
  deriving DecidableEq

/-- True if the mode supports suspension. -/
def InstretMode.isSuspend : InstretMode → Bool
  | suspend | perInstruction => true
  | off | count => false

/-- The runner implementations, with the host addresses of the buffers they own. -/
inductive RunnerKind
  | typed
  | suspend
  | preflight (dataBuffer pcBuffer : U64)
  | stats (addrBitmap : U64)
  | debug
  | diff
  | bufferedDiff (buffer : U64)
  | fixedAddr
  deriving DecidableEq

/-- `PREFLIGHT_DATA_BYTES`. -/
def preflightDataBytes : BitVec 32 := 0x100000

/-- `PREFLIGHT_PC_ENTRIES`. -/
def preflightPcEntries : BitVec 32 := 0x1000000

/-- `DEFAULT_BUFFER_CAPACITY`. -/
def defaultBufferCapacity : BitVec 32 := 4096

/-- The target of a disabled suspender, `u64::MAX`. -/
def noTarget : U64 := BitVec.allOnes 64

namespace RunnerKind

variable {X : Xlen}

/-- The suspender of a new or reset state. -/
def suspender : RunnerKind → Option U64
  | suspend | diff | bufferedDiff _ => some noTarget
  | typed | preflight _ _ | stats _ | debug | fixedAddr => none

/-- The tracer of a new state. -/
def newTracer : RunnerKind → Tracer X
  | preflight _ _ => .preflight {}
  | stats _ => .stats 0
  | debug => .debug {}
  | diff => .diff {}
  | bufferedDiff buffer => .bufferedDiff (BufferedDiffTracer.setup {} buffer defaultBufferCapacity)
  | typed | suspend | fixedAddr => .none

/-- What `reset` does to the tracer. -/
def resetTracer (kind : RunnerKind) (t : Tracer X) : Tracer X :=
  match kind, t with
  | preflight data pc, _ =>
    .preflight (PreflightTracer.setup data preflightDataBytes pc preflightPcEntries)
  | stats addrBitmap, _ => .stats addrBitmap
  | debug, _ => .debug {}
  | bufferedDiff buffer, .bufferedDiff t => .bufferedDiff (t.setup buffer defaultBufferCapacity)
  | _, t => t

end RunnerKind

/-- A runner: its state, its guest memory and the image it runs. -/
structure Runner (X : Xlen) (n : RegCount) (size : MemSize) where
  kind : RunnerKind
  state : RvState X n
  memory : Memory size
  elfImage : ElfImage X

namespace Runner

variable {X : Xlen} {n : RegCount} {size : MemSize}

def new (kind : RunnerKind) (elfImage : ElfImage X) (memory : Memory size) : Runner X n size where
  kind
  state := { RvState.new kind.suspender kind.newTracer with
    brk := elfImage.getInitialProgramBreak
    startBrk := elfImage.getInitialProgramBreak }
  memory
  elfImage

end Runner

/-- A `Box<dyn RunnerImpl>`. -/
structure BoxedRunner where
  {X : Xlen}
  {n : RegCount}
  {size : MemSize}
  runner : Runner X n size

/-- Fixed address configuration loaded from library. -/
structure FixedAddresses where
  stateAddr : U64
  memoryAddr : U64

/-- What a library says about itself. -/
structure RvApi where
  tracerKind : TracerKind
  instretMode : InstretMode
  fixedAddresses : Option FixedAddresses

/-- Memory allocation error. -/
inductive MemoryError
  | mmapFailed
  | invalidSize (size : ℕ)
  | fixedAddressUnavailable (addr : U64)
  deriving DecidableEq

/-- The errors of creating a runner. -/
inductive RunError
  | memory (e : MemoryError)
  | elf (e : Elf.ElfError)
  deriving DecidableEq

/-- What the host makes of a request for memory at a fixed address. -/
inductive MmapResult
  | mapped
  | taken
  | failed
  deriving DecidableEq

/-- What the host decides: whether memory is mapped, what it holds, and where buffers are. -/
structure Host where
  mmap : ℕ → Bool
  mmapFixed : U64 → ℕ → MmapResult
  fresh : (size : MemSize) → Memory size
  dataBuffer : U64
  pcBuffer : U64
  addrBitmap : U64
  diffBuffer : U64

namespace GuardedMemory

/-- Check the size of a memory region, with its two guards. -/
def checkSize (memorySize : ℕ) : Outcome RunError MemSize :=
  if hpos : 0 < memorySize then
    if hlt : memorySize + 2 * guardSize < 2 ^ 64 then .ok ⟨memorySize, hpos, hlt⟩
    else .err (.memory (.invalidSize memorySize))
  else .err (.memory (.invalidSize memorySize))

/-- Allocate a new guarded memory region. -/
def new (host : Host) (memorySize : ℕ) : Outcome RunError MemSize := do
  let size ← checkSize memorySize
  if host.mmap (memorySize + 2 * guardSize) then pure size else .err (.memory .mmapFailed)

/-- Map memory at a fixed address that is not already taken. -/
def mapFixed (host : Host) (fixedAddr regionStart : U64) (totalSize : ℕ) : Outcome RunError Unit :=
  match host.mmapFixed regionStart totalSize with
  | .mapped => .ok ()
  | .taken => .err (.memory (.fixedAddressUnavailable fixedAddr))
  | .failed => .err (.memory .mmapFailed)

/-- Allocate memory at a specific fixed address. -/
def newAtFixed (host : Host) (fixedAddr : U64) (memorySize : ℕ) : Outcome RunError MemSize := do
  let size ← checkSize memorySize
  -- `saturating_sub` gives zero up to the guard size
  if fixedAddr.toNat ≤ guardSize then .err (.memory (.invalidSize memorySize))
  else do
    let () ← mapFixed host fixedAddr (fixedAddr - BitVec.ofNat 64 guardSize)
      (memorySize + 2 * guardSize)
    pure size

end GuardedMemory

/-- The number of registers an image is for. -/
def ElfImage.regCount {X : Xlen} (image : ElfImage X) : RegCount := if image.isRve then .e else .i

/-- The implementation for a library without fixed addresses. -/
def RvApi.kind (api : RvApi) (host : Host) : RunnerKind :=
  match api.tracerKind with
  | .preflight => .preflight host.dataBuffer host.pcBuffer
  | .stats => .stats host.addrBitmap
  | .debug => .debug
  | .diff => .diff
  | .bufferedDiff => .bufferedDiff host.diffBuffer
  | .none | .ffi | .dynamic | .spike => if api.instretMode.isSuspend then .suspend else .typed

/-- `create_rv32_runner` and `create_rv64_runner`. -/
def createTypedRunner (X : Xlen) (host : Host) (kind : RunnerKind) (elfData : Slice)
    (size : MemSize) : Outcome RunError BoxedRunner := do
  let image ← (ElfImage.parse X elfData).mapErr .elf
  pure ⟨(Runner.new kind image (host.fresh size) : Runner X image.regCount size)⟩

/-- Create runner implementation based on architecture, tracer, and instret mode. -/
def createRunnerImpl (host : Host) (api : RvApi) (elfData : Slice) (memorySize : ℕ) :
    Outcome RunError BoxedRunner := do
  let memory ← GuardedMemory.new host memorySize
  let xlen ← (ElfFile.getElfXlen elfData).mapErr .elf
  if xlen = 32 then createTypedRunner .rv32 host (api.kind host) elfData memory
  else createTypedRunner .rv64 host (api.kind host) elfData memory

/-- `FixedMemory::new`. -/
def newFixedMemory (host : Host) (fixedAddr : U64) (size : ℕ) : Outcome RunError Unit :=
  if size = 0 ∨ fixedAddr = 0 then .err (.memory (.invalidSize size))
  else GuardedMemory.mapFixed host fixedAddr fixedAddr size

/-- `FixedAddrRunner::new`; the state goes to its own fixed address first. -/
def newFixedAddrRunner {X : Xlen} (host : Host) (fixed : FixedAddresses) (image : ElfImage X)
    (memorySize : ℕ) : Outcome RunError BoxedRunner := do
  let () ← newFixedMemory host fixed.stateAddr (RvState.sizeOf X image.regCount false ⟨0, 1⟩)
  let memory ← GuardedMemory.newAtFixed host fixed.memoryAddr memorySize
  pure ⟨(Runner.new .fixedAddr image (host.fresh memory) : Runner X image.regCount memory)⟩

/-- Create runner implementation with fixed addresses for state and memory. -/
def createFixedAddrRunner (host : Host) (fixed : FixedAddresses) (elfData : Slice)
    (memorySize : ℕ) : Outcome RunError BoxedRunner := do
  let xlen ← (ElfFile.getElfXlen elfData).mapErr .elf
  if xlen = 32 then do
    let image ← (ElfImage.parse .rv32 elfData).mapErr .elf
    newFixedAddrRunner host fixed image memorySize
  else do
    let image ← (ElfImage.parse .rv64 elfData).mapErr .elf
    newFixedAddrRunner host fixed image memorySize

/-- `Runner::load_with_memory`, for a library and an ELF file that were found. -/
def loadWithMemory (host : Host) (api : RvApi) (elfData : Slice) (memorySize : ℕ) :
    Outcome RunError BoxedRunner :=
  match api.fixedAddresses with
  | some fixed => createFixedAddrRunner host fixed elfData memorySize
  | none => createRunnerImpl host api elfData memorySize

/-! ## Running -/

/-- A compiled library: `rv_execute_from`. -/
abbrev Library (X : Xlen) (n : RegCount) (size : MemSize) :=
  RvState X n → Memory size → U64 → RvState X n × Memory size

/-- Execution result. -/
structure RunResult where
  exitCode : BitVec 8
  instret : U64
  deriving DecidableEq

namespace Runner

variable {X : Xlen} {n : RegCount} {size : MemSize}

/-- Copy the segments, one after the other, into memory. -/
def copySegments (debug : Bool) (memory : Memory size) :
    List (MemorySegment X) → Outcome Memory.Fault (Memory size)
  | [] => .ok memory
  | seg :: rest => do
    let memory ← memory.copyFrom debug (Xlen.toU64 seg.virtualStart).toNat seg.data
    copySegments debug memory rest

/-- Load ELF segments into memory. -/
def loadSegments (debug : Bool) (r : Runner X n size) : Outcome Memory.Fault (Runner X n size) := do
  let memory ← copySegments debug r.memory.clear r.elfImage.memorySegments
  pure { r with memory }

/-- Reset state to initial values.  The fixed-address runner has its own way of doing so. -/
def reset (r : Runner X n size) : Runner X n size :=
  match r.kind with
  | .fixedAddr => { r with state := { r.state.clearExit with instret := 0, regs := fun _ => 0 } }
  | kind =>
    { r with state := { r.state.reset with
        suspender := kind.suspender
        tracer := kind.resetTracer r.state.tracer } }

/-- Set a register value. -/
def setRegister (r : Runner X n size) (reg : ℕ) (value : U64) : Runner X n size :=
  { r with state := r.state.setReg reg (X.fromU64 value) }

/-- Get the target instret for suspension. -/
def getTargetInstret (r : Runner X n size) : Option U64 := r.state.suspender

/-- Set the target instret for suspension, if there is one. -/
def setTargetInstret (r : Runner X n size) (target : U64) : Runner X n size :=
  { r with state := { r.state with suspender := r.state.suspender.map fun _ => target } }

/-- Set a register to the address of a symbol, if the image has it. -/
def setFromSymbol (r : Runner X n size) (reg : ℕ) (name : String) : Runner X n size :=
  match r.elfImage.lookupSymbol name with
  | some value => r.setRegister reg value
  | none => r

/-- Global pointer, stack pointer and return address. -/
def setupInitialRegs (r : Runner X n size) : Runner X n size :=
  ((r.setFromSymbol REG_GP "__global_pointer$").setFromSymbol REG_SP "__stack_top").setRegister
    REG_RA 0

/-- Call the library. -/
def executeFrom (lib : Library X n size) (r : Runner X n size) (pc : U64) : Runner X n size :=
  let (state, memory) := lib r.state r.memory pc
  { r with state, memory }

/-- The result that is read off a runner after execution. -/
def result (r : Runner X n size) : RunResult := ⟨r.state.exitCode, r.state.instret⟩

/-- Get entry point from ELF. -/
def entryPoint (r : Runner X n size) : U64 := Xlen.toU64 r.elfImage.entryPoint

/-- Restore a saved target, unless it was disabled. -/
def restoreTarget (r : Runner X n size) (saved : Option U64) : Runner X n size :=
  match saved with
  | some target => if target ≠ noTarget then r.setTargetInstret target else r
  | none => r

/-- Run the program and return the result. -/
def run (debug : Bool) (lib : Library X n size) (r : Runner X n size) :
    Outcome Memory.Fault (RunResult × Runner X n size) := do
  let savedTarget := r.getTargetInstret
  let r ← r.loadSegments debug
  let r := (r.reset.setupInitialRegs.restoreTarget savedTarget)
  let r := r.executeFrom lib r.entryPoint
  pure (r.result, r)

/-- One round of `run_multiple`. -/
def runOnce (debug : Bool) (lib : Library X n size) (r : Runner X n size) :
    Outcome Memory.Fault (RunResult × Runner X n size) := do
  let r ← r.loadSegments debug
  let r := r.reset
  let r := r.executeFrom lib r.entryPoint
  pure (r.result, r)

/-- Run multiple times. -/
def runMultiple (debug : Bool) (lib : Library X n size) :
    ℕ → Runner X n size → Outcome Memory.Fault (List RunResult × Runner X n size)
  | 0, r => .ok ([], r)
  | count + 1, r => do
    let (result, r) ← r.runOnce debug lib
    let (results, r) ← runMultiple debug lib count r
    pure (result :: results, r)

end Runner

end Rvr
