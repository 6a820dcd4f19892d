import Rvr.Runner.Runner

/-!
# Differential testing and debugging

What `rvr/src/test_support/diff/` and `rvr/src/gdb/target.rs` do with runners: the states that are
compared, the executors that produce them, the lockstep comparison, and the stops of the debugger.
The messages and the transport of the debugger are left out.
-/

namespace Rvr

namespace Runner

variable {X : Xlen} {n : RegCount} {size : MemSize}

/-- Get the program counter. -/
def getPc (r : Runner X n size) : U64 := Xlen.toU64 r.state.pc

/-- Clear the exit flag to allow further execution. -/
def clearExit (r : Runner X n size) : Runner X n size := { r with state := r.state.clearExit }

/-- Execute so many more instructions from where the runner is. -/
def resume (lib : Library X n size) (count : U64) (r : Runner X n size) : Runner X n size :=
  (r.setTargetInstret (r.state.instret + count)).clearExit.executeFrom lib r.getPc

end Runner

/-! ## States and their comparison -/

/-- Effects observed for one instruction execution. -/
structure DiffState where
  pc : U64 := 0
  opcode : BitVec 32 := 0
  instret : U64 := 0
  rd : Option (BitVec 8) := none
  rdValue : Option U64 := none
  memAddr : Option U64 := none
  memValue : Option U64 := none
  memWidth : Option (BitVec 8) := none
  isWrite : Bool := false
  isExit : Bool := false
  deriving DecidableEq

/-- Kind of divergence between reference and test. -/
inductive DivergenceKind
  | pc | opcode | regDest | regValue | memAddr | memValue | missingRegWrite | extraRegWrite
  | missingMemAccess | extraMemAccess | expectedTail | actualTail
  deriving DecidableEq

/-- A divergence between reference and test execution. -/
structure Divergence where
  index : ℕ
  expected : DiffState
  actual : DiffState
  kind : DivergenceKind
  deriving DecidableEq

/-- Configuration for comparison. -/
structure CompareConfig where
  strictRegWrites : Bool := true
  strictMemAccess : Bool := false

/-- Result of a differential comparison run. -/
structure CompareResult where
  matched : ℕ
  divergence : Option Divergence
  deriving DecidableEq

/-- The comparison of two register writes, or of two memory accesses. -/
def compareAccess {α : Type} [DecidableEq α] (dest value missing extra : DivergenceKind) :
    Option α → Option α → Option U64 → Option U64 → Option DivergenceKind
  | some e, some a, some eVal, some aVal =>
    if e ≠ a then some dest else if eVal ≠ aVal then some value else none
  | some e, some a, _, _ => if e ≠ a then some dest else none
  | some _, none, _, _ => some missing
  | none, some _, _, _ => some extra
  | none, none, _, _ => none

/-- Compare two states and return the kind of divergence if any. -/
def compareStates (expected actual : DiffState) (config : CompareConfig) : Option DivergenceKind :=
  if expected.pc ≠ actual.pc then some .pc
  else if expected.opcode ≠ 0 ∧ actual.opcode ≠ 0 ∧ expected.opcode ≠ actual.opcode
    then some .opcode
  else
    (if config.strictRegWrites then
      compareAccess .regDest .regValue .missingRegWrite .extraRegWrite expected.rd actual.rd
        expected.rdValue actual.rdValue
    else none) <|>
    if config.strictMemAccess then
      compareAccess .memAddr .memValue .missingMemAccess .extraMemAccess expected.memAddr
        actual.memAddr expected.memValue actual.memValue
    else none

/-! ## Lockstep comparison -/

section Lockstep

/-- An executor: one step gives the next state, or none at the end. -/
abbrev Executor (σ : Type) := σ → Option DiffState × σ

variable {σ τ : Type}

/-- Initial alignment: step the side with the lower program counter. -/
def align (ref : Executor σ) (test : Executor τ) :
    ℕ → Option DiffState × σ → Option DiffState × τ →
      (Option DiffState × σ) × (Option DiffState × τ)
  | 0, a, b => (a, b)
  | attempts + 1, a, b =>
    match a.1, b.1 with
    | some refS, some testS =>
      if refS.pc = testS.pc then (a, b)
      else if refS.pc < testS.pc then align ref test attempts (ref a.2) b
      else align ref test attempts a (test b.2)
    | _, _ => (a, b)

/-- The loop of `compare_lockstep`, for at most so many rounds. -/
def lockstepLoop (ref : Executor σ) (test : Executor τ) (config : CompareConfig) (limit : ℕ) :
    ℕ → ℕ → σ → τ → Option CompareResult
  | 0, _, _, _ => none
  | fuel + 1, matched, a, b =>
    if limit ≤ matched then some ⟨matched, none⟩
    else
      let (a, b) := if matched = 0 then align ref test 256 (ref a) (test b) else (ref a, test b)
      match a.1, b.1 with
      | some refS, some testS =>
        match compareStates refS testS config with
        | some kind => some ⟨matched, some ⟨matched, refS, testS, kind⟩⟩
        | none =>
          if refS.isExit || testS.isExit then some ⟨matched + 1, none⟩
          else lockstepLoop ref test config limit fuel (matched + 1) a.2 b.2
      | some refS, none => some ⟨matched, some ⟨matched, refS, {}, .expectedTail⟩⟩
      | none, some testS => some ⟨matched, some ⟨matched, {}, testS, .actualTail⟩⟩
      | none, none => some ⟨matched, none⟩

/-- Run lockstep comparison between reference and test executors. -/
def compareLockstep (fuel : ℕ) (ref : Executor σ) (test : Executor τ) (config : CompareConfig)
    (maxInstrs : Option U64) (a : σ) (b : τ) : Option CompareResult :=
  lockstepLoop ref test config (maxInstrs.getD (BitVec.allOnes 64)).toNat fuel 0 a b

end Lockstep

/-! ## The in-process executor -/

namespace DiffEntry

variable {X : Xlen}

/-- The register write and the memory access of an entry, as they are put into a `DiffState`; writes
to `x0` are left out. -/
def effects (e : DiffEntry X) : DiffState :=
  let written := e.hasRd ≠ 0 ∧ e.rd ≠ 0
  { rd := if written then some e.rd else none
    rdValue := if written then some (Xlen.toU64 e.rdValue) else none
    memAddr := if e.hasMem ≠ 0 then some (Xlen.toU64 e.memAddr) else none
    memValue := if e.hasMem ≠ 0 then some (Xlen.toU64 e.memValue) else none
    memWidth := if e.hasMem ≠ 0 then some e.memWidth else none
    isWrite := e.hasMem ≠ 0 && e.isWrite ≠ 0 }

end DiffEntry

/-- In-process executor using compiled rvr code. -/
structure InProcessExecutor (X : Xlen) (n : RegCount) (size : MemSize) where
  runner : Runner X n size
  hasExited : Bool

namespace InProcessExecutor

variable {X : Xlen} {n : RegCount} {size : MemSize}

/-- What the diff tracer says of the last instruction; runners without one say nothing. -/
def traced (r : Runner X n size) : DiffState :=
  match r.state.tracer with
  | .diff t => { t.current.effects with opcode := if t.valid ≠ 0 then t.current.opcode else 0 }
  | _ => {}

def step (lib : Library X n size) : Executor (InProcessExecutor X n size) := fun e =>
  if e.hasExited then (none, e)
  else
    let pcBefore := e.runner.getPc
    let instretBefore := e.runner.state.instret
    let runner := e.runner.resume lib 1
    -- `execute_from` is an error if the exit code is not zero
    if runner.state.exitCode = 0 then
      let isExit := runner.state.exitCode ≠ 0
      (some { traced runner with pc := pcBefore, instret := instretBefore + 1, isExit },
        ⟨runner, isExit⟩)
    else if runner.state.exitCode = 0 then (none, ⟨runner, true⟩)
    else (some { pc := pcBefore, instret := instretBefore + 1, isExit := true }, ⟨runner, true⟩)

end InProcessExecutor

/-! ## The debugger -/

/-- Execution mode for the target. -/
inductive ExecMode
  | continue
  | step
  deriving DecidableEq

/-- Reason for stopping execution. -/
inductive StopReason
  | swBreakpoint
  | doneStep
  | exited (code : BitVec 8)
  deriving DecidableEq

/-- Core GDB target state shared between RV32 and RV64 implementations. -/
structure GdbTargetCore (X : Xlen) (n : RegCount) (size : MemSize) where
  runner : Runner X n size
  breakpoints : Finset U64
  execMode : ExecMode

namespace GdbTargetCore

variable {X : Xlen} {n : RegCount} {size : MemSize}

def shouldStop (t : GdbTargetCore X n size) : Bool := t.runner.getPc ∈ t.breakpoints

/-- Run to the next stop, with a library that supports suspension or one that does not. -/
def runUntilStop (lib : Library X n size) (supportsSuspend : Bool) (t : GdbTargetCore X n size) :
    StopReason × GdbTargetCore X n size :=
  if t.shouldStop then (.swBreakpoint, t)
  else match t.execMode with
    | .step =>
      if supportsSuspend then
        let target := t.runner.state.instret + 1
        let r := (t.runner.setTargetInstret target).executeFrom lib t.runner.getPc
        if r.state.exitCode = 0 ∧ target ≤ r.state.instret then
          (.doneStep, { t with runner := r.clearExit })
        else (.exited r.state.exitCode, { t with runner := r })
      else
        let r := t.runner.executeFrom lib t.runner.getPc
        (.exited r.state.exitCode, { t with runner := r })
    | .continue =>
      let r := if supportsSuspend then t.runner.setTargetInstret noTarget else t.runner
      let t := { t with runner := r.executeFrom lib r.getPc }
      (if t.shouldStop then .swBreakpoint else .exited t.runner.state.exitCode, t)

end GdbTargetCore

end Rvr
