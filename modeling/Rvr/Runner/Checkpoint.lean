import Rvr.Lib.Bisect
import Rvr.Runner.Diff

/-!
# Comparison at checkpoints

`compare_checkpoint` of `rvr/src/test_support/diff/compare.rs`, and the program that
`rvr/src/test_support/diff/c_compare.rs` generates.  Both run two executions batch by batch, and
look for the instruction at which they part in the first batch that ends in different states.
-/

namespace Rvr

variable {X : Xlen} {n : RegCount} {size : MemSize}

/-! ## Runners -/

namespace Runner

/-- The exit code, if the runner has exited. -/
def exitStatus (r : Runner X n size) : Option (BitVec 8) :=
  if r.state.hasExited ≠ 0 then some r.state.exitCode else none

/-- Run a freshly loaded program up to an absolute instruction count. -/
def resetAndRunToInstret (debug : Bool) (lib : Library X n size) (target : U64)
    (r : Runner X n size) :
    Outcome Memory.Fault (Runner X n size) := do
  let r ← r.loadSegments debug
  let r := (r.reset.setupInitialRegs.setTargetInstret target).clearExit
  pure (r.executeFrom lib r.entryPoint)

end Runner

/-- The checks that a batch and a run from reset have in common.  `execute_from` is an error if the
exit code is not zero. -/
def runnersMatch (exitMatch : Bool) (a b : Runner X n size) : Bool :=
  a.state.regs = b.state.regs ∧
    (a.state.hasExited ≠ 0 ↔ b.state.hasExited ≠ 0) ∧
    exitMatch ∧
    (a.state.exitCode = 0 ∧ b.state.exitCode = 0 ∨
      (a.state.hasExited ≠ 0 ∧ b.state.hasExited ≠ 0) ∧ exitMatch) ∧
    (a.state.hasExited ≠ 0 ∨ a.getPc = b.getPc)

def checkpointMatch (targetInstret : U64) (a b : Runner X n size) : Bool :=
  a.state.instret = targetInstret ∧ b.state.instret = targetInstret ∧
    runnersMatch (a.state.exitCode = b.state.exitCode) a b

def divergenceKind (targetInstret : U64) (a b : Runner X n size) : DivergenceKind :=
  if a.getPc ≠ b.getPc then .pc
  else if a.state.regs ≠ b.state.regs then .regValue
  else if ¬ (a.state.hasExited ≠ 0 ↔ b.state.hasExited ≠ 0) ∨ a.state.exitCode ≠ b.state.exitCode
    then
    if a.state.hasExited ≠ 0 then .actualTail else .expectedTail
  else if a.state.instret ≠ targetInstret ∨ b.state.instret ≠ targetInstret then
    if a.state.instret < b.state.instret then .actualTail else .expectedTail
  else .pc

/-- Step the side with the lower program counter. -/
def alignPcs (ref test : Library X n size) :
    ℕ → Runner X n size × Runner X n size → Runner X n size × Runner X n size
  | 0, p => p
  | attempts + 1, (a, b) =>
    if a.getPc = b.getPc then (a, b)
    else if a.getPc < b.getPc then alignPcs ref test attempts (a.resume ref 1, b)
    else alignPcs ref test attempts (a, b.resume test 1)

/-- How the batches of `compare_checkpoint` end. -/
inductive Batches (X : Xlen) (n : RegCount) (size : MemSize)
  /-- At the limit, or with an exit. -/
  | agree (matched : ℕ)
  /-- With the first batch behind which the runners do not match. -/
  | differ (matched maxSteps : ℕ) (after : Runner X n size × Runner X n size)

/-- The loop of `compare_checkpoint` up to the first mismatch, for at most so many batches. -/
def runBatches (ref test : Library X n size) (checkpointInterval limit : ℕ) :
    ℕ → ℕ → Runner X n size × Runner X n size → Option (Batches X n size)
  | 0, _, _ => none
  | fuel + 1, matched, (a, b) =>
    if limit ≤ matched then some (.agree matched)
    else
      let batchSize := min (limit - matched) checkpointInterval
      let a' := a.resume ref (BitVec.ofNat 64 batchSize)
      let b' := b.resume test (BitVec.ofNat 64 batchSize)
      let refExecuted := (a'.state.instret - a.state.instret).toNat
      let testExecuted := (b'.state.instret - b.state.instret).toNat
      if refExecuted = testExecuted ∧ runnersMatch (a'.exitStatus = b'.exitStatus) a' b' then
        if a'.state.hasExited ≠ 0 ∨ b'.state.hasExited ≠ 0
          then some (.agree (matched + refExecuted))
        else runBatches ref test checkpointInterval limit fuel (matched + refExecuted) (a', b')
      else some (.differ matched (min (min refExecuted testExecuted) batchSize) (a', b'))

/-- Run both programs from reset. -/
def runToTarget (debug : Bool) (ref test : Library X n size) (target : ℕ)
    (p : Outcome Memory.Fault (Runner X n size × Runner X n size)) :
    Outcome Memory.Fault (Runner X n size × Runner X n size) := do
  let (a, b) ← p
  let a ← a.resetAndRunToInstret debug ref (BitVec.ofNat 64 target)
  let b ← b.resetAndRunToInstret debug test (BitVec.ofNat 64 target)
  pure (a, b)

/-- `(low + high).div_ceil(2)`. -/
def midSteps (low high : ℕ) : ℕ := ((low + high) % 2 ^ 64 + 1) / 2

/-- Whether the programs match when they are run from reset to `steps` behind the matched
batches. -/
def probeSteps (debug : Bool) (ref test : Library X n size) (matched steps : ℕ)
    (p : Outcome Memory.Fault (Runner X n size × Runner X n size)) :
    Bool × Outcome Memory.Fault (Runner X n size × Runner X n size) :=
  match runToTarget debug ref test (matched + steps) p with
  | .ok (a, b) => (checkpointMatch (BitVec.ofNat 64 (matched + steps)) a b, .ok (a, b))
  | failed => (false, failed)

/-- Find the exact divergence point via binary search. -/
def locate (debug : Bool) (ref test : Library X n size) (matched maxSteps : ℕ)
    (after : Runner X n size × Runner X n size) : Outcome Memory.Fault CompareResult := do
  let (low, p) :=
    Bisect.search midSteps (probeSteps debug ref test matched) maxSteps 0 maxSteps (.ok after)
  let (a, b) ← runToTarget debug ref test (matched + low + 1) p
  let snapshot (r : Runner X n size) : DiffState :=
    { pc := r.getPc, instret := r.state.instret, isExit := r.state.hasExited ≠ 0 }
  let kind := divergenceKind (BitVec.ofNat 64 (matched + low + 1)) a b
  pure ⟨matched + low, some ⟨matched + low, snapshot a, snapshot b, kind⟩⟩

/-- Fast checkpoint-based comparison. -/
def compareCheckpoint (debug : Bool) (ref test : Library X n size) (checkpointInterval : U64)
    (maxInstrs : Option U64) (fuel : ℕ) (a b : Runner X n size) :
    Option (Outcome Memory.Fault CompareResult) :=
  let limit := (maxInstrs.getD (BitVec.allOnes 64)).toNat
  (runBatches ref test checkpointInterval.toNat limit fuel 0 (alignPcs ref test 256 (a, b))).map fun
    | .agree matched => .ok ⟨matched, none⟩
    | .differ matched maxSteps after => locate debug ref test matched maxSteps after

/-! ## The generated program -/

namespace CCompare

/-- A backend handle. -/
structure Backend (X : Xlen) (n : RegCount) (size : MemSize) where
  executeFrom : Library X n size
  state : RvState X n
  memory : Memory size

namespace Backend

def compareStates (a b : Backend X n size) : Bool :=
  a.state.pc = b.state.pc ∧ a.state.regs = b.state.regs

/-- Set the target, if the backend suspends, and execute from where the backend is. -/
def resume (count : ℕ) (b : Backend X n size) : Backend X n size :=
  let suspender := b.state.suspender.map fun _ => b.state.instret + BitVec.ofNat 64 count
  let (state, memory) := b.executeFrom { b.state with suspender } b.memory (Xlen.toU64 b.state.pc)
  { b with state, memory }

/-- Run a backend for so many instructions. -/
def runBackend (kCheckpointInterval : U64) (b : Backend X n size) (numInstrs : ℕ) :
    Option (Backend X n size) :=
  if kCheckpointInterval = 0 then none else some (b.resume numInstrs)

/-- `(start + end + 1) / 2`. -/
def midPoint (start stop : ℕ) : ℕ := (start + stop + 1) % 2 ^ 64 / 2

/-- Resume both backends and compare. -/
def probe (count : ℕ) (p : Backend X n size × Backend X n size) :
    Bool × (Backend X n size × Backend X n size) :=
  let after := (p.1.resume count, p.2.resume count)
  (after.1.compareStates after.2, after)

/-- Find exact divergence using binary search, with at most so many probes. -/
def findDivergence (fuel start stop : ℕ) (a b : Backend X n size) : ℕ :=
  (Bisect.search midPoint probe fuel start stop (a, b)).1 + 1

end Backend

end CCompare

end Rvr
