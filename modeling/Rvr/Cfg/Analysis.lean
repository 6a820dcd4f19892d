import Rvr.Cfg.RegisterState
import Rvr.Cfg.Targets

/-!
# Control flow analysis

The second phase of `rvr-cfg/src/analysis/mod.rs`: the successors of an instruction in an abstract
register state, the transfer function, the worklist that propagates register states along the
successors, and the leaders and predecessors read off the result.

Three loops of the worklist run over hash sets.  The order in which a hash set is iterated is a
parameter of the model, `HashOrder`, and may be different every time.
-/

namespace Rvr

variable {X : Xlen}

/-- An iteration order: for the `n`-th iteration over a hash set, the elements of the set. -/
structure HashOrder where
  list : ℕ → Finset U64 → List U64
  mem_list : ∀ n s a, a ∈ list n s ↔ a ∈ s
  nodup_list : ∀ n s, (list n s).Nodup

/-- Iterate every set in ascending order. -/
def HashOrder.ascending : HashOrder where
  list _ s := SortedList.ofFinset s
  mem_list _ _ _ := SortedList.mem_ofFinset
  nodup_list _ := SortedList.nodup_ofFinset

/-- What the worklist knows about the program besides register states. -/
structure AnalysisContext (X : Xlen) extends Targets where
  table : InstructionTable X
  sortedFunctionEntries : List U64
  funcInternalTargets : AddrMap (Finset U64)
  callReturnMap : AddrMap (Finset U64)

/-! ## Successors -/

/-- `scan_jump_table_targets`: the addresses of the instructions after an indirect jump, up to the
first one that does not fall through. -/
def scanJumpTableLoop (t : InstructionTable X) : ℕ → U64 → Finset U64 → Finset U64
  | 0, _, targets => targets
  | count + 1, pc, targets =>
    if pc < t.endAddress then
      if !t.isValidPc pc then targets
      else
        let size := t.instructionSizeAtPc pc
        if size = 0 then targets
        else
          match t.getAtPc pc with
          | none => targets
          | some instr =>
            let targets := insert pc targets
            let d := DecodedInstruction.fromInstr instr
            if d.isReturn then targets
            else if d.kind = .jal ∧ d.rd = some 0 then
              t.insertValid (addSigned pc d.imm) targets
            else if d.isIndirectJump then targets
            else scanJumpTableLoop t count (nextAddr pc size) targets
    else targets

/-- `MAX_JUMP_TABLE_SCAN`. -/
def maxJumpTableScan : ℕ := 256

def scanJumpTableTargets (t : InstructionTable X) (startPc : U64) : Finset U64 :=
  scanJumpTableLoop t maxJumpTableScan startPc ∅

namespace AnalysisContext

variable (ctx : AnalysisContext X) (pc : U64) (size : ℕ) (d : DecodedInstruction)

/-- The known base values of a `jalr`. -/
def resolvedBase (d : DecodedInstruction) (state : RegisterState) : Option (List U64) :=
  match d.rs1 with
  | some rs1 =>
    let base := state.getRef rs1
    if base.isConstant ∧ base.values ≠ [] then some base.values else none
  | none => none

/-- Candidate targets of an unresolved tail or switch jump. -/
def indirectTargets : Finset U64 :=
  scanJumpTableTargets ctx.table (nextAddr pc size) ∪
    match binarySearchLe ctx.sortedFunctionEntries pc with
    | some funcStart => (ctx.funcInternalTargets.lookup funcStart).getD ∅
    | none => ∅

/-- The successors of a `jalr` whose base is unknown. -/
def unresolvedSuccessors : Finset U64 :=
  if d.isReturn then
    match binarySearchLe ctx.sortedFunctionEntries pc with
    | some funcStart => (ctx.callReturnMap.lookup funcStart).getD ctx.returnSites
    | none => ctx.returnSites
  else if d.isCall then insert (nextAddr pc size) ctx.functionEntries
  else if d.isIndirectJump then
    let found := ctx.indirectTargets pc size
    -- fall back to function entries for potential tail calls
    if found = ∅ then ctx.functionEntries else found
  else ∅

def getSuccessors (state : RegisterState) : Finset U64 :=
  match d.kind with
  | .jal =>
    let result := ctx.table.insertValid (addSigned pc d.imm) ∅
    if d.isCall then insert (nextAddr pc size) result else result
  | .jalr =>
    match resolvedBase d state with
    | some values =>
      let result := values.foldl
        (fun s v => ctx.table.insertValid (addSigned v d.imm &&& ~~~1) s) ∅
      if d.isCall then insert (nextAddr pc size) result else result
    | none => ctx.unresolvedSuccessors pc size d
  | .branch => ctx.table.insertValid (addSigned pc d.imm) {nextAddr pc size}
  | _ => {nextAddr pc size}

/-- Whether `get_successors` records the instruction in `unresolved_dynamic_jumps`. -/
def recordsUnresolved (state : RegisterState) : Bool :=
  d.isIndirectJump ∧ resolvedBase d state = none ∧ ctx.indirectTargets pc size = ∅

end AnalysisContext

/-! ## Transfer -/

/-- The sums of all values of a register and an immediate. -/
def addImmediate (base : RegisterValue) (imm : BitVec 32) : RegisterValue :=
  match base.values with
  | first :: rest =>
    rest.foldl (fun r v => r.addValue (addSigned v imm)) (.constant (addSigned first imm))
  | [] => .unknown

/-- The sums of all pairs of values of two registers; the first pair starts the set. -/
def addPairs (lhs rhs : RegisterValue) : RegisterValue :=
  match lhs.values, rhs.values with
  | l₀ :: _, r₀ :: _ =>
    lhs.values.foldl (fun acc l =>
      rhs.values.foldl (fun acc r => if l = l₀ ∧ r = r₀ then acc else acc.addValue (l + r)) acc)
      (.constant (l₀ + r₀))
  | _, _ => .unknown

/-- The value that a load finds in read-only memory.  Loads relative to the stack pointer are not
looked up, and of several bases only the first is. -/
def loadReadonly (t : InstructionTable X) (d : DecodedInstruction) (rs1 : ℕ)
    (base : RegisterValue) : Option U64 :=
  if rs1 ≠ 2 ∧ base.isConstant then
    match base.values with
    | first :: _ =>
      (t.readReadonly (addSigned first d.imm) d.loadWidthBytes).map fun raw =>
        extendLoadedValue raw d.loadWidthBytes d.isUnsigned
    | [] => none
  else none

/-- The abstract effect of an instruction on the registers. -/
def transfer (t : InstructionTable X) (pc : U64) (size : ℕ) (d : DecodedInstruction)
    (state : RegisterState) : RegisterState :=
  match d.kind with
  | .lui =>
    match d.rd with
    | some rd => state.setConstant rd (signExtendI32 d.imm)
    | none => state
  | .auipc =>
    match d.rd with
    | some rd => state.setConstant rd (addSigned pc d.imm)
    | none => state
  | .addi =>
    match d.rd, d.rs1 with
    | some rd, some rs1 =>
      let base := state.get rs1
      if base.isConstant then state.set rd (addImmediate base d.imm) else state.setUnknown rd
    | _, _ => state
  | .add =>
    match d.rd, d.rs1, d.rs2 with
    | some rd, some rs1, some rs2 =>
      let lhs := state.get rs1
      let rhs := state.get rs2
      if lhs.isConstant ∧ rhs.isConstant then state.set rd (addPairs lhs rhs)
      else state.setUnknown rd
    | _, _, _ => state
  | .move =>
    match d.rd, d.rs1 with
    | some rd, some rs1 => state.set rd (state.get rs1)
    | _, _ => state
  | .load =>
    match d.rd, d.rs1 with
    | some rd, some rs1 =>
      match loadReadonly t d rs1 (state.get rs1) with
      | some extended => state.setConstant rd extended
      | none => state.setUnknown rd
    | _, _ => state
  | .jal | .jalr =>
    match d.rd with
    | some rd => state.setConstant rd (nextAddr pc size)
    | none => state
  | .branch | .unknown =>
    match d.rd with
    | some rd => state.setUnknown rd
    | none => state

/-! ## The worklist -/

/-- The variables of the worklist loop. -/
structure WorklistState where
  states : AddrMap RegisterState
  worklist : List U64
  inWorklist : Finset U64
  successors : AddrMap (Finset U64)
  unresolvedDynamicJumps : Finset U64
  idx : ℕ

namespace WorklistState

def empty : WorklistState := ⟨∅, [], ∅, ∅, ∅, 0⟩

/-- Push an address unless it is already pending. -/
def push (w : WorklistState) (addr : U64) : WorklistState :=
  if addr ∈ w.inWorklist then w
  else { w with worklist := w.worklist ++ [addr], inWorklist := insert addr w.inWorklist }

/-- Start the analysis at an address. -/
def seed (w : WorklistState) (addr : U64) : WorklistState :=
  if addr ∈ w.inWorklist then w
  else { w.push addr with states := w.states.insert addr .new }

/-- Propagate the state after an instruction to one of its successors. -/
def propagate (stateOut : RegisterState) (w : WorklistState) (target : U64) : WorklistState :=
  match w.states.lookup target with
  | some existing =>
    let w' := { w with states := w.states.insert target (existing.merge stateOut) }
    if existing.mergeChanged stateOut then w'.push target else w'
  | none => { w with states := w.states.insert target stateOut }.push target

/-- Process an instruction with the current state of its address. -/
def visit (ctx : AnalysisContext X) (order : HashOrder) (w : WorklistState) (pc : U64)
    (instr : DecodedInstr X) (state : RegisterState) : WorklistState :=
  let size := ctx.table.instructionSizeAtPc pc
  let d := DecodedInstruction.fromInstr instr
  let succs := ctx.getSuccessors pc size d state
  let stateOut := transfer ctx.table pc size d state
  let w := (order.list (w.idx + 1) succs).foldl (propagate stateOut) w
  { w with
    successors := w.successors.extend pc succs
    unresolvedDynamicJumps :=
      if ctx.recordsUnresolved pc size d state then insert pc w.unresolvedDynamicJumps
      else w.unresolvedDynamicJumps }

/-- Take the next address off the worklist. -/
def pop (w : WorklistState) (pc : U64) : WorklistState :=
  { w with idx := w.idx + 1, inWorklist := w.inWorklist.erase pc }

/-- One round of the loop. -/
def step (ctx : AnalysisContext X) (order : HashOrder) (w : WorklistState) : WorklistState :=
  match w.worklist[w.idx]? with
  | none => w
  | some pc =>
    let w := w.pop pc
    match w.states.lookup pc with
    | none => w
    | some state =>
      if ctx.table.instructionSizeAtPc pc = 0 then w
      else
        match ctx.table.getAtPc pc with
        | none => w
        | some instr => w.visit ctx order pc instr state

/-- The loop.  Its counter grows in every round and is checked against the cap. -/
def loop (ctx : AnalysisContext X) (order : HashOrder) (maxIterations : ℕ) :
    ℕ → WorklistState → WorklistState
  | 0, w => w
  | fuel + 1, w =>
    if w.idx < w.worklist.length then
      if w.idx > maxIterations then w else loop ctx order maxIterations fuel (w.step ctx order)
    else w

end WorklistState

/-- The cap on the number of rounds: `MAX_ITERATIONS_MULTIPLIER` for every byte of code, saturating
at `usize::MAX`. -/
def InstructionTable.maxIterations (t : InstructionTable X) : ℕ :=
  min ((t.endAddress - t.baseAddress).toNat * 20) (2 ^ 64 - 1)

/-- The worklist before the first round. -/
def WorklistState.init (ctx : AnalysisContext X) (order : HashOrder) : WorklistState :=
  let w := (order.list 0 ctx.functionEntries).foldl seed .empty
  (order.list 1 ctx.internalTargets).foldl seed w

/-- The worklist when the loop has ended. -/
def worklistFinal (ctx : AnalysisContext X) (order : HashOrder) : WorklistState :=
  WorklistState.loop ctx order ctx.table.maxIterations (ctx.table.maxIterations + 2)
    (.init ctx order)

/-- `worklist`. -/
def worklist (ctx : AnalysisContext X) (order : HashOrder) :
    AddrMap (Finset U64) × Finset U64 :=
  ((worklistFinal ctx order).successors, (worklistFinal ctx order).unresolvedDynamicJumps)

/-! ## The result -/

/-- Targets, successors of control flow instructions and the addresses after them. -/
def computeLeaders (t : InstructionTable X) (successors : AddrMap (Finset U64))
    (targets : Targets) : Finset U64 :=
  successors.entries.foldl (fun leaders e =>
    let size := t.instructionSizeAtPc e.1
    if size = 0 then leaders
    else
      match t.getAtPc e.1 with
      | some instr =>
        if (DecodedInstruction.fromInstr instr).isControlFlow then
          t.insertValid (nextAddr e.1 size) (leaders ∪ e.2)
        else leaders
      | none => leaders)
    (targets.functionEntries ∪ targets.internalTargets ∪ targets.returnSites)

/-- The transpose of the successor map. -/
def buildPredecessors (successors : AddrMap (Finset U64)) : AddrMap (Finset U64) :=
  successors.entries.foldl (fun m e =>
    (SortedList.ofFinset e.2).foldl (fun m succ => AddrMap.extend m succ {e.1}) m) ∅

/-- Result of CFG discovery for one instruction table. -/
structure ControlFlowResult where
  successors : AddrMap (Finset U64)
  predecessors : AddrMap (Finset U64)
  unresolvedDynamicJumps : Finset U64
  leaders : Finset U64
  callReturnMap : AddrMap (Finset U64)
  blockToFunction : AddrMap U64

/-- The context that `analyze` builds for the worklist. -/
def analysisContext (t : InstructionTable X) : AnalysisContext X :=
  let targets := collectPotentialTargets t
  let sortedFunctionEntries := SortedList.ofFinset targets.functionEntries
  { targets with
    table := t
    sortedFunctionEntries := sortedFunctionEntries
    funcInternalTargets :=
      (SortedList.ofFinset targets.internalTargets).foldl (fun m target =>
        match binarySearchLe sortedFunctionEntries target with
        | some funcStart => m.extend funcStart {target}
        | none => m) ∅
    callReturnMap := buildCallReturnMap t }

/-- `ControlFlowAnalyzer::analyze`. -/
def analyze (t : InstructionTable X) (order : HashOrder) : ControlFlowResult :=
  let ctx := analysisContext t
  let found := worklist ctx order
  let leaders := computeLeaders t found.1 ctx.toTargets
  { successors := found.1
    predecessors := buildPredecessors found.1
    unresolvedDynamicJumps := found.2
    leaders := leaders
    callReturnMap := ctx.callReturnMap
    blockToFunction :=
      (SortedList.ofFinset leaders).foldl (fun m leader =>
        match binarySearchLe ctx.sortedFunctionEntries leader with
        | some func => m.insert leader func
        | none => m) ∅ }

end Rvr
