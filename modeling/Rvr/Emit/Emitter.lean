import Rvr.Emit.Function

/-!
# The C emitter

`CEmitter` of `rvr-emit/src/c/emitter` and the loop over blocks of `CProject::write_partition`, with
the emitted text as a tree of statements.  The state of the emitter is the instruction that is being
rendered and `instr_idx`, the number of instructions rendered before it in the function.  Saving the
registers that are passed as parameters is left out of `save_to_state`.
-/

namespace Rvr

/-- Instruction retirement counting mode. -/
inductive InstretMode
  | off | count | suspend | perInstruction
  deriving DecidableEq, Repr

namespace InstretMode

def counts (m : InstretMode) : Bool := m ≠ .off

def suspends (m : InstretMode) : Bool := m = .suspend ∨ m = .perInstruction

def isPerInstruction (m : InstretMode) : Bool := m = .perInstruction

end InstretMode

/-- The parts of the configuration that the emitter looks at. -/
structure EmitConfig where
  instretMode : InstretMode
  hasTracing : Bool
  htifEnabled : Bool

/-- The emitter: what it was created with, the instruction being rendered and `instr_idx`. -/
structure CEmitter (X : Xlen) where
  config : EmitConfig
  inputs : EmitInputs
  current : InstrIR X
  instrIdx : ℕ

namespace CEmitter

variable {X : Xlen} (em : CEmitter X)

def currentPc : U64 := Xlen.toU64 em.current.pc

/-- `save_to_state`. -/
def saveToState : List (CStmt X) :=
  if em.config.instretMode.counts then [.saveInstret 0] else []

/-! ## Statements -/

/-- `render_mem_write_tohost`. -/
def renderMemWriteTohost (base : Expr X) (offset : BitVec 16) (value : Expr X) (width : ℕ) :
    List (CStmt X) :=
  [.ite (.isTohost base offset)
    [.tohost value,
      .ite .hasExited
        ([.setPc (.const em.currentPc)] ++
          (if em.config.instretMode.counts then [.addInstret (em.instrIdx + 1)] else []) ++
          em.saveToState ++ [.ret]) []]
    [.write (.mem base offset width) value]]

/-- `render_write_stmt`. -/
def renderWriteStmt (target : WriteTarget X) (value : Expr X) : List (CStmt X) :=
  match target with
  | .reg reg => if reg = 0 then [] else [.write (.reg reg) value]
  | .mem base offset width =>
    if em.config.htifEnabled ∧ (width = 4 ∨ width = 8) then
      em.renderMemWriteTohost base offset value width
    else [.write (.mem base offset width) value]
  | .temp idx => [.declTemp idx value]
  | target => [.write target value]

mutual

/-- `render_stmt`. -/
def renderStmt : Stmt X → List (CStmt X)
  | .write target value => em.renderWriteStmt target value
  | .ite cond thenStmts elseStmts =>
    [.ite (.expr cond) (renderStmts thenStmts) (renderStmts elseStmts)]
  | .externCall fnName args => [.call fnName args]

/-- The statements of an instruction in order. -/
def renderStmts : List (Stmt X) → List (CStmt X)
  | [] => []
  | st :: sts => renderStmt st ++ renderStmts sts

end

/-! ## Leaving the function -/

/-- `render_instret_check_impl` and its variant for computed targets. -/
def renderInstretCheck (target : CTarget X) : List (CStmt X) :=
  if em.config.instretMode.suspends then
    [.ite .limitReached ([.setPc target] ++ em.saveToState ++ [.ret]) []]
  else []

/-- `render_exit_check`. -/
def renderExitCheck : List (CStmt X) :=
  [.ite .hasExited ([.setPc (.const em.currentPc)] ++ em.saveToState ++ [.ret]) []]

/-- Leave with an exit code and a pc. -/
def renderExitAt (code : Expr X) (pc : U64) : List (CStmt X) :=
  [.setExited, .setExitCode code, .setPc (.const pc)] ++ em.saveToState ++ [.ret]

/-- `render_exit_impl`. -/
def renderExit (code : Expr X) : List (CStmt X) := em.renderExitAt code em.currentPc

/-- The exit code of traps and of jumps to addresses without a block. -/
def trapCode : Expr X := .imm (X.fromU64 1)

/-- `render_jump_static_impl`. -/
def renderJumpStatic (target : U64) : List (CStmt X) :=
  em.renderInstretCheck (.const target) ++
    if em.inputs.isValidAddress target then [.tailCall (em.inputs.resolveAddress target)]
    else em.renderExit trapCode

/-- `render_jump_dynamic_impl`. -/
def renderJumpDynamic (target : CTarget X) : List (CStmt X) :=
  em.renderInstretCheck target ++ [.tailDispatch target]

/-- One of the known targets of an indirect jump.  The function called is that of the target itself,
not of the block that absorbed it. -/
def renderResolvedTarget (varName : CTarget X) (target : U64) :
    List (CStmt X) :=
  if em.inputs.isValidAddress target then
    [.ite (.targetIs varName target)
      ((if em.config.instretMode.isPerInstruction then em.renderInstretCheck (.const target)
        else []) ++ [.tailCall target]) []]
  else []

/-- `render_jump_resolved_impl`. -/
def renderJumpResolved (targets : List U64) (fallback : Expr X) : List (CStmt X) :=
  match targets with
  | [] => em.renderJumpDynamic (.expr fallback)
  | [target] =>
    em.renderResolvedTarget (.expr fallback) target ++ em.renderJumpDynamic (.expr fallback)
  | targets =>
    [.declTarget fallback] ++ targets.flatMap (em.renderResolvedTarget .var) ++
      em.renderJumpDynamic .var

/-- One way out of `render_branch`: the suspension check comes only with a valid target. -/
def renderBranchTarget (target : U64) : List (CStmt X) :=
  if em.inputs.isValidAddress target then
    em.renderInstretCheck (.const target) ++ [.tailCall (em.inputs.resolveAddress target)]
  else em.renderExitAt trapCode target

def renderTraceBranch (hook : String) (target : U64) : List (CStmt X) :=
  if em.config.hasTracing then
    [.trace hook [em.currentPc, BitVec.ofNat 64 em.current.op, target]]
  else []

/-- `render_branch`. -/
def renderBranch (cond : Expr X) (target fallPc : U64) : List (CStmt X) :=
  [.ite (.expr cond)
    (em.renderTraceBranch "trace_branch_taken" target ++ em.renderBranchTarget target) []] ++
    em.renderTraceBranch "trace_branch_not_taken" fallPc ++ em.renderBranchTarget fallPc

/-- `render_branch_simple`: no tracing, no counting and no fall-through. -/
def renderBranchSimple (cond : Expr X) (target : U64) : List (CStmt X) :=
  [.ite (.expr cond)
    (if em.inputs.isValidAddress target then [.tailCall (em.inputs.resolveAddress target)]
      else em.renderExitAt trapCode target) []]

/-- `render_side_exit_impl`: a branch that is not the last instruction of its block. -/
def renderSideExit (cond : Expr X) (target : U64) : List (CStmt X) :=
  let counts := em.config.instretMode.counts
  [.ite (.expr cond)
    (if em.inputs.isValidAddress target then
      (if counts then [.addInstret em.instrIdx] else []) ++
        [.tailCall (em.inputs.resolveAddress target)]
    else
      [.setExited, .setExitCode trapCode, .setPc (.const target)] ++
        (if counts then [.saveInstret em.instrIdx] else []) ++ [.ret]) []]

/-- `render_terminator`, and `render_terminator_simple` for inlined blocks. -/
def renderTerminator (simple : Bool) (fallPc : U64) (term : Terminator X) : List (CStmt X) :=
  match term with
  | .fall target => em.renderJumpStatic ((target.map Xlen.toU64).getD fallPc)
  | .jump target => em.renderJumpStatic (Xlen.toU64 target)
  | .jumpDyn addr (some targets) => em.renderJumpResolved (targets.map Xlen.toU64) addr
  | .jumpDyn addr none => em.renderJumpDynamic (.expr addr)
  | .branch cond target fall _ =>
    if simple then em.renderBranchSimple cond (Xlen.toU64 target)
    else em.renderBranch cond (Xlen.toU64 target) ((fall.map Xlen.toU64).getD fallPc)
  | .exit code => em.renderExit code
  | .trap _ => em.renderExit trapCode

/-! ## Instructions and blocks -/

/-- `emit_trace_pc`. -/
def renderTracePc : List (CStmt X) :=
  if em.config.hasTracing then
    let op := BitVec.ofNat 64 em.current.op
    [.trace "trace_pc" [em.currentPc, op],
      .trace "trace_opcode" [em.currentPc, op, em.current.raw.setWidth 64]]
  else []

/-- What `render_instruction_impl` writes after the statements, once `instr_idx` has been
advanced. -/
def renderInstructionEnd (isLast : Bool) (fallPc : U64) (nextInstrPc : Option U64) (simple : Bool) :
    List (CStmt X) :=
  let mode := em.config.instretMode
  let ir := em.current
  (if mode.isPerInstruction then
    [.addInstret 1] ++
      (if isLast then []
       else em.renderInstretCheck (.const
        (nextInstrPc.getD (Xlen.toU64 ir.pc + BitVec.ofNat 64 ir.size))))
  else []) ++
  if isLast then
    (if mode.counts && !mode.isPerInstruction then [.addInstret em.instrIdx] else []) ++
      em.renderTerminator simple fallPc ir.terminator
  else
    match ir.terminator with
    | .branch cond target _ _ => em.renderSideExit cond (Xlen.toU64 target)
    | _ => []

/-- `render_instruction_impl`. -/
def renderInstruction (ir : InstrIR X) (isLast : Bool) (fallPc : U64) (nextInstrPc : Option U64)
    (simple : Bool) : List (CStmt X) :=
  let em := { em with current := ir }
  [.begin ir] ++ em.renderTracePc ++ em.renderStmts ir.statements ++
    (if Stmt.statementsWriteExit ir.statements then em.renderExitCheck else []) ++
    CEmitter.renderInstructionEnd { em with instrIdx := em.instrIdx + 1 } isLast fallPc nextInstrPc
      simple

/-- The emitter after `render_instruction_impl`. -/
def next (ir : InstrIR X) : CEmitter X := { em with current := ir, instrIdx := em.instrIdx + 1 }

/-- The instructions of a block in order; the last one is rendered by a function of its own.  The
texts of the instructions are kept apart. -/
def renderInstructions (fallPc : U64) (simple : Bool)
    (last : CEmitter X → InstrIR X → List (CStmt X)) :
    CEmitter X → List (InstrIR X) → List (List (CStmt X))
  | _, [] => []
  | em, [ir] => [last em ir]
  | em, ir :: nextIr :: rest =>
    em.renderInstruction ir false fallPc (some (Xlen.toU64 nextIr.pc)) simple ::
      renderInstructions fallPc simple last (em.next ir) (nextIr :: rest)

/-- The instructions of a block whose last one is rendered like the others. -/
def renderAll (fallPc : U64) (simple : Bool) (instrs : List (InstrIR X)) : List (List (CStmt X)) :=
  renderInstructions fallPc simple
    (fun em ir => em.renderInstruction ir true fallPc none simple) em instrs

/-- `CEmitter::new`, or an emitter after `reset`. -/
def new (config : EmitConfig) (inputs : EmitInputs) : CEmitter X where
  config := config
  inputs := inputs
  current := ⟨0, 0, 0, 0, [], .fall none⟩
  instrIdx := 0

/-- A branch whose target block is inlined: the statements of the branch, the target block under the
condition, and a jump to the end of the block.  The emitter is not told of the branch, so
`instr_idx` and the current pc are those of the instruction before it. -/
def renderTakenInline (endPc : U64) (cond : Expr X) (inlined : Option (BlockIR X))
    (ir : InstrIR X) :
    List (CStmt X) :=
  let instrs := (inlined.map (·.instructions)).getD []
  let inlineEnd := (inlined.map fun b => Xlen.toU64 b.endPc).getD 0
  let after := { em with current := instrs.getLast?.getD em.current }
  [.begin ir] ++ CEmitter.renderTracePc { em with current := ir } ++ em.renderStmts ir.statements ++
    [.ite (.expr cond) (em.renderAll inlineEnd true instrs).flatten []] ++
    after.renderJumpStatic endPc

end CEmitter

/-- What the C project is built from besides the blocks. -/
structure CProject where
  config : EmitConfig
  inputs : EmitInputs
  takenInlines : AddrMap (U64 × U64)

namespace CProject

variable {X : Xlen} (project : CProject)

/-- The condition and the start of the inlined block, if the last instruction of a block is a branch
with an inline entry. -/
def takenInline (ir : InstrIR X) : Option (Expr X × U64) :=
  match ir.terminator with
  | .branch cond _ _ _ =>
    (project.takenInlines.lookup (Xlen.toU64 ir.pc)).map fun entry => (cond, entry.1)
  | _ => none

/-- The last instruction of a block in `write_partition`. -/
def renderLast (blockMap : U64 → Option (BlockIR X)) (endPc : U64) (em : CEmitter X)
    (ir : InstrIR X) : List (CStmt X) :=
  match project.takenInline ir with
  | some (cond, start) => em.renderTakenInline endPc cond (blockMap start) ir
  | none => em.renderInstruction ir true endPc none false

/-- The body of the function that `write_partition` writes for a block. -/
def blockFunction (blockMap : U64 → Option (BlockIR X)) (block : BlockIR X) : List (CStmt X) :=
  let em := CEmitter.new project.config project.inputs
  let endPc := Xlen.toU64 block.endPc
  em.renderInstretCheck (.const (Xlen.toU64 block.startPc)) ++
    (CEmitter.renderInstructions endPc false (project.renderLast blockMap endPc) em
      block.instructions).flatten

end CProject

end Rvr
