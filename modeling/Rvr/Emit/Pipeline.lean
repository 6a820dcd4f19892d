import Rvr.Cfg.BlockTable
import Rvr.Emit.Dispatch
import Rvr.Emit.Emitter

/-!
# From the block table to a C program

The C backend of `rvr/src/pipeline.rs`: building the block table, lifting its blocks, or every
instruction as a block of its own, and emitting the functions and the dispatch table; and
`rv_execute_from` (`rvr-emit/src/c/dispatch.rs`), which runs them.
-/

namespace Rvr

variable {X : Xlen}

namespace BlockTable

/-! ## Building the table -/

/-- `build_cfg_for_c` with full CFG analysis. -/
def buildCfgForC (enableSuperblock : Bool) (t : InstructionTable X) (registry : ExtensionRegistry X)
    (order : HashOrder) : BlockTable X :=
  let table := fromInstructionTable t registry order
  if enableSuperblock then table.optimize registry order
  else
    let merged := table.mergeBlocks registry
    (merged.tailDuplicate registry defaultTailDupSize order).fixStaleMappings order

variable (table : BlockTable X) (registry : ExtensionRegistry X)

/-! ## Lifting -/

/-- Lift the instructions of one range; the address grows in every round. -/
def liftRange (isLastRange : Bool) (rangeEnd : U64) : ℕ → U64 → BlockIR X → BlockIR X
  | 0, _, block => block
  | fuel + 1, pc, block =>
    if pc < rangeEnd then
      match table.instructionTable.getAtPc pc with
      | none => block
      | some instr =>
        let ir := registry.lift instr
        if ir.terminator.isControlFlow && isLastRange then block.push ir
        else liftRange isLastRange rangeEnd fuel (nextAddr pc instr.size) (block.push ir)
    else block

/-- Lift ranges in order; only in the last one a terminator ends the block. -/
def liftRanges : List (U64 × U64) → BlockIR X → BlockIR X
  | [], block => block
  | [(start, stop)], block =>
    table.liftRange registry true stop ((stop - start).toNat + 1) start block
  | (start, stop) :: rest, block =>
    liftRanges rest (table.liftRange registry false stop ((stop - start).toNat + 1) start block)

/-- Mark the fall-through of a block that does not end with a terminator. -/
def closeBlock (finalPc : U64) (block : BlockIR X) : BlockIR X :=
  { block with
    instructions :=
      match block.instructions.getLast? with
      | some last =>
        if last.terminator.isControlFlow then block.instructions
        else block.instructions.dropLast ++
          [{ last with terminator := .fall (some (X.fromU64 finalPc)) }]
      | none => [] }

/-- Lift a single block with the ranges that it has absorbed. -/
def liftBlockWithContinuations (start stop : U64) (continuations : List (U64 × U64)) :
    Option (BlockIR X) :=
  let ranges := (start, stop) :: continuations
  let block := table.liftRanges registry ranges (.new (X.fromU64 start))
  if block.instructions = [] then none
  else some (closeBlock ((ranges.getLast?.map (·.2)).getD stop) block)

/-- `lift_to_ir`. -/
def liftToIr : AddrMap (BlockIR X) :=
  table.blocks.foldl (fun irBlocks b =>
    match table.liftBlockWithContinuations registry b.start b.stop
      ((table.blockContinuations.lookup b.start).getD []) with
    | some block => irBlocks.insert b.start block
    | none => irBlocks) ∅

/-- A block made of one instruction. -/
def singleBlock (ir : InstrIR X) : BlockIR X := ⟨ir.pc, ir.nextPc, [ir]⟩

/-- `lift_to_ir_as_single_blocks`. -/
def liftToIrAsSingleBlocks : AddrMap (BlockIR X) :=
  (table.instructionTable.slots.filterMap Slot.instr).foldl (fun irBlocks instr =>
    irBlocks.insert (Xlen.toU64 (registry.lift instr).pc) (singleBlock (registry.lift instr))) ∅

end BlockTable

/-! ## Emission -/

/-- A compiled program: the inputs that the dispatch table is made of, and the block functions by
the address in their name. -/
structure CProgram (X : Xlen) where
  inputs : EmitInputs
  functions : U64 → Option (List (CStmt X))

/-- The emission inputs that `emit_c` derives from lifted blocks. -/
def emitInputs (entryPoint : U64) (irBlocks : AddrMap (BlockIR X))
    (absorbedToMerged : AddrMap U64) :
    EmitInputs where
  textStart := ((irBlocks.entries.map fun e => Xlen.toU64 e.2.startPc).min?).getD entryPoint
  pcEnd := ((irBlocks.entries.map fun e => Xlen.toU64 e.2.endPc).max?).getD 0
  validAddresses := irBlocks.keys.toFinset
  absorbedToMerged := absorbedToMerged

/-- `block_map` of `write_partitions`.  Two blocks whose starts are the same register value would be
two functions of one name. -/
def blockMap (irBlocks : AddrMap (BlockIR X)) (start : U64) : Option (BlockIR X) :=
  (irBlocks.entries.map (·.2)).find? fun b => Xlen.toU64 b.startPc = start

/-- `emit_c`. -/
def emitC (config : EmitConfig) (entryPoint : U64) (table : BlockTable X)
    (irBlocks : AddrMap (BlockIR X)) : CProgram X :=
  let project : CProject :=
    { config := config
      inputs := emitInputs entryPoint irBlocks table.absorbedToMerged
      takenInlines := table.takenInlines }
  { inputs := project.inputs
    functions := fun start =>
      (blockMap irBlocks start).map (project.blockFunction (blockMap irBlocks)) }

/-- Lift as the instret mode asks for and emit. -/
def compileC (config : EmitConfig) (entryPoint : U64) (registry : ExtensionRegistry X)
    (table : BlockTable X) : CProgram X :=
  emitC config entryPoint table
    (if config.instretMode.isPerInstruction then table.liftToIrAsSingleBlocks registry
     else table.liftToIr registry)

/-! ## Running -/

namespace CProgram

variable (rt : Runtime X) (program : CProgram X)

/-- `rv_trap`. -/
def trapBody : List (CStmt X) :=
  [.setExited, .setExitCode (.imm (X.fromU64 1)), .saveInstret 0]

/-- The function that control goes to.  There is none for a name without a function, which does not
link, and for a lookup outside the dispatch table. -/
def target : CLeave X → Option (List (CStmt X))
  | .ret => none
  | .call start => program.functions start
  | .dispatch pc =>
    match dispatchC program.inputs pc with
    | .reached (.block start) => program.functions start
    | .reached .trap => some trapBody
    | _ => none

/-- Call functions until one returns; the fuel bounds the number of calls. -/
def run : ℕ → CLeave X → CState X → Option (CState X)
  | _, .ret, st => some st
  | 0, _, _ => none
  | fuel + 1, leave, st =>
    (program.target leave).bind fun body =>
      let (st', leave') := runFunction rt body st
      run fuel leave' st'

/-- What `rv_execute_from` leaves behind: the state, the number of instructions whose text was
entered, and the return code. -/
structure Executed (X : Xlen) where
  state : GuestState X
  retired : ℕ
  code : ℕ

/-- `rv_execute_from` in the modes that suspend. -/
def executeFrom (fuel : ℕ) (s : GuestState X) (targetInstret : U64) (startPc : X.Reg) :
    Option (Executed X) :=
  let entry : CState X :=
    { guest := { s with pc := startPc }
      stateInstret := s.instret
      targetInstret := targetInstret
      target := 0
      retired := 0 }
  (program.run rt fuel (.dispatch startPc) entry).map fun st =>
    { state := { st.guest with instret := st.stateInstret }
      retired := st.retired
      code :=
        if st.guest.hasExited ≠ (0 : BitVec 8) then 1
        else if st.targetInstret ≤ st.stateInstret then 2
        else 0 }

end CProgram

end Rvr
