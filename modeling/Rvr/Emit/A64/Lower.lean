import Rvr.Emit.A64.Emitter
import Rvr.Emit.X64.Lower

/-!
# arm64 lowering of the IR

`rvr-emit/src/arm64/ir`: expressions (`expr/mod.rs`, `expr/ops_binary.rs`, `expr/ops_unary.rs`),
statements (`stmt.rs`), terminators and instructions (`terminator.rs`).  An expression is emitted
for a destination name and returns the name that holds its value, which need not be the destination.

A helper of the source that evaluates an operand is given the operand and the emission of the
operand (`emitExpr` of it), so that the recursion over the tree stays in `emitExpr`.  A helper that
returns `None` or `false` before it emits anything is an `Option` of an emission.
-/

namespace Rvr.A64

open Asm.Emit
open X64 (Field TracerField Label)

/-- The emission of an operand, for any destination. -/
abbrev Operation := Name → Em Name

section Expressions

variable {X : Xlen} (em : Emitter)

/-- `signed_imm`. -/
def signedImm (val : X.Reg) : ℤ := val.toInt

/-- `expr_needs_temp1`. -/
def exprNeedsTemp1 : Expr X → Bool
  | .mem .. | .memAddr .. | .unary .. | .binary .. | .ternary .. | .externCall .. => true
  | _ => false

/-- `is_zero_expr`. -/
def isZeroExpr : Expr X → Bool
  | .imm v => Xlen.toU64 v = 0
  | .reg r => r = 0
  | _ => false

/-- `addsub_imm_parts`: the 12-bit immediate of an addition, and whether it is shifted by 12. -/
def addsubImmParts (imm : ℤ) : Option (ℕ × Bool) :=
  let abs := imm.natAbs
  if imm = -2 ^ 63 then none
  else if abs ≤ 0xfff then some (abs, false)
  else if abs ≤ 0xfff000 ∧ abs % 2 ^ 12 = 0 then some (abs >>> 12, true)
  else none

/-- The operand `#imm12{, lsl #12}`. -/
def immOperand (p : ℕ × Bool) : Operand := if p.2 then .immLsl12 p.1 else .imm p.1

/-- `emit_cmp_with_imm`. -/
def emitCmpWithImm (X : Xlen) (leftReg : Name) (imm : ℤ) : Em Unit :=
  if 0 ≤ imm ∧ imm ≤ 0xfff then ins (.cmp leftReg (.imm imm.toNat))
  else if imm < 0 ∧ -imm ≤ 0xfff then ins (.cmn leftReg (.imm (-imm).toNat))
  else
    match addsubImmParts imm with
    | some parts =>
      if 0 ≤ imm then ins (.cmp leftReg (immOperand parts))
        else ins (.cmn leftReg (immOperand parts))
    | none => do
      loadImm (temp2 X) (BitVec.ofInt 64 imm)
      ins (.cmp leftReg (.reg (narrowed X (temp2 X))))

/-! ## Leaves and memory -/

/-- `emit_expr_imm`, `emit_expr_pc_const`. -/
def emitExprImm (val : X.Reg) (dest : Name) : Em Name := do
  loadImm dest (Xlen.toU64 val)
  pure dest

/-- `emit_expr_as_addr`. -/
def emitExprAsAddr (expr : Expr X) (emit : Operation) : Em Name := do
  match expr with
  | .reg r => loadRvAsAddr X em r x0
  | .imm val =>
    loadImm x0 (Xlen.toU64 val)
    pure x0
  | _ =>
    let result ← emit (temp1 X)
    when (reg64 result ≠ x0) (ins (.mov x0 (reg64 result)))
    pure x0

/-- `emit_load_from_mem`. -/
def emitLoadFromMem (X : Xlen) (dest : Name) (width : ℕ) (signed : Bool) : Em Unit :=
  match width, signed, X with
  | 1, false, _ => ins (.ldr .b false (reg32 dest) .guest)
  | 1, true, .rv32 => ins (.ldr .b true (reg32 dest) .guest)
  | 1, true, .rv64 => ins (.ldr .b true dest .guest)
  | 2, false, _ => ins (.ldr .h false (reg32 dest) .guest)
  | 2, true, .rv32 => ins (.ldr .h true (reg32 dest) .guest)
  | 2, true, .rv64 => ins (.ldr .h true dest .guest)
  | 4, true, .rv64 => ins (.ldr .w true dest .guest)
  | 8, _, _ => ins (.ldr dest.access false dest .guest)
  | _, _, _ => ins (.ldr .w false (reg32 dest) .guest)

/-- The part of a load or store that puts the guest address in x0. -/
def emitAddress (base : Expr X) (emitBase : Operation) (offset : BitVec 16) : Em Unit := do
  let baseReg ← emitExprAsAddr em base emitBase
  if offset ≠ 0 then emitAddOffset x0 baseReg offset.toInt
  else when (baseReg ≠ x0) (ins (.mov x0 baseReg))

/-- `emit_expr_read_mem`; `emit_expr_read_mem_addr` is the same with no offset. -/
def emitExprMem (base : Expr X) (emitBase : Operation) (offset : BitVec 16) (width : ℕ)
    (signed : Bool) (dest : Name) : Em Name := do
  emitAddress em base emitBase offset
  applyAddressMode em x0
  emitLoadFromMem X dest width signed
  emitTraceMemAccess X em x0 dest width false
  pure dest

/-- `emit_expr_read_instret`. -/
def emitExprInstret (dest : Name) : Em Name := do
  (if em.instretMode.counts then ins (.mov dest (narrowed X instretReg))
   else loadField dest .instret)
  pure dest

/-- `emit_expr_read_csr`. -/
def emitExprCsr (csr : ℕ) (dest : Name) : Em Name :=
  if isCounter csr then emitExprInstret (X := X) em dest
  else if isCounterHigh csr ∧ X = .rv32 then do
    (if em.instretMode.counts then ins (.shift .lsr (reg64 dest) instretReg (.imm 32))
     else ins (.ldr dest.access false dest (.state .instret 4)))
    pure dest
  else do
    ins (.movImm dest 0)
    pure dest

/-- `emit_expr_read_exited`, `emit_expr_read_exit_code`, `emit_expr_read_res_valid`. -/
def emitExprByte (f : Field) (dest : Name) : Em Name := do
  loadByte (reg32 dest) f
  pure dest

/-- `emit_expr_read_pc`. -/
def emitExprPc (dest : Name) : Em Name := do
  loadField dest .pc
  pure dest

/-- `emit_expr_read_res_addr`. -/
def emitExprResAddr (dest : Name) : Em Name := do
  loadField (narrowed X dest) .resAddr
  pure dest

/-- `emit_expr_read_temp`. -/
def emitExprTemp (idx : ℕ) (dest : Name) : Em Name := do
  (match tempSlot idx with
   | some slot => loadSlot (narrowed X dest) slot
   | none => ins (.movImm dest 0))
  pure dest

/-- `emit_expr_var`. -/
def emitExprVar (name : String) (dest : Name) : Em Name := do
  (if name = "state" then ins (.mov (narrowed X dest) (narrowed X statePtr))
   else ins (.movImm dest 0))
  pure dest

/-- `emit_expr_select`: both values go through the slots of temps 0 and 1. -/
def emitExprSelect (X : Xlen) (cond thenVal elseVal : Operation) (dest : Name) : Em Name := do
  let thenReg ← thenVal (temp1 X)
  storeSlot (narrowed X thenReg) 0
  let elseReg ← elseVal (temp1 X)
  storeSlot (narrowed X elseReg) 1
  let condReg ← cond (temp1 X)
  loadSlot (temp2 X) 0
  loadSlot (temp3 X) 1
  ins (.cmp condReg (.imm 0))
  ins (.csel dest (temp2 X) (temp3 X) .ne)
  pure dest

/-! ## Binary operators -/

/-- A value that is moved to the destination unless it is there. -/
def emitMove (emit : Operation) (dest : Name) : Em Name := do
  let n ← emit dest
  when (n ≠ dest) (ins (.mov dest n))
  pure dest

/-- `emit_binary_imm_early`: neutral and absorbing immediates. -/
def emitBinaryImmEarly (op : BinaryOp) (emitLeft : Operation) (right : Expr X) (dest : Name) :
    Option (Em Name) :=
  match right with
  | .imm imm =>
    let v := Xlen.toU64 imm
    match op with
    | .add | .sub | .or | .xor => if v = 0 then some (emitMove emitLeft dest) else none
    | .and =>
      if v = 0 then some do ins (.movImm dest 0); pure dest
      else if v.toNat = 2 ^ X.value - 1 then some (emitMove emitLeft dest)
      else none
    | .mul =>
      if v = 0 then some do ins (.movImm dest 0); pure dest
      else if v = 1 then some (emitMove emitLeft dest)
      else none
    | _ => none
  | _ => none

/-- The machine operation of the operators that have one with three registers. -/
def aluOp : BinaryOp → Option AluOp
  | .add => some .add
  | .sub => some .sub
  | .and => some .and
  | .or => some .orr
  | .xor => some .eor
  | .mul => some .mul
  | _ => none

/-- An addition or subtraction of an immediate: of a negative one it is the other operation. -/
def addsubOp (op : BinaryOp) (signed : ℤ) : AluOp :=
  if (op = .add ↔ 0 ≤ signed) then .add else .sub

/-- The immediate form of an operation, if there is one: shared by `emit_binary_inplace_imm` and
`emit_binary_hot_regs`. -/
def emitImmForm (op : BinaryOp) (imm : X.Reg) (left dest : Name) : Option (Em Unit) :=
  match op with
  | .add | .sub =>
    (addsubImmParts (signedImm imm)).map fun parts =>
      ins (.alu (addsubOp op (signedImm imm)) dest left (immOperand parts))
  | .and | .or | .xor =>
    (aluOp op).bind fun alu =>
      if isLogicalImm (Xlen.toU64 imm).toNat X.value then
        some (ins (.alu alu dest left (.imm (Xlen.toU64 imm).toNat)))
      else none
  | _ => none

/-- `emit_binary_inplace_hot` with `emit_binary_inplace_imm`: the left operand lives in the
destination. -/
def emitBinaryInplaceHot (op : BinaryOp) (left right : Expr X) (emitRight : Operation)
    (dest : Name) : Option (Em Name) :=
  match aluOp op, left with
  | some alu, .reg r =>
    match em.regMap.get X r with
    | some mapped =>
      if mapped.reg ≠ dest.reg then none
      else
        let general : Em Name := do
          let rightReg ← emitRight (temp2 X)
          ins (.alu alu mapped mapped (.reg (narrowed X rightReg)))
          pure dest
        match right with
        | .imm imm =>
          match emitImmForm op imm mapped mapped with
          | some m => some do m; pure dest
          | none => some general
        | _ => some general
    | none => none
  | _, _ => none

/-- `emit_binary_hot_regs`: hot operands, or a hot operand and an immediate. -/
def emitBinaryHotRegs (op : BinaryOp) (left right : Expr X) (dest : Name) : Option (Em Name) :=
  match aluOp op, left with
  | some alu, .reg r =>
    match em.regMap.get X r with
    | some leftMapped =>
      let leftSrc := narrowed X leftMapped
      match right with
      | .reg r' =>
        (em.regMap.get X r').map fun rightMapped => do
          ins (.alu alu dest leftSrc (.reg (narrowed X rightMapped)))
          pure dest
      | .imm imm =>
        (emitImmForm op imm leftSrc dest).map fun m => do
          m
          pure dest
      | _ => none
    | none => none
  | _, _ => none

/-- `emit_addsub_imm`. -/
def emitAddsubImm (op : BinaryOp) (emitLeft : Operation) (right : Expr X) (dest : Name) :
    Option (Em Name) :=
  match op, right with
  | .add, .imm imm | .sub, .imm imm =>
    (addsubImmParts (signedImm imm)).map fun parts => do
      let leftReg ← emitLeft (temp1 X)
      ins (.alu (addsubOp op (signedImm imm)) dest (narrowed X leftReg) (immOperand parts))
      pure dest
  | _, _ => none

/-- `maybe_spill_left`. -/
def maybeSpillLeft (right : Expr X) (leftReg : Name) : Em (Option ℕ) :=
  if exprNeedsTemp1 right ∧ leftReg.reg = (temp1 X).reg then do
    let spill ← allocSpillSlot
    (match spill with
     | some slot => storeSlot (narrowed X leftReg) slot
     | none => pure ())
    pure spill
  else pure none

/-- `restore_spilled_left`. -/
def restoreSpilledLeft (X : Xlen) (spill : Option ℕ) (leftReg : Name) : Em Unit :=
  match spill with
  | some slot => do
    loadSlot (narrowed X leftReg) slot
    releaseSpillSlot
  | none => pure ()

/-- The evaluation of a right operand while the left one waits in temp 1. -/
def emitRightSpilled (right : Expr X) (emitRight : Operation) : Em Name := do
  let spill ← maybeSpillLeft right (temp1 X)
  let rightReg ← emitRight (temp2 X)
  restoreSpilledLeft X spill (temp1 X)
  pure rightReg

/-- The machine operation of a shift. -/
def shiftOp : BinaryOp → ShiftOp
  | .sll | .sllW => .lsl
  | .srl | .srlW => .lsr
  | _ => .asr

/-- `emit_shift_op`: unlike the other operators it always spills. -/
def emitShiftOp (op : BinaryOp) (right : Expr X) (emitRight : Operation) (src dest : Name) :
    Em Name := do
  match right with
  | .imm imm =>
    ins (.shift (shiftOp op) dest src (.imm ((Xlen.toU64 imm).toNat % X.value)))
    pure dest
  | _ =>
    let spill ← allocSpillSlot
    (match spill with
     | some slot => storeSlot (narrowed X src) slot
     | none => pure ())
    let shiftReg ← emitRight (temp2 X)
    restoreSpilledLeft X spill src
    ins (.shift (shiftOp op) dest src (.reg shiftReg))
    pure dest

/-- `emit_shift_word_op`. -/
def emitShiftWordOp (op : BinaryOp) (right : Expr X) (emitRight : Operation) (src dest : Name) :
    Em Name := do
  let src32 := reg32 src
  (match right with
   | .imm imm => ins (.shift (shiftOp op) src32 src32 (.imm ((Xlen.toU64 imm).toNat % 32)))
   | _ => do
     let spill ← allocSpillSlot
     (match spill with
      | some slot => storeSlot src32 slot
      | none => pure ())
     let shiftReg ← emitRight (temp2 X)
     (match spill with
      | some slot => do
        loadSlot src32 slot
        releaseSpillSlot
      | none => pure ())
     ins (.shift (shiftOp op) src32 src32 (.reg (reg32 shiftReg))))
  ins (.ext true .w (reg64 dest) src32)
  pure dest

/-- `emit_word_arith`. -/
def emitWordArith (op : BinaryOp) (right : Expr X) (emitRight : Operation) (dest : Name) :
    Em Name := do
  let rightReg ← emitRightSpilled right emitRight
  let t1 := reg32 (temp1 X)
  let alu : AluOp :=
    match op with
    | .addW => .add
    | .subW => .sub
    | _ => .mul
  ins (.alu alu t1 t1 (.reg (reg32 rightReg)))
  ins (.ext true .w (reg64 dest) t1)
  pure dest

/-- The overflow check of `emit_div_op`: `min / -1` gives `overflow`, everything else goes on. -/
def emitDivOverflow (X : Xlen) (stem : String) (left right : Name) (overflow : Em Unit)
    (doneLabel : Label) : Em Unit := do
  let noOvLabel ← nextLabel stem
  loadImm (temp3 X) (BitVec.ofNat 64 (2 ^ (X.value - 1)))
  ins (.cmp left (.reg (temp3 X)))
  ins (.bcond .ne noOvLabel)
  ins (.cmn right (.imm 1))
  ins (.bcond .ne noOvLabel)
  overflow
  ins (.b doneLabel)
  emitLabel noOvLabel

/-- `emit_div_op`. -/
def emitDivOp (op : BinaryOp) (right : Expr X) (emitRight : Operation) (left dest : Name) :
    Em Name := do
  let rightReg ← emitRightSpilled right emitRight
  let skipLabel ← nextLabel "div_ok"
  let doneLabel ← nextLabel "div_done"
  ins (.cbnz rightReg skipLabel)
  (match op with
   | .div | .divU => ins (.movImm dest (-1))
   | _ => ins (.mov dest left))
  ins (.b doneLabel)
  emitLabel skipLabel
  (match op with
   | .div => do
     emitDivOverflow X "div_no_ov" left rightReg (ins (.mov dest (temp3 X))) doneLabel
     ins (.alu .sdiv dest left (.reg rightReg))
   | .divU => ins (.alu .udiv dest left (.reg rightReg))
   | .rem => do
     emitDivOverflow X "rem_no_ov" left rightReg (ins (.movImm dest 0)) doneLabel
     ins (.alu .sdiv (temp3 X) left (.reg rightReg))
     ins (.msub dest (temp3 X) rightReg left)
   | _ => do
     ins (.alu .udiv (temp3 X) left (.reg rightReg))
     ins (.msub dest (temp3 X) rightReg left))
  emitLabel doneLabel
  pure dest

/-- `emit_div_word_op`. -/
def emitDivWordOp (op : BinaryOp) (right : Expr X) (emitRight : Operation) (left dest : Name) :
    Em Name := do
  let rightReg ← emitRightSpilled right emitRight
  let left32 := reg32 left
  let right32 := reg32 rightReg
  let skipLabel ← nextLabel "divw_ok"
  let doneLabel ← nextLabel "divw_done"
  ins (.cbnz right32 skipLabel)
  (match op with
   | .divW | .divUW => ins (.movImm dest (-1))
   | _ => ins (.ext true .w (reg64 dest) left32))
  ins (.b doneLabel)
  emitLabel skipLabel
  (match op with
   | .divW => ins (.alu .sdiv w2 left32 (.reg right32))
   | .divUW => ins (.alu .udiv w2 left32 (.reg right32))
   | .remW => do
     ins (.alu .sdiv w2 left32 (.reg right32))
     ins (.msub w2 w2 right32 left32)
   | _ => do
     ins (.alu .udiv w2 left32 (.reg right32))
     ins (.msub w2 w2 right32 left32))
  ins (.ext true .w (reg64 dest) w2)
  emitLabel doneLabel
  pure dest

/-- `emit_mulh_op`. -/
def emitMulhOp (op : BinaryOp) (right : Expr X) (emitRight : Operation) (left dest : Name) :
    Em Name := do
  let rightReg ← emitRightSpilled right emitRight
  (match X with
   | .rv32 => do
     let left32 := reg32 left
     let right32 := reg32 rightReg
     let dest64 := reg64 dest
     (match op with
      | .mulH => do
        ins (.mull true dest64 left32 right32)
        ins (.shift .asr dest64 dest64 (.imm 32))
      | .mulHU => do
        ins (.mull false dest64 left32 right32)
        ins (.shift .lsr dest64 dest64 (.imm 32))
      | _ => do
        ins (.mov w2 left32)
        ins (.mull true dest64 left32 right32)
        ins (.shift .asr dest64 dest64 (.imm 32))
        ins (.cmp right32 (.imm 0))
        ins (.cselZr w2 w2 .lt)
        ins (.alu .add dest64 dest64 (.sxtw w2)))
   | .rv64 =>
     match op with
     | .mulH => ins (.alu .smulh dest left (.reg rightReg))
     | .mulHU => ins (.alu .umulh dest left (.reg rightReg))
     | _ => do
       ins (.alu .umulh dest left (.reg rightReg))
       ins (.cmp left (.imm 0))
       ins (.cselZr x2 rightReg .lt)
       ins (.alu .sub dest dest (.reg x2)))
  pure dest

/-- `emit_binary_special`. -/
def emitBinarySpecial (op : BinaryOp) (right : Expr X) (emitRight : Operation) (dest : Name) :
    Option (Em Name) :=
  match op with
  | .sll | .srl | .sra => some (emitShiftOp op right emitRight (temp1 X) dest)
  | .sllW | .srlW | .sraW => some (emitShiftWordOp op right emitRight (temp1 X) dest)
  | .addW | .subW | .mulW => some (emitWordArith op right emitRight dest)
  | .div | .divU | .rem | .remU => some (emitDivOp op right emitRight (temp1 X) dest)
  | .divW | .divUW | .remW | .remUW => some (emitDivWordOp op right emitRight (temp1 X) dest)
  | .mulH | .mulHU | .mulHSU => some (emitMulhOp op right emitRight (temp1 X) dest)
  | _ => none

/-- The condition of a comparison. -/
def condOf : BinaryOp → Option Cond
  | .eq => some .eq
  | .ne => some .ne
  | .lt => some .lt
  | .ge => some .ge
  | .ltu => some .lo
  | .geu => some .hs
  | _ => none

/-- `emit_binary_basic`: the operators that are left over emit nothing. -/
def emitBinaryBasic (op : BinaryOp) (right : Expr X) (emitRight : Operation) (rightIsImm : Bool)
    (rightVal : Operand) (dest : Name) : Em Name := do
  (match op with
   | .add => ins (.alu .add dest (temp1 X) rightVal)
   | .sub => ins (.alu .sub dest (temp1 X) rightVal)
   | .and | .or | .xor => (aluOp op).elim (pure ()) fun alu =>
     match rightIsImm, right with
     | true, .imm imm =>
       if isLogicalImm (Xlen.toU64 imm).toNat X.value then
         ins (.alu alu dest (temp1 X) (.imm (Xlen.toU64 imm).toNat))
       else do
         let rightReg ← emitRight (temp2 X)
         ins (.alu alu dest (temp1 X) (.reg rightReg))
     | _, _ => ins (.alu alu dest (temp1 X) rightVal)
   | .mul =>
     if rightIsImm then do
       let rightReg ← emitRight (temp2 X)
       ins (.alu .mul dest (temp1 X) (.reg rightReg))
     else ins (.alu .mul dest (temp1 X) rightVal)
   | _ => (condOf op).elim (pure ()) fun c => do
     ins (.cmp (temp1 X) rightVal)
     ins (.cset dest c))
  pure dest

/-- The right operand of `emit_binary_general`: a small immediate, or a register. -/
def emitRightVal (right : Expr X) (emitRight : Operation) : Em (Bool × Operand) := do
  let general : Em (Bool × Operand) := do
    let rightReg ← emitRight (temp2 X)
    pure (false, .reg (narrowed X rightReg))
  match right with
  | .imm imm =>
    if (Xlen.toU64 imm).toNat ≤ 0xfff then pure (true, .imm (Xlen.toU64 imm).toNat) else general
  | _ => general

/-- The left operand of `emit_binary_general`, in temp 1. -/
def emitLeftToTemp1 (X : Xlen) (emitLeft : Operation) : Em Unit := do
  let leftReg ← emitLeft (temp1 X)
  when (narrowed X leftReg ≠ temp1 X) (ins (.mov (temp1 X) (narrowed X leftReg)))

/-- `emit_binary_general`. -/
def emitBinaryGeneral (op : BinaryOp) (right : Expr X) (emitLeft emitRight : Operation)
    (dest : Name) : Em Name := do
  emitLeftToTemp1 X emitLeft
  match emitBinarySpecial op right emitRight dest with
  | some m => m
  | none =>
    let spill ← maybeSpillLeft right (temp1 X)
    let rightVal ← emitRightVal right emitRight
    restoreSpilledLeft X spill (temp1 X)
    emitBinaryBasic op right emitRight rightVal.1 rightVal.2 dest

/-- `emit_binary_op`. -/
def emitBinaryOp (op : BinaryOp) (left right : Expr X) (emitLeft emitRight : Operation)
    (dest : Name) : Em Name :=
  ((((emitBinaryImmEarly op emitLeft right dest).orElse fun _ =>
    emitBinaryInplaceHot em op left right emitRight dest).orElse fun _ =>
    emitBinaryHotRegs em op left right dest).orElse fun _ =>
    emitAddsubImm op emitLeft right dest).getD
    (emitBinaryGeneral op right emitLeft emitRight dest)

/-! ## Unary operators -/

/-- Print a list of instructions. -/
def insAll : List Instr → Em Unit := each ins

/-- `emit_cpop64`, `emit_cpop32`: the masks are those of the width, `steps` the shifts that sum up
the byte counts. -/
def emitCpop (dest tmp : Name) (m1 m2 m4 : ℕ) (steps : List ℕ) (last : ℕ) : Em Unit := do
  insAll [.shift .lsr tmp dest (.imm 1), .alu .and tmp tmp (.imm m1),
    .alu .sub dest dest (.reg tmp), .shift .lsr tmp dest (.imm 2),
    .alu .and tmp tmp (.imm m2), .alu .and dest dest (.imm m2),
    .alu .add dest dest (.reg tmp), .shift .lsr tmp dest (.imm 4),
    .alu .add dest dest (.reg tmp), .alu .and dest dest (.imm m4)]
  each (fun s => insAll [.shift .lsr tmp dest (.imm s), .alu .add dest dest (.reg tmp)]) steps
  ins (.alu .and dest dest (.imm last))

def emitCpop64 (X : Xlen) (dest : Name) : Em Unit :=
  emitCpop dest (temp3 X) 0x5555555555555555 0x3333333333333333 0x0f0f0f0f0f0f0f0f [8, 16, 32] 0x7f

def emitCpop32 (X : Xlen) (dest32 : Name) : Em Unit :=
  emitCpop dest32 (reg32 (temp3 X)) 0x55555555 0x33333333 0x0f0f0f0f [8, 16] 0x3f

/-- `emit_orc8_64`, `emit_orc8_32`. -/
def emitOrc8 (dest tmp : Name) (lsbs : ℕ) : Em Unit := do
  each (fun s => insAll [.shift .lsr tmp dest (.imm s), .alu .orr dest dest (.reg tmp)]) [1, 2, 4]
  insAll [.alu .and dest dest (.imm lsbs), .movImm tmp 0xff, .alu .mul dest dest (.reg tmp)]

def emitOrc8x64 (X : Xlen) (dest : Name) : Em Unit := emitOrc8 dest (temp3 X) 0x0101010101010101

def emitOrc8x32 (X : Xlen) (dest32 : Name) : Em Unit :=
  emitOrc8 dest32 (reg32 (temp3 X)) 0x01010101

/-- The operator of `emit_unary_op`, in place; those that are not implemented leave their
operand. -/
def emitUnaryInPlace (X : Xlen) (op : UnaryOp) (dest : Name) : Em Unit :=
  match op, X with
  | .neg, _ => ins (.un .neg dest dest)
  | .not, _ => ins (.un .mvn dest dest)
  | .sext8, _ => ins (.ext true .b dest (reg32 dest))
  | .sext16, _ => ins (.ext true .h dest (reg32 dest))
  | .sext32, _ => ins (.ext true .w (reg64 dest) (reg32 dest))
  | .zext8, _ => ins (.ext false .b (reg32 dest) (reg32 dest))
  | .zext16, _ => ins (.ext false .h (reg32 dest) (reg32 dest))
  | .zext32, _ => ins (.mov (reg32 dest) (reg32 dest))
  | .clz, _ => ins (.un .clz dest dest)
  | .ctz, _ => do
    ins (.un .rbit dest dest)
    ins (.un .clz dest dest)
  | .cpop, .rv32 => emitCpop32 X (reg32 dest)
  | .cpop, .rv64 => emitCpop64 X dest
  | .clz32, _ => ins (.un .clz (reg32 dest) (reg32 dest))
  | .ctz32, _ => do
    ins (.un .rbit (reg32 dest) (reg32 dest))
    ins (.un .clz (reg32 dest) (reg32 dest))
  | .cpop32, _ => emitCpop32 X (reg32 dest)
  | .orc8, .rv32 => emitOrc8x32 X (reg32 dest)
  | .orc8, .rv64 => emitOrc8x64 X dest
  | .rev8, _ => ins (.un .rev dest dest)
  | .brev8, _ | .zip, _ | .unzip, _ => ins (.mov dest dest)

/-- `emit_unary_op`. -/
def emitUnaryOp (X : Xlen) (op : UnaryOp) (emitInner : Operation) (dest : Name) : Em Name := do
  let innerReg ← emitInner dest
  let innerReg := if X = .rv32 ∧ dest.width = .w then reg32 innerReg else innerReg
  when (innerReg ≠ dest) (ins (.mov dest innerReg))
  emitUnaryInPlace X op dest
  pure dest

/-! ## Calls and the recursion over expressions -/

/-- The argument registers of the procedure call standard. -/
def argRegs : List Reg := [0, 1, 2, 3, 4, 5, 6, 7]

/-- One round of the loop in `emit_extern_call`: move an argument to its register. -/
def emitExternArg (arg : Expr X) (emit : Operation) (reg : Reg) : Em Unit :=
  match arg with
  | .var "state" => ins (.mov ⟨reg, .x⟩ statePtr)
  | .reg r => do
    let src ← loadRvToTemp X em r ⟨reg, suffix X⟩
    when (src ≠ ⟨reg, suffix X⟩) (ins (.mov ⟨reg, suffix X⟩ src))
  | .imm val => loadImm ⟨reg, suffix X⟩ (Xlen.toU64 val)
  | _ => do
    let tmp ← emit (temp1 X)
    when (tmp ≠ ⟨reg, suffix X⟩) (ins (.mov ⟨reg, suffix X⟩ tmp))

/-- `emit_extern_call`: arguments beyond the eighth are dropped, the others moved last to first. -/
def emitExternCall (fnName : String) (args : List (Expr X × Operation)) : Em Name := do
  saveHotRegsToState X em
  each (fun a => emitExternArg em a.1.1 a.1.2 a.2) (args.zip argRegs).reverse
  ins (.bl fnName)
  restoreHotRegsFromState X em
  pure (temp1 X)

/-- `emit_expr_extern_call`. -/
def emitExprExternCall (fnName : String) (args : List (Expr X × Operation)) (dest : Name) :
    Em Name := do
  let ret ← emitExternCall em fnName args
  when (ret ≠ dest) (ins (.mov dest ret))
  pure dest

/-- What perf mode and unsupported reads give. -/
def emitZero (dest : Name) : Em Name := do
  ins (.movImm dest 0)
  pure dest

mutual

/-- `emit_expr`. -/
def emitExpr : Expr X → Operation
  | .imm val => emitExprImm val
  | .reg r => loadRvToTemp X em r
  | .mem base offset width signed => emitExprMem em base (emitExpr base) offset width signed
  | .memAddr addr width signed => emitExprMem em addr (emitExpr addr) 0 width signed
  | .pcConst val => emitExprImm val
  | .csr csr => fun dest => if em.perfMode then emitZero dest else emitExprCsr (X := X) em csr dest
  | .cycle => fun dest => if em.perfMode then emitZero dest else emitExprInstret (X := X) em dest
  | .instret => fun dest => if em.perfMode then emitZero dest else emitExprInstret (X := X) em dest
  | .pc => emitExprPc
  | .exited => emitExprByte .hasExited
  | .exitCode => emitExprByte .exitCode
  | .resAddr => emitExprResAddr (X := X)
  | .resValid => emitExprByte .resValid
  | .temp idx => emitExprTemp (X := X) idx
  | .var name => emitExprVar (X := X) name
  | .binary op left right => emitBinaryOp em op left right (emitExpr left) (emitExpr right)
  | .unary op inner => emitUnaryOp X op (emitExpr inner)
  | .externCall name args _ => emitExprExternCall em name (emitArgs args)
  | .ternary .select cond thenVal elseVal =>
    emitExprSelect X (emitExpr cond) (emitExpr thenVal) (emitExpr elseVal)
  | .traceIdx | .pcIdx => emitZero

/-- The arguments of a call, each with its emission. -/
def emitArgs : List (Expr X) → List (Expr X × Operation)
  | [] => []
  | e :: es => (e, emitExpr e) :: emitArgs es

end

/-! ## Compare and branch -/

/-- The opposite condition. -/
def Cond.inverse : Cond → Cond
  | .eq => .ne
  | .ne => .eq
  | .lt => .ge
  | .ge => .lt
  | .lo => .hs
  | .hs => .lo

/-- The right operand and the comparison of `try_emit_compare_branch`. -/
def emitCompareRight (left : Name) (right : Expr X) : Em Unit :=
  if isZeroExpr right then emitCmpWithImm X left 0
  else
    match right with
    | .imm v => emitCmpWithImm X left (signedImm v)
    | _ => do
      let rightReg ← emitExpr em right (temp2 X)
      ins (.cmp left (.reg (narrowed X rightReg)))

/-- The comparisons of `try_emit_compare_branch`.  A left operand that was spilled is reloaded after
the comparison. -/
def emitCompareBranch (op : BinaryOp) (cond : Cond) (left right : Expr X) (label : Label) :
    Em Unit := do
  let leftReg ← emitExpr em left (temp1 X)
  let leftReg := narrowed X leftReg
  if (op = .eq ∨ op = .ne) ∧ isZeroExpr right then
    ins (if cond = .eq then .cbz leftReg label else .cbnz leftReg label)
  else do
    let spill ← maybeSpillLeft right leftReg
    emitCompareRight em leftReg right
    restoreSpilledLeft X spill leftReg
    ins (.bcond cond label)

/-- The condition code of `try_emit_compare_branch`. -/
def condCode (op : BinaryOp) (invert : Bool) : Option Cond :=
  (condOf op).map fun c => if invert then c.inverse else c

/-- The part of `try_emit_compare_branch` that knows single comparisons. -/
def tryEmitCompare (cond : Expr X) (label : Label) (invert : Bool) : Option (Em Unit) :=
  match cond with
  | .binary op left right =>
    (condCode op invert).map fun c => emitCompareBranch em op c left right label
  | _ => none

/-- `try_emit_compare_logic`, for two comparisons. -/
def emitCompareLogic (op : BinaryOp) (left right : Label → Bool → Em Unit) (label : Label)
    (invert : Bool) : Em Unit := do
  let skipLabel ← nextLabel "bool_skip"
  match op, invert with
  | .or, false =>
    left label false
    right label false
  | .or, true =>
    left skipLabel false
    right skipLabel false
    ins (.b label)
    emitLabel skipLabel
  | _, false =>
    left skipLabel true
    right label false
    emitLabel skipLabel
  | _, true =>
    left label true
    right label true

/-- `is_cmp_expr`. -/
def isCmpExpr : Expr X → Bool
  | .binary op _ _ => (condOf op).isSome
  | _ => false

/-- `try_emit_compare_branch`; `none` is the answer `false`, after which nothing is emitted. -/
def tryEmitCompareBranch (cond : Expr X) (label : Label) (invert : Bool) : Option (Em Unit) :=
  match cond with
  | .binary op left right =>
    if (op = .or ∨ op = .and) ∧ isCmpExpr left ∧ isCmpExpr right then
      some (emitCompareLogic op
        (fun l inv => (tryEmitCompare em left l inv).getD (pure ()))
        (fun l inv => (tryEmitCompare em right l inv).getD (pure ())) label invert)
    else tryEmitCompare em cond label invert
  | _ => none

/-- Branch to a label if a condition does not hold (`invert`), or if it holds. -/
def emitCondBranch (cond : Expr X) (label : Label) (invert : Bool) : Em Unit :=
  (tryEmitCompareBranch em cond label invert).getD do
    let condReg ← emitExpr em cond (temp1 X)
    ins (if invert then .cbz condReg label else .cbnz condReg label)

end Expressions

/-! ## Statements -/

section Statements

variable {X : Xlen} (em : Emitter)

/-- `emit_write_reg`: the cached register is given up after the write. -/
def emitWriteReg (r : ℕ) (value : Expr X) : Em Unit :=
  if r = 0 then pure ()
  else do
    (match em.regMap.get X r with
     | some n => do
       let valReg ← emitExpr em value n
       when (valReg ≠ n) (ins (.mov n valReg))
       emitTraceRegWrite X em r valReg
     | none => do
       let valReg ← emitExpr em value (temp1 X)
       storeToRv X em r valReg
       emitTraceRegWrite X em r valReg)
    coldCacheInvalidate r

/-- Where `emit_write_mem` keeps the value during the address computation. -/
def emitStoreReg (valReg : Name) (htifPossible : Bool) : Em Name :=
  if valReg.reg = 1 then pure (temp2 X)
  else if valReg.reg = 0 then do
    ins (.mov (temp2 X) valReg)
    pure (temp2 X)
  else if htifPossible then do
    ins (.mov x1 (reg64 valReg))
    pure x1
  else pure valReg

/-- The store instruction of `emit_write_mem`. -/
def storeInstr (width : ℕ) (storeReg : Name) : Instr :=
  match width with
  | 1 => .str .b (reg32 storeReg) .guest
  | 2 => .str .h (reg32 storeReg) .guest
  | 8 => .str .x (reg64 storeReg) .guest
  | _ => .str .w (reg32 storeReg) .guest

/-- `emit_write_mem`. -/
def emitWriteMem (base : Expr X) (offset : BitVec 16) (width : ℕ) (value : Expr X) : Em Unit := do
  let htifPossible : Bool := em.htifEnabled ∧ (width = 4 ∨ width = 8)
  let valReg ← emitExpr em value (temp2 X)
  let storeReg ← emitStoreReg (X := X) valReg htifPossible
  emitAddress em base (emitExpr em base) offset
  let body : Em Unit := do
    applyAddressMode em x0
    emitTraceMemAccess X em x0 storeReg width true
    ins (storeInstr width storeReg)
  if htifPossible then do
    let doneLabel ← emitHtifCheck X em
    body
    emitLabel doneLabel
  else body

/-- `emit_write_exit_code`, `emit_write_res_valid`. -/
def emitWriteByte (value : Expr X) (f : Field) : Em Unit := do
  let valReg ← emitExpr em value (temp1 X)
  storeByte (reg32 valReg) f

/-- `emit_write_temp`. -/
def emitWriteTemp (idx : ℕ) (value : Expr X) : Em Unit := do
  let valReg ← emitExpr em value (temp1 X)
  match tempSlot idx with
  | some slot => storeSlot (narrowed X valReg) slot
  | none => pure ()

/-- `emit_write_stmt`.  A write of the exit flag always stores 1, a CSR write is not supported. -/
def emitWriteStmt (target : WriteTarget X) (value : Expr X) : Em Unit :=
  match target with
  | .reg r => emitWriteReg em r value
  | .mem base offset width => emitWriteMem em base offset width value
  | .pc => do
    let valReg ← emitExpr em value (temp1 X)
    storeField valReg .pc
  | .exited => do
    ins (.movImm w0 1)
    storeByte w0 .hasExited
  | .exitCode => emitWriteByte em value .exitCode
  | .temp idx => emitWriteTemp em idx value
  | .resAddr => do
    let valReg ← emitExpr em value (temp1 X)
    storeField (narrowed X valReg) .resAddr
  | .resValid => emitWriteByte em value .resValid
  | .csr _ => pure ()

mutual

/-- `emit_stmt`. -/
def emitStmt : Stmt X → Em Unit
  | .write target value => emitWriteStmt em target value
  | .ite cond thenStmts elseStmts => do
    let elseLabel ← nextLabel "if_else"
    let endLabel ← nextLabel "if_end"
    emitCondBranch em cond elseLabel true
    emitStmts thenStmts
    when (!elseStmts.isEmpty) (ins (.b endLabel))
    emitLabel elseLabel
    emitStmts elseStmts
    when (!elseStmts.isEmpty) (emitLabel endLabel)
  | .externCall fnName args => do
    coldCacheClear
    let _ ← emitExternCall em fnName (emitArgs em args)

def emitStmts : List (Stmt X) → Em Unit
  | [] => pure ()
  | s :: ss => do emitStmt s; emitStmts ss

end

end Statements

/-! ## Terminators and instructions -/

section Instructions

variable {X : Xlen} (em : Emitter)

/-- The resolved address of a terminator's target. -/
def resolved (target : X.Reg) : U64 := em.inputs.resolveAddress (Xlen.toU64 target)

/-- The resolved fall-through of a terminator. -/
def fallTarget (fall : Option X.Reg) (fallPc : U64) : U64 :=
  (fall.map (resolved em)).getD fallPc

/-- Whether an explicit fall-through has no code. -/
def fallInvalid (fall : Option X.Reg) : Bool :=
  fall.any fun t => !em.inputs.isValidAddress (resolved em t)

/-- Where a jump to a resolved address goes. -/
def jumpLabel (target : U64) : Label :=
  if em.inputs.isValidAddress target then .pc target else .trap

/-- The address of a dynamic jump, in x0. -/
def emitDynTarget (addr : Expr X) : Em Unit := do
  let baseReg ← emitExprAsAddr em addr (emitExpr em addr)
  when (baseReg ≠ x0) (ins (.mov x0 baseReg))
  ins (.alu .and x0 x0 (.imm (2 ^ 64 - 2)))

/-- The end of a `Branch`: nothing if the fall-through follows in the text. -/
def emitFall (fall : Option X.Reg) (fallPc : U64) : Em Unit :=
  if fallInvalid em fall then ins (.b .trap)
  else when (fallTarget em fall fallPc ≠ fallPc) (ins (.b (.pc (fallTarget em fall fallPc))))

/-- A `Branch` on a condition. -/
def emitBranch (cond : Expr X) (target : X.Reg) (fall : Option X.Reg) (fallPc : U64) : Em Unit := do
  emitCondBranch em cond (jumpLabel em (resolved em target)) false
  emitFall em fall fallPc

/-- `emit_terminator`: a jump to the instruction itself is left out. -/
def emitTerminator (fallPc currentPc : U64) : Terminator X → Em Unit
  | .fall target =>
    if fallInvalid em target then ins (.b .trap)
    else
      let targetPc := fallTarget em target fallPc
      when (targetPc ≠ fallPc ∧ targetPc ≠ currentPc) (ins (.b (.pc targetPc)))
  | .jump target =>
    if em.inputs.isValidAddress (resolved em target) then
      when (resolved em target ≠ currentPc) (ins (.b (.pc (resolved em target))))
    else ins (.b .trap)
  | .jumpDyn addr _ => do
    emitDynTarget em addr
    ins (.dispatchJump (suffix X))
  | .branch cond target fall _ => emitBranch em cond target fall fallPc
  | .exit code => do
    let codeReg ← emitExpr em code (temp1 X)
    ins (.movImm w0 1)
    storeByte w0 .hasExited
    storeByte (reg32 codeReg) .exitCode
    ins (.b .exit)
  | .trap _ => ins (.b .trap)

/-- `emit_store_next_pc_imm`. -/
def emitStoreNextPcImm (X : Xlen) (nextPc : U64) : Em Unit := do
  loadImm (temp2 X) nextPc
  storeField (temp2 X) .pc

/-- The code that leaves for `asm_exit` with the next pc in the state, shared by
`emit_instret_post_check` and `emit_instret_suspend_check`. -/
def emitSuspend (fallPc currentPc : U64) : Terminator X → Em Unit
  | .fall target => do
    let targetPc := fallTarget em target fallPc
    emitStoreNextPcImm X (if targetPc = currentPc then fallPc else targetPc)
    ins (.b .exit)
  | .jump target => do
    emitStoreNextPcImm X (resolved em target)
    ins (.b .exit)
  | .jumpDyn addr _ => do
    emitDynTarget em addr
    storeField (temp1 X) .pc
    ins (.b .exit)
  | .branch cond target fall _ => do
    let targetLabel ← nextLabel "instret_target"
    let doneLabel ← nextLabel "instret_done"
    emitCondBranch em cond targetLabel false
    emitStoreNextPcImm X (fallTarget em fall fallPc)
    ins (.b doneLabel)
    emitLabel targetLabel
    emitStoreNextPcImm X (resolved em target)
    emitLabel doneLabel
    ins (.b .exit)
  | .exit _ | .trap _ => pure ()

/-- The comparison of the counter with the limit around `emitSuspend`. -/
def emitSuspendCheck (fallPc currentPc : U64) (term : Terminator X) : Em Unit := do
  let continueLabel ← nextLabel "instret_ok"
  loadField x2 .targetInstret
  ins (.cmp instretReg (.reg x2))
  ins (.bcond .lo continueLabel)
  emitSuspend em fallPc currentPc term
  emitLabel continueLabel

/-- `emit_instret_post_check`. -/
def emitInstretPostCheck (fallPc currentPc : U64) (term : Terminator X) : Em Unit :=
  when em.instretMode.counts do
    ins (.alu .add instretReg instretReg (.imm 1))
    when em.instretMode.suspends (emitSuspendCheck em fallPc currentPc term)

/-- `cmp_from_temp_branch`: the last statement writes the temp that the branch tests, and what it
writes is a comparison. -/
def cmpFromTempBranch (stmts : List (Stmt X)) (cond : Expr X) : Option (Expr X) :=
  match cond, stmts.getLast? with
  | .temp idx, some (.write (.temp idx') value) =>
    if idx' = idx ∧ isCmpExpr value then some value else none
  | _, _ => none

/-- The comparison that `emit_instruction` folds into the branch, leaving out its last statement. -/
def foldedCmp (instr : InstrIR X) : Option (Expr X) :=
  if em.instretMode.isPerInstruction then none
  else
    match instr.terminator with
    | .branch cond _ _ _ => cmpFromTempBranch instr.statements cond
    | _ => none

/-- The statements that `emit_instruction` emits. -/
def keptStatements (instr : InstrIR X) : List (Stmt X) :=
  if (foldedCmp em instr).isSome then instr.statements.dropLast else instr.statements

/-- The terminator of `emit_instruction`, with the folded comparison as its condition. -/
def keptTerminator (instr : InstrIR X) : Terminator X :=
  match foldedCmp em instr, instr.terminator with
  | some cmp, .branch _ target fall hint => .branch cmp target fall hint
  | _, term => term

/-- `emit_instruction`; `emit_instructions` passes `is_last_in_block = true` for every
instruction. -/
def emitInstruction (instr : InstrIR X) (fallPc : U64) : Em Unit := do
  let pc := Xlen.toU64 instr.pc
  emitTracePc X em pc instr.raw
  when (!em.instretMode.isPerInstruction) (emitInstretIncrement em)
  emitStmts em (keptStatements em instr)
  when (X64.stmtsWriteToExited instr.statements) do
    loadByte w0 .hasExited
    ins (.cbnz w0 .exit)
  when em.instretMode.isPerInstruction (emitInstretPostCheck em fallPc pc instr.terminator)
  when (em.instretMode.suspends ∧ ¬ em.instretMode.isPerInstruction)
    (emitSuspendCheck em fallPc pc instr.terminator)
  emitTerminator em fallPc pc (keptTerminator em instr)

/-- `emit_instructions`. -/
def emitInstructions : List (InstrIR X) → Em Unit
  | [] => pure ()
  | instr :: rest => do
    let pc := Xlen.toU64 instr.pc
    when (pc ∈ em.labelPcs) (emitPcLabel pc)
    emitInstruction em instr (X64.followingPc instr rest)
    emitInstructions rest

end Instructions

end Rvr.A64
