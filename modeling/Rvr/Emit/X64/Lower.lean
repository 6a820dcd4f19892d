import Rvr.Emit.X64.Emitter

/-!
# x86-64 lowering of the IR

`rvr-emit/src/x86/ir`: expressions (`expr/mod.rs`, `expr/ops.rs`), statements (`stmt.rs`),
terminators and instructions (`terminator.rs`).  An expression is emitted for a destination name and
returns the name that holds its value, which need not be the destination.

A helper of the source that evaluates an operand is given the operand and the emission of the
operand (`emitExpr` of it), so that the recursion over the tree stays in `emitExpr`.  A helper that
returns `None` before it emits anything is an `Option` of an emission.
-/

namespace Rvr.X64

open Asm.Emit

/-- The emission of an operand, for any destination. -/
abbrev Operation := Name → Em Name

section Expressions

variable {X : Xlen} (em : Emitter)

/-- How a destination is printed where the source narrows it for RV32 only. -/
def narrowed : Xlen → Name → Name
  | .rv32, dest => regDword dest
  | .rv64, dest => dest

/-- `emit_expr_imm`. -/
def emitExprImm (val : X.Reg) (dest : Name) : Em Name := do
  let v := Xlen.toU64 val
  (if v = 0 then clear X dest
   else
    match X with
    | .rv32 => ins (.mov .l (.imm (if v.toNat ≤ 0x7fffffff then v.toNat else 0)) dest)
    | .rv64 =>
      if v.toNat > 0x7fffffff then ins (.movabs v dest) else ins (.mov .q (.imm v.toNat) dest))
  pure dest

/-- `emit_expr_pc_const`; also how `emit_expr_as_addr` loads an immediate. -/
def emitExprPcConst (val : X.Reg) (dest : Name) : Em Name := do
  let v := Xlen.toU64 val
  (match X with
   | .rv32 => ins (.mov .l (.imm v.toNat) dest)
   | .rv64 =>
     if v.toNat > 0x7fffffff then ins (.movabs v dest) else ins (.mov .q (.imm v.toNat) dest))
  pure dest

/-- `emit_expr_as_addr`. -/
def emitExprAsAddr (expr : Expr X) (emit : Operation) : Em Name := do
  match expr with
  | .reg r => loadRvAsAddr X em r rax
  | .imm val => do
    let _ ← emitExprPcConst val (temp1 X)
    pure rax
  | _ =>
    match X with
    | .rv32 => do
      let result ← emit eax
      when (result ≠ eax) (ins (.mov .l (.reg (tempDword result)) eax))
      pure rax
    | .rv64 => do
      let result ← emit rax
      when (result ≠ rax) (ins (.mov .q (.reg result) rax))
      pure rax

/-- `emit_load_from_mem`. -/
def emitLoadFromMem (X : Xlen) (dest : Name) (width : ℕ) (signed : Bool) : Em Unit :=
  let mem : Operand := .mem .guest
  match width, signed, X with
  | 1, false, _ => ins (.movzx .b .l mem (regDword dest))
  | 1, true, .rv32 => ins (.movsx .b .l mem dest)
  | 1, true, .rv64 => ins (.movsx .b .q mem dest)
  | 2, false, _ => ins (.movzx .w .l mem (regDword dest))
  | 2, true, .rv32 => ins (.movsx .w .l mem dest)
  | 2, true, .rv64 => ins (.movsx .w .q mem dest)
  | 4, false, .rv64 => ins (.mov .l mem (regDword dest))
  | 4, true, .rv64 => ins (.movsx .l .q mem dest)
  | 8, _, _ => ins (.mov .q mem dest)
  | _, _, _ => ins (.mov .l mem dest)

/-- The part of a load or store that turns the base in rax into a host index. -/
def emitTranslate (X : Xlen) (em : Emitter) (offset : BitVec 16) : Em Unit := do
  when (offset ≠ 0) (ins (.lea .q offset.toInt (some rax) none rax))
  applyAddressMode X em rax

/-- The address part of a load or store. -/
def emitAddress (base : Expr X) (emitBase : Operation) (offset : BitVec 16) : Em Unit := do
  let _ ← emitExprAsAddr em base emitBase
  emitTranslate X em offset

/-- `emit_expr_mem`; `emit_expr_mem_addr` is the same with no offset. -/
def emitExprMem (base : Expr X) (emitBase : Operation) (offset : BitVec 16) (width : ℕ)
    (signed : Bool) (dest : Name) : Em Name := do
  emitAddress em base emitBase offset
  emitLoadFromMem X dest width signed
  emitTraceMemAccess X em rax dest width false
  pure dest

/-- `emit_expr_instret`. -/
def emitExprInstret (dest : Name) : Em Name := do
  (if em.instretMode.counts then
    ins (.mov (suffix X) (.reg ⟨.r10, suffix X⟩) (narrowed X dest))
   else ins (.mov (suffix X) (fieldOperand .instret) dest))
  pure dest

/-- `emit_expr_csr`. -/
def emitExprCsr (csr : ℕ) (dest : Name) : Em Name :=
  if isCounter csr then emitExprInstret (X := X) em dest
  else if isCounterHigh csr ∧ X = .rv32 then
    if em.instretMode.counts then do
      ins (.mov .q (.reg instretReg) rdx)
      ins (.shiftImm .shr .q 32 rdx)
      ins (.mov .l (.reg edx) (regDword dest))
      pure dest
    else do
      ins (.mov .l (.mem (.state .instret 4)) dest)
      pure dest
  else do
    clear X dest
    pure dest

/-- `emit_expr_state_u8`. -/
def emitExprStateU8 (f : Field) (dest : Name) : Em Name := do
  ins (.movzx .b .l (fieldOperand f) (regDword dest))
  pure dest

/-- `emit_expr_pc`. -/
def emitExprPc (dest : Name) : Em Name := do
  ins (.mov (suffix X) (fieldOperand .pc) dest)
  pure dest

/-- `emit_expr_reservation_addr`. -/
def emitExprReservationAddr (dest : Name) : Em Name := do
  ins (.mov (suffix X) (fieldOperand .resAddr) (narrowed X dest))
  pure dest

/-- `temp_slot_offset`, in slots. -/
def tempSlot (idx : ℕ) : Option ℕ := if idx < 8 then some idx else none

/-- `emit_expr_temp`. -/
def emitExprTemp (idx : ℕ) (dest : Name) : Em Name := do
  (match tempSlot idx with
   | some slot => ins (.mov (suffix X) (.mem (.slot slot)) (narrowed X dest))
   | none => clear X dest)
  pure dest

/-- `emit_expr_var`. -/
def emitExprVar (name : String) (dest : Name) : Em Name :=
  if name = "state" then do
    ins (.mov .q (.reg statePtr) (regQword dest))
    pure (regQword dest)
  else do
    clear X dest
    pure dest

/-- `emit_expr_select`. -/
def emitExprSelect (X : Xlen) (cond thenVal elseVal : Operation) (dest : Name) : Em Name := do
  let condReg ← cond (temp1 X)
  ins (.mov .q (.reg condReg) rdx)
  let thenReg ← thenVal (temp1 X)
  when (thenReg ≠ temp1 X) (ins (.mov (suffix X) (.reg thenReg) (temp1 X)))
  let elseReg ← elseVal (temp2 X)
  ins (.test .q rdx rdx)
  ins (.cmov .e (suffix X) (narrowed X elseReg) (narrowed X (temp1 X)))
  when (dest ≠ temp1 X) (ins (.mov (suffix X) (.reg (temp1 X)) dest))
  pure dest

/-! ## Binary operators -/

/-- `emit_move_left_to_dest`. -/
def emitMoveLeftToDest (X : Xlen) (emitLeft : Operation) (dest : Name) : Em Name := do
  let leftReg ← emitLeft dest
  when (leftReg ≠ dest) (ins (.mov (suffix X) (.reg (narrowed X leftReg)) (narrowed X dest)))
  pure dest

/-- `emit_binary_op_imm_fast`: neutral and absorbing immediates. -/
def emitBinaryOpImmFast (op : BinaryOp) (emitLeft : Operation) (right : Expr X) (dest : Name) :
    Option (Em Name) :=
  match right with
  | .imm imm =>
    let v := (Xlen.toU64 imm).toNat
    match op with
    | .add | .sub | .or | .xor => if v = 0 then some (emitMoveLeftToDest X emitLeft dest) else none
    | .and =>
      if v = 0 then some (do clear X dest; pure dest)
      else if v = 2 ^ X.value - 1 then some (emitMoveLeftToDest X emitLeft dest)
      else none
    | .mul =>
      if v = 0 then some (do clear X dest; pure dest)
      else if v = 1 then some (emitMoveLeftToDest X emitLeft dest)
      else none
    | _ => none
  | _ => none

/-- The instruction of an arithmetic operator. -/
def aluOp : BinaryOp → Option AluOp
  | .add => some .add
  | .sub => some .sub
  | .and => some .and
  | .or => some .or
  | .xor => some .xor
  | .mul => some .imul
  | _ => none

/-- The right operand of `emit_binary_op_in_place`: a small immediate or the register it is
evaluated to. -/
def inPlaceOperand (op : BinaryOp) (right : Expr X) (emitRight : Operation) : Em Operand :=
  let inRegister : Em Operand := do
    let rightReg ← emitRight (temp2 X)
    pure (.reg rightReg)
  match right with
  | .imm imm =>
    if op ≠ .mul ∧ (Xlen.toU64 imm).toNat ≤ 0x7fffffff then pure (.imm (Xlen.toU64 imm).toNat)
    else inRegister
  | _ => inRegister

/-- `emit_binary_op_in_place`: the left operand is the hot register that is also the destination. -/
def emitBinaryOpInPlace (op : BinaryOp) (left right : Expr X) (emitRight : Operation)
    (dest : Name) : Option (Em Name) :=
  match aluOp op, left with
  | some alu, .reg r =>
    if em.regMap.get X r = some dest then
      some (do
        let rightVal ← inPlaceOperand op right emitRight
        ins (.alu alu (suffix X) rightVal dest)
        pure dest)
    else none
  | _, _ => none

/-- `finish_binary`, `finish_unary`. -/
def finish (X : Xlen) (dest : Name) : Em Name := do
  when (dest ≠ temp1 X) (ins (.mov (suffix X) (.reg (temp1 X)) dest))
  pure dest

/-- The shift instruction of an operator and whether the operator works on words. -/
def shiftOp : BinaryOp → Option (ShiftOp × Bool)
  | .sll => some (.shl, false)
  | .srl => some (.shr, false)
  | .sra => some (.sar, false)
  | .sllW => some (.shl, true)
  | .srlW => some (.shr, true)
  | .sraW => some (.sar, true)
  | _ => none

/-- `emit_binary_shift`, after the left operand is in rax. -/
def emitBinaryShift (op : BinaryOp) (right : Expr X) (emitRight : Operation) (dest : Name) :
    Option (Em Name) :=
  (shiftOp op).map fun (x86Op, isWord) =>
    match right with
    | .imm imm => do
      let mask := if isWord ∨ X = .rv32 then 0x1f else 0x3f
      let shift := (Xlen.toU64 imm).toNat % (mask + 1)
      if op = .sll ∧ shift ≤ 3 ∧ shift > 0 then
        let t := temp1 X
        (if shift = 1 then ins (.lea (suffix X) 0 (some t) (some (t, 1)) t)
         else if shift = 2 then ins (.lea (suffix X) 0 none (some (t, 4)) t)
         else ins (.lea (suffix X) 0 none (some (t, 8)) t))
        finish X dest
      else if isWord then
        ins (.shiftImm x86Op .l shift eax)
        ins (.movsx .l .q (.reg eax) dest)
        pure dest
      else
        ins (.shiftImm x86Op (suffix X) shift (temp1 X))
        finish X dest
    | _ => do
      let rightReg ← emitRight (temp3 X)
      when (rightReg.reg ≠ .rcx) (ins (.mov .l (.reg (regDword rightReg)) ecx))
      if isWord then
        ins (.shiftCl x86Op .l eax)
        ins (.movsx .l .q (.reg eax) dest)
        pure dest
      else
        ins (.shiftCl x86Op (suffix X) (temp1 X))
        finish X dest

/-- The right operand of `emit_binary_word`: an immediate that is no non-negative `i32` counts as
0. -/
def wordOperand (right : Expr X) (emitRight : Operation) : Em Operand :=
  match right with
  | .imm imm =>
    let v := (Xlen.toU64 imm).toNat
    pure (.imm (if v ≤ 0x7fffffff then v else 0))
  | _ => do
    let rightReg ← emitRight (temp2 X)
    pure (.reg (regDword rightReg))

/-- `emit_binary_word`, after the left operand is in rax. -/
def emitBinaryWord (op : BinaryOp) (right : Expr X) (emitRight : Operation) (dest : Name) :
    Option (Em Name) :=
  let lower (alu : AluOp) : Em Name := do
    let rightVal ← wordOperand right emitRight
    ins (.alu alu .l rightVal eax)
    ins (.movsx .l .q (.reg eax) dest)
    pure dest
  match op with
  | .addW => some (lower .add)
  | .subW => some (lower .sub)
  | _ => none

/-- The right operand of the general path: an immediate is printed as a signed 64-bit number, any
other operand is evaluated for rcx. -/
def emitRightOperand (right : Expr X) (emitRight : Operation) : Em Operand :=
  match right with
  | .imm imm => pure (.imm (Xlen.toU64 imm).toInt)
  | _ => do
    let r ← emitRight (temp2 X)
    pure (.reg r)

/-- `emit_binary_arith`. -/
def emitBinaryArith (X : Xlen) (op : BinaryOp) (rightVal : Operand) (dest : Name) :
    Option (Em Name) :=
  let t := temp1 X
  match op with
  | .add => some do
    (match rightVal with
     | .imm v =>
       if -2 ^ 31 ≤ v ∧ v < 2 ^ 31 then ins (.lea (suffix X) v (some t) none t)
       else ins (.alu .add (suffix X) rightVal t)
     | _ => ins (.alu .add (suffix X) rightVal t))
    finish X dest
  | .sub => some do ins (.alu .sub (suffix X) rightVal t); finish X dest
  | .and => some do ins (.alu .and (suffix X) rightVal t); finish X dest
  | .or => some do ins (.alu .or (suffix X) rightVal t); finish X dest
  | .xor => some do ins (.alu .xor (suffix X) rightVal t); finish X dest
  | .mul => some do
    (match rightVal with
     | .imm _ => do
       ins (.mov (suffix X) rightVal (temp2 X))
       ins (.alu .imul (suffix X) (.reg (temp2 X)) t)
     | _ => ins (.alu .imul (suffix X) rightVal t))
    finish X dest
  | _ => none

/-- Load an immediate right operand into rcx; an operand in a register is taken to be there. -/
def loadRight (sz : Size) (rightVal : Operand) : Em Unit :=
  match rightVal with
  | .imm _ => ins (.mov sz rightVal ⟨.rcx, sz⟩)
  | _ => pure ()

/-- `cdq` or `cqo`: sign-extend rax into rdx. -/
def signRdx : Xlen → Em Unit
  | .rv32 => ins .cdq
  | .rv64 => ins .cqo

/-- `emit_binary_mul_special`. -/
def emitBinaryMulSpecial (X : Xlen) (op : BinaryOp) (rightVal : Operand) (dest : Name) :
    Option (Em Name) :=
  let sz := suffix X
  match op with
  | .mulW => some do
    loadRight .l rightVal
    ins (.alu .imul .l (.reg ecx) eax)
    ins (.movsx .l .q (.reg eax) dest)
    pure dest
  | .mulH => some do
    loadRight sz rightVal
    signRdx X
    ins (.mul true sz (temp2 X))
    ins (.mov sz (.reg ⟨.rdx, sz⟩) dest)
    pure dest
  | .mulHU => some do
    loadRight sz rightVal
    ins (.mul false sz (temp2 X))
    ins (.mov sz (.reg ⟨.rdx, sz⟩) dest)
    pure dest
  | .mulHSU => some do
    loadRight sz rightVal
    ins (.mul false sz (temp2 X))
    ins (.test sz (temp1 X) (temp1 X))
    let done ← nextLabel "mulhsu_done"
    ins (.jcc .ns done)
    ins (.alu .sub sz (.reg (temp2 X)) ⟨.rdx, sz⟩)
    emitLabel done
    ins (.mov sz (.reg ⟨.rdx, sz⟩) dest)
    pure dest
  | _ => none

/-- `emit_div_signed` (`wantRem` false) and `emit_rem_signed`. -/
def emitDivSigned (X : Xlen) (wantRem : Bool) (rightVal : Operand) (dest : Name) : Em Name := do
  let sz := suffix X
  let t2 := temp2 X
  let stem := if wantRem then "rem" else "div"
  loadRight sz rightVal
  let skip ← nextLabel (stem ++ "_skip")
  let done ← nextLabel (stem ++ "_done")
  ins (.test sz t2 t2)
  ins (.jcc .ne skip)
  ins (.mov sz (if wantRem then .reg (temp1 X) else .imm (-1)) dest)
  ins (.jmp done)
  emitLabel skip
  let noOv ← nextLabel (stem ++ "_no_ov")
  (match X with
   | .rv32 => ins (.cmp .l (.imm 0x80000000) eax)
   | .rv64 => do
     ins (.movabs 0x8000000000000000 rdx)
     ins (.cmp .q (.reg rdx) rax))
  ins (.jcc .ne noOv)
  ins (.cmp sz (.imm (-1)) t2)
  ins (.jcc .ne noOv)
  (if wantRem then clear X dest
   else
    match X with
    | .rv32 => ins (.mov .l (.imm 0x80000000) dest)
    | .rv64 => ins (.mov .q (.reg rdx) dest))
  ins (.jmp done)
  emitLabel noOv
  signRdx X
  ins (.div true sz t2)
  ins (.mov sz (.reg ⟨if wantRem then .rdx else .rax, sz⟩) dest)
  emitLabel done
  pure dest

/-- `emit_div_unsigned` (`wantRem` false) and `emit_rem_unsigned`. -/
def emitDivUnsigned (X : Xlen) (wantRem : Bool) (rightVal : Operand) (dest : Name) : Em Name := do
  let sz := suffix X
  let t2 := temp2 X
  let stem := if wantRem then "remu" else "divu"
  loadRight sz rightVal
  let doDiv ← nextLabel (stem ++ "_do")
  let done ← nextLabel (stem ++ "_done")
  ins (.test sz t2 t2)
  ins (.jcc .ne doDiv)
  ins (.mov sz (if wantRem then .reg (temp1 X) else .imm (-1)) dest)
  ins (.jmp done)
  emitLabel doDiv
  ins (.alu .xor .l (.reg edx) edx)
  ins (.div false sz t2)
  ins (.mov sz (.reg ⟨if wantRem then .rdx else .rax, sz⟩) dest)
  emitLabel done
  pure dest

/-- `emit_divw_signed` (`wantRem` false) and `emit_remw_signed`. -/
def emitDivWSigned (wantRem : Bool) (rightVal : Operand) (dest : Name) : Em Name := do
  let stem := if wantRem then "remw" else "divw"
  loadRight .l rightVal
  let skip ← nextLabel (stem ++ "_skip")
  let done ← nextLabel (stem ++ "_done")
  ins (.test .l ecx ecx)
  ins (.jcc .ne skip)
  (if wantRem then ins (.movsx .l .q (.reg eax) dest) else ins (.mov .q (.imm (-1)) dest))
  ins (.jmp done)
  emitLabel skip
  let noOv ← nextLabel (stem ++ "_no_ov")
  ins (.cmp .l (.imm 0x80000000) eax)
  ins (.jcc .ne noOv)
  ins (.cmp .l (.imm (-1)) ecx)
  ins (.jcc .ne noOv)
  (if wantRem then ins (.alu .xor .q (.reg dest) dest)
   else do
    ins (.mov .l (.imm 0x80000000) eax)
    ins (.movsx .l .q (.reg eax) dest))
  ins (.jmp done)
  emitLabel noOv
  ins .cdq
  ins (.div true .l ecx)
  ins (.movsx .l .q (.reg (if wantRem then edx else eax)) dest)
  emitLabel done
  pure dest

/-- `emit_divw_unsigned` (`wantRem` false) and `emit_remw_unsigned`. -/
def emitDivWUnsigned (wantRem : Bool) (rightVal : Operand) (dest : Name) : Em Name := do
  let stem := if wantRem then "remuw" else "divuw"
  loadRight .l rightVal
  let doDiv ← nextLabel (stem ++ "_do")
  let done ← nextLabel (stem ++ "_done")
  ins (.test .l ecx ecx)
  ins (.jcc .ne doDiv)
  (if wantRem then ins (.movsx .l .q (.reg eax) dest) else ins (.mov .q (.imm (-1)) dest))
  ins (.jmp done)
  emitLabel doDiv
  ins (.alu .xor .l (.reg edx) edx)
  ins (.div false .l ecx)
  ins (.movsx .l .q (.reg (if wantRem then edx else eax)) dest)
  emitLabel done
  pure dest

/-- `emit_binary_div_rem`. -/
def emitBinaryDivRem (X : Xlen) (op : BinaryOp) (rightVal : Operand) (dest : Name) :
    Option (Em Name) :=
  match op with
  | .div => some (emitDivSigned X false rightVal dest)
  | .divU => some (emitDivUnsigned X false rightVal dest)
  | .rem => some (emitDivSigned X true rightVal dest)
  | .remU => some (emitDivUnsigned X true rightVal dest)
  | .divW => some (emitDivWSigned false rightVal dest)
  | .divUW => some (emitDivWUnsigned false rightVal dest)
  | .remW => some (emitDivWSigned true rightVal dest)
  | .remUW => some (emitDivWUnsigned true rightVal dest)
  | _ => none

/-- The condition code of a comparison. -/
def setCond : BinaryOp → Option Cond
  | .eq => some .e
  | .ne => some .ne
  | .lt => some .l
  | .ge => some .ge
  | .ltu => some .b
  | .geu => some .ae
  | _ => none

/-- `emit_binary_compare`. -/
def emitBinaryCompare (X : Xlen) (op : BinaryOp) (rightVal : Operand) (dest : Name) :
    Option (Em Name) :=
  (setCond op).map fun c => do
    ins (.cmp (suffix X) rightVal (temp1 X))
    ins (.setcc c al)
    ins (.movzx .b .l (.reg al) (regDword dest))
    pure dest

/-- `emit_binary_general`, after the left operand is in rax: an operator that no helper knows leaves
the left operand. -/
def emitBinaryGeneral (op : BinaryOp) (right : Expr X) (emitRight : Operation) (dest : Name) :
    Em Name := do
  let rightVal ← emitRightOperand right emitRight
  ((((emitBinaryArith X op rightVal dest).orElse fun _ =>
    emitBinaryMulSpecial X op rightVal dest).orElse fun _ =>
    emitBinaryDivRem X op rightVal dest).orElse fun _ =>
    emitBinaryCompare X op rightVal dest).getD (finish X dest)

/-- The part of `emit_binary_op` that first evaluates the left operand into rax. -/
def emitBinaryOpViaRax (op : BinaryOp) (right : Expr X) (emitLeft emitRight : Operation)
    (dest : Name) : Em Name := do
  let leftReg ← emitLeft (temp1 X)
  when (leftReg ≠ temp1 X) (ins (.mov (suffix X) (.reg leftReg) (temp1 X)))
  ((emitBinaryShift op right emitRight dest).orElse fun _ =>
    emitBinaryWord op right emitRight dest).getD (emitBinaryGeneral op right emitRight dest)

/-- `emit_binary_op`. -/
def emitBinaryOp (op : BinaryOp) (left right : Expr X) (emitLeft emitRight : Operation)
    (dest : Name) : Em Name :=
  ((emitBinaryOpImmFast op emitLeft right dest).orElse fun _ =>
    emitBinaryOpInPlace em op left right emitRight dest).getD
    (emitBinaryOpViaRax op right emitLeft emitRight dest)

/-! ## Unary operators -/

/-- `emit_unary_extend`. -/
def emitUnaryExtend (X : Xlen) (op : UnaryOp) (dest : Name) : Option (Em Name) :=
  match op with
  | .sext8 => some do ins (.movsx .b (suffix X) (.reg al) dest); pure dest
  | .sext16 => some do ins (.movsx .w (suffix X) (.reg ax) dest); pure dest
  | .sext32 => some do ins (.movsx .l .q (.reg eax) dest); pure dest
  | .zext8 => some do ins (.movzx .b .l (.reg al) (regDword dest)); pure dest
  | .zext16 => some do ins (.movzx .w .l (.reg ax) (regDword dest)); pure dest
  | .zext32 => some do
    ins (.mov .l (.reg eax) eax)
    when (dest ≠ temp1 X) (ins (.mov .q (.reg (temp1 X)) dest))
    pure dest
  | _ => none

/-- `emit_unary_bitcount`. -/
def emitUnaryBitcount (X : Xlen) (op : UnaryOp) (dest : Name) : Option (Em Name) :=
  let sz := suffix X
  let t := temp1 X
  match op with
  | .clz => some do
    let zeroLabel ← nextLabel "clz_zero"
    let doneLabel ← nextLabel "clz_done"
    ins (.test sz t t)
    ins (.jcc .e zeroLabel)
    ins (.bsr sz t t)
    ins (.alu .xor sz (.imm (X.value - 1 : ℕ)) t)
    ins (.jmp doneLabel)
    emitLabel zeroLabel
    ins (.mov sz (.imm X.value) t)
    emitLabel doneLabel
    finish X dest
  | .ctz => some do
    let zeroLabel ← nextLabel "ctz_zero"
    let doneLabel ← nextLabel "ctz_done"
    ins (.test sz t t)
    ins (.jcc .e zeroLabel)
    ins (.bsf sz t t)
    ins (.jmp doneLabel)
    emitLabel zeroLabel
    ins (.mov sz (.imm X.value) t)
    emitLabel doneLabel
    finish X dest
  | _ => none

/-- `emit_unary_misc`. -/
def emitUnaryMisc (X : Xlen) (op : UnaryOp) (dest : Name) : Option (Em Name) :=
  match op with
  | .cpop => some do ins (.popcnt (suffix X) (temp1 X) (temp1 X)); finish X dest
  | .rev8 => some do ins (.bswap (suffix X) (temp1 X)); finish X dest
  | _ => none

/-- The negations of `emit_unary_op`. -/
def emitUnaryNegate (X : Xlen) (op : UnaryOp) (dest : Name) : Option (Em Name) :=
  match op with
  | .neg => some do ins (.neg (suffix X) (temp1 X)); finish X dest
  | .not => some do ins (.not (suffix X) (temp1 X)); finish X dest
  | _ => none

/-- `emit_unary_op`: an operator that no helper knows leaves its operand. -/
def emitUnaryOp (X : Xlen) (op : UnaryOp) (emitInner : Operation) (dest : Name) : Em Name := do
  let innerReg ← emitInner (temp1 X)
  when (innerReg ≠ temp1 X) (ins (.mov (suffix X) (.reg innerReg) (temp1 X)))
  ((((emitUnaryNegate X op dest).orElse fun _ => emitUnaryExtend X op dest).orElse fun _ =>
    emitUnaryBitcount X op dest).orElse fun _ => emitUnaryMisc X op dest).getD (finish X dest)

/-! ## Calls and the recursion over expressions -/

/-- The argument registers of the System V calling convention. -/
def argRegs : List Reg := [.rdi, .rsi, .rdx, .rcx, .r8, .r9]

/-- One round of the loop in `emit_extern_call`: move an argument to its register. -/
def emitExternArg (arg : Expr X) (emit : Operation) (reg : Reg) : Em Unit :=
  match arg with
  | .var "state" => ins (.mov .q (.reg statePtr) ⟨reg, .q⟩)
  | .reg r => do
    let src ← loadRvToTemp X em r ⟨reg, suffix X⟩
    when (src ≠ ⟨reg, suffix X⟩) (ins (.mov (suffix X) (.reg src) ⟨reg, suffix X⟩))
  | .imm val =>
    let v := Xlen.toU64 val
    match X with
    | .rv32 => ins (.mov .l (.imm (if v.toNat ≤ 0x7fffffff then v.toNat else 0)) ⟨reg, .l⟩)
    | .rv64 =>
      if v.toNat > 0x7fffffff then ins (.movabs v ⟨reg, .q⟩)
      else ins (.mov .q (.imm v.toNat) ⟨reg, .q⟩)
  | _ => do
    let tmp ← emit (temp1 X)
    when (tmp ≠ ⟨reg, suffix X⟩) (ins (.mov (suffix X) (.reg tmp) ⟨reg, suffix X⟩))

/-- `emit_extern_call`: arguments beyond the sixth are dropped, the others moved last to first. -/
def emitExternCall (fnName : String) (args : List (Expr X × Operation)) : Em Name := do
  saveHotRegsToState X em
  each (fun a => emitExternArg em a.1.1 a.1.2 a.2) (args.zip argRegs).reverse
  ins (.call fnName)
  restoreHotRegsFromState X em
  pure (temp1 X)

/-- `emit_expr_extern_call`. -/
def emitExprExternCall (fnName : String) (args : List (Expr X × Operation)) (dest : Name) :
    Em Name := do
  let ret ← emitExternCall em fnName args
  when (ret ≠ dest) (ins (.mov (suffix X) (.reg ret) (narrowed X dest)))
  pure dest

mutual

/-- `emit_expr`. -/
def emitExpr : Expr X → Operation
  | .imm val => emitExprImm val
  | .reg r => loadRvToTemp X em r
  | .mem base offset width signed => emitExprMem em base (emitExpr base) offset width signed
  | .memAddr addr width signed => emitExprMem em addr (emitExpr addr) 0 width signed
  | .pcConst val => emitExprPcConst val
  | .csr csr => fun dest =>
    if em.perfMode then do clear X dest; pure dest else emitExprCsr (X := X) em csr dest
  | .cycle => fun dest =>
    if em.perfMode then do clear X dest; pure dest else emitExprInstret (X := X) em dest
  | .instret => fun dest =>
    if em.perfMode then do clear X dest; pure dest else emitExprInstret (X := X) em dest
  | .pc => emitExprPc (X := X)
  | .exited => emitExprStateU8 .hasExited
  | .exitCode => emitExprStateU8 .exitCode
  | .resAddr => emitExprReservationAddr (X := X)
  | .resValid => emitExprStateU8 .resValid
  | .temp idx => emitExprTemp (X := X) idx
  | .var name => emitExprVar (X := X) name
  | .binary op left right => emitBinaryOp em op left right (emitExpr left) (emitExpr right)
  | .unary op inner => emitUnaryOp X op (emitExpr inner)
  | .externCall name args _ => emitExprExternCall em name (emitArgs args)
  | .ternary .select cond thenVal elseVal =>
    emitExprSelect X (emitExpr cond) (emitExpr thenVal) (emitExpr elseVal)
  | .traceIdx | .pcIdx => fun dest => do clear X dest; pure dest

/-- The arguments of a call, each with its emission. -/
def emitArgs : List (Expr X) → List (Expr X × Operation)
  | [] => []
  | e :: es => (e, emitExpr e) :: emitArgs es

end

end Expressions

/-! ## Statements -/

section Statements

variable {X : Xlen} (em : Emitter)

/-- `emit_write_reg`. -/
def emitWriteReg (r : ℕ) (value : Expr X) : Em Unit :=
  if r = 0 then pure ()
  else do
    coldCacheInvalidate r
    match em.regMap.get X r with
    | some n =>
      let valReg ← emitExpr em value n
      when (valReg ≠ n) (ins (.mov (suffix X) (.reg (narrowed X valReg)) (narrowed X n)))
      emitTraceRegWrite X em r valReg
    | none =>
      let valReg ← emitExpr em value (temp1 X)
      storeToRv X em r valReg
      emitTraceRegWrite X em r valReg

/-- The register part and size of a store. -/
def storeSize : ℕ → Size
  | 1 => .b
  | 2 => .w
  | 8 => .q
  | _ => .l

/-- `emit_write_mem`. -/
def emitWriteMem (base : Expr X) (offset : BitVec 16) (width : ℕ) (value : Expr X) : Em Unit := do
  let valReg ← emitExpr em value (temp2 X)
  when (valReg.reg ≠ .rcx) (ins (.mov (suffix X) (.reg valReg) (temp2 X)))
  emitAddress em base (emitExpr em base) offset
  emitTraceMemAccess X em rax (temp2 X) width true
  ins (.store (storeSize width) (.reg ⟨.rcx, storeSize width⟩) .guest)

/-- `emit_write_exit_code`, `emit_write_reservation_valid`. -/
def emitWriteByte (value : Expr X) (f : Field) : Em Unit := do
  let valReg ← emitExpr em value (temp1 X)
  storeField .b (.reg (regByte valReg)) f

/-- `emit_write_temp`. -/
def emitWriteTemp (idx : ℕ) (value : Expr X) : Em Unit := do
  let valReg ← emitExpr em value (temp1 X)
  match tempSlot idx with
  | some slot => ins (.store (suffix X) (.reg (narrowed X valReg)) (.slot slot))
  | none => pure ()

/-- `emit_write_stmt`.  A write of the exit flag always stores 1, a CSR write is not supported. -/
def emitWriteStmt (target : WriteTarget X) (value : Expr X) : Em Unit :=
  match target with
  | .reg r => emitWriteReg em r value
  | .mem base offset width => emitWriteMem em base offset width value
  | .pc => do
    let valReg ← emitExpr em value (temp1 X)
    storeField (suffix X) (.reg valReg) .pc
  | .exited => storeField .b (.imm 1) .hasExited
  | .exitCode => emitWriteByte em value .exitCode
  | .temp idx => emitWriteTemp em idx value
  | .resAddr => do
    let valReg ← emitExpr em value (temp1 X)
    storeField (suffix X) (.reg (narrowed X valReg)) .resAddr
  | .resValid => emitWriteByte em value .resValid
  | .csr _ => pure ()

mutual

/-- `emit_stmt`. -/
def emitStmt : Stmt X → Em Unit
  | .write target value => emitWriteStmt em target value
  | .ite cond thenStmts elseStmts => do
    let condReg ← emitExpr em cond (temp1 X)
    ins (.test (suffix X) condReg condReg)
    let elseLabel ← nextLabel "if_else"
    let endLabel ← nextLabel "if_end"
    ins (.jcc .e elseLabel)
    emitStmts thenStmts
    when (!elseStmts.isEmpty) (ins (.jmp endLabel))
    emitLabel elseLabel
    emitStmts elseStmts
    when (!elseStmts.isEmpty) (emitLabel endLabel)
  | .externCall fnName args => do
    coldCacheClear
    let _ ← emitExternCall em fnName (emitArgs em args)

def emitStmts : List (Stmt X) → Em Unit
  | [] => pure ()
  | s :: ss => do emitStmt s; emitStmts ss

end

mutual

/-- `stmt_writes_to_exited`. -/
def stmtWritesToExited : Stmt X → Bool
  | .write target _ =>
    match target with
    | .exited => true
    | _ => false
  | .ite _ thenStmts elseStmts => stmtsWriteToExited thenStmts || stmtsWriteToExited elseStmts
  | .externCall _ _ => false

def stmtsWriteToExited : List (Stmt X) → Bool
  | [] => false
  | s :: ss => stmtWritesToExited s || stmtsWriteToExited ss

end

end Statements

/-! ## Terminators and instructions -/

section Instructions

variable {X : Xlen} (em : Emitter)

/-- The resolved address of a terminator's target. -/
def resolved (target : X.Reg) : U64 := em.inputs.resolveAddress (Xlen.toU64 target)

/-- The resolved fall-through of a terminator. -/
def fallTarget (fall : Option X.Reg) (fallPc : U64) : U64 :=
  (fall.map (resolved em)).getD fallPc

/-- Whether an explicit fall-through has no code. -/
def fallInvalid (fall : Option X.Reg) : Bool :=
  fall.any fun t => !em.inputs.isValidAddress (resolved em t)

/-- Where a jump to a resolved address goes. -/
def jumpLabel (target : U64) : Label :=
  if em.inputs.isValidAddress target then .pc target else .trap

/-- The end of a `Fall` or `Branch`: nothing if the target follows in the text. -/
def emitFall (fall : Option X.Reg) (fallPc : U64) : Em Unit :=
  if fallInvalid em fall then ins (.jmp .trap)
  else if fallTarget em fall fallPc ≠ fallPc then ins (.jmp (.pc (fallTarget em fall fallPc)))
  else pure ()

/-- `emit_terminator`. -/
def emitTerminator (fallPc : U64) : Terminator X → Em Unit
  | .fall target => emitFall em target fallPc
  | .jump target => ins (.jmp (jumpLabel em (resolved em target)))
  | .jumpDyn addr _ => do
    let _ ← emitExprAsAddr em addr (emitExpr em addr)
    ins (.alu .and .q (.imm (-2)) rax)
    ins .dispatchJump
  | .branch cond target fall _ => do
    let condReg ← emitExpr em cond (temp1 X)
    ins (.test (suffix X) condReg condReg)
    ins (.jcc .ne (jumpLabel em (resolved em target)))
    emitFall em fall fallPc
  | .exit code => do
    let codeReg ← emitExpr em code (temp1 X)
    storeField .b (.imm 1) .hasExited
    storeField .b (.reg (regByte codeReg)) .exitCode
    ins (.jmp .exit)
  | .trap _ => ins (.jmp .trap)

/-- `emit_store_next_pc_imm`. -/
def emitStoreNextPcImm (X : Xlen) (nextPc : U64) : Em Unit :=
  match X with
  | .rv32 => storeField .l (.imm (if nextPc.toNat < 2 ^ 32 then nextPc.toNat else 0)) .pc
  | .rv64 =>
    if nextPc.toNat > 0x7fffffff then do
      ins (.movabs nextPc rdx)
      storeField .q (.reg rdx) .pc
    else storeField .q (.imm nextPc.toNat) .pc

/-- The code that leaves for `asm_exit` with the next pc in the state, shared by
`emit_instret_post_check` and `emit_instret_suspend_check`. -/
def emitSuspend (fallPc currentPc : U64) : Terminator X → Em Unit
  | .fall target =>
    if fallInvalid em target then ins (.jmp .trap)
    else do
      let targetPc := fallTarget em target fallPc
      emitStoreNextPcImm X (if targetPc = currentPc then fallPc else targetPc)
      ins (.jmp .exit)
  | .jump target =>
    if em.inputs.isValidAddress (resolved em target) then do
      emitStoreNextPcImm X (resolved em target)
      ins (.jmp .exit)
    else ins (.jmp .trap)
  | .jumpDyn addr _ => do
    let _ ← emitExprAsAddr em addr (emitExpr em addr)
    ins (.alu .and .q (.imm (-2)) rax)
    storeField (suffix X) (.reg (temp1 X)) .pc
    ins (.jmp .exit)
  | .branch cond target fall _ =>
    if fallInvalid em fall then ins (.jmp .trap)
    else if em.inputs.isValidAddress (resolved em target) then do
      let targetLabel ← nextLabel "instret_target"
      let doneLabel ← nextLabel "instret_done"
      let condReg ← emitExpr em cond (temp1 X)
      ins (.test (suffix X) condReg condReg)
      ins (.jcc .ne targetLabel)
      emitStoreNextPcImm X (fallTarget em fall fallPc)
      ins (.jmp doneLabel)
      emitLabel targetLabel
      emitStoreNextPcImm X (resolved em target)
      emitLabel doneLabel
      ins (.jmp .exit)
    else ins (.jmp .trap)
  | .exit _ | .trap _ => pure ()

/-- The comparison of the counter with the limit around `emitSuspend`. -/
def emitSuspendCheck (fallPc currentPc : U64) (term : Terminator X) : Em Unit := do
  let continueLabel ← nextLabel "instret_ok"
  ins (.mov .q (fieldOperand .targetInstret) rdx)
  ins (.cmp .q (.reg rdx) instretReg)
  ins (.jcc .b continueLabel)
  emitSuspend em fallPc currentPc term
  emitLabel continueLabel

/-- `emit_instret_post_check`. -/
def emitInstretPostCheck (fallPc currentPc : U64) (term : Terminator X) : Em Unit :=
  when em.instretMode.counts do
    ins (.alu .add .q (.imm 1) instretReg)
    when em.instretMode.suspends (emitSuspendCheck em fallPc currentPc term)

/-- `emit_instruction`; `emit_instructions` passes `is_last = true` for every instruction. -/
def emitInstruction (instr : InstrIR X) (fallPc : U64) : Em Unit := do
  let pc := Xlen.toU64 instr.pc
  emitTracePc X em pc instr.raw
  when (!em.instretMode.isPerInstruction) (emitInstretIncrement em)
  emitStmts em instr.statements
  -- the state pointer is printed without its percent sign, and `jneq`/`jnel` is no mnemonic
  when (stmtsWriteToExited instr.statements) do
    ins (.malformed "cmpb $0, has_exited(rbx)")
    ins (.malformed "jne{suffix} asm_exit")
  when em.instretMode.isPerInstruction (emitInstretPostCheck em fallPc pc instr.terminator)
  when (em.instretMode.suspends ∧ ¬ em.instretMode.isPerInstruction)
    (emitSuspendCheck em fallPc pc instr.terminator)
  emitTerminator em fallPc instr.terminator

/-- The pc that follows an instruction in the text: that of the next instruction in the list. -/
def followingPc (instr : InstrIR X) : List (InstrIR X) → U64
  | next :: _ => Xlen.toU64 next.pc
  | [] => Xlen.toU64 instr.pc + BitVec.ofNat 64 instr.size

/-- `emit_instructions`. -/
def emitInstructions : List (InstrIR X) → Em Unit
  | [] => pure ()
  | instr :: rest => do
    let pc := Xlen.toU64 instr.pc
    when (pc ∈ em.labelPcs) (emitPcLabel pc)
    emitInstruction em instr (followingPc instr rest)
    emitInstructions rest

end Instructions

end Rvr.X64
