import Rvr.Cfg.InstructionTable

/-!
# Instructions as the analysis sees them

The second half of `rvr-cfg/src/analysis/data.rs`: the analysis distinguishes ten kinds of
instructions and keeps the operands it needs of each.  The address and value helpers at the end of
`rvr-cfg/src/analysis/mod.rs` are here too.
-/

namespace Rvr

variable {X : Xlen}

/-! ## Address and value helpers -/

def addSigned (base : U64) (imm : BitVec 32) : U64 := base + imm.signExtend 64

def signExtendI32 (value : BitVec 32) : U64 := value.signExtend 64

/-- The address `size` bytes after `pc`. -/
def nextAddr (pc : U64) (size : ℕ) : U64 := pc + BitVec.ofNat 64 size

/-- Extend a loaded value of the given width to 64 bits. -/
def extendLoadedValue (value : U64) (width : ℕ) (isUnsigned : Bool) : U64 :=
  match width with
  | 1 =>
    let masked := value &&& 0xFF
    if isUnsigned then masked
    else if masked &&& 0x80 ≠ 0 then masked ||| 0xFFFFFFFFFFFFFF00
    else masked
  | 2 =>
    let masked := value &&& 0xFFFF
    if isUnsigned then masked
    else if masked &&& 0x8000 ≠ 0 then masked ||| 0xFFFFFFFFFFFF0000
    else masked
  | 4 =>
    let masked := value &&& 0xFFFFFFFF
    if isUnsigned then masked
    else if masked &&& 0x80000000 ≠ 0 then masked ||| 0xFFFFFFFF00000000
    else masked
  | _ => value

/-- The destination register named by the operands, if it is not `x0`. -/
def extractWrittenReg : InstrArgs → Option ℕ
  | .R rd _ _ | .R4 rd _ _ _ | .I rd _ _ | .U rd _ | .J rd _ | .Csr rd _ _ | .CsrI rd _ _
  | .Amo rd _ _ _ _ => if rd = 0 then none else some rd
  | .S _ _ _ | .B _ _ _ | .none | .custom _ => none

/-! ## Kinds -/

inductive InstrKind
  | unknown | lui | auipc | addi | add | move | jal | jalr | load | branch
  deriving DecidableEq, Repr

/-- An instruction with the operands that the analysis reads. -/
structure DecodedInstruction where
  kind : InstrKind
  rd : Option ℕ
  rs1 : Option ℕ
  rs2 : Option ℕ
  imm : BitVec 32
  loadWidthBytes : ℕ
  isUnsigned : Bool
  deriving DecidableEq

namespace DecodedInstruction

def unknown : DecodedInstruction := ⟨.unknown, none, none, none, 0, 0, false⟩

def decodeU (instr : DecodedInstr X) (kind : InstrKind) : DecodedInstruction :=
  match instr.args with
  | .U rd imm => ⟨kind, some rd, none, none, imm, 0, false⟩
  | _ => unknown

def decodeI (instr : DecodedInstr X) (kind : InstrKind) : DecodedInstruction :=
  match instr.args with
  | .I rd rs1 imm => ⟨kind, some rd, some rs1, none, imm, 0, false⟩
  | _ => unknown

def decodeR (instr : DecodedInstr X) (kind : InstrKind) : DecodedInstruction :=
  match instr.args with
  | .R rd rs1 rs2 => ⟨kind, some rd, some rs1, some rs2, 0, 0, false⟩
  | _ => unknown

/-- `c.mv` copies its second operand. -/
def decodeMv (instr : DecodedInstr X) : DecodedInstruction :=
  match instr.args with
  | .R rd _ rs2 => ⟨.move, some rd, some rs2, none, 0, 0, false⟩
  | _ => unknown

def decodeJ (instr : DecodedInstr X) (kind : InstrKind) : DecodedInstruction :=
  match instr.args with
  | .J rd imm => ⟨kind, some rd, none, none, imm, 0, false⟩
  | _ => unknown

/-- Width and zero-extension flag of a load; the flag is not used for full-width loads. -/
def loadShape : OpId → ℕ × Bool
  | .i .lb => (1, false)
  | .i .lbu => (1, true)
  | .i .lh => (2, false)
  | .i .lhu => (2, true)
  | .i .lw | .c .lw | .c .lwsp => (4, false)
  | .i .lwu => (4, true)
  | .i .ld | .c .ld | .c .ldsp => (8, false)
  | _ => (0, false)

def decodeLoad (opid : OpId) (instr : DecodedInstr X) : DecodedInstruction :=
  match instr.args with
  | .I rd rs1 imm =>
    ⟨.load, some rd, some rs1, none, imm, (loadShape opid).1, (loadShape opid).2⟩
  | _ => unknown

def decodeBranch (instr : DecodedInstr X) : DecodedInstruction :=
  match instr.args with
  | .B rs1 rs2 imm => ⟨.branch, none, some rs1, some rs2, imm, 0, false⟩
  | _ => unknown

def fromInstr (instr : DecodedInstr X) : DecodedInstruction :=
  match instr.opid with
  | .i .lui | .c .lui => decodeU instr .lui
  | .i .auipc => decodeU instr .auipc
  | .i .addi | .c .addi | .c .addi16sp | .c .addi4spn | .c .li => decodeI instr .addi
  | .i .add | .c .add => decodeR instr .add
  | .c .mv => decodeMv instr
  | .i .jal | .c .j | .c .jal => decodeJ instr .jal
  | .i .jalr | .c .jr | .c .jalr => decodeI instr .jalr
  | .i .lb | .i .lbu | .i .lh | .i .lhu | .i .lw | .i .lwu | .i .ld | .c .lw | .c .lwsp | .c .ld
  | .c .ldsp => decodeLoad instr.opid instr
  | .i .beq | .i .bne | .i .blt | .i .bge | .i .bltu | .i .bgeu | .c .beqz | .c .bnez =>
    decodeBranch instr
  | _ => { unknown with rd := extractWrittenReg instr.args }

def isControlFlow (d : DecodedInstruction) : Bool :=
  d.kind = .jal ∨ d.kind = .jalr ∨ d.kind = .branch

/-- A jump with a link register. -/
def isStaticCall (d : DecodedInstruction) : Bool := d.kind = .jal ∧ d.rd ≠ some 0

def isCall (d : DecodedInstruction) : Bool :=
  match d.kind with
  | .jal | .jalr => d.rd ≠ some 0
  | _ => false

/-- `jalr x0, x1, _`. -/
def isReturn (d : DecodedInstruction) : Bool := d.kind = .jalr ∧ d.rd = some 0 ∧ d.rs1 = some 1

/-- A tail or switch jump: `jalr x0, rs1, _` with `rs1` other than `ra`. -/
def isIndirectJump (d : DecodedInstruction) : Bool :=
  d.kind = .jalr ∧ d.rd = some 0 ∧ d.rs1 ≠ some 1

end DecodedInstruction

end Rvr
