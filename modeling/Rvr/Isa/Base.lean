import Rvr.Isa.Types

/-!
# The base I extension

Decoding and lifting of RV32I/RV64I (`rvr-isa/src/extensions/base`).  Rust arithmetic on the pc is
read modulo `2 ^ 64`.  The source narrows load and store offsets with
`i16::try_from(..).expect(..)`; `toI16` truncates, which is the same thing on the 12-bit immediates
the decoder produces.
-/

namespace Rvr

/-- `i16::try_from(imm).expect(..)`. -/
def toI16 (imm : BitVec 32) : BitVec 16 := imm.setWidth 16

/-! ## Decode -/

section Decode

def decodeBranch (funct3 rs1 rs2 : ℕ) (instr : BitVec 32) : Option (OpId × InstrArgs) :=
  let imm := decodeBImm instr
  let op : Option BaseOp :=
    match funct3 with
    | 0 => some .beq
    | 1 => some .bne
    | 4 => some .blt
    | 5 => some .bge
    | 6 => some .bltu
    | 7 => some .bgeu
    | _ => none
  op.map fun op => (.i op, .B rs1 rs2 imm)

def decodeLoad (X : Xlen) (funct3 rd rs1 : ℕ) (instr : BitVec 32) : Option (OpId × InstrArgs) :=
  let imm := decodeIImm instr
  let op : Option BaseOp :=
    match funct3 with
    | 0 => some .lb
    | 1 => some .lh
    | 2 => some .lw
    | 3 => if X.value = 64 then some .ld else none
    | 4 => some .lbu
    | 5 => some .lhu
    | 6 => if X.value = 64 then some .lwu else none
    | _ => none
  op.map fun op => (.i op, .I rd rs1 imm)

def decodeStore (X : Xlen) (funct3 rs1 rs2 : ℕ) (instr : BitVec 32) : Option (OpId × InstrArgs) :=
  let imm := decodeSImm instr
  let op : Option BaseOp :=
    match funct3 with
    | 0 => some .sb
    | 1 => some .sh
    | 2 => some .sw
    | 3 => if X.value = 64 then some .sd else none
    | _ => none
  op.map fun op => (.i op, .S rs1 rs2 imm)

/-- Register-immediate operations.  The shifts keep six bits of shift amount at either width. -/
def decodeOpImm (funct3 funct7 rd rs1 : ℕ) (instr : BitVec 32) : Option (OpId × InstrArgs) :=
  let imm := decodeIImm instr
  let shamt := (instr >>> 20) &&& 0x3F
  let op : Option BaseOp :=
    match funct3 with
    | 0 => some .addi
    | 1 => if funct7 &&& 0xFE = 0 then some .slli else none
    | 2 => some .slti
    | 3 => some .sltiu
    | 4 => some .xori
    | 5 =>
      if funct7 &&& 0xFE = 0 then some .srli
      else if funct7 &&& 0xFE = 0x20 then some .srai
      else none
    | 6 => some .ori
    | 7 => some .andi
    | _ => none
  let imm := if funct3 = 1 ∨ funct3 = 5 then shamt else imm
  op.map fun op => (.i op, .I rd rs1 imm)

def decodeOpImm32 (funct3 funct7 rd rs1 : ℕ) (instr : BitVec 32) : Option (OpId × InstrArgs) :=
  let imm := decodeIImm instr
  let shamt := (instr >>> 20) &&& 0x1F
  let op : Option BaseOp :=
    match funct3 with
    | 0 => some .addiw
    | 1 => if funct7 = 0 then some .slliw else none
    | 5 => if funct7 = 0 then some .srliw else if funct7 = 0x20 then some .sraiw else none
    | _ => none
  let imm := if funct3 = 1 ∨ funct3 = 5 then shamt else imm
  op.map fun op => (.i op, .I rd rs1 imm)

def decodeOp (funct3 funct7 rd rs1 rs2 : ℕ) : Option (OpId × InstrArgs) :=
  let op : Option BaseOp :=
    match funct7, funct3 with
    | 0x00, 0 => some .add
    | 0x20, 0 => some .sub
    | 0x00, 1 => some .sll
    | 0x00, 2 => some .slt
    | 0x00, 3 => some .sltu
    | 0x00, 4 => some .xor
    | 0x00, 5 => some .srl
    | 0x20, 5 => some .sra
    | 0x00, 6 => some .or
    | 0x00, 7 => some .and
    | _, _ => none
  op.map fun op => (.i op, .R rd rs1 rs2)

def decodeOp32 (funct3 funct7 rd rs1 rs2 : ℕ) : Option (OpId × InstrArgs) :=
  let op : Option BaseOp :=
    match funct7, funct3 with
    | 0x00, 0 => some .addw
    | 0x20, 0 => some .subw
    | 0x00, 1 => some .sllw
    | 0x00, 5 => some .srlw
    | 0x20, 5 => some .sraw
    | _, _ => none
  op.map fun op => (.i op, .R rd rs1 rs2)

def decodeSystem (instr : BitVec 32) : Option (OpId × InstrArgs) :=
  if instr = 0x00000073 then some (.i .ecall, .none)
  else if instr = 0x00100073 then some (.i .ebreak, .none)
  else if instr = 0x30200073 then some (.i .mret, .none)
  else none

/-- `decode_32bit`: the opcode selects a format decoder. -/
def decode32bit (X : Xlen) (instr : BitVec 32) (pc : X.Reg) : Option (DecodedInstr X) :=
  let funct3 := decodeFunct3 instr
  let funct7 := decodeFunct7 instr
  let rd := decodeRd instr
  let rs1 := decodeRs1 instr
  let rs2 := decodeRs2 instr
  let found : Option (OpId × InstrArgs) :=
    match decodeOpcode instr with
    | 0x37 => some (.i .lui, .U rd (decodeUImm instr))
    | 0x17 => some (.i .auipc, .U rd (decodeUImm instr))
    | 0x6F => some (.i .jal, .J rd (decodeJImm instr))
    | 0x67 => if funct3 = 0 then some (.i .jalr, .I rd rs1 (decodeIImm instr)) else none
    | 0x63 => decodeBranch funct3 rs1 rs2 instr
    | 0x03 => decodeLoad X funct3 rd rs1 instr
    | 0x23 => decodeStore X funct3 rs1 rs2 instr
    | 0x13 => decodeOpImm funct3 funct7 rd rs1 instr
    | 0x1B => if X.value = 64 then decodeOpImm32 funct3 funct7 rd rs1 instr else none
    | 0x33 => if funct7 ≠ 0x01 then decodeOp funct3 funct7 rd rs1 rs2 else none
    | 0x3B =>
      if X.value = 64 ∧ funct7 ≠ 0x01 then decodeOp32 funct3 funct7 rd rs1 rs2 else none
    | 0x0F => if funct3 = 0 then some (.i .fence, .none) else none
    | 0x73 => if funct3 = 0 then decodeSystem instr else none
    | _ => none
  found.map fun (opid, args) => ⟨opid, pc, 4, instr, args⟩

end Decode

/-! ## Lift -/

section Lift

variable {X : Xlen}

/-- The body of a lifted instruction: its statements and its terminator. -/
abbrev Lifted (X : Xlen) := List (Stmt X) × Terminator X

/-- The body of an instruction whose arguments have the wrong format. -/
def invalidArgs : Lifted X := ([], .trap "invalid args")

/-- A register write that is left out when rd is `x0`. -/
def writeRd (rd : ℕ) (value : Expr X) : List (Stmt X) :=
  if rd ≠ 0 then [.writeReg rd value] else []

def liftR (args : InstrArgs) (op : Expr X → Expr X → Expr X) : Lifted X :=
  match args with
  | .R rd rs1 rs2 => (writeRd rd (op (.read rs1) (.read rs2)), .fall none)
  | _ => invalidArgs

/-- R-type shift: rs2 is masked by XLEN-1. -/
def liftShift (args : InstrArgs) (op : Expr X → Expr X → Expr X) : Lifted X :=
  match args with
  | .R rd rs1 rs2 =>
    let mask := X.fromU64 (BitVec.ofNat 64 (X.value - 1))
    let maskedShamt := Expr.and (.read rs2) (.imm mask)
    (writeRd rd (op (.read rs1) maskedShamt), .fall none)
  | _ => invalidArgs

/-- R-type 32-bit shift: rs2 is masked by 0x1f. -/
def liftShiftw (args : InstrArgs) (op : Expr X → Expr X → Expr X) : Lifted X :=
  match args with
  | .R rd rs1 rs2 =>
    let maskedShamt := Expr.and (.read rs2) (.imm (X.fromU64 0x1f))
    (writeRd rd (op (.read rs1) maskedShamt), .fall none)
  | _ => invalidArgs

def liftI (args : InstrArgs) (op : Expr X → Expr X → Expr X) : Lifted X :=
  match args with
  | .I rd rs1 imm =>
    (writeRd rd (op (.read rs1) (.imm (X.fromU64 (imm.signExtend 64)))), .fall none)
  | _ => invalidArgs

def liftShamt (args : InstrArgs) (op : Expr X → Expr X → Expr X) : Lifted X :=
  match args with
  | .I rd rs1 imm =>
    (writeRd rd (op (.read rs1) (.imm (X.fromU64 ((imm &&& 0x3F).setWidth 64)))), .fall none)
  | _ => invalidArgs

def liftLui (args : InstrArgs) : Lifted X :=
  match args with
  | .U rd imm => (writeRd rd (.imm (X.fromU64 (imm.signExtend 64))), .fall none)
  | _ => invalidArgs

def liftAuipc (args : InstrArgs) (pc : X.Reg) : Lifted X :=
  match args with
  | .U rd imm =>
    (writeRd rd (.imm (X.fromU64 (Xlen.toU64 pc + imm.signExtend 64))), .fall none)
  | _ => invalidArgs

def liftLoad (args : InstrArgs) (width : ℕ) (signed : Bool) : Lifted X :=
  match args with
  | .I rd rs1 imm => (writeRd rd (.mem (.read rs1) (toI16 imm) width signed), .fall none)
  | _ => invalidArgs

/-- Every store also clears the reservation. -/
def liftStore (args : InstrArgs) (width : ℕ) : Lifted X :=
  match args with
  | .S rs1 rs2 imm =>
    ([.writeMem (.read rs1) (toI16 imm) (.read rs2) width,
      .writeResValid (.imm (X.fromU64 0))], .fall none)
  | _ => invalidArgs

/-- `pc + imm` as the branch and jump lifts compute it: the immediate is sign-extended to the
register width, and the sum is taken in 64 bits and truncated. -/
def pcRelative (pc : X.Reg) (imm : BitVec 32) : X.Reg :=
  X.fromU64 (Xlen.toU64 pc + Xlen.toU64 (X.signExtend32 imm))

/-- The link value of a jump. -/
def linkValue (pc : X.Reg) (size : ℕ) : X.Reg := pc + X.fromU64 (BitVec.ofNat 64 size)

def liftJal (args : InstrArgs) (pc : X.Reg) (size : ℕ) : Lifted X :=
  match args with
  | .J rd imm => (writeRd rd (.imm (linkValue pc size)), .jump (pcRelative pc imm))
  | _ => invalidArgs

/-- When rd is also the base register, the base is saved in a temporary before the link write. -/
def liftJalr (args : InstrArgs) (pc : X.Reg) (size : ℕ) : Lifted X :=
  match args with
  | .I rd rs1 imm =>
    let saved : List (Stmt X) := if rd = rs1 then [.writeTemp 0 (.read rs1)] else []
    let base : Expr X := if rd = rs1 then .temp 0 else .read rs1
    let target := Expr.and (Expr.add base (.imm (X.fromU64 (imm.signExtend 64))))
      (.imm (X.fromU64 (~~~1)))
    (saved ++ writeRd rd (.imm (linkValue pc size)), .jumpDyn target none)
  | _ => invalidArgs

def liftBranch (args : InstrArgs) (pc : X.Reg) (cond : Expr X → Expr X → Expr X) : Lifted X :=
  match args with
  | .B rs1 rs2 imm =>
    ([], .branch (cond (.read rs1) (.read rs2)) (pcRelative pc imm) none .none)
  | _ => invalidArgs

/-- `lift_base` on the operations of the extension. -/
def liftBaseOp (args : InstrArgs) (op : BaseOp) (pc : X.Reg) (size : ℕ) : Lifted X :=
  match op with
  | .add => liftR args .add
  | .sub => liftR args .sub
  | .sll => liftShift args .sll
  | .slt => liftR args .slt
  | .sltu => liftR args .sltu
  | .xor => liftR args .xor
  | .srl => liftShift args .srl
  | .sra => liftShift args .sra
  | .or => liftR args .or
  | .and => liftR args .and
  | .addi => liftI args .add
  | .slti => liftI args .slt
  | .sltiu => liftI args .sltu
  | .xori => liftI args .xor
  | .ori => liftI args .or
  | .andi => liftI args .and
  | .slli => liftShamt args .sll
  | .srli => liftShamt args .srl
  | .srai => liftShamt args .sra
  | .addw => liftR args .addw
  | .subw => liftR args .subw
  | .sllw => liftShiftw args .sllw
  | .srlw => liftShiftw args .srlw
  | .sraw => liftShiftw args .sraw
  | .addiw => liftI args .addw
  | .slliw => liftShamt args .sllw
  | .srliw => liftShamt args .srlw
  | .sraiw => liftShamt args .sraw
  | .lui => liftLui args
  | .auipc => liftAuipc args pc
  | .lb => liftLoad args 1 true
  | .lh => liftLoad args 2 true
  | .lw => liftLoad args 4 true
  | .ld => liftLoad args 8 false
  | .lbu => liftLoad args 1 false
  | .lhu => liftLoad args 2 false
  | .lwu => liftLoad args 4 false
  | .sb => liftStore args 1
  | .sh => liftStore args 2
  | .sw => liftStore args 4
  | .sd => liftStore args 8
  | .jal => liftJal args pc size
  | .jalr => liftJalr args pc size
  | .beq => liftBranch args pc .eq
  | .bne => liftBranch args pc .ne
  | .blt => liftBranch args pc .lt
  | .bge => liftBranch args pc .ge
  | .bltu => liftBranch args pc .ltu
  | .bgeu => liftBranch args pc .geu
  | .ecall => ([], .trap "ecall: use ExtensionRegistry")
  | .ebreak => ([], .exit (.imm (X.fromU64 0)))
  | .fence => ([], .fall none)
  | .mret => ([], .fall none)

/-- `lift_base`. -/
def liftBase (args : InstrArgs) (opid : OpId) (pc : X.Reg) (size : ℕ) : Lifted X :=
  match opid with
  | .i op => liftBaseOp args op pc size
  | _ => ([], .trap "unknown base instruction")

end Lift

end Rvr
