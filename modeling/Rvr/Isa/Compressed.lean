import Rvr.Isa.Base

/-!
# The C extension

Decoding and lifting of compressed instructions (`rvr-isa/src/extensions/c`).  Offsets and shift
amounts are assembled in 16 bits; signed ones are sign-extended there by a left and an arithmetic
right shift.  A halfword that no quadrant decoder accepts becomes `c.invalid`, which traps.
-/

namespace Rvr

section Immediates

variable (instr : BitVec 16)

def decodeAddi4spnImm : BitVec 16 :=
  (((instr >>> 6) &&& 0x1) <<< 2) ||| (((instr >>> 5) &&& 0x1) <<< 3) |||
    (((instr >>> 11) &&& 0x3) <<< 4) ||| (((instr >>> 7) &&& 0xF) <<< 6)

def decodeClLwOffset : BitVec 16 :=
  (((instr >>> 6) &&& 0x1) <<< 2) ||| (((instr >>> 10) &&& 0x7) <<< 3) |||
    (((instr >>> 5) &&& 0x1) <<< 6)

def decodeCsSwOffset : BitVec 16 := decodeClLwOffset instr

def decodeClLdOffset : BitVec 16 :=
  (((instr >>> 10) &&& 0x7) <<< 3) ||| (((instr >>> 5) &&& 0x3) <<< 6)

def decodeCsSdOffset : BitVec 16 := decodeClLdOffset instr

def decodeCiImm : BitVec 16 :=
  let imm := ((instr >>> 2) &&& 0x1F) ||| (((instr >>> 12) &&& 0x1) <<< 5)
  (imm <<< 10).sshiftRight 10

def decodeCjImm : BitVec 16 :=
  let imm := (((instr >>> 3) &&& 0x7) <<< 1) ||| (((instr >>> 11) &&& 0x1) <<< 4) |||
    (((instr >>> 2) &&& 0x1) <<< 5) ||| (((instr >>> 7) &&& 0x1) <<< 6) |||
    (((instr >>> 6) &&& 0x1) <<< 7) ||| (((instr >>> 9) &&& 0x3) <<< 8) |||
    (((instr >>> 8) &&& 0x1) <<< 10) ||| (((instr >>> 12) &&& 0x1) <<< 11)
  (imm <<< 4).sshiftRight 4

def decodeCi16spImm : BitVec 16 :=
  let imm := (((instr >>> 6) &&& 0x1) <<< 4) ||| (((instr >>> 2) &&& 0x1) <<< 5) |||
    (((instr >>> 5) &&& 0x1) <<< 6) ||| (((instr >>> 3) &&& 0x3) <<< 7) |||
    (((instr >>> 12) &&& 0x1) <<< 9)
  (imm <<< 6).sshiftRight 6

def decodeCiLuiImm : BitVec 32 :=
  let imm := (((instr >>> 2) &&& 0x1F) ||| (((instr >>> 12) &&& 0x1) <<< 5)).setWidth 32
  ((imm <<< 12) <<< 14).sshiftRight 14

def decodeCiShamt : BitVec 16 :=
  ((instr >>> 2) &&& 0x1F) ||| (((instr >>> 12) &&& 0x1) <<< 5)

def decodeCbImm : BitVec 16 :=
  let imm := (((instr >>> 3) &&& 0x3) <<< 1) ||| (((instr >>> 10) &&& 0x3) <<< 3) |||
    (((instr >>> 2) &&& 0x1) <<< 5) ||| (((instr >>> 5) &&& 0x3) <<< 6) |||
    (((instr >>> 12) &&& 0x1) <<< 8)
  (imm <<< 7).sshiftRight 7

def decodeCiLwspOffset : BitVec 16 :=
  (((instr >>> 4) &&& 0x7) <<< 2) ||| (((instr >>> 12) &&& 0x1) <<< 5) |||
    (((instr >>> 2) &&& 0x3) <<< 6)

def decodeCssSwspOffset : BitVec 16 :=
  (((instr >>> 9) &&& 0xF) <<< 2) ||| (((instr >>> 7) &&& 0x3) <<< 6)

def decodeCiLdspOffset : BitVec 16 :=
  (((instr >>> 5) &&& 0x3) <<< 3) ||| (((instr >>> 12) &&& 0x1) <<< 5) |||
    (((instr >>> 2) &&& 0x7) <<< 6)

def decodeCssSdspOffset : BitVec 16 :=
  (((instr >>> 10) &&& 0x7) <<< 3) ||| (((instr >>> 7) &&& 0x7) <<< 6)

/-- The three-bit register field at `lo`, naming one of `x8` to `x15`. -/
def regField3 (lo : ℕ) : ℕ := ((instr >>> lo) &&& 0x7).toNat + 8

/-- The five-bit register field at `lo`. -/
def regField5 (lo : ℕ) : ℕ := ((instr >>> lo) &&& 0x1F).toNat

end Immediates

/-! ## Decode -/

section Decode

variable (X : Xlen) (instr : BitVec 16)

def decodeQ0 (funct3 : ℕ) : Option (COp × InstrArgs) :=
  match funct3 with
  | 0b000 =>
    let nzuimm := decodeAddi4spnImm instr
    if nzuimm = 0 then none
    else some (.addi4spn, .I (regField3 instr 2) 2 (nzuimm.setWidth 32))
  | 0b010 =>
    some (.lw, .I (regField3 instr 2) (regField3 instr 7) ((decodeClLwOffset instr).setWidth 32))
  | 0b011 =>
    if X.value = 64 then
      some (.ld, .I (regField3 instr 2) (regField3 instr 7) ((decodeClLdOffset instr).setWidth 32))
    else none
  | 0b110 =>
    some (.sw, .S (regField3 instr 7) (regField3 instr 2) ((decodeCsSwOffset instr).setWidth 32))
  | 0b111 =>
    if X.value = 64 then
      some (.sd, .S (regField3 instr 7) (regField3 instr 2) ((decodeCsSdOffset instr).setWidth 32))
    else none
  | _ => none

def decodeQ1Addi : COp × InstrArgs :=
  let rd := regField5 instr 7
  let imm := decodeCiImm instr
  if rd = 0 ∧ imm = 0 then (.nop, .none) else (.addi, .I rd rd (imm.signExtend 32))

def decodeQ1AddiwOrJal : Option (COp × InstrArgs) :=
  if X.value = 64 then
    let rd := regField5 instr 7
    if rd = 0 then none else some (.addiw, .I rd rd ((decodeCiImm instr).signExtend 32))
  else some (.jal, .J 1 ((decodeCjImm instr).signExtend 32))

def decodeQ1Addi16spOrLui : Option (COp × InstrArgs) :=
  let rd := regField5 instr 7
  if rd = 2 then
    let imm := decodeCi16spImm instr
    if imm = 0 then none else some (.addi16sp, .I 2 2 (imm.signExtend 32))
  else
    let imm := decodeCiLuiImm instr
    if imm = 0 ∨ rd = 0 then none else some (.lui, .U rd imm)

def decodeMiscAlu : Option (COp × InstrArgs) :=
  let rd := regField3 instr 7
  match ((instr >>> 10) &&& 0x3).toNat with
  | 0b00 => some (.srli, .I rd rd ((decodeCiShamt instr).setWidth 32))
  | 0b01 => some (.srai, .I rd rd ((decodeCiShamt instr).setWidth 32))
  | 0b10 => some (.andi, .I rd rd ((decodeCiImm instr).signExtend 32))
  | 0b11 =>
    let rs2 := regField3 instr 2
    let funct2Low := ((instr >>> 5) &&& 0x3).toNat
    let op : Option COp :=
      if ((instr >>> 12) &&& 0x1).toNat = 0 then
        match funct2Low with
        | 0b00 => some .sub
        | 0b01 => some .xor
        | 0b10 => some .or
        | 0b11 => some .and
        | _ => none
      else if X.value ≠ 64 then none
      else
        match funct2Low with
        | 0b00 => some .subw
        | 0b01 => some .addw
        | _ => none
    op.map fun op => (op, .R rd rd rs2)
  | _ => none

def decodeQ1 (funct3 : ℕ) : Option (COp × InstrArgs) :=
  match funct3 with
  | 0b000 => some (decodeQ1Addi instr)
  | 0b001 => decodeQ1AddiwOrJal X instr
  | 0b010 => some (.li, .I (regField5 instr 7) 0 ((decodeCiImm instr).signExtend 32))
  | 0b011 => decodeQ1Addi16spOrLui instr
  | 0b100 => decodeMiscAlu X instr
  | 0b101 => some (.j, .J 0 ((decodeCjImm instr).signExtend 32))
  | 0b110 => some (.beqz, .B (regField3 instr 7) 0 ((decodeCbImm instr).signExtend 32))
  | 0b111 => some (.bnez, .B (regField3 instr 7) 0 ((decodeCbImm instr).signExtend 32))
  | _ => none

/-- The register forms of quadrant 2: jumps, moves, adds and `c.ebreak`. -/
def decodeQ2Reg : Option (COp × InstrArgs) :=
  let rs1 := regField5 instr 7
  let rs2 := regField5 instr 2
  if ((instr >>> 12) &&& 0x1).toNat = 0 then
    if rs2 = 0 then
      if rs1 = 0 then none else some (.jr, .I 0 rs1 0)
    else some (.mv, .R rs1 0 rs2)
  else if rs1 = 0 ∧ rs2 = 0 then some (.ebreak, .none)
  else if rs2 = 0 then some (.jalr, .I 1 rs1 0)
  else some (.add, .R rs1 rs1 rs2)

def decodeQ2 (funct3 : ℕ) : Option (COp × InstrArgs) :=
  let rd := regField5 instr 7
  match funct3 with
  | 0b000 =>
    if rd = 0 then none else some (.slli, .I rd rd ((decodeCiShamt instr).setWidth 32))
  | 0b010 =>
    if rd = 0 then none else some (.lwsp, .I rd 2 ((decodeCiLwspOffset instr).setWidth 32))
  | 0b011 =>
    if X.value = 64 then
      if rd = 0 then none else some (.ldsp, .I rd 2 ((decodeCiLdspOffset instr).setWidth 32))
    else none
  | 0b100 => decodeQ2Reg instr
  | 0b110 => some (.swsp, .S 2 (regField5 instr 2) ((decodeCssSwspOffset instr).setWidth 32))
  | 0b111 =>
    if X.value = 64 then
      some (.sdsp, .S 2 (regField5 instr 2) ((decodeCssSdspOffset instr).setWidth 32))
    else none
  | _ => none

/-- `decode16`: never fails; a halfword without a decoding is `c.invalid`. -/
def decodeC (pc : X.Reg) : Option (DecodedInstr X) :=
  let funct3 := ((instr >>> 13) &&& 0x7).toNat
  let result : Option (COp × InstrArgs) :=
    match (instr &&& 0x3).toNat with
    | 0b00 => decodeQ0 X instr funct3
    | 0b01 => decodeQ1 X instr funct3
    | 0b10 => decodeQ2 X instr funct3
    | _ => none
  let (op, args) := result.getD (.invalid, .I 0 0 (instr.setWidth 32))
  some ⟨.c op, pc, 2, instr.setWidth 32, args⟩

end Decode

/-! ## Lift

The R, I, shift-amount, U, load, store and `c.jal` lifts repeat those of the base extension. -/

section Lift

variable {X : Xlen}

def liftMv (args : InstrArgs) : Lifted X :=
  match args with
  | .R rd _ rs2 => (writeRd rd (.read rs2), .fall none)
  | _ => invalidArgs

def liftJ (args : InstrArgs) (pc : X.Reg) : Lifted X :=
  match args with
  | .J _ imm => ([], .jump (pcRelative pc imm))
  | _ => invalidArgs

/-- `c.jr` does not clear the low bit of its target. -/
def liftJr (args : InstrArgs) : Lifted X :=
  match args with
  | .I _ rs1 _ => ([], .jumpDyn (.read rs1) none)
  | _ => invalidArgs

/-- Nor does `c.jalr`. -/
def liftCJalr (args : InstrArgs) (pc : X.Reg) (size : ℕ) : Lifted X :=
  match args with
  | .I rd rs1 _ =>
    let saved : List (Stmt X) := if rd = rs1 then [.writeTemp 0 (.read rs1)] else []
    let base : Expr X := if rd = rs1 then .temp 0 else .read rs1
    (saved ++ writeRd rd (.imm (linkValue pc size)), .jumpDyn base none)
  | _ => invalidArgs

/-- `c.beqz` and `c.bnez` compare rs1 with the immediate zero. -/
def liftBranchZero (args : InstrArgs) (pc : X.Reg) (cond : Expr X → Expr X → Expr X) : Lifted X :=
  match args with
  | .B rs1 _ imm =>
    ([], .branch (cond (.read rs1) (.imm (X.fromU64 0))) (pcRelative pc imm) none .none)
  | _ => invalidArgs

def liftCOp (args : InstrArgs) (op : COp) (pc : X.Reg) (size : ℕ) : Lifted X :=
  match op with
  | .add => liftR args .add
  | .sub => liftR args .sub
  | .xor => liftR args .xor
  | .or => liftR args .or
  | .and => liftR args .and
  | .mv => liftMv args
  | .addw => liftR args .addw
  | .subw => liftR args .subw
  | .addi | .addi4spn | .addi16sp => liftI args .add
  | .addiw => liftI args .addw
  | .li => liftI args fun _ b => b
  | .andi => liftI args .and
  | .slli => liftShamt args .sll
  | .srli => liftShamt args .srl
  | .srai => liftShamt args .sra
  | .lui => liftLui args
  | .lw | .lwsp => liftLoad args 4 true
  | .ld | .ldsp => liftLoad args 8 false
  | .sw | .swsp => liftStore args 4
  | .sd | .sdsp => liftStore args 8
  | .j => liftJ args pc
  | .jal => liftJal args pc size
  | .jr => liftJr args
  | .jalr => liftCJalr args pc size
  | .beqz => liftBranchZero args pc .eq
  | .bnez => liftBranchZero args pc .ne
  | .nop => ([], .fall none)
  | .ebreak => ([], .exit (.imm (X.fromU64 0)))
  | .invalid => ([], .trap "invalid")

/-- `lift_c`. -/
def liftC (args : InstrArgs) (opid : OpId) (pc : X.Reg) (size : ℕ) : Lifted X :=
  match opid with
  | .c op => liftCOp args op pc size
  | _ => ([], .trap "unknown C instruction")

end Lift

end Rvr
