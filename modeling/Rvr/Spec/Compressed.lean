import Rvr.Spec.Isa

/-!
# The RISC-V compressed instructions

What the RISC-V specification says about the C extension without floating point: every code point is
reserved, a floating-point instruction, or stands for one 32-bit instruction (`expand`).  HINT code
points stand for the instruction that their format gives.  Fields are written in the order of the
immediate's bits, highest first; nothing here is taken from the repository.
-/

namespace Rvr.Spec

/-- The 32-bit instruction that a compressed one stands for. -/
inductive Expansion
  | base (i : Instr)
  | ebreak
  deriving DecidableEq, Repr

def Expansion.encode : Expansion → BitVec 32
  | .base i => i.encode
  | .ebreak => 0x00100073

/-- One of `x8` to `x15`. -/
def creg (r : BitVec 3) : RegId := 0b01#2 ++ r

section Immediates

variable (h : BitVec 16)

/-- `nzuimm[9:6|5:4|3|2]` of `c.addi4spn`. -/
def immAddi4spn : BitVec 10 :=
  h.extractLsb' 7 4 ++ h.extractLsb' 11 2 ++ h.extractLsb' 5 1 ++ h.extractLsb' 6 1 ++ 0#2

/-- `uimm[6|5:3|2]` of `c.lw` and `c.sw`. -/
def uimmWord : BitVec 7 := h.extractLsb' 5 1 ++ h.extractLsb' 10 3 ++ h.extractLsb' 6 1 ++ 0#2

/-- `uimm[7:6|5:3]` of `c.ld` and `c.sd`. -/
def uimmDouble : BitVec 8 := h.extractLsb' 5 2 ++ h.extractLsb' 10 3 ++ 0#3

/-- `imm[5|4:0]` of the CI format, also a shift amount. -/
def immCi : BitVec 6 := h.extractLsb' 12 1 ++ h.extractLsb' 2 5

/-- `offset[11|10|9:8|7|6|5|4|3:1]` of `c.j` and `c.jal`. -/
def offsetCj : BitVec 11 :=
  h.extractLsb' 12 1 ++ h.extractLsb' 8 1 ++ h.extractLsb' 9 2 ++ h.extractLsb' 6 1 ++
    h.extractLsb' 7 1 ++ h.extractLsb' 2 1 ++ h.extractLsb' 11 1 ++ h.extractLsb' 3 3

/-- `nzimm[9|8:7|6|5|4]` of `c.addi16sp`. -/
def immAddi16sp : BitVec 10 :=
  h.extractLsb' 12 1 ++ h.extractLsb' 3 2 ++ h.extractLsb' 5 1 ++ h.extractLsb' 2 1 ++
    h.extractLsb' 6 1 ++ 0#4

/-- `offset[8|7:6|5|4:3|2:1]` of `c.beqz` and `c.bnez`. -/
def offsetCb : BitVec 8 :=
  h.extractLsb' 12 1 ++ h.extractLsb' 5 2 ++ h.extractLsb' 2 1 ++ h.extractLsb' 10 2 ++
    h.extractLsb' 3 2

/-- `uimm[7:6|5|4:2]` of `c.lwsp`. -/
def uimmLwsp : BitVec 8 := h.extractLsb' 2 2 ++ h.extractLsb' 12 1 ++ h.extractLsb' 4 3 ++ 0#2

/-- `uimm[8:6|5|4:3]` of `c.ldsp`. -/
def uimmLdsp : BitVec 9 := h.extractLsb' 2 3 ++ h.extractLsb' 12 1 ++ h.extractLsb' 5 2 ++ 0#3

/-- `uimm[7:6|5:2]` of `c.swsp`. -/
def uimmSwsp : BitVec 8 := h.extractLsb' 7 2 ++ h.extractLsb' 9 4 ++ 0#2

/-- `uimm[8:6|5:3]` of `c.sdsp`. -/
def uimmSdsp : BitVec 9 := h.extractLsb' 7 3 ++ h.extractLsb' 10 3 ++ 0#3

end Immediates

section Expand

variable (X : Xlen) (h : BitVec 16)

/-- Quadrant 0: stack-pointer addressing, loads and stores. -/
def expandQ0 : Option Expansion :=
  let rd := creg (h.extractLsb' 2 3)
  let rs1 := creg (h.extractLsb' 7 3)
  match (h.extractLsb' 13 3).toNat with
  | 0b000 =>
    if immAddi4spn h = 0 then none else some (.base
      (.opImm .addi rd 2 ((immAddi4spn h).setWidth 12)))
  | 0b010 => some (.base (.load .lw rd rs1 ((uimmWord h).setWidth 12)))
  | 0b011 =>
    if X = .rv64 then some (.base (.load .ld rd rs1 ((uimmDouble h).setWidth 12))) else none
  | 0b110 => some (.base (.store .sw rs1 rd ((uimmWord h).setWidth 12)))
  | 0b111 =>
    if X = .rv64 then some (.base (.store .sd rs1 rd ((uimmDouble h).setWidth 12))) else none
  | _ => none

/-- The arithmetic of quadrant 1 on `x8` to `x15`. -/
def expandAlu : Option Expansion :=
  let rd := creg (h.extractLsb' 7 3)
  let rs2 := creg (h.extractLsb' 2 3)
  match (h.extractLsb' 10 2).toNat with
  | 0b00 =>
    if (immCi h).toNat < X.value then some (.base (.shiftImm .srl rd rd (immCi h))) else none
  | 0b01 =>
    if (immCi h).toNat < X.value then some (.base (.shiftImm .sra rd rd (immCi h))) else none
  | 0b10 => some (.base (.opImm .andi rd rd ((immCi h).signExtend 12)))
  | _ =>
    match (h.extractLsb' 12 1).toNat, (h.extractLsb' 5 2).toNat with
    | 0, 0b00 => some (.base (.reg .sub rd rd rs2))
    | 0, 0b01 => some (.base (.reg .xor rd rd rs2))
    | 0, 0b10 => some (.base (.reg .or rd rd rs2))
    | 0, 0b11 => some (.base (.reg .and rd rd rs2))
    | 1, 0b00 => if X = .rv64 then some (.base (.regW .subw rd rd rs2)) else none
    | 1, 0b01 => if X = .rv64 then some (.base (.regW .addw rd rd rs2)) else none
    | _, _ => none

/-- Quadrant 1: immediates, arithmetic, jumps and branches. -/
def expandQ1 : Option Expansion :=
  let rd : RegId := h.extractLsb' 7 5
  let rs1 := creg (h.extractLsb' 7 3)
  match (h.extractLsb' 13 3).toNat with
  | 0b000 => some (.base (.opImm .addi rd rd ((immCi h).signExtend 12)))
  | 0b001 =>
    match X with
    | .rv32 => some (.base (.jal 1 ((offsetCj h).signExtend 20)))
    | .rv64 => if rd = 0 then none else some (.base (.addiw rd rd ((immCi h).signExtend 12)))
  | 0b010 => some (.base (.opImm .addi rd 0 ((immCi h).signExtend 12)))
  | 0b011 =>
    if rd = 2 then
      if immAddi16sp h = 0 then none
      else some (.base (.opImm .addi 2 2 ((immAddi16sp h).signExtend 12)))
    else if immCi h = 0 then none
    else some (.base (.lui rd ((immCi h).signExtend 20)))
  | 0b100 => expandAlu X h
  | 0b101 => some (.base (.jal 0 ((offsetCj h).signExtend 20)))
  | 0b110 => some (.base (.branch .beq rs1 0 ((offsetCb h).signExtend 12)))
  | 0b111 => some (.base (.branch .bne rs1 0 ((offsetCb h).signExtend 12)))
  | _ => none

/-- Quadrant 2: shifts, stack-pointer loads and stores, moves and indirect jumps. -/
def expandQ2 : Option Expansion :=
  let rd : RegId := h.extractLsb' 7 5
  let rs2 : RegId := h.extractLsb' 2 5
  match (h.extractLsb' 13 3).toNat with
  | 0b000 =>
    if (immCi h).toNat < X.value then some (.base (.shiftImm .sll rd rd (immCi h))) else none
  | 0b010 => if rd = 0 then none else some (.base (.load .lw rd 2 ((uimmLwsp h).setWidth 12)))
  | 0b011 =>
    if X = .rv64 ∧ rd ≠ 0 then some (.base (.load .ld rd 2 ((uimmLdsp h).setWidth 12))) else none
  | 0b100 =>
    if (h.extractLsb' 12 1).toNat = 0 then
      if rs2 ≠ 0 then some (.base (.reg .add rd 0 rs2))
      else if rd ≠ 0 then some (.base (.jalr 0 rd 0))
      else none
    else
      if rs2 ≠ 0 then some (.base (.reg .add rd rd rs2))
      else if rd ≠ 0 then some (.base (.jalr 1 rd 0))
      else some .ebreak
  | 0b110 => some (.base (.store .sw 2 rs2 ((uimmSwsp h).setWidth 12)))
  | 0b111 =>
    if X = .rv64 then some (.base (.store .sd 2 rs2 ((uimmSdsp h).setWidth 12))) else none
  | _ => none

/-- The instruction that a code point stands for; there is none for the reserved code points, for
floating-point instructions and for words of 32 bits. -/
def expand : Option Expansion :=
  match (h.extractLsb' 0 2).toNat with
  | 0b00 => expandQ0 X h
  | 0b01 => expandQ1 X h
  | 0b10 => expandQ2 X h
  | _ => none

/-- The reserved code points: immediates that must not be zero, `x0` where it is excluded, the
unused rows of the tables, and the shift amounts of six bits that RV32 sets aside for custom
extensions. -/
def Reserved : Prop :=
  let funct3 := (h.extractLsb' 13 3).toNat
  let rd : RegId := h.extractLsb' 7 5
  match (h.extractLsb' 0 2).toNat with
  | 0b00 => funct3 = 0b000 ∧ immAddi4spn h = 0 ∨ funct3 = 0b100
  | 0b01 =>
    funct3 = 0b001 ∧ X = .rv64 ∧ rd = 0 ∨
    funct3 = 0b011 ∧ rd = 2 ∧ immAddi16sp h = 0 ∨
    funct3 = 0b011 ∧ rd ≠ 2 ∧ immCi h = 0 ∨
    funct3 = 0b100 ∧ (h.extractLsb' 10 2).toNat < 2 ∧ X.value ≤ (immCi h).toNat ∨
    funct3 = 0b100 ∧ (h.extractLsb' 10 2).toNat = 3 ∧ (h.extractLsb' 12 1).toNat = 1 ∧
      (X = .rv32 ∨ 2 ≤ (h.extractLsb' 5 2).toNat)
  | 0b10 =>
    funct3 = 0b000 ∧ X.value ≤ (immCi h).toNat ∨
    funct3 = 0b010 ∧ rd = 0 ∨
    funct3 = 0b011 ∧ X = .rv64 ∧ rd = 0 ∨
    funct3 = 0b100 ∧ (h.extractLsb' 12 1).toNat = 0 ∧ rd = 0 ∧ h.extractLsb' 2 5 = 0#5
  | _ => False

end Expand

end Rvr.Spec
