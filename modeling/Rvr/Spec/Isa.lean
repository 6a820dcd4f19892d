import Rvr.Ir.Xlen
import Rvr.Lib.ByteMemory

/-!
# The RISC-V unprivileged instruction set: I and M

What the RISC-V specification says about the instructions of the I and M extensions that compute,
access memory or transfer control: their encodings, which of them exist at a given XLEN, and their
effect on the architectural state.  Nothing here is taken from the repository; the lifts are
compared with these definitions.
-/

namespace Rvr.Spec

open ByteMemory

/-- A register number. -/
abbrev RegId := BitVec 5

/-! ## Instructions -/

inductive BranchOp
  | beq | bne | blt | bge | bltu | bgeu
  deriving DecidableEq, Repr

inductive LoadOp
  | lb | lh | lw | ld | lbu | lhu | lwu
  deriving DecidableEq, Repr

inductive StoreOp
  | sb | sh | sw | sd
  deriving DecidableEq, Repr

/-- Register-immediate operations with a 12-bit immediate. -/
inductive ImmOp
  | addi | slti | sltiu | xori | ori | andi
  deriving DecidableEq, Repr

inductive ShiftOp
  | sll | srl | sra
  deriving DecidableEq, Repr

/-- Register-register operations. -/
inductive RegOp
  | add | sub | sll | slt | sltu | xor | srl | sra | or | and
  | mul | mulh | mulhsu | mulhu | div | divu | rem | remu
  deriving DecidableEq, Repr

/-- Register-register operations on the low words. -/
inductive WordOp
  | addw | subw | sllw | srlw | sraw | mulw | divw | divuw | remw | remuw
  deriving DecidableEq, Repr

/-- Instructions by format.  Jump and branch offsets are given in units of two bytes. -/
inductive Instr
  | lui (rd : RegId) (imm : BitVec 20)
  | auipc (rd : RegId) (imm : BitVec 20)
  | jal (rd : RegId) (offset : BitVec 20)
  | jalr (rd rs1 : RegId) (imm : BitVec 12)
  | branch (op : BranchOp) (rs1 rs2 : RegId) (offset : BitVec 12)
  | load (op : LoadOp) (rd rs1 : RegId) (imm : BitVec 12)
  | store (op : StoreOp) (rs1 rs2 : RegId) (imm : BitVec 12)
  | opImm (op : ImmOp) (rd rs1 : RegId) (imm : BitVec 12)
  | shiftImm (op : ShiftOp) (rd rs1 : RegId) (shamt : BitVec 6)
  | addiw (rd rs1 : RegId) (imm : BitVec 12)
  | shiftImmW (op : ShiftOp) (rd rs1 : RegId) (shamt : BitVec 5)
  | reg (op : RegOp) (rd rs1 rs2 : RegId)
  | regW (op : WordOp) (rd rs1 rs2 : RegId)
  deriving DecidableEq, Repr

/-- The instructions that exist at an XLEN: doubleword and word forms on RV64 only, and shift
amounts below XLEN. -/
def Instr.Legal (X : Xlen) : Instr → Prop
  | .load .ld _ _ _ | .load .lwu _ _ _ | .store .sd _ _ _ => X = .rv64
  | .addiw .. | .shiftImmW .. | .regW .. => X = .rv64
  | .shiftImm _ _ _ shamt => shamt.toNat < X.value
  | _ => True

/-! ## Encoding -/

section Formats

def rType (funct7 : BitVec 7) (rs2 rs1 : RegId) (funct3 : BitVec 3) (rd : RegId)
    (opcode : BitVec 7) : BitVec 32 :=
  funct7 ++ rs2 ++ rs1 ++ funct3 ++ rd ++ opcode

def iType (imm : BitVec 12) (rs1 : RegId) (funct3 : BitVec 3) (rd : RegId) (opcode : BitVec 7) :
    BitVec 32 :=
  imm ++ rs1 ++ funct3 ++ rd ++ opcode

def sType (imm : BitVec 12) (rs2 rs1 : RegId) (funct3 : BitVec 3) (opcode : BitVec 7) : BitVec 32 :=
  imm.extractLsb' 5 7 ++ rs2 ++ rs1 ++ funct3 ++ imm.extractLsb' 0 5 ++ opcode

/-- `offset[12|10:5] rs2 rs1 funct3 offset[4:1|11] opcode`; bit `i` of the offset is bit `i - 1` of
the field. -/
def bType (offset : BitVec 12) (rs2 rs1 : RegId) (funct3 : BitVec 3) (opcode : BitVec 7) :
    BitVec 32 :=
  offset.extractLsb' 11 1 ++ offset.extractLsb' 4 6 ++ rs2 ++ rs1 ++ funct3 ++
    offset.extractLsb' 0 4 ++ offset.extractLsb' 10 1 ++ opcode

def uType (imm : BitVec 20) (rd : RegId) (opcode : BitVec 7) : BitVec 32 :=
  imm ++ rd ++ opcode

/-- `offset[20|10:1|11|19:12] rd opcode`. -/
def jType (offset : BitVec 20) (rd : RegId) (opcode : BitVec 7) : BitVec 32 :=
  offset.extractLsb' 19 1 ++ offset.extractLsb' 0 10 ++ offset.extractLsb' 10 1 ++
    offset.extractLsb' 11 8 ++ rd ++ opcode

end Formats

def BranchOp.funct3 : BranchOp → BitVec 3
  | .beq => 0b000
  | .bne => 0b001
  | .blt => 0b100
  | .bge => 0b101
  | .bltu => 0b110
  | .bgeu => 0b111

def LoadOp.funct3 : LoadOp → BitVec 3
  | .lb => 0b000
  | .lh => 0b001
  | .lw => 0b010
  | .ld => 0b011
  | .lbu => 0b100
  | .lhu => 0b101
  | .lwu => 0b110

def StoreOp.funct3 : StoreOp → BitVec 3
  | .sb => 0b000
  | .sh => 0b001
  | .sw => 0b010
  | .sd => 0b011

def ImmOp.funct3 : ImmOp → BitVec 3
  | .addi => 0b000
  | .slti => 0b010
  | .sltiu => 0b011
  | .xori => 0b100
  | .ori => 0b110
  | .andi => 0b111

def ShiftOp.funct3 : ShiftOp → BitVec 3
  | .sll => 0b001
  | .srl | .sra => 0b101

def ShiftOp.funct7 : ShiftOp → BitVec 7
  | .sll | .srl => 0b0000000
  | .sra => 0b0100000

def RegOp.funct3 : RegOp → BitVec 3
  | .add | .sub | .mul => 0b000
  | .sll | .mulh => 0b001
  | .slt | .mulhsu => 0b010
  | .sltu | .mulhu => 0b011
  | .xor | .div => 0b100
  | .srl | .sra | .divu => 0b101
  | .or | .rem => 0b110
  | .and | .remu => 0b111

def RegOp.funct7 : RegOp → BitVec 7
  | .sub | .sra => 0b0100000
  | .mul | .mulh | .mulhsu | .mulhu | .div | .divu | .rem | .remu => 0b0000001
  | _ => 0b0000000

def WordOp.funct3 : WordOp → BitVec 3
  | .addw | .subw | .mulw => 0b000
  | .sllw => 0b001
  | .divw => 0b100
  | .srlw | .sraw | .divuw => 0b101
  | .remw => 0b110
  | .remuw => 0b111

def WordOp.funct7 : WordOp → BitVec 7
  | .subw | .sraw => 0b0100000
  | .mulw | .divw | .divuw | .remw | .remuw => 0b0000001
  | _ => 0b0000000

def Instr.encode : Instr → BitVec 32
  | .lui rd imm => uType imm rd 0b0110111
  | .auipc rd imm => uType imm rd 0b0010111
  | .jal rd offset => jType offset rd 0b1101111
  | .jalr rd rs1 imm => iType imm rs1 0b000 rd 0b1100111
  | .branch op rs1 rs2 offset => bType offset rs2 rs1 op.funct3 0b1100011
  | .load op rd rs1 imm => iType imm rs1 op.funct3 rd 0b0000011
  | .store op rs1 rs2 imm => sType imm rs2 rs1 op.funct3 0b0100011
  | .opImm op rd rs1 imm => iType imm rs1 op.funct3 rd 0b0010011
  | .shiftImm op rd rs1 shamt =>
    iType (op.funct7.extractLsb' 1 6 ++ shamt) rs1 op.funct3 rd 0b0010011
  | .addiw rd rs1 imm => iType imm rs1 0b000 rd 0b0011011
  | .shiftImmW op rd rs1 shamt => rType op.funct7 shamt rs1 op.funct3 rd 0b0011011
  | .reg op rd rs1 rs2 => rType op.funct7 rs2 rs1 op.funct3 rd 0b0110011
  | .regW op rd rs1 rs2 => rType op.funct7 rs2 rs1 op.funct3 rd 0b0111011

/-- The bytes of an instruction word in memory, least significant first. -/
def wordBytes (word : BitVec 32) : List (BitVec 8) :=
  [word.extractLsb' 0 8, word.extractLsb' 8 8, word.extractLsb' 16 8, word.extractLsb' 24 8]

/-! ## Architectural state -/

/-- The registers, the memory and the pc; `x0` is hard-wired to zero. -/
@[ext]
structure State (X : Xlen) where
  regs : RegId → X.Reg
  x0 : regs 0 = 0
  mem : X.Reg → BitVec 8
  pc : X.Reg

namespace State

variable {X : Xlen}

/-- Write a register; a write to `x0` has no effect. -/
def setReg (s : State X) (rd : RegId) (v : X.Reg) : State X :=
  { s with
    regs := fun r => if r = rd ∧ r ≠ 0 then v else s.regs r
    x0 := (if_neg fun h => h.2 rfl).trans s.x0 }

def setPc (s : State X) (pc : X.Reg) : State X := { s with pc := pc }

/-- Store the low `n` bytes of a value. -/
def store (s : State X) (addr : X.Reg) (n : ℕ) (v : X.Reg) : State X :=
  { s with mem := writeLE s.mem addr n v.toNat }

/-- The `n` bytes at an address, as a number of that width. -/
def bytesAt (s : State X) (addr : X.Reg) (n : ℕ) : BitVec (8 * n) :=
  BitVec.ofNat _ (readLE s.mem addr n)

/-- Go on with the next instruction. -/
def advance (s : State X) : State X := s.setPc (s.pc + BitVec.ofNat _ 4)

end State

/-! ## Semantics -/

section Values

variable {w : ℕ}

/-- A comparison result. -/
def bit (p : Prop) [Decidable p] : BitVec w := if p then 1 else 0

/-- The high half of a product of integers. -/
def highHalf (w : ℕ) (product : ℤ) : BitVec w := BitVec.ofInt w (product / (2 : ℤ) ^ w)

/-- Signed division rounding towards zero; by zero, all ones.  The overflowing quotient wraps. -/
def divSigned (a b : BitVec w) : BitVec w :=
  if b = 0 then -1 else BitVec.ofInt w (a.toInt.tdiv b.toInt)

def divUnsigned (a b : BitVec w) : BitVec w :=
  if b = 0 then -1 else BitVec.ofNat w (a.toNat / b.toNat)

/-- The remainder of signed division, with the sign of the dividend; by zero, the dividend. -/
def remSigned (a b : BitVec w) : BitVec w :=
  if b = 0 then a else BitVec.ofInt w (a.toInt.tmod b.toInt)

def remUnsigned (a b : BitVec w) : BitVec w :=
  if b = 0 then a else BitVec.ofNat w (a.toNat % b.toNat)

/-- Shifts by an amount below the width. -/
def ShiftOp.val (a : BitVec w) (amount : ℕ) : ShiftOp → BitVec w
  | .sll => a <<< amount
  | .srl => a >>> amount
  | .sra => a.sshiftRight amount

/-- Register-register operations on words of any width; shift amounts are taken modulo the width. -/
def RegOp.val (a b : BitVec w) : RegOp → BitVec w
  | .add => a + b
  | .sub => a - b
  | .sll => ShiftOp.sll.val a (b.toNat % w)
  | .srl => ShiftOp.srl.val a (b.toNat % w)
  | .sra => ShiftOp.sra.val a (b.toNat % w)
  | .slt => bit (a.toInt < b.toInt)
  | .sltu => bit (a.toNat < b.toNat)
  | .xor => a ^^^ b
  | .or => a ||| b
  | .and => a &&& b
  | .mul => a * b
  | .mulh => highHalf w (a.toInt * b.toInt)
  | .mulhsu => highHalf w (a.toInt * b.toNat)
  | .mulhu => highHalf w (a.toNat * b.toNat)
  | .div => divSigned a b
  | .divu => divUnsigned a b
  | .rem => remSigned a b
  | .remu => remUnsigned a b

/-- The operation that a word form applies to the low words. -/
def WordOp.regOp : WordOp → RegOp
  | .addw => .add
  | .subw => .sub
  | .sllw => .sll
  | .srlw => .srl
  | .sraw => .sra
  | .mulw => .mul
  | .divw => .div
  | .divuw => .divu
  | .remw => .rem
  | .remuw => .remu

def ImmOp.regOp : ImmOp → RegOp
  | .addi => .add
  | .slti => .slt
  | .sltiu => .sltu
  | .xori => .xor
  | .ori => .or
  | .andi => .and

/-- Whether a branch is taken. -/
def BranchOp.taken (a b : BitVec w) : BranchOp → Bool
  | .beq => a = b
  | .bne => a ≠ b
  | .blt => a.toInt < b.toInt
  | .bge => b.toInt ≤ a.toInt
  | .bltu => a.toNat < b.toNat
  | .bgeu => b.toNat ≤ a.toNat

end Values

def LoadOp.bytes : LoadOp → ℕ
  | .lb | .lbu => 1
  | .lh | .lhu => 2
  | .lw | .lwu => 4
  | .ld => 8

/-- Whether the loaded value is sign-extended. -/
def LoadOp.signed : LoadOp → Bool
  | .lb | .lh | .lw | .ld => true
  | .lbu | .lhu | .lwu => false

def StoreOp.bytes : StoreOp → ℕ
  | .sb => 1
  | .sh => 2
  | .sw => 4
  | .sd => 8

section Step

variable {X : Xlen}

/-- A word result in a register. -/
def ofWord (v : BitVec 32) : X.Reg := v.signExtend X.value

/-- The state after an instruction. -/
def Instr.step (s : State X) : Instr → State X
  | .lui rd imm => (s.setReg rd (ofWord (imm ++ 0#12))).advance
  | .auipc rd imm => (s.setReg rd (s.pc + ofWord (imm ++ 0#12))).advance
  | .jal rd offset =>
    (s.setReg rd (s.pc + BitVec.ofNat _ 4)).setPc (s.pc + (offset ++ 0#1).signExtend X.value)
  | .jalr rd rs1 imm =>
    (s.setReg rd (s.pc + BitVec.ofNat _ 4)).setPc
      ((s.regs rs1 + imm.signExtend X.value) &&& ~~~1)
  | .branch op rs1 rs2 offset =>
    if op.taken (s.regs rs1) (s.regs rs2) then
      s.setPc (s.pc + (offset ++ 0#1).signExtend X.value)
    else s.advance
  | .load op rd rs1 imm =>
    let value := s.bytesAt (s.regs rs1 + imm.signExtend X.value) op.bytes
    (s.setReg rd (if op.signed then value.signExtend X.value else value.setWidth X.value)).advance
  | .store op rs1 rs2 imm =>
    (s.store (s.regs rs1 + imm.signExtend X.value) op.bytes (s.regs rs2)).advance
  | .opImm op rd rs1 imm =>
    (s.setReg rd (op.regOp.val (s.regs rs1) (imm.signExtend X.value))).advance
  | .shiftImm op rd rs1 shamt => (s.setReg rd (op.val (s.regs rs1) shamt.toNat)).advance
  | .addiw rd rs1 imm =>
    (s.setReg rd (ofWord ((s.regs rs1).setWidth 32 + imm.signExtend 32))).advance
  | .shiftImmW op rd rs1 shamt =>
    (s.setReg rd (ofWord (op.val ((s.regs rs1).setWidth 32) shamt.toNat))).advance
  | .reg op rd rs1 rs2 => (s.setReg rd (op.val (s.regs rs1) (s.regs rs2))).advance
  | .regW op rd rs1 rs2 =>
    (s.setReg rd
      (ofWord (op.regOp.val ((s.regs rs1).setWidth 32) ((s.regs rs2).setWidth 32)))).advance

end Step

end Rvr.Spec
