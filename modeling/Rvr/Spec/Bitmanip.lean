import Rvr.Spec.Isa

/-!
# The RISC-V bit-manipulation extensions Zba, Zbb, Zbs and Zbkb

Encodings and results of the bit-manipulation instructions as the RISC-V specification gives them.
All of them write one value to rd, which depends on the source registers and the shift amount only,
and go on with the next instruction.
-/

namespace Rvr.Spec

/-! ## Instructions -/

/-- Operations on two registers. -/
inductive BinaryBitOp
  | sh1add | sh2add | sh3add | addUw | sh1addUw | sh2addUw | sh3addUw
  | andn | orn | xnor | max | maxu | min | minu | rol | ror | rolw | rorw
  | bclr | bext | binv | bset
  | pack | packh | packw
  deriving DecidableEq, Repr

/-- Operations on one register. -/
inductive UnaryBitOp
  | clz | ctz | cpop | clzw | ctzw | cpopw | sextB | sextH | zextH | orcB | rev8
  | brev8 | zip | unzip
  deriving DecidableEq, Repr

/-- Operations on a register and a shift amount. -/
inductive ShamtBitOp
  | slliUw | rori | roriw | bclri | bexti | binvi | bseti
  deriving DecidableEq, Repr

inductive BitInstr
  | binary (op : BinaryBitOp) (rd rs1 rs2 : RegId)
  | unary (op : UnaryBitOp) (rd rs1 : RegId)
  | shift (op : ShamtBitOp) (rd rs1 : RegId) (shamt : BitVec 6)
  deriving DecidableEq, Repr

def BitInstr.rd : BitInstr → RegId
  | .binary _ rd _ _ | .unary _ rd _ | .shift _ rd _ _ => rd

/-- The instructions that exist at an XLEN. -/
def BitInstr.Legal (X : Xlen) : BitInstr → Prop
  | .binary op _ _ _ =>
    match op with
    | .addUw | .sh1addUw | .sh2addUw | .sh3addUw | .rolw | .rorw | .packw => X = .rv64
    | _ => True
  | .unary op _ _ =>
    match op with
    | .clzw | .ctzw | .cpopw => X = .rv64
    | .zip | .unzip => X = .rv32
    | _ => True
  | .shift op _ _ shamt =>
    match op with
    | .slliUw => X = .rv64
    | .roriw => X = .rv64 ∧ shamt.toNat < 32
    | _ => shamt.toNat < X.value

/-! ## Encoding -/

/-- Whether the operation is encoded in the OP-32 space. -/
def BinaryBitOp.isWord : BinaryBitOp → Bool
  | .addUw | .sh1addUw | .sh2addUw | .sh3addUw | .rolw | .rorw | .packw => true
  | _ => false

def BinaryBitOp.funct7 : BinaryBitOp → BitVec 7
  | .sh1add | .sh2add | .sh3add | .sh1addUw | .sh2addUw | .sh3addUw => 0b0010000
  | .addUw | .pack | .packh | .packw => 0b0000100
  | .andn | .orn | .xnor => 0b0100000
  | .max | .maxu | .min | .minu => 0b0000101
  | .rol | .ror | .rolw | .rorw => 0b0110000
  | .bclr | .bext => 0b0100100
  | .binv => 0b0110100
  | .bset => 0b0010100

def BinaryBitOp.funct3 : BinaryBitOp → BitVec 3
  | .addUw => 0b000
  | .rol | .rolw | .bclr | .binv | .bset => 0b001
  | .sh1add | .sh1addUw => 0b010
  | .sh2add | .sh2addUw | .xnor | .min | .pack | .packw => 0b100
  | .minu | .ror | .rorw | .bext => 0b101
  | .sh3add | .sh3addUw | .orn | .max => 0b110
  | .andn | .maxu | .packh => 0b111

/-- The 12-bit immediate that encodes an operation on one register.  ZEXT.H is the PACK of its
operand with `x0`, in the OP space on RV32 and in the OP-32 space on RV64. -/
def UnaryBitOp.imm (X : Xlen) : UnaryBitOp → BitVec 12
  | .clz | .clzw => 0b011000000000
  | .ctz | .ctzw => 0b011000000001
  | .cpop | .cpopw => 0b011000000010
  | .sextB => 0b011000000100
  | .sextH => 0b011000000101
  | .zextH => 0b000010000000
  | .orcB => 0b001010000111
  | .rev8 => if X = .rv32 then 0b011010011000 else 0b011010111000
  | .brev8 => 0b011010000111
  | .zip | .unzip => 0b000010001111

def UnaryBitOp.funct3 : UnaryBitOp → BitVec 3
  | .clz | .ctz | .cpop | .clzw | .ctzw | .cpopw | .sextB | .sextH | .zip => 0b001
  | .zextH => 0b100
  | .orcB | .rev8 | .brev8 | .unzip => 0b101

def UnaryBitOp.opcode (X : Xlen) : UnaryBitOp → BitVec 7
  | .clzw | .ctzw | .cpopw => 0b0011011
  | .zextH => if X = .rv32 then 0b0110011 else 0b0111011
  | _ => 0b0010011

def ShamtBitOp.funct6 : ShamtBitOp → BitVec 6
  | .slliUw => 0b000010
  | .rori | .roriw => 0b011000
  | .bclri | .bexti => 0b010010
  | .binvi => 0b011010
  | .bseti => 0b001010

def ShamtBitOp.funct3 : ShamtBitOp → BitVec 3
  | .rori | .roriw | .bexti => 0b101
  | _ => 0b001

def ShamtBitOp.opcode : ShamtBitOp → BitVec 7
  | .slliUw | .roriw => 0b0011011
  | _ => 0b0010011

def BitInstr.encode (X : Xlen) : BitInstr → BitVec 32
  | .binary op rd rs1 rs2 =>
    rType op.funct7 rs2 rs1 op.funct3 rd (if op.isWord then 0b0111011 else 0b0110011)
  | .unary op rd rs1 => iType (op.imm X) rs1 op.funct3 rd (op.opcode X)
  | .shift op rd rs1 shamt => iType (op.funct6 ++ shamt) rs1 op.funct3 rd op.opcode

/-! ## Results -/

section Values

variable {w : ℕ}

/-- The bytes of a value, least significant first. -/
def bytes (x : BitVec w) : List (BitVec 8) :=
  (List.range (w / 8)).map fun i => x.extractLsb' (8 * i) 8

/-- The value with the given bytes, least significant first. -/
def ofBytes (w : ℕ) : List (BitVec 8) → BitVec w
  | [] => 0
  | b :: bs => ofBytes w bs <<< 8 ||| b.setWidth w

/-- Interleave the low and the high halfword of a word: bit `i` of the low one goes to bit `2 * i`,
bit `i` of the high one to bit `2 * i + 1`. -/
def zipHalves (x : BitVec 32) : BitVec 32 :=
  BitVec.setWidth 32 <| BitVec.ofBoolListLE <|
    (List.range 16).flatMap fun i => [x.getLsbD i, x.getLsbD (i + 16)]

/-- The even bits of a word below its odd bits. -/
def unzipHalves (x : BitVec 32) : BitVec 32 :=
  BitVec.setWidth 32 <| BitVec.ofBoolListLE <|
    (List.range 16).map (fun i => x.getLsbD (2 * i)) ++
      (List.range 16).map fun i => x.getLsbD (2 * i + 1)

/-- A word result, sign-extended. -/
def wordVal (f : BitVec 32 → BitVec 32 → BitVec 32) (a b : BitVec w) : BitVec w :=
  (f (a.setWidth 32) (b.setWidth 32)).signExtend w

def BinaryBitOp.val (a b : BitVec w) : BinaryBitOp → BitVec w
  | .sh1add => b + a <<< 1
  | .sh2add => b + a <<< 2
  | .sh3add => b + a <<< 3
  | .addUw => b + (a.setWidth 32).setWidth w
  | .sh1addUw => b + (a.setWidth 32).setWidth w <<< 1
  | .sh2addUw => b + (a.setWidth 32).setWidth w <<< 2
  | .sh3addUw => b + (a.setWidth 32).setWidth w <<< 3
  | .andn => a &&& ~~~b
  | .orn => a ||| ~~~b
  | .xnor => ~~~(a ^^^ b)
  | .max => if a.toInt < b.toInt then b else a
  | .maxu => if a.toNat < b.toNat then b else a
  | .min => if a.toInt < b.toInt then a else b
  | .minu => if a.toNat < b.toNat then a else b
  | .rol => a.rotateLeft (b.toNat % w)
  | .ror => a.rotateRight (b.toNat % w)
  | .rolw => wordVal (fun a b => a.rotateLeft (b.toNat % 32)) a b
  | .rorw => wordVal (fun a b => a.rotateRight (b.toNat % 32)) a b
  | .bclr => a &&& ~~~(1#w <<< (b.toNat % w))
  | .bext => a >>> (b.toNat % w) &&& 1
  | .binv => a ^^^ 1#w <<< (b.toNat % w)
  | .bset => a ||| 1#w <<< (b.toNat % w)
  | .pack => (b.setWidth (w / 2) ++ a.setWidth (w / 2)).setWidth w
  | .packh => (b.setWidth 8 ++ a.setWidth 8).setWidth w
  | .packw => (b.setWidth 16 ++ a.setWidth 16).signExtend w

def UnaryBitOp.val (a : BitVec w) : UnaryBitOp → BitVec w
  | .clz => a.clz
  | .ctz => a.ctz
  | .cpop => a.cpop
  | .clzw => (a.setWidth 32).clz.setWidth w
  | .ctzw => (a.setWidth 32).ctz.setWidth w
  | .cpopw => (a.setWidth 32).cpop.setWidth w
  | .sextB => (a.setWidth 8).signExtend w
  | .sextH => (a.setWidth 16).signExtend w
  | .zextH => (a.setWidth 16).setWidth w
  | .orcB => ofBytes w ((bytes a).map fun b => if b = 0 then 0 else 0xff)
  | .rev8 => ofBytes w (bytes a).reverse
  | .brev8 => ofBytes w ((bytes a).map BitVec.reverse)
  | .zip => (zipHalves (a.setWidth 32)).setWidth w
  | .unzip => (unzipHalves (a.setWidth 32)).setWidth w

def ShamtBitOp.val (a : BitVec w) (shamt : ℕ) : ShamtBitOp → BitVec w
  | .slliUw => (a.setWidth 32).setWidth w <<< shamt
  | .rori => a.rotateRight shamt
  | .roriw => ((a.setWidth 32).rotateRight shamt).signExtend w
  | .bclri => a &&& ~~~(1#w <<< shamt)
  | .bexti => a >>> shamt &&& 1
  | .binvi => a ^^^ 1#w <<< shamt
  | .bseti => a ||| 1#w <<< shamt

end Values

/-- The value that an instruction writes to rd, from the values of the source registers. -/
def BitInstr.val {X : Xlen} (regs : RegId → X.Reg) : BitInstr → X.Reg
  | .binary op _ rs1 rs2 => op.val (regs rs1) (regs rs2)
  | .unary op _ rs1 => op.val (regs rs1)
  | .shift op _ rs1 shamt => op.val (regs rs1) shamt.toNat

end Rvr.Spec
