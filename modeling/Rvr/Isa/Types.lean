import Rvr.Ir.Instr

/-!
# Decoded instructions

`rvr-isa/src/types.rs` and the field extractors of `rvr-isa/src/encode.rs`.  An `OpId` of the source
is a pair of an extension number and an index; the constants of each extension are numbered from
zero in the order in which they are listed, so here every standard extension has an enumeration in
that order and `OpId.idx` is the position of the constructor.  Extensions outside the standard ones
use `OpId.custom`.

Register fields and sizes are `u8` in the source and natural numbers here; immediates are `i32` and
are bit vectors read as signed.
-/

namespace Rvr

/-- Base I extension operations. -/
inductive BaseOp
  | lui | auipc | jal | jalr
  | beq | bne | blt | bge | bltu | bgeu
  | lb | lh | lw | lbu | lhu
  | sb | sh | sw
  | addi | slti | sltiu | xori | ori | andi | slli | srli | srai
  | add | sub | sll | slt | sltu | xor | srl | sra | or | and
  | fence | ecall | ebreak
  | lwu | ld | sd
  | addiw | slliw | srliw | sraiw | addw | subw | sllw | srlw | sraw
  | mret
  deriving DecidableEq, Repr

/-- M extension operations. -/
inductive MOp
  | mul | mulh | mulhsu | mulhu | div | divu | rem | remu
  | mulw | divw | divuw | remw | remuw
  deriving DecidableEq, Repr

/-- A extension operations. -/
inductive AOp
  | lrW | scW | amoswapW | amoaddW | amoxorW | amoandW | amoorW
  | amominW | amomaxW | amominuW | amomaxuW
  | lrD | scD | amoswapD | amoaddD | amoxorD | amoandD | amoorD
  | amominD | amomaxD | amominuD | amomaxuD
  deriving DecidableEq, Repr

/-- C extension operations. -/
inductive COp
  | addi4spn | lw | sw | ld | sd
  | nop | addi | jal | addiw | li | addi16sp | lui | srli | srai | andi
  | sub | xor | or | and | subw | addw | j | beqz | bnez
  | slli | lwsp | ldsp | jr | mv | ebreak | jalr | add | swsp | sdsp
  | invalid
  deriving DecidableEq, Repr

/-- Zicsr operations. -/
inductive ZicsrOp
  | csrrw | csrrs | csrrc | csrrwi | csrrsi | csrrci
  deriving DecidableEq, Repr

/-- Zifencei operations. -/
inductive ZifenceiOp
  | fenceI
  deriving DecidableEq, Repr

/-- Zba operations. -/
inductive ZbaOp
  | sh1add | sh2add | sh3add | addUw | sh1addUw | sh2addUw | sh3addUw | slliUw
  deriving DecidableEq, Repr

/-- Zbb operations. -/
inductive ZbbOp
  | andn | orn | xnor | clz | ctz | cpop | clzw | ctzw | cpopw
  | max | maxu | min | minu | sextB | sextH | zextH
  | rol | ror | rori | rolw | rorw | roriw | orcB | rev8
  deriving DecidableEq, Repr

/-- Zbs operations. -/
inductive ZbsOp
  | bclr | bclri | bext | bexti | binv | binvi | bset | bseti
  deriving DecidableEq, Repr

/-- Zbkb operations. -/
inductive ZbkbOp
  | pack | packh | packw | brev8 | zip | unzip
  deriving DecidableEq, Repr

/-- Zicond operations. -/
inductive ZicondOp
  | czeroEqz | czeroNez
  deriving DecidableEq, Repr

/-- Instruction identifier. -/
inductive OpId
  | i (op : BaseOp)
  | m (op : MOp)
  | a (op : AOp)
  | c (op : COp)
  | zicsr (op : ZicsrOp)
  | zifencei (op : ZifenceiOp)
  | zba (op : ZbaOp)
  | zbb (op : ZbbOp)
  | zbs (op : ZbsOp)
  | zbkb (op : ZbkbOp)
  | zicond (op : ZicondOp)
  | custom (ext idx : ℕ)
  deriving DecidableEq, Repr

namespace OpId

/-- The extension number (`EXT_I`, `EXT_M`, …). -/
def ext : OpId → ℕ
  | .i _ => 0
  | .m _ => 1
  | .a _ => 2
  | .c _ => 3
  | .zicsr _ => 4
  | .zifencei _ => 5
  | .zba _ => 6
  | .zbb _ => 7
  | .zbs _ => 8
  | .zbkb _ => 9
  | .zicond _ => 10
  | .custom ext _ => ext

/-- The index within the extension. -/
def idx : OpId → ℕ
  | .i op => op.ctorIdx
  | .m op => op.ctorIdx
  | .a op => op.ctorIdx
  | .c op => op.ctorIdx
  | .zicsr op => op.ctorIdx
  | .zifencei op => op.ctorIdx
  | .zba op => op.ctorIdx
  | .zbb op => op.ctorIdx
  | .zbs op => op.ctorIdx
  | .zbkb op => op.ctorIdx
  | .zicond op => op.ctorIdx
  | .custom _ idx => idx

/-- `(ext << 8) | idx`. -/
def pack (op : OpId) : ℕ := (op.ext <<< 8) ||| op.idx

end OpId

/-- Instruction argument patterns: the RISC-V formats and a custom one. -/
inductive InstrArgs
  | R (rd rs1 rs2 : ℕ)
  | R4 (rd rs1 rs2 rs3 : ℕ)
  | I (rd rs1 : ℕ) (imm : BitVec 32)
  | S (rs1 rs2 : ℕ) (imm : BitVec 32)
  | B (rs1 rs2 : ℕ) (imm : BitVec 32)
  | U (rd : ℕ) (imm : BitVec 32)
  | J (rd : ℕ) (imm : BitVec 32)
  | Csr (rd rs1 csr : ℕ)
  | CsrI (rd imm csr : ℕ)
  | Amo (rd rs1 rs2 : ℕ) (aq rl : Bool)
  | none
  | custom (words : List (BitVec 32))
  deriving DecidableEq, Repr

/-- Decoded instruction with all fields extracted. -/
structure DecodedInstr (X : Xlen) where
  opid : OpId
  pc : X.Reg
  size : ℕ
  raw : BitVec 32
  args : InstrArgs
  deriving DecidableEq

/-- The lifted instruction of a decoded one with the given body: every lift ends in this
`InstrIR::new` call. -/
def DecodedInstr.ir {X : Xlen} (instr : DecodedInstr X) (stmts : List (Stmt X))
    (term : Terminator X) : InstrIR X :=
  ⟨instr.pc, instr.size, instr.opid.pack, instr.raw, stmts, term⟩

/-! ## Register numbers with a fixed role -/

def REG_RA : ℕ := 1
def REG_SP : ℕ := 2
def REG_GP : ℕ := 3
def REG_T0 : ℕ := 5
def REG_A0 : ℕ := 10
def REG_A7 : ℕ := 17

/-! ## Field extraction -/

section Fields

variable (instr : BitVec 32)

/-- I-type immediate: bits [31:20], sign-extended. -/
def decodeIImm : BitVec 32 := instr.sshiftRight 20

/-- S-type immediate: bits [31:25] and [11:7], sign-extended from 12 bits. -/
def decodeSImm : BitVec 32 :=
  let imm11_5 := (instr >>> 25) &&& 0x7F
  let imm4_0 := (instr >>> 7) &&& 0x1F
  let imm := (imm11_5 <<< 5) ||| imm4_0
  (imm <<< 20).sshiftRight 20

/-- B-type immediate: bits [31], [7], [30:25] and [11:8], sign-extended from 13 bits. -/
def decodeBImm : BitVec 32 :=
  let imm12 := (instr >>> 31) &&& 0x1
  let imm11 := (instr >>> 7) &&& 0x1
  let imm10_5 := (instr >>> 25) &&& 0x3F
  let imm4_1 := (instr >>> 8) &&& 0xF
  let imm := (imm12 <<< 12) ||| (imm11 <<< 11) ||| (imm10_5 <<< 5) ||| (imm4_1 <<< 1)
  (imm <<< 19).sshiftRight 19

/-- U-type immediate: bits [31:12] in place. -/
def decodeUImm : BitVec 32 := instr &&& 0xFFFFF000

/-- J-type immediate: bits [31], [19:12], [20] and [30:21], sign-extended from 21 bits. -/
def decodeJImm : BitVec 32 :=
  let imm20 := (instr >>> 31) &&& 0x1
  let imm19_12 := (instr >>> 12) &&& 0xFF
  let imm11 := (instr >>> 20) &&& 0x1
  let imm10_1 := (instr >>> 21) &&& 0x3FF
  let imm := (imm20 <<< 20) ||| (imm19_12 <<< 12) ||| (imm11 <<< 11) ||| (imm10_1 <<< 1)
  (imm <<< 11).sshiftRight 11

/-- rd: bits [11:7]. -/
def decodeRd : ℕ := ((instr >>> 7) &&& 0x1F).toNat

/-- rs1: bits [19:15]. -/
def decodeRs1 : ℕ := ((instr >>> 15) &&& 0x1F).toNat

/-- rs2: bits [24:20]. -/
def decodeRs2 : ℕ := ((instr >>> 20) &&& 0x1F).toNat

/-- funct3: bits [14:12]. -/
def decodeFunct3 : ℕ := ((instr >>> 12) &&& 0x7).toNat

/-- funct7: bits [31:25]. -/
def decodeFunct7 : ℕ := ((instr >>> 25) &&& 0x7F).toNat

/-- opcode: bits [6:0]. -/
def decodeOpcode : ℕ := (instr &&& 0x7F).toNat

end Fields

end Rvr
