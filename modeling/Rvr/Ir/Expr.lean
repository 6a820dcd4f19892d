import Rvr.Ir.Xlen

/-!
# IR expressions

The expression trees of `rvr-ir/src/expr/mod.rs` with their smart constructors.  The variants of
the source's `ReadExpr` are constructors of `Expr` itself (`reg`, `csr`, `mem`, …), which keeps the
type free of mutual recursion; everything else follows the source.

The constructors fold constants and drop neutral operands while the tree is built.  An operand
counts as zero when it is the immediate 0 or a read of `x0` (`isZero`).
-/

namespace Rvr

/-- Unary operations. -/
inductive UnaryOp
  | not | neg
  | sext8 | sext16 | sext32 | zext8 | zext16 | zext32
  | clz | ctz | cpop | clz32 | ctz32 | cpop32
  | orc8 | rev8 | brev8 | zip | unzip
  deriving DecidableEq, Repr

/-- Binary operations. -/
inductive BinaryOp
  | add | sub | mul | mulH | mulHSU | mulHU
  | div | divU | rem | remU
  | and | or | xor | sll | srl | sra
  | eq | ne | lt | ge | ltu | geu
  | addW | subW | mulW | divW | divUW | remW | remUW | sllW | srlW | sraW
  | pack | pack8 | pack16
  deriving DecidableEq, Repr

/-- Ternary operations. -/
inductive TernaryOp
  | select
  deriving DecidableEq, Repr

/-- Expression tree node. -/
inductive Expr (X : Xlen) : Type
  | imm (val : X.Reg)
  | reg (idx : ℕ)
  | csr (csr : ℕ)
  | mem (base : Expr X) (offset : BitVec 16) (width : ℕ) (signed : Bool)
  | memAddr (addr : Expr X) (width : ℕ) (signed : Bool)
  | pc
  | cycle
  | instret
  | temp (idx : ℕ)
  | traceIdx
  | pcIdx
  | resAddr
  | resValid
  | exited
  | exitCode
  | pcConst (pc : X.Reg)
  | var (name : String)
  | unary (op : UnaryOp) (expr : Expr X)
  | binary (op : BinaryOp) (left right : Expr X)
  | ternary (op : TernaryOp) (first second third : Expr X)
  | externCall (name : String) (args : List (Expr X)) (retWidth : ℕ)

namespace Expr

variable {X : Xlen}

/-- `Expr::read`: alias for a register read. -/
def read (idx : ℕ) : Expr X := .reg idx

/-- Memory read with computed address, zero-extended. -/
def memU (addr : Expr X) (width : ℕ) : Expr X := .memAddr addr width false

/-- Memory read with computed address, sign-extended. -/
def memS (addr : Expr X) (width : ℕ) : Expr X := .memAddr addr width true

/-- Whether the expression is statically known to be zero: the immediate 0 or a read of `x0`. -/
def isZero : Expr X → Bool
  | .imm v => Xlen.toU64 v == 0
  | .reg 0 => true
  | _ => false

/-! ## Arithmetic and logic -/

def neg (val : Expr X) : Expr X := .unary .neg val

def not (val : Expr X) : Expr X := .unary .not val

def add (left right : Expr X) : Expr X :=
  match left, right with
  | .imm l, .imm r => .imm (X.fromU64 (Xlen.toU64 l + Xlen.toU64 r))
  | left, right =>
    if right.isZero then left else if left.isZero then right else .binary .add left right

def sub (left right : Expr X) : Expr X :=
  match left, right with
  | .imm l, .imm r => .imm (X.fromU64 (Xlen.toU64 l - Xlen.toU64 r))
  | left, right =>
    if right.isZero then left else if left.isZero then neg right else .binary .sub left right

def mul (left right : Expr X) : Expr X := .binary .mul left right

def and (left right : Expr X) : Expr X :=
  match left, right with
  | .imm l, .imm r => .imm (X.fromU64 (Xlen.toU64 l &&& Xlen.toU64 r))
  | left, right => .binary .and left right

def or (left right : Expr X) : Expr X :=
  match left, right with
  | .imm l, .imm r => .imm (X.fromU64 (Xlen.toU64 l ||| Xlen.toU64 r))
  | left, right =>
    if right.isZero then left else if left.isZero then right else .binary .or left right

def xor (left right : Expr X) : Expr X :=
  match left, right with
  | .imm l, .imm r => .imm (X.fromU64 (Xlen.toU64 l ^^^ Xlen.toU64 r))
  | left, right =>
    if right.isZero then left else if left.isZero then right else .binary .xor left right

def sll (left right : Expr X) : Expr X :=
  if right.isZero then left else .binary .sll left right

def srl (left right : Expr X) : Expr X :=
  if right.isZero then left else .binary .srl left right

def sra (left right : Expr X) : Expr X :=
  if right.isZero then left else .binary .sra left right

def eq (left right : Expr X) : Expr X := .binary .eq left right

def ne (left right : Expr X) : Expr X := .binary .ne left right

def lt (left right : Expr X) : Expr X := .binary .lt left right

def ge (left right : Expr X) : Expr X := .binary .ge left right

/-- `0 < x` unsigned is rewritten to `x != 0`. -/
def ltu (left right : Expr X) : Expr X :=
  if left.isZero then ne right (.imm (X.fromU64 0)) else .binary .ltu left right

def geu (left right : Expr X) : Expr X := .binary .geu left right

def slt (left right : Expr X) : Expr X := lt left right

def sltu (left right : Expr X) : Expr X := ltu left right

def select (cond thenVal elseVal : Expr X) : Expr X := .ternary .select cond thenVal elseVal

/-! ## Extensions -/

/-- Sign extension from 32 bits; an immediate is extended at once. -/
def sext32 : Expr X → Expr X
  | .imm v => .imm (X.fromU64 (((Xlen.toU64 v).setWidth 32).signExtend 64))
  | val => .unary .sext32 val

def sext16 : Expr X → Expr X
  | .imm v => .imm (X.fromU64 (((Xlen.toU64 v).setWidth 16).signExtend 64))
  | val => .unary .sext16 val

def sext8 : Expr X → Expr X
  | .imm v => .imm (X.fromU64 (((Xlen.toU64 v).setWidth 8).signExtend 64))
  | val => .unary .sext8 val

def zext8 : Expr X → Expr X
  | .imm v => .imm (X.fromU64 (Xlen.toU64 v &&& 0xff))
  | val => .unary .zext8 val

def zext16 : Expr X → Expr X
  | .imm v => .imm (X.fromU64 (Xlen.toU64 v &&& 0xffff))
  | val => .unary .zext16 val

def zext32 : Expr X → Expr X
  | .imm v => .imm (X.fromU64 (Xlen.toU64 v &&& 0xffffffff))
  | val => .unary .zext32 val

/-! ## Multiplication, division and word operations -/

def div (left right : Expr X) : Expr X := .binary .div left right

def divu (left right : Expr X) : Expr X := .binary .divU left right

def rem (left right : Expr X) : Expr X := .binary .rem left right

def remu (left right : Expr X) : Expr X := .binary .remU left right

def mulh (left right : Expr X) : Expr X := .binary .mulH left right

def mulhsu (left right : Expr X) : Expr X := .binary .mulHSU left right

def mulhu (left right : Expr X) : Expr X := .binary .mulHU left right

def addw (left right : Expr X) : Expr X :=
  if right.isZero then sext32 left
  else if left.isZero then sext32 right
  else .binary .addW left right

/-- `0 - x` becomes the sign-extended negation of `x`. -/
def subw (left right : Expr X) : Expr X :=
  if right.isZero then sext32 left
  else if left.isZero then sext32 (neg right)
  else .binary .subW left right

def sllw (left right : Expr X) : Expr X :=
  if right.isZero then sext32 left else .binary .sllW left right

def srlw (left right : Expr X) : Expr X :=
  if right.isZero then sext32 left else .binary .srlW left right

def sraw (left right : Expr X) : Expr X :=
  if right.isZero then sext32 left else .binary .sraW left right

def mulw (left right : Expr X) : Expr X := .binary .mulW left right

def divw (left right : Expr X) : Expr X := .binary .divW left right

def divuw (left right : Expr X) : Expr X := .binary .divUW left right

def remw (left right : Expr X) : Expr X := .binary .remW left right

def remuw (left right : Expr X) : Expr X := .binary .remUW left right

/-! ## Bit manipulation -/

def clz (val : Expr X) : Expr X := .unary .clz val

def ctz (val : Expr X) : Expr X := .unary .ctz val

def cpop (val : Expr X) : Expr X := .unary .cpop val

def clz32 (val : Expr X) : Expr X := .unary .clz32 val

def ctz32 (val : Expr X) : Expr X := .unary .ctz32 val

def cpop32 (val : Expr X) : Expr X := .unary .cpop32 val

def orc8 (val : Expr X) : Expr X := .unary .orc8 val

def rev8 (val : Expr X) : Expr X := .unary .rev8 val

def brev8 (val : Expr X) : Expr X := .unary .brev8 val

def zip (val : Expr X) : Expr X := .unary .zip val

def unzip (val : Expr X) : Expr X := .unary .unzip val

def pack (left right : Expr X) : Expr X := .binary .pack left right

def pack8 (left right : Expr X) : Expr X := .binary .pack8 left right

def pack16 (left right : Expr X) : Expr X := .binary .pack16 left right

/-! ## Minimum and maximum

Both operands are duplicated: once in the comparison, once in the selected value.  The 32-bit forms
compare the extended low words but select the unextended operands. -/

def min (left right : Expr X) : Expr X := select (lt left right) left right

def max (left right : Expr X) : Expr X := select (lt left right) right left

def minu (left right : Expr X) : Expr X := select (ltu left right) left right

def maxu (left right : Expr X) : Expr X := select (ltu left right) right left

def min32 (left right : Expr X) : Expr X :=
  select (lt (sext32 left) (sext32 right)) left right

def max32 (left right : Expr X) : Expr X :=
  select (lt (sext32 left) (sext32 right)) right left

def minu32 (left right : Expr X) : Expr X :=
  select (ltu (zext32 left) (zext32 right)) left right

def maxu32 (left right : Expr X) : Expr X :=
  select (ltu (zext32 left) (zext32 right)) right left

end Expr

end Rvr
