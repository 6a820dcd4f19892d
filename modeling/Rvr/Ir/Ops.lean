import Rvr.Ir.Expr

/-!
# The value of an IR operator

Each operator of the IR denotes a function on guest registers.  The C backend is the reference for
what an operator means (`rvr-emit/src/c/emitter/expr.rs` and the helpers it calls); here every
operator is given by its arithmetic meaning, not by the bit tricks of a helper.  `sext32`, `zext32`
and the word operators act on the low 32 bits, so on RV32 the first two are the identity.

C leaves a shift by the width or more undefined; the functions below give it the value that
`BitVec` shifts have.
-/

namespace Rvr

namespace Ops

variable {w : ℕ}

/-- A comparison result as a register: 1 or 0. -/
def ofBool (w : ℕ) (b : Bool) : BitVec w := if b then 1 else 0

/-- A comparison result is zero exactly when the comparison fails. -/
theorem ofBool_eq_zero (hw : 0 < w) (b : Bool) : ofBool w b = 0#w ↔ b = false := by
  have hone : (1 : BitVec w) ≠ 0#w := by
    intro h
    have hnat := congrArg BitVec.toNat h
    rw [show (1 : BitVec w).toNat = 1 from Nat.mod_eq_of_lt (Nat.one_lt_two_pow hw.ne')] at hnat
    exact one_ne_zero hnat
  cases b
  · exact iff_of_true rfl rfl
  · exact iff_of_false hone Bool.noConfusion

/-- The bitwise conjunction of two comparison results. -/
theorem ofBool_and_ofBool (b c : Bool) : ofBool w b &&& ofBool w c = ofBool w (b && c) := by
  cases b <;> cases c
  · exact BitVec.and_self
  · exact BitVec.zero_and
  · exact BitVec.and_zero
  · exact BitVec.and_self

/-- Signed division; division by zero gives all ones, overflow the dividend. -/
def div (l r : BitVec w) : BitVec w := if r = 0 then BitVec.allOnes w else l.sdiv r

/-- Unsigned division; division by zero gives all ones. -/
def divU (l r : BitVec w) : BitVec w := if r = 0 then BitVec.allOnes w else l / r

/-- Signed remainder; a zero divisor leaves the dividend. -/
def rem (l r : BitVec w) : BitVec w := if r = 0 then l else l.srem r

/-- Unsigned remainder; a zero divisor leaves the dividend. -/
def remU (l r : BitVec w) : BitVec w := if r = 0 then l else l % r

/-- The high half of the double-width product of two extended operands. -/
def mulHigh (l r : BitVec (2 * w)) : BitVec w := (l * r).extractLsb' w w

/-- Every non-zero byte becomes `0xff`. -/
def orc8 (x : BitVec w) : BitVec w :=
  BitVec.ofFnLE fun i => x.extractLsb' (8 * (i.val / 8)) 8 != 0

/-- The bytes in reverse order. -/
def rev8 (x : BitVec w) : BitVec w :=
  BitVec.ofFnLE fun i => x.getLsbD (w - 8 * (i.val / 8 + 1) + i.val % 8)

/-- The bits of every byte in reverse order. -/
def brev8 (x : BitVec w) : BitVec w :=
  BitVec.ofFnLE fun i => x.getLsbD (8 * (i.val / 8) + (7 - i.val % 8))

/-- Interleave the two halfwords of a word: the low one supplies the even bits. -/
def zip32 (x : BitVec 32) : BitVec 32 :=
  BitVec.ofFnLE fun i => x.getLsbD (i.val / 2 + if i.val % 2 = 0 then 0 else 16)

/-- Gather the even bits of a word in its low halfword and the odd bits in its high one. -/
def unzip32 (x : BitVec 32) : BitVec 32 :=
  BitVec.ofFnLE fun i => x.getLsbD (2 * (i.val % 16) + if i.val < 16 then 0 else 1)

/-- The low 16 bits of `l` below the low 16 bits of `r`. -/
def pack16 (l r : BitVec 32) : BitVec 32 :=
  (l.setWidth 16).setWidth 32 ||| (r.setWidth 16).setWidth 32 <<< 16

end Ops

open Ops

/-- The value of a unary operator. -/
def UnaryOp.val {X : Xlen} (x : X.Reg) : UnaryOp → X.Reg
  | .not => ~~~x
  | .neg => -x
  | .sext8 => (x.setWidth 8).signExtend X.value
  | .sext16 => (x.setWidth 16).signExtend X.value
  | .sext32 => (x.setWidth 32).signExtend X.value
  | .zext8 => (x.setWidth 8).setWidth X.value
  | .zext16 => (x.setWidth 16).setWidth X.value
  | .zext32 => (x.setWidth 32).setWidth X.value
  | .clz => x.clz
  | .ctz => x.ctz
  | .cpop => x.cpop
  | .clz32 => ((x.setWidth 32).clz).setWidth X.value
  | .ctz32 => ((x.setWidth 32).ctz).setWidth X.value
  | .cpop32 => ((x.setWidth 32).cpop).setWidth X.value
  | .orc8 => Ops.orc8 x
  | .rev8 => Ops.rev8 x
  | .brev8 => Ops.brev8 x
  | .zip => (zip32 (x.setWidth 32)).setWidth X.value
  | .unzip => (unzip32 (x.setWidth 32)).setWidth X.value

/-- The value of a binary operator. -/
def BinaryOp.val {X : Xlen} (l r : X.Reg) : BinaryOp → X.Reg
  | .add => l + r
  | .sub => l - r
  | .mul => l * r
  | .mulH => mulHigh (l.signExtend _) (r.signExtend _)
  | .mulHSU => mulHigh (l.signExtend _) (r.setWidth _)
  | .mulHU => mulHigh (l.setWidth _) (r.setWidth _)
  | .div => Ops.div l r
  | .divU => Ops.divU l r
  | .rem => Ops.rem l r
  | .remU => Ops.remU l r
  | .and => l &&& r
  | .or => l ||| r
  | .xor => l ^^^ r
  | .sll => l <<< r.toNat
  | .srl => l >>> r.toNat
  | .sra => l.sshiftRight r.toNat
  | .eq => ofBool _ (l == r)
  | .ne => ofBool _ (l != r)
  | .lt => ofBool _ (l.slt r)
  | .ge => ofBool _ (!l.slt r)
  | .ltu => ofBool _ (l.ult r)
  | .geu => ofBool _ (!l.ult r)
  | .addW => (l.setWidth 32 + r.setWidth 32).signExtend X.value
  | .subW => (l.setWidth 32 - r.setWidth 32).signExtend X.value
  | .mulW => (l.setWidth 32 * r.setWidth 32).signExtend X.value
  | .divW => (Ops.div (l.setWidth 32) (r.setWidth 32)).signExtend X.value
  | .divUW => (Ops.divU (l.setWidth 32) (r.setWidth 32)).signExtend X.value
  | .remW => (Ops.rem (l.setWidth 32) (r.setWidth 32)).signExtend X.value
  | .remUW => (Ops.remU (l.setWidth 32) (r.setWidth 32)).signExtend X.value
  | .sllW => (l.setWidth 32 <<< r.toNat).signExtend X.value
  | .srlW => (l.setWidth 32 >>> r.toNat).signExtend X.value
  | .sraW => ((l.setWidth 32).sshiftRight r.toNat).signExtend X.value
  | .pack =>
    (l.setWidth (X.value / 2)).setWidth X.value |||
      (r.setWidth (X.value / 2)).setWidth X.value <<< (X.value / 2)
  | .pack8 => (l.setWidth 8).setWidth X.value ||| (r.setWidth 8).setWidth X.value <<< 8
  | .pack16 => (Ops.pack16 (l.setWidth 32) (r.setWidth 32)).signExtend X.value

/-- The value of a ternary operator. -/
def TernaryOp.val {X : Xlen} (c t e : X.Reg) : TernaryOp → X.Reg
  | .select => if c = 0 then e else t

end Rvr
