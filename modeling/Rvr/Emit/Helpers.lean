import Rvr.Lib.CFunc

/-!
# Arithmetic helpers of the C header

The division, multiply-high and bit-manipulation helpers of the generated header
(`rvr-emit/src/c/header/csr.rs` and `helpers.rs`), as functions of the C library.  The constants are
those of `prelude.rs` and `stdint.h`.
-/

namespace Rvr.CHelpers

open CLang

/-! ## Expressions -/

/-- A decimal literal. -/
def int (n : ℕ) : CExpr := .lit (.ofInt .i32 n)

def rvDivByZero : CExpr := .lit (.ofInt .u32 0xffffffff)

def rvInt32Min : CExpr := .lit (.ofInt .i32 (-0x80000000))

/-- `INT32_MIN` is an expression of type `int`. -/
def int32Min : CExpr := .lit (.ofInt .i32 (-0x80000000))

def int64Min : CExpr := .lit (.ofInt .i64 (-0x8000000000000000))

def uint64Max : CExpr := .lit (.ofInt .u64 0xffffffffffffffff)

def varA : CExpr := .var "a"

def varB : CExpr := .var "b"

/-- `a / b` -/
def quotient : CExpr := .binary .div varA varB

/-- `a % b` -/
def remainder : CExpr := .binary .mod varA varB

/-! ## Division -/

/-- Signed division: both special cases return early. -/
def signedDivision (ret t : CType) (min onZero onOverflow result : CExpr) : CDef where
  ret := ret
  params := [(t, "a"), (t, "b")]
  body := [
    .ifReturn (.binary .eq varB (int 0)) onZero,
    .ifReturn (.land (.binary .eq varA min) (.binary .eq varB (.unary .neg (int 1)))) onOverflow,
    .ret result]

/-- Unsigned division: a zero divisor returns early. -/
def unsignedDivision (ret t : CType) (onZero result : CExpr) : CDef where
  ret := ret
  params := [(t, "a"), (t, "b")]
  body := [.ifReturn (.binary .eq varB (int 0)) onZero, .ret result]

def rvDiv : CDef :=
  signedDivision .u32 .i32 rvInt32Min rvDivByZero (.cast .u32 rvInt32Min) (.cast .u32 quotient)

def rvDivu : CDef := unsignedDivision .u32 .u32 rvDivByZero quotient

def rvRem : CDef :=
  signedDivision .u32 .i32 rvInt32Min (.cast .u32 varA) (int 0) (.cast .u32 remainder)

def rvRemu : CDef := unsignedDivision .u32 .u32 varA remainder

def rvDiv64 : CDef :=
  signedDivision .u64 .i64 int64Min uint64Max (.cast .u64 int64Min) (.cast .u64 quotient)

def rvDivu64 : CDef := unsignedDivision .u64 .u64 uint64Max quotient

def rvRem64 : CDef :=
  signedDivision .u64 .i64 int64Min (.cast .u64 varA) (int 0) (.cast .u64 remainder)

def rvRemu64 : CDef := unsignedDivision .u64 .u64 varA remainder

def rvDivw : CDef :=
  signedDivision .u64 .i32 int32Min uint64Max (.cast .u64 (.cast .i64 int32Min))
    (.cast .u64 (.cast .i64 quotient))

def rvDivuw : CDef :=
  unsignedDivision .u64 .u32 uint64Max (.cast .u64 (.cast .i64 (.cast .i32 quotient)))

def rvRemw : CDef :=
  signedDivision .u64 .i32 int32Min (.cast .u64 (.cast .i64 varA)) (int 0)
    (.cast .u64 (.cast .i64 remainder))

def rvRemuw : CDef :=
  unsignedDivision .u64 .u32 (.cast .u64 (.cast .i64 (.cast .i32 varA)))
    (.cast .u64 (.cast .i64 (.cast .i32 remainder)))

/-! ## Multiply-high -/

/-- The high half of a 32-bit product, through a 64-bit type. -/
def mulHigh32 (ta tb : CType) (a b : CExpr) : CDef where
  ret := .u32
  params := [(ta, "a"), (tb, "b")]
  body := [.ret (.cast .u32 (.binary .shr (.binary .mul a b) (int 32)))]

/-- The high half of a 64-bit product, through a 128-bit type. -/
def mulHigh64 (ta tb wide : CType) : CDef where
  ret := .u64
  params := [(ta, "a"), (tb, "b")]
  body := [
    .declare wide "prod" (.binary .mul (.cast wide varA) (.cast wide varB)),
    .ret (.cast .u64 (.binary .shr (.var "prod") (int 64)))]

def rvMulh : CDef := mulHigh32 .i32 .i32 (.cast .i64 varA) (.cast .i64 varB)

def rvMulhsu : CDef := mulHigh32 .i32 .u32 (.cast .i64 varA) (.cast .i64 (.cast .u64 varB))

def rvMulhu : CDef := mulHigh32 .u32 .u32 (.cast .u64 varA) (.cast .u64 varB)

def rvMulh64 : CDef := mulHigh64 .i64 .i64 .i128

def rvMulhsu64 : CDef := mulHigh64 .i64 .u64 .i128

def rvMulhu64 : CDef := mulHigh64 .u64 .u64 .u128

/-! ## Bit manipulation -/

def varX : CExpr := .var "x"

def varLo : CExpr := .var "lo"

def varHi : CExpr := .var "hi"

/-- A hexadecimal literal with the suffix of the type. -/
def hex (t : CType) (n : ℕ) : CExpr := .lit (.ofInt t n)

/-- `e >> k` -/
def shr (e : CExpr) (k : ℕ) : CExpr := .binary .shr e (int k)

/-- `e << k` -/
def shl (e : CExpr) (k : ℕ) : CExpr := .binary .shl e (int k)

/-- `l | r` -/
def bor (l r : CExpr) : CExpr := .binary .bor l r

/-- `l & r` -/
def band (l r : CExpr) : CExpr := .binary .band l r

/-- ORC.B at a type: the bits of a byte are collected in its lowest one and spread from there. -/
def orcB (t : CType) (ones : ℕ) : CDef where
  ret := t
  params := [(t, "x")]
  body := [
    .update .bor "x" (shr varX 4), .update .bor "x" (shr varX 2), .update .bor "x" (shr varX 1),
    .update .band "x" (hex t ones),
    .update .bor "x" (shl varX 1), .update .bor "x" (shl varX 2), .update .bor "x" (shl varX 4),
    .ret varX]

/-- `x = ((x >> k) & mask) | ((x & mask) << k);` -/
def swap (t : CType) (k mask : ℕ) : CLang.CStmt :=
  .assign "x" (bor (band (shr varX k) (hex t mask)) (shl (band varX (hex t mask)) k))

/-- BREV8 at a type: neighbours, pairs and halves of a byte are swapped. -/
def brev8 (t : CType) (bits pairs nibbles : ℕ) : CDef where
  ret := t
  params := [(t, "x")]
  body := [swap t 1 bits, swap t 2 pairs, swap t 4 nibbles, .ret varX]

def rvOrcB32 : CDef := orcB .u32 0x01010101

def rvOrcB64 : CDef := orcB .u64 0x0101010101010101

def rvBrev832 : CDef := brev8 .u32 0x55555555 0x33333333 0x0F0F0F0F

def rvBrev864 : CDef := brev8 .u64 0x5555555555555555 0x3333333333333333 0x0F0F0F0F0F0F0F0F

/-- `v = (v | (v << k)) & mask;` -/
def spread (v : String) (k mask : ℕ) : CLang.CStmt :=
  .assign v (band (bor (.var v) (shl (.var v) k)) (hex .u32 mask))

/-- `v = (v | (v >> k)) & mask;` -/
def gather (v : String) (k mask : ℕ) : CLang.CStmt :=
  .assign v (band (bor (.var v) (shr (.var v) k)) (hex .u32 mask))

def rvZip32 : CDef where
  ret := .u32
  params := [(.u32, "x")]
  body := [
    .declare .u32 "lo" (band varX (hex .u32 0xFFFF)), .declare .u32 "hi" (shr varX 16),
    spread "lo" 8 0x00FF00FF, spread "hi" 8 0x00FF00FF,
    spread "lo" 4 0x0F0F0F0F, spread "hi" 4 0x0F0F0F0F,
    spread "lo" 2 0x33333333, spread "hi" 2 0x33333333,
    spread "lo" 1 0x55555555, spread "hi" 1 0x55555555,
    .ret (bor varLo (shl varHi 1))]

def rvUnzip32 : CDef where
  ret := .u32
  params := [(.u32, "x")]
  body := [
    .declare .u32 "lo" (band varX (hex .u32 0x55555555)),
    .declare .u32 "hi" (band (shr varX 1) (hex .u32 0x55555555)),
    gather "lo" 1 0x33333333, gather "hi" 1 0x33333333,
    gather "lo" 2 0x0F0F0F0F, gather "hi" 2 0x0F0F0F0F,
    gather "lo" 4 0x00FF00FF, gather "hi" 4 0x00FF00FF,
    gather "lo" 8 0x0000FFFF, gather "hi" 8 0x0000FFFF,
    .ret (bor varLo (shl varHi 16))]

end Rvr.CHelpers
