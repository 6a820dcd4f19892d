import Mathlib

/-!
# Register widths

The recompiler is generic over a marker type `Xlen` with the two instances `Rv32` and `Rv64`
(`rvr-ir/src/xlen.rs`).  Here the marker is a two-element type, and a guest register of width `X`
is a bit vector of `X.value` bits.  Addresses and analysis values are `u64` in the source at either
width; they are `U64` here, and `fromU64`/`toU64` are the two conversions.
-/

namespace Rvr

/-- The `u64` of the source: code addresses, abstract register values, dispatch keys. -/
abbrev U64 := BitVec 64

instance : LawfulBEq U64 := inferInstance

/-- The register width of a guest (`Rv32` or `Rv64`). -/
inductive Xlen
  | rv32
  | rv64
  deriving DecidableEq, Repr

namespace Xlen

/-- `X::VALUE`: the register width in bits. -/
def value : Xlen → ℕ
  | rv32 => 32
  | rv64 => 64

/-- `X::REG_BYTES`: the register width in bytes. -/
def regBytes : Xlen → ℕ
  | rv32 => 4
  | rv64 => 8

/-- `X::Reg`: a guest register, `u32` or `u64`. -/
abbrev Reg (X : Xlen) := BitVec X.value

/-- `X::from_u64`: keep the low `X.value` bits. -/
def fromU64 (X : Xlen) (val : U64) : X.Reg := val.setWidth X.value

/-- `X::to_u64`: zero-extend to 64 bits. -/
def toU64 {X : Xlen} (val : X.Reg) : U64 := val.setWidth 64

/-- `X::sign_extend_32`: sign-extend a 32-bit value to the register width. -/
def signExtend32 (X : Xlen) (val : BitVec 32) : X.Reg := val.signExtend X.value

theorem value_pos (X : Xlen) : 0 < X.value := by cases X <;> decide

theorem thirtyTwo_le_value (X : Xlen) : 32 ≤ X.value := by cases X <;> decide

theorem value_le (X : Xlen) : X.value ≤ 64 := by cases X <;> decide

variable {X : Xlen}

theorem eq_rv64 (h : X.value = 64) : X = rv64 := by
  cases X with
  | rv32 => cases h
  | rv64 => rfl

@[simp] theorem fromU64_toU64 (v : X.Reg) : X.fromU64 (toU64 v) = v := by
  simp only [fromU64, toU64, BitVec.setWidth_setWidth_of_le _ X.value_le, BitVec.setWidth_eq]

@[simp] theorem fromU64_zero (X : Xlen) : X.fromU64 0 = 0 := by
  simp [fromU64]

theorem toNat_toU64 (v : X.Reg) : (toU64 v).toNat = v.toNat :=
  BitVec.toNat_setWidth_of_le X.value_le

theorem toNat_fromU64_of_lt {v : U64} (h : v.toNat < 2 ^ X.value) :
    (X.fromU64 v).toNat = v.toNat := by
  rw [fromU64, BitVec.toNat_setWidth, Nat.mod_eq_of_lt h]

theorem toU64_eq_zero {v : X.Reg} : toU64 v = 0 ↔ v = 0 := by
  rw [← BitVec.toNat_inj, ← BitVec.toNat_inj, toNat_toU64]
  simp

theorem toU64_inj {v w : X.Reg} : toU64 v = toU64 w ↔ v = w := by
  rw [← BitVec.toNat_inj, ← BitVec.toNat_inj, toNat_toU64, toNat_toU64]

end Xlen

end Rvr
