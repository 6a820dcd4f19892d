import Rvr.Ir.Ops
import Rvr.Spec.Isa

/-!
# Operators and the specified values

The operators of the IR compute the values of the RISC-V specification: comparisons, the high halves
of products, and the divisions with their special cases, at any width.
-/

namespace Rvr

open Spec

variable {w : ℕ}

/-! ## Comparisons -/

theorem ofBool_eq_bit {b : Bool} {p : Prop} [Decidable p] (h : b = true ↔ p) :
    Ops.ofBool w b = bit p := by
  exact if_congr h rfl rfl

theorem ofBool_slt (a b : BitVec w) : Ops.ofBool w (a.slt b) = bit (a.toInt < b.toInt) :=
  ofBool_eq_bit BitVec.slt_iff_toInt_lt

theorem ofBool_ult (a b : BitVec w) : Ops.ofBool w (a.ult b) = bit (a.toNat < b.toNat) :=
  ofBool_eq_bit (by rw [BitVec.ult_iff_lt, BitVec.lt_def])

/-! ## Products -/

/-- Dividing the residue modulo a product gives the residue of the quotient. -/
theorem emod_mul_ediv (z : ℤ) {a b : ℤ} (ha : 0 < a) : z % (a * b) / a = z / a % b := by
  rw [Int.emod_def, Int.emod_def, mul_assoc, Int.sub_mul_ediv_left z _ ha.ne',
    Int.ediv_ediv_of_nonneg ha.le]

/-- The high half of a product of two integers taken modulo the double width. -/
theorem mulHigh_ofInt (x y : ℤ) :
    Ops.mulHigh (BitVec.ofInt (2 * w) x) (BitVec.ofInt (2 * w) y) = highHalf w (x * y) := by
  have hpos : (0 : ℤ) < 2 ^ w := by positivity
  have hpow : ((2 ^ (2 * w) : ℕ) : ℤ) = 2 ^ w * 2 ^ w := by
    push_cast
    rw [two_mul, pow_add]
  apply BitVec.eq_of_toNat_eq
  rw [Ops.mulHigh, ← BitVec.ofInt_mul, highHalf, BitVec.extractLsb'_toNat, BitVec.toNat_ofInt,
    BitVec.toNat_ofInt, hpow, Nat.shiftRight_eq_div_pow]
  have hnonneg : 0 ≤ x * y % (2 ^ w * 2 ^ w) := Int.emod_nonneg _ (by positivity)
  zify
  rw [Int.toNat_of_nonneg hnonneg, emod_mul_ediv _ hpos,
    Int.toNat_of_nonneg (Int.emod_nonneg _ hpos.ne'), Int.emod_emod]

theorem mulHigh_signed (a b : BitVec w) :
    Ops.mulHigh (a.signExtend _) (b.signExtend _) = highHalf w (a.toInt * b.toInt) :=
  mulHigh_ofInt a.toInt b.toInt

theorem setWidth_eq_ofInt {v : ℕ} (a : BitVec w) : a.setWidth v = BitVec.ofInt v a.toNat := by
  rw [BitVec.ofInt_natCast, BitVec.ofNat_toNat]

theorem mulHigh_signed_unsigned (a b : BitVec w) :
    Ops.mulHigh (a.signExtend _) (b.setWidth _) = highHalf w (a.toInt * b.toNat) := by
  rw [setWidth_eq_ofInt b]
  exact mulHigh_ofInt a.toInt b.toNat

theorem mulHigh_unsigned (a b : BitVec w) :
    Ops.mulHigh (a.setWidth _) (b.setWidth _) = highHalf w (a.toNat * b.toNat) := by
  rw [setWidth_eq_ofInt a, setWidth_eq_ofInt b]
  exact mulHigh_ofInt a.toNat b.toNat

/-! ## Quotients and remainders -/

theorem div_eq_divSigned (a b : BitVec w) : Ops.div a b = divSigned a b := by
  refine if_congr Iff.rfl BitVec.neg_one_eq_allOnes.symm ?_
  apply BitVec.eq_of_toInt_eq
  rw [BitVec.toInt_sdiv, BitVec.toInt_ofInt]

theorem divU_eq_divUnsigned (a b : BitVec w) : Ops.divU a b = divUnsigned a b := by
  refine if_congr Iff.rfl BitVec.neg_one_eq_allOnes.symm ?_
  rw [← BitVec.toNat_udiv, BitVec.ofNat_toNat, BitVec.setWidth_eq]

theorem rem_eq_remSigned (a b : BitVec w) : Ops.rem a b = remSigned a b := by
  unfold Ops.rem remSigned
  rw [← BitVec.toInt_srem, BitVec.ofInt_toInt]

theorem remU_eq_remUnsigned (a b : BitVec w) : Ops.remU a b = remUnsigned a b := by
  unfold Ops.remU remUnsigned
  rw [← BitVec.toNat_umod, BitVec.ofNat_toNat, BitVec.setWidth_eq]

end Rvr
