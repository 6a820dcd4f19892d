import Rvr.Lib.Word
import Rvr.Spec.Bitmanip
import Rvr.Verify.Values

/-!
# Operators and the specified values of the bit-manipulation instructions

The byte, pack and interleave operators of the IR and the pairs of shifts that the lifts make of
rotates compute the values of the specification.
-/

namespace Rvr

open Spec BitVec

variable {w : ℕ}

/-! ## Bytes -/

/-- Bit `i` of a value lies in its byte `i / 8`. -/
theorem getLsbD_ofBytes (bs : List (BitVec 8)) {i : ℕ} (hi : i < w) :
    (ofBytes w bs).getLsbD i = (bs.getD (i / 8) 0).getLsbD (i % 8) := by
  induction bs generalizing i with
  | nil => simp [ofBytes]
  | cons b bs ih =>
    rw [ofBytes, getLsbD_or, getLsbD_shiftLeft, getLsbD_setWidth]
    by_cases hlow : i < 8
    · have hdiv : i / 8 = 0 := by omega
      have hmod : i % 8 = i := by omega
      simp [hi, hlow, hdiv, hmod]
    · have hdiv : i / 8 = (i - 8) / 8 + 1 := by omega
      have hmod : i % 8 = (i - 8) % 8 := by omega
      rw [ih (by omega), hdiv, hmod, getLsbD_of_ge b i (by omega)]
      simp [hi, hlow]

theorem getD_bytes (x : BitVec w) {i : ℕ} (hi : i < w / 8) :
    (bytes x).getD i 0 = x.extractLsb' (8 * i) 8 := by
  simp [bytes, hi]

theorem length_bytes (x : BitVec w) : (bytes x).length = w / 8 := by
  simp [bytes]

/-- Bit `i` of a value whose bytes were changed one by one. -/
theorem getLsbD_ofBytes_map (f : BitVec 8 → BitVec 8) (hf : f 0 = 0) (x : BitVec w) {i : ℕ}
    (hw : w % 8 = 0) (hi : i < w) :
    (ofBytes w ((bytes x).map f)).getLsbD i =
      (f (x.extractLsb' (8 * (i / 8)) 8)).getLsbD (i % 8) := by
  have hmap := List.getD_map (n := i / 8) (bytes x) 0 f
  rw [hf] at hmap
  rw [getLsbD_ofBytes _ hi, hmap, getD_bytes x (by omega)]

theorem orc8_eq (hw : w % 8 = 0) (x : BitVec w) :
    Ops.orc8 x = ofBytes w ((bytes x).map fun b => if b = 0 then 0 else 0xff) := by
  apply eq_of_getLsbD_eq
  intro i hi
  have hmod : i % 8 < 8 := Nat.mod_lt _ (by decide)
  rw [getLsbD_ofBytes_map (fun b => if b = 0 then 0 else 0xff) rfl x hw hi, Ops.orc8,
    getLsbD_ofFnLE, dif_pos hi]
  by_cases hbyte : x.extractLsb' (8 * (i / 8)) 8 = 0
  · rw [hbyte]
    simp
  · have hones : (0xff : BitVec 8).getLsbD (i % 8) = true := by
      rw [show (0xff : BitVec 8) = allOnes 8 from rfl, getLsbD_allOnes]
      exact decide_eq_true hmod
    rw [if_neg hbyte, hones]
    exact bne_iff_ne.2 hbyte

theorem brev8_eq (hw : w % 8 = 0) (x : BitVec w) :
    Ops.brev8 x = ofBytes w ((bytes x).map reverse) := by
  apply eq_of_getLsbD_eq
  intro i hi
  have hmod : i % 8 < 8 := Nat.mod_lt _ (by decide)
  have hrest : 8 - 1 - i % 8 < 8 := by omega
  rw [getLsbD_ofBytes_map _ rfl x hw hi, Ops.brev8, getLsbD_ofFnLE, dif_pos hi,
    getLsbD_reverse, getMsbD, getLsbD_extractLsb', decide_eq_true hmod,
    decide_eq_true hrest, Bool.true_and, Bool.true_and]

theorem rev8_eq (hw : w % 8 = 0) (x : BitVec w) : Ops.rev8 x = ofBytes w (bytes x).reverse := by
  apply eq_of_getLsbD_eq
  intro i hi
  have hmod : i % 8 < 8 := Nat.mod_lt _ (by decide)
  have hindex : w - 8 * (i / 8 + 1) + i % 8 = 8 * (w / 8 - 1 - i / 8) + i % 8 := by omega
  rw [getLsbD_ofBytes _ hi, List.getD_reverse _ (by rw [length_bytes]; omega), length_bytes,
    getD_bytes x (by omega), Ops.rev8, getLsbD_ofFnLE, dif_pos hi,
    getLsbD_extractLsb', decide_eq_true hmod, Bool.true_and, hindex]

/-! ## Halves -/

/-- Bit `i` of two interleaved sequences of bits. -/
theorem getD_interleave (f g : ℕ → Bool) (n : ℕ) {i : ℕ} (hi : i < 2 * n) :
    ((List.range n).flatMap fun k => [f k, g k]).getD i false =
      if i % 2 = 0 then f (i / 2) else g (i / 2) := by
  induction n with
  | zero => omega
  | succ n ih =>
    have hlen : ((List.range n).flatMap fun k => [f k, g k]).length = 2 * n := by
      simp [Nat.mul_comm]
    rw [List.range_succ, List.flatMap_append, List.flatMap_singleton]
    by_cases hlt : i < 2 * n
    · rw [List.getD_append _ _ _ _ (by omega), ih hlt]
    · rw [List.getD_append_right _ _ _ _ (by omega), hlen]
      obtain rfl | rfl : i = 2 * n ∨ i = 2 * n + 1 := by omega
      · simp
      · have hdiv : (2 * n + 1) / 2 = n := by omega
        simp [hdiv]

theorem zip32_eq (x : BitVec 32) : Ops.zip32 x = zipHalves x := by
  apply eq_of_getLsbD_eq
  intro i hi
  rw [Ops.zip32, getLsbD_ofFnLE, zipHalves, getLsbD_setWidth, decide_eq_true hi,
    getLsbD_ofBoolListLE, getD_interleave _ (fun k => x.getLsbD (k + 16)) 16 hi]
  split_ifs <;> rfl

theorem unzip32_eq (x : BitVec 32) : Ops.unzip32 x = unzipHalves x := by
  apply eq_of_getLsbD_eq
  intro i hi
  rw [Ops.unzip32, getLsbD_ofFnLE, dif_pos hi, unzipHalves, getLsbD_setWidth, decide_eq_true hi,
    getLsbD_ofBoolListLE]
  by_cases hlow : i < 16
  · rw [List.getD_append _ _ _ _ (by simpa using hlow), Nat.mod_eq_of_lt hlow]
    simp [hlow]
  · have hlt : i - 16 < 16 := by omega
    have hmod : i % 16 = i - 16 := by omega
    rw [List.getD_append_right _ _ _ _ (by simpa using hlow), if_neg hlow, hmod]
    simp [hlt]

theorem pack16_eq (l r : BitVec 32) :
    Ops.pack16 l r = r.setWidth 16 ++ l.setWidth 16 :=
  (Word.setWidth_or_shiftLeft (l.setWidth 16) (r.setWidth 16)).trans (setWidth_eq _)

/-- Nothing above a halfword. -/
theorem zero_append_eq (x : BitVec 16) : (0#16 ++ x : BitVec 32) = x.setWidth 32 := by
  apply eq_of_toNat_eq
  rw [Word.toNat_append, toNat_setWidth_of_le (by decide), toNat_zero, Nat.zero_mul, Nat.zero_add]

end Rvr
