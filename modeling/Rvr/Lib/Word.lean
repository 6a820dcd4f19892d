import Mathlib

/-!
# Truncation, extension, fields and rotates of machine words

How truncating a word interacts with the two extensions and with shifts, rotates as pairs of shifts,
and the arithmetic of words that are built from bit fields, at arbitrary widths.  A concatenation is
a sum of its parts, a masked shift is a quotient and a remainder, and a disjunction of fields that
do not overlap is their sum; so facts about fields become linear arithmetic.
-/

namespace Word

open BitVec

variable {w v m n : ℕ}

/-! ## Truncation and extension -/

/-- Truncating a residue gives the residue at the smaller width. -/
theorem setWidth_ofInt (h : w ≤ v) (z : ℤ) :
    (BitVec.ofInt v z).setWidth w = BitVec.ofInt w z := by
  have hdvd : ((2 ^ w : ℕ) : ℤ) ∣ ((2 ^ v : ℕ) : ℤ) :=
    Int.natCast_dvd_natCast.2 (Nat.pow_dvd_pow 2 h)
  have hv : ((2 ^ v : ℕ) : ℤ) ≠ 0 :=
    Int.natCast_ne_zero.2 (Nat.pos_iff_ne_zero.1 (Nat.two_pow_pos v))
  have hw : ((2 ^ w : ℕ) : ℤ) ≠ 0 :=
    Int.natCast_ne_zero.2 (Nat.pos_iff_ne_zero.1 (Nat.two_pow_pos w))
  apply eq_of_toNat_eq
  rw [toNat_setWidth, toNat_ofInt, toNat_ofInt]
  apply Int.natCast_inj.1
  rw [Int.natCast_emod, Int.toNat_of_nonneg (Int.emod_nonneg z hv),
    Int.toNat_of_nonneg (Int.emod_nonneg z hw), Int.emod_emod_of_dvd z hdvd]

/-- Truncating a sign extension gives the word back. -/
@[simp] theorem setWidth_signExtend (h : w ≤ v) (x : BitVec w) :
    (x.signExtend v).setWidth w = x := by
  apply eq_of_getLsbD_eq
  intro i hi
  have hiv : i < v := Nat.lt_of_lt_of_le hi h
  rw [getLsbD_setWidth, getLsbD_signExtend]
  simp [hi, hiv]

/-- Sign extension in two steps. -/
theorem signExtend_signExtend (h : w ≤ v) (h' : v ≤ n) (x : BitVec w) :
    (x.signExtend v).signExtend n = x.signExtend n := by
  apply eq_of_toInt_eq
  rw [toInt_signExtend_of_le h', toInt_signExtend_of_le h,
    toInt_signExtend_of_le (Nat.le_trans h h')]

/-- Low zero bits may be put on before or after a sign extension. -/
theorem signExtend_append_zero (h : w ≤ v) (h' : v + m ≤ n) (x : BitVec w) :
    (x.signExtend v ++ 0#m).signExtend n = (x ++ 0#m).signExtend n := by
  apply eq_of_toInt_eq
  rw [toInt_signExtend_of_le h', toInt_signExtend_of_le (by omega),
    toInt_append_zero, toInt_append_zero, toInt_signExtend_of_le h]

/-- A value that is narrower than an immediate field is not negative in it. -/
theorem signExtend_setWidth (h : w < v) (x : BitVec w) :
    (x.setWidth v).signExtend n = x.setWidth n := by
  have hmsb : (x.setWidth v).msb = false := by
    rw [msb_setWidth, getLsbD_of_ge x _ (by omega), Bool.and_false]
  have hnat : (x.setWidth v).toNat = x.toNat := toNat_setWidth_of_le (by omega)
  rw [signExtend_eq_setWidth_of_msb_false hmsb, ← ofNat_toNat, hnat,
    ofNat_toNat]

variable {x : BitVec w}

/-- An arithmetic shift that leaves the top `n` bits gives their sign extension. -/
theorem sshiftRight_eq_signExtend {y : BitVec n} (hn : 0 < n) (h : n ≤ w)
    (hxy : x.toNat / 2 ^ (w - n) = y.toNat) : x.sshiftRight (w - n) = y.signExtend w := by
  have hbit (j : ℕ) : x.getLsbD (w - n + j) = y.getLsbD j := by
    rw [getLsbD, getLsbD, ← hxy, Nat.testBit_div_two_pow, Nat.add_comm]
  apply eq_of_getLsbD_eq
  intro i hi
  rw [getLsbD_sshiftRight, getLsbD_signExtend]
  by_cases hin : i < n
  · rw [if_pos (by omega), if_pos hin, hbit i]
    simp [hi]
  · -- beyond the narrow value both sides repeat its top bit
    rw [if_neg (by omega), if_neg hin, msb_eq_getLsbD_last, msb_eq_getLsbD_last]
    rw [← hbit (n - 1), show w - n + (n - 1) = w - 1 by omega]
    simp [hi]

/-- Sign extension by shifting a narrow value to the top of a word and back. -/
theorem sshiftRight_shiftLeft_of_toNat_eq {y : BitVec n} (hn : 0 < n) (h : n ≤ w)
    (hxy : x.toNat = y.toNat) : (x <<< (w - n)).sshiftRight (w - n) = y.signExtend w := by
  apply sshiftRight_eq_signExtend hn h
  have hpow : 2 ^ w = 2 ^ n * 2 ^ (w - n) := by rw [← Nat.pow_add, Nat.add_sub_cancel' h]
  have hlt : y.toNat * 2 ^ (w - n) < 2 ^ w := by
    rw [hpow]
    exact Nat.mul_lt_mul_of_pos_right y.isLt (Nat.two_pow_pos _)
  rw [toNat_shiftLeft, Nat.shiftLeft_eq, hxy, Nat.mod_eq_of_lt hlt,
    Nat.mul_div_cancel _ (Nat.two_pow_pos _)]

/-- The sign extension of the low `m` bits of a word gives the word back exactly if the word lies in
the lower half of the `m`-bit numbers or is as far below the top. -/
theorem sshiftRight_shiftLeft_eq_self_iff (hm : 0 < m) (h : m ≤ w) :
    (x <<< (w - m)).sshiftRight (w - m) = x ↔
      x.toNat < 2 ^ (m - 1) ∨ 2 ^ w - 2 ^ (m - 1) ≤ x.toNat := by
  have hhalf : 2 ^ m = 2 * 2 ^ (m - 1) := by rw [← Nat.pow_succ', Nat.succ_eq_add_one,
      Nat.sub_add_cancel hm]
  have hpow : 2 ^ w = 2 ^ m * 2 ^ (w - m) := by rw [← Nat.pow_add, Nat.add_sub_cancel' h]
  have hlow : (x.setWidth m).toNat = x.toNat % 2 ^ m := toNat_setWidth ..
  have hext : (x <<< (w - m)).sshiftRight (w - m) = (x.setWidth m).signExtend w := by
    apply sshiftRight_eq_signExtend hm h
    rw [toNat_shiftLeft, Nat.shiftLeft_eq, hpow, Nat.mul_mod_mul_right,
      Nat.mul_div_cancel _ (Nat.two_pow_pos _), hlow]
  have hmsb : (x.setWidth m).msb = decide (2 ^ (m - 1) ≤ x.toNat % 2 ^ m) := by
    rw [msb_eq_decide, hlow]
  have hnat : ((x.setWidth m).signExtend w).toNat =
      x.toNat % 2 ^ m + if 2 ^ (m - 1) ≤ x.toNat % 2 ^ m then 2 ^ w - 2 ^ m else 0 := by
    rw [toNat_signExtend, hmsb, toNat_setWidth, hlow,
      Nat.mod_eq_of_lt (Nat.lt_of_lt_of_le (Nat.mod_lt _ (Nat.two_pow_pos m))
        (Nat.pow_le_pow_right (by omega) h))]
    simp only [decide_eq_true_eq]
  have hle : 2 ^ m ≤ 2 ^ w := Nat.pow_le_pow_right (by omega) h
  rw [hext, ← toNat_inj, hnat]
  constructor
  · intro heq
    split at heq <;> omega
  · rintro (hsmall | hlarge)
    · rw [Nat.mod_eq_of_lt (by omega), if_neg (by omega), Nat.add_zero]
    · -- the word is a multiple of `2 ^ m` below the top block, and the rest lies in its upper half
      have hmod : x.toNat % 2 ^ m = x.toNat - (2 ^ w - 2 ^ m) := by
        have hsplit : x.toNat = x.toNat - (2 ^ w - 2 ^ m) + 2 ^ m * (2 ^ (w - m) - 1) := by
          rw [Nat.mul_sub]
          omega
        rw [hsplit, Nat.add_mul_mod_self_left, ← hsplit]
        exact Nat.mod_eq_of_lt (by omega)
      rw [if_pos (by omega)]
      omega

/-! ## Fields -/

/-- A concatenation as a sum. -/
theorem toNat_append (x : BitVec m) (y : BitVec n) :
    (x ++ y).toNat = x.toNat * 2 ^ n + y.toNat := by
  rw [BitVec.toNat_append, ← Nat.shiftLeft_add_eq_or_of_lt y.isLt, Nat.shiftLeft_eq]

/-- The field of `len` bits from bit `lo` on. -/
theorem toNat_field (x : BitVec w) (lo len : ℕ) {mask : BitVec w}
    (hmask : mask.toNat = 2 ^ len - 1) :
    ((x >>> lo) &&& mask).toNat = x.toNat / 2 ^ lo % 2 ^ len := by
  rw [toNat_and, toNat_ushiftRight, hmask, Nat.and_two_pow_sub_one_eq_mod,
    Nat.shiftRight_eq_div_pow]

/-- A field moved to the left within the word. -/
theorem toNat_shiftLeft_of_lt {k : ℕ} (h : x.toNat * 2 ^ k < 2 ^ w) :
    (x <<< k).toNat = x.toNat * 2 ^ k := by
  rw [toNat_shiftLeft, Nat.shiftLeft_eq, Nat.mod_eq_of_lt h]

/-- Clearing the low `k` bits. -/
theorem toNat_and_highMask (x : BitVec w) (k : ℕ) :
    (x &&& (allOnes w <<< k)).toNat = x.toNat / 2 ^ k * 2 ^ k := by
  have hmask : x &&& (allOnes w <<< k) = (x >>> k) <<< k := by
    apply eq_of_getLsbD_eq
    intro i hi
    by_cases hik : i < k
    · simp [hik]
    · simp [hi, hik, show k + (i - k) = i by omega]
  have hle : x.toNat / 2 ^ k * 2 ^ k ≤ x.toNat := Nat.div_mul_le_self _ _
  rw [hmask, toNat_shiftLeft_of_lt, toNat_ushiftRight, Nat.shiftRight_eq_div_pow]
  rw [toNat_ushiftRight, Nat.shiftRight_eq_div_pow]
  omega

/-- A field whose value is known from bounds on the whole word: `q` stands above it. -/
theorem toNat_field_of_bounds (x : BitVec w) {mask : BitVec w} (lo len q : ℕ) {a : ℕ}
    (hmask : mask.toNat = 2 ^ len - 1) (ha : a < 2 ^ len)
    (hlow : (q * 2 ^ len + a) * 2 ^ lo ≤ x.toNat)
    (hhigh : x.toNat < (q * 2 ^ len + a + 1) * 2 ^ lo) :
    ((x >>> lo) &&& mask).toNat = a := by
  have hdiv : x.toNat / 2 ^ lo = q * 2 ^ len + a := Nat.div_eq_of_lt_le hlow hhigh
  rw [toNat_field x lo len hmask, hdiv, Nat.mul_add_mod_self_right, Nat.mod_eq_of_lt ha]

/-- The disjunction of two fields that do not overlap is their sum. -/
theorem toNat_or_of_disjoint {y : BitVec w} (k : ℕ) (hx : x.toNat % 2 ^ k = 0)
    (hy : y.toNat < 2 ^ k) : (x ||| y).toNat = x.toNat + y.toNat := by
  obtain ⟨a, ha⟩ := Nat.dvd_of_mod_eq_zero hx
  rw [toNat_or, ha, ← Nat.two_pow_add_eq_or_of_lt hy]

/-- An extracted field as a quotient and a remainder. -/
theorem toNat_extractLsb' (x : BitVec w) (lo len : ℕ) :
    (x.extractLsb' lo len).toNat = x.toNat / 2 ^ lo % 2 ^ len := by
  rw [extractLsb'_toNat, Nat.shiftRight_eq_div_pow]

/-- Adding a field below the ones already assembled: the sum of the parts is carried along. -/
theorem toNat_or_shiftLeft {y : BitVec w} {a b : ℕ} (k len : ℕ) (hx : x.toNat = a)
    (hy : y.toNat = b) (ha : a % 2 ^ (k + len) = 0) (hb : b < 2 ^ len) (hk : k + len ≤ w) :
    (x ||| y <<< k).toNat = a + b * 2 ^ k := by
  have hlt : b * 2 ^ k < 2 ^ (k + len) := by
    rw [Nat.add_comm, Nat.pow_add]
    exact Nat.mul_lt_mul_of_pos_right hb (Nat.two_pow_pos k)
  have hle : 2 ^ (k + len) ≤ 2 ^ w := Nat.pow_le_pow_right (by decide) hk
  have hshift : (y <<< k).toNat = b * 2 ^ k := by
    rw [← hy]
    exact toNat_shiftLeft_of_lt (by rw [hy]; omega)
  rw [toNat_or_of_disjoint (k + len) (by rw [hx, ha]) (by rw [hshift]; exact hlt), hx, hshift]

/-- The first of several fields put side by side, moved to its place. -/
theorem toNat_shiftLeft_field (x mask : BitVec w) (lo len k : ℕ) (hmask : mask.toNat = 2 ^ len - 1)
    (hk : k + len ≤ w) :
    (((x >>> lo) &&& mask) <<< k).toNat = x.toNat / 2 ^ lo % 2 ^ len * 2 ^ k := by
  have hlt : x.toNat / 2 ^ lo % 2 ^ len * 2 ^ k < 2 ^ (k + len) := by
    rw [Nat.add_comm, Nat.pow_add]
    exact Nat.mul_lt_mul_of_pos_right (Nat.mod_lt _ (Nat.two_pow_pos len)) (Nat.two_pow_pos k)
  have hle : 2 ^ (k + len) ≤ 2 ^ w := Nat.pow_le_pow_right (by decide) hk
  rw [toNat_shiftLeft_of_lt, toNat_field x lo len hmask]
  rw [toNat_field x lo len hmask]
  omega

/-- Adding a field above the ones already assembled. -/
theorem toNat_or_field (x mask : BitVec w) {y : BitVec w} {a : ℕ} (lo len k : ℕ)
    (hmask : mask.toNat = 2 ^ len - 1) (hk : k + len ≤ w) (hy : y.toNat = a) (ha : a < 2 ^ k) :
    (y ||| ((x >>> lo) &&& mask) <<< k).toNat = a + x.toNat / 2 ^ lo % 2 ^ len * 2 ^ k := by
  have hshift := toNat_shiftLeft_field x mask lo len k hmask hk
  rw [BitVec.or_comm, toNat_or_of_disjoint k _ (by rw [hy]; exact ha), hshift, hy, Nat.add_comm]
  rw [hshift, Nat.mul_mod_left]

/-! ## Shifts and rotates -/

/-- A rotate to the left as two shifts, with the complement of the amount taken modulo the width. -/
theorem rotateLeft_eq_shifts (x : BitVec w) {k : ℕ} (hk : k < w) :
    x.rotateLeft k = x <<< k ||| x >>> ((w - k) % w) := by
  rw [rotateLeft_def, Nat.mod_eq_of_lt hk]
  rcases Nat.eq_zero_or_pos k with rfl | hpos
  · rw [Nat.sub_zero, Nat.mod_self, shiftLeft_zero, ushiftRight_zero, BitVec.or_self,
      ushiftRight_eq_zero (Nat.le_refl _), or_zero]
  · rw [Nat.mod_eq_of_lt (by omega)]

theorem rotateRight_eq_shifts (x : BitVec w) {k : ℕ} (hk : k < w) :
    x.rotateRight k = x >>> k ||| x <<< ((w - k) % w) := by
  rw [rotateRight_def, Nat.mod_eq_of_lt hk]
  rcases Nat.eq_zero_or_pos k with rfl | hpos
  · rw [Nat.sub_zero, Nat.mod_self, shiftLeft_zero, ushiftRight_zero, BitVec.or_self,
      shiftLeft_eq_zero (Nat.le_refl _), or_zero]
  · rw [Nat.mod_eq_of_lt (by omega)]

/-- Two fields put next to each other. -/
theorem setWidth_or_shiftLeft (x : BitVec n) (y : BitVec m) :
    x.setWidth w ||| y.setWidth w <<< n = (y ++ x).setWidth w := by
  apply eq_of_getLsbD_eq
  intro i hi
  rw [getLsbD_or, getLsbD_shiftLeft, getLsbD_setWidth, getLsbD_setWidth,
    getLsbD_setWidth, getLsbD_append]
  by_cases hin : i < n
  · simp [hin]
  · have hlt : i - n < w := by omega
    simp [hi, hlt, getLsbD_of_ge x i (by omega)]

/-- A zero-extended value shifted to the right and truncated again. -/
theorem setWidth_ushiftRight (h : n ≤ w) (x : BitVec n) (k : ℕ) :
    (x.setWidth w >>> k).setWidth n = x >>> k := by
  apply eq_of_getLsbD_eq
  intro i hi
  by_cases hk : k + i < n
  · have hkw : k + i < w := by omega
    simp [hi, hkw]
  · simp [getLsbD_of_ge x (k + i) (by omega)]

/-- Zero extension in two steps. -/
theorem setWidth_setWidth_of_ge {w m n : ℕ} (h : w ≤ m) (x : BitVec w) :
    (x.setWidth m).setWidth n = x.setWidth n := by
  apply eq_of_toNat_eq
  rw [toNat_setWidth, toNat_setWidth, toNat_setWidth,
    Nat.mod_eq_of_lt (Nat.lt_of_lt_of_le x.isLt (Nat.pow_le_pow_right (by decide) h))]

/-- The low half of a double-width product. -/
theorem setWidth_mul_setWidth {w m : ℕ} (h : w ≤ m) (x y : BitVec w) :
    (x.setWidth m * y.setWidth m).setWidth w = x * y := by
  rw [setWidth_mul _ _ h, setWidth_setWidth_of_le _ h, setWidth_setWidth_of_le _ h,
    setWidth_eq, setWidth_eq]

/-! ### Double-width division -/

/-- A word below copies of its sign has the same value. -/
theorem toInt_sign_append (hw : 0 < w) (x : BitVec w) :
    (x.sshiftRight (w - 1) ++ x).toInt = x.toInt := by
  have h : x.sshiftRight (w - 1) ++ x = x.signExtend (w + w) := by
    ext i hi
    simp only [getElem_append, getElem_signExtend, getElem_sshiftRight]
    split_ifs with hlow hlast
    · rfl
    · have hi : w - 1 + (i - w) = w - 1 := by omega
      simp only [hi, msb_eq_getLsbD_last, getLsbD_eq_getElem (Nat.sub_one_lt_of_lt hw)]
    · rfl
  rw [h, toInt_signExtend_of_le (by omega)]

theorem tdiv_bounds {d : BitVec w} (h : x ≠ intMin w ∨ d ≠ -1#w) :
    -2 ^ (w - 1) ≤ x.toInt.tdiv d.toInt ∧ x.toInt.tdiv d.toInt < 2 ^ (w - 1) := by
  rw [← toInt_sdiv_of_ne_or_ne _ _ h]
  exact ⟨le_toInt _, toInt_lt⟩

theorem ofInt_tdiv {d : BitVec w} (h : x ≠ intMin w ∨ d ≠ -1#w) :
    BitVec.ofInt w (x.toInt.tdiv d.toInt) = x.sdiv d := by
  rw [← toInt_sdiv_of_ne_or_ne _ _ h, ofInt_toInt]

theorem ofInt_tmod (x d : BitVec w) : BitVec.ofInt w (x.toInt.tmod d.toInt) = x.srem d := by
  rw [← toInt_srem, ofInt_toInt]

theorem srem_neg_one (x : BitVec w) : x.srem (-1#w) = 0 := by
  apply eq_of_toInt_eq
  rw [toInt_srem, neg_one_eq_allOnes, toInt_allOnes]
  split_ifs with hw
  · simp
  · obtain rfl : w = 0 := by omega
    simp [eq_nil x]

end Word
