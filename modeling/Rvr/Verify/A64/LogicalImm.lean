import Rvr.Emit.A64.Emitter

/-!
# Logical immediates

`is_logical_imm` looks for an element size whose repetition gives the value and for a rotation of
the element that is a run of ones at the bottom.  The immediates that AArch64 can encode are
described by their bits: bit `i` of an immediate is set if `(i + rot) % size` is below the length of
the run.
-/

namespace Rvr.A64

/-! ## The specification -/

/-- `ones` ones at the bottom of an element of `size` bits, rotated to the right and repeated. -/
def bitmask (bits size ones rot : ℕ) : BitVec bits :=
  ((((BitVec.allOnes ones).setWidth size).rotateRight rot).replicate (bits / size)).setWidth bits

/-- A value that AArch64 encodes as a bitmask immediate. -/
def IsBitmaskImm {bits : ℕ} (v : BitVec bits) : Prop :=
  ∃ size ∈ [2, 4, 8, 16, 32, 64], size ≤ bits ∧
    ∃ ones rot, 0 < ones ∧ ones < size ∧ rot < size ∧ v = bitmask bits size ones rot

variable {size : ℕ}

/-- A bit of the element is set if the rotation takes it into the run. -/
theorem getLsbD_rotateRight_ones {ones rot i : ℕ} (hrot : rot < size) (hi : i < size) :
    (((BitVec.allOnes ones).setWidth size).rotateRight rot).getLsbD i =
      decide ((i + rot) % size < ones) := by
  rw [BitVec.getLsbD_rotateRight_of_lt hrot]
  by_cases hlow : i < size - rot
  · have hmod : (i + rot) % size = i + rot := Nat.mod_eq_of_lt (by omega)
    have hlt : rot + i < size := by omega
    rw [hmod, Nat.add_comm i]
    simp [hlow, hlt]
  · have hmod : (i + rot) % size = i - (size - rot) := by
      rw [Nat.mod_eq_sub_mod (by omega), Nat.mod_eq_of_lt (by omega)]
      omega
    have hlt : i - (size - rot) < size := by omega
    simp [hlow, hmod, hlt, hi]

theorem getLsbD_bitmask {bits ones rot i : ℕ} (hdvd : size ∣ bits) (hrot : rot < size)
    (hi : i < bits) :
    (bitmask bits size ones rot).getLsbD i = decide ((i % size + rot) % size < ones) := by
  have hmod : i % size < size := Nat.mod_lt _ (by omega)
  rw [bitmask, BitVec.getLsbD_setWidth, BitVec.getLsbD_replicate, Nat.mul_div_cancel' hdvd,
    getLsbD_rotateRight_ones hrot hmod]
  simp [hi]

/-! ## Runs of ones -/

/-- The numbers that share no bit with their successor are the runs of ones. -/
theorem and_succ_eq_zero_iff (r : ℕ) : r &&& (r + 1) = 0 ↔ ∃ k, r = 2 ^ k - 1 := by
  constructor
  · -- without its last one, a run of ones is a shorter run
    induction r using Nat.strong_induction_on with
    | _ r ih =>
      intro h
      obtain ⟨m, rfl | rfl⟩ := Nat.even_or_odd' r
      · have hbits : 2 * m &&& (2 * m + 1) = 2 * (m &&& m) := by
          simpa using Nat.land_bit false m true m
        rw [hbits, Nat.and_self] at h
        exact ⟨0, h⟩
      · have hbits : 2 * m + 1 &&& (2 * m + 1 + 1) = 2 * (m &&& (m + 1)) := by
          simpa [Nat.mul_add] using Nat.land_bit true m false (m + 1)
        obtain ⟨k, hk⟩ := ih m (by omega) (by omega)
        have hpos : 0 < 2 ^ k := Nat.two_pow_pos k
        exact ⟨k + 1, by rw [Nat.pow_succ]; omega⟩
  · rintro ⟨k, rfl⟩
    rw [Nat.sub_add_cancel Nat.one_le_two_pow, Nat.and_comm, Nat.and_two_pow_sub_one_eq_mod,
      Nat.mod_self]

/-- The bits of a rotated element. -/
theorem testBit_rotateRight {p rot i : ℕ} (hp : p < 2 ^ size) (hrot : rot < size) :
    (rotateRight size p rot).testBit i = (decide (i < size) && p.testBit ((i + rot) % size)) := by
  rw [rotateRight]
  by_cases hi : i < size
  · by_cases hlow : i + rot < size
    · have hshort : ¬ size - rot ≤ i := by omega
      rw [Nat.mod_eq_of_lt hlow, Nat.add_comm]
      simp [hshort]
    · have hhigh : p.testBit (rot + i) = false :=
        Nat.testBit_lt_two_pow (hp.trans_le (Nat.pow_le_pow_right (by decide) (by omega)))
      have hmod : (i + rot) % size = i - (size - rot) := by
        rw [Nat.mod_eq_sub_mod (by omega), Nat.mod_eq_of_lt (by omega)]
        omega
      have hlong : size - rot ≤ i := by omega
      simp [hhigh, hmod, hlong]
  · simp [hi]

/-- Rotating back and forth. -/
theorem add_sub_mod_add_mod {j rot : ℕ} (hj : j < size) (hrot : rot < size) :
    ((j + (size - rot)) % size + rot) % size = j := by
  have hsum : j + (size - rot) + rot = j + size := by omega
  rw [Nat.mod_add_mod, hsum, Nat.add_mod_right, Nat.mod_eq_of_lt hj]

/-- An element has the bits that its rotation has, at other places. -/
theorem eq_of_testBit_rotated {p q rot : ℕ} (hp : p < 2 ^ size) (hq : q < 2 ^ size)
    (hrot : rot < size)
    (h : ∀ i < size, p.testBit ((i + rot) % size) = q.testBit ((i + rot) % size)) : p = q := by
  apply Nat.eq_of_testBit_eq
  intro j
  by_cases hj : j < size
  · have hbit := h ((j + (size - rot)) % size) (Nat.mod_lt _ (by omega))
    rwa [add_sub_mod_add_mod hj hrot] at hbit
  · have hle : 2 ^ size ≤ 2 ^ j := Nat.pow_le_pow_right (by decide) (by omega)
    rw [Nat.testBit_lt_two_pow (hp.trans_le hle), Nat.testBit_lt_two_pow (hq.trans_le hle)]

/-- The code does not rotate by zero. -/
theorem rotateRight_eq {p rot : ℕ} (hp : p < 2 ^ size) (hrot : rot < size) :
    (if rot = 0 then p else (p >>> rot ||| p <<< (size - rot)) % 2 ^ size) =
      rotateRight size p rot := by
  split_ifs with hzero
  · subst hzero
    have hlt : rotateRight size p 0 < 2 ^ size := Nat.mod_lt _ (Nat.two_pow_pos size)
    refine eq_of_testBit_rotated hp hlt hrot fun i hi => ?_
    rw [testBit_rotateRight hp hrot, Nat.add_zero, Nat.mod_eq_of_lt hi, Nat.add_zero,
      Nat.mod_eq_of_lt hi, decide_eq_true hi, Bool.true_and]
  · rfl

/-- The element is a rotated run: rotated by `rot`, its bits are the first `ones`. -/
def IsRun (size p ones rot : ℕ) : Prop :=
  0 < ones ∧ ones < size ∧ rot < size ∧ ∀ i < size, p.testBit ((i + rot) % size) = decide (i < ones)

theorem isRun_of_rotateRight {p k rot : ℕ} (hp : p < 2 ^ size) (hzero : p ≠ 0)
    (hfull : p ≠ 2 ^ size - 1) (hrot : rot < size) (hr : rotateRight size p rot = 2 ^ k - 1) :
    IsRun size p k rot := by
  have hbits : ∀ i < size, p.testBit ((i + rot) % size) = decide (i < k) := by
    intro i hi
    have hbit := testBit_rotateRight (i := i) hp hrot
    rw [hr, Nat.testBit_two_pow_sub_one, decide_eq_true hi] at hbit
    exact hbit.symm
  have hmax : 2 ^ size - 1 < 2 ^ size := Nat.sub_one_lt (Nat.two_pow_pos size).ne'
  refine ⟨Nat.pos_of_ne_zero fun hk => hzero ?_, Nat.lt_of_not_le fun hk => hfull ?_, hrot, hbits⟩
  · refine eq_of_testBit_rotated hp (Nat.two_pow_pos size) hrot fun i hi => ?_
    rw [hbits i hi, hk]
    simp
  · refine eq_of_testBit_rotated hp hmax hrot fun i hi => ?_
    have hmod : (i + rot) % size < size := Nat.mod_lt _ (by omega)
    rw [hbits i hi, Nat.testBit_two_pow_sub_one, decide_eq_true hmod]
    exact decide_eq_true (by omega)

theorem IsRun.rotateRight_eq {p ones rot : ℕ} (hp : p < 2 ^ size) (h : IsRun size p ones rot) :
    rotateRight size p rot = 2 ^ ones - 1 := by
  obtain ⟨-, hones, hrot, hbits⟩ := h
  apply Nat.eq_of_testBit_eq
  intro i
  rw [testBit_rotateRight hp hrot, Nat.testBit_two_pow_sub_one]
  by_cases hi : i < size
  · rw [hbits i hi, decide_eq_true hi, Bool.true_and]
  · have hge : ¬ i < ones := by omega
    simp [hi, hge]

/-- A rotated run is neither empty nor full. -/
theorem IsRun.ne {p ones rot : ℕ} (h : IsRun size p ones rot) : p ≠ 0 ∧ p ≠ 2 ^ size - 1 := by
  obtain ⟨hpos, hones, hrot, hbits⟩ := h
  constructor
  · rintro rfl
    have hbit := hbits 0 (by omega)
    rw [Nat.zero_testBit, decide_eq_true hpos] at hbit
    cases hbit
  · rintro rfl
    have hbit := hbits ones hones
    have hmod : (ones + rot) % size < size := Nat.mod_lt _ (by omega)
    rw [Nat.testBit_two_pow_sub_one, decide_eq_true hmod] at hbit
    simp at hbit

/-- `is_rotated_mask` finds the rotated runs. -/
theorem isRotatedMask_iff {p : ℕ} (hp : p < 2 ^ size) :
    isRotatedMask p size = true ↔ ∃ ones rot, IsRun size p ones rot := by
  unfold isRotatedMask
  simp only [Nat.mod_eq_of_lt hp, decide_eq_true_eq, List.any_eq_true, List.mem_range]
  constructor
  · rintro ⟨hzero, hfull, rot, hrot, hr⟩
    rw [rotateRight_eq hp hrot] at hr
    obtain ⟨k, hk⟩ := (and_succ_eq_zero_iff _).1 hr
    exact ⟨k, rot, isRun_of_rotateRight hp hzero hfull hrot hk⟩
  · rintro ⟨ones, rot, hrun⟩
    obtain ⟨hzero, hfull⟩ := hrun.ne
    have hrot : rot < size := hrun.2.2.1
    refine ⟨hzero, hfull, rot, hrot, ?_⟩
    rw [rotateRight_eq hp hrot]
    exact (and_succ_eq_zero_iff _).2 ⟨ones, hrun.rotateRight_eq hp⟩

/-! ## Repeated elements -/

theorem testBit_foldl_or {x : ℕ} (hx : x < 2 ^ size) (n i : ℕ) :
    ((List.range n).foldl (fun acc j => acc ||| x <<< (j * size)) 0).testBit i =
      (decide (i < n * size) && x.testBit (i % size)) := by
  induction n with
  | zero => simp
  | succ n ih =>
    rw [List.range_succ, List.foldl_append, List.foldl_cons, List.foldl_nil, Nat.testBit_or, ih]
    have hsucc : (n + 1) * size = n * size + size := Nat.succ_mul n size
    by_cases hlow : i < n * size
    · have hlt : i < (n + 1) * size := by omega
      simp [hlow, hlt]
    · have hge : n * size ≤ i := by omega
      by_cases hlt : i < (n + 1) * size
      · have hmod : i % size = i - n * size := by
          conv_lhs => rw [← Nat.sub_add_cancel hge]
          rw [Nat.add_mul_mod_self_right, Nat.mod_eq_of_lt (by omega)]
        simp [hlow, hlt, hge, hmod]
      · have hhigh : x.testBit (i - n * size) = false :=
          Nat.testBit_lt_two_pow (hx.trans_le (Nat.pow_le_pow_right (by decide) (by omega)))
        simp [hlow, hlt, hhigh]

theorem testBit_replicated {bits v i : ℕ} (hdvd : size ∣ bits) :
    (replicated bits size v).testBit i =
      (decide (i < bits) && (v % 2 ^ size).testBit (i % size)) := by
  rw [replicated, testBit_foldl_or (Nat.mod_lt _ (Nat.two_pow_pos size)), Nat.div_mul_cancel hdvd]

/-- A value repeats its low element if its bits do. -/
theorem replicated_eq_iff {bits : ℕ} (hdvd : size ∣ bits) (v : BitVec bits) :
    replicated bits size v.toNat = v.toNat ↔
      ∀ i < bits, v.getLsbD i = (v.toNat % 2 ^ size).testBit (i % size) := by
  constructor
  · intro h i hi
    have hbit := testBit_replicated (v := v.toNat) (i := i) hdvd
    rwa [h, decide_eq_true hi] at hbit
  · intro h
    apply Nat.eq_of_testBit_eq
    intro i
    rw [testBit_replicated hdvd, BitVec.testBit_toNat]
    by_cases hi : i < bits
    · rw [h i hi, decide_eq_true hi, Bool.true_and]
    · rw [decide_eq_false hi, Bool.false_and, BitVec.getLsbD_of_ge v i (Nat.not_lt.1 hi)]

/-- The run of a repeated element and the rotation of a bitmask are each other's inverse. -/
theorem isRun_iff_eq_bitmask {bits ones rot : ℕ} (hdvd : size ∣ bits) (hle : size ≤ bits)
    (hpos : 0 < ones) (hones : ones < size) (hrot : rot < size) (v : BitVec bits) :
    replicated bits size v.toNat = v.toNat ∧ IsRun size (v.toNat % 2 ^ size) ones rot ↔
      v = bitmask bits size ones ((size - rot) % size) := by
  have hback : (size - rot) % size < size := Nat.mod_lt _ (by omega)
  have hlow : ∀ i < size, (v.toNat % 2 ^ size).testBit i = v.getLsbD i := by
    intro i hi
    rw [Nat.testBit_mod_two_pow, decide_eq_true hi, Bool.true_and, BitVec.testBit_toNat]
  rw [replicated_eq_iff hdvd]
  constructor
  · rintro ⟨hrep, -, -, -, hbits⟩
    apply BitVec.eq_of_getLsbD_eq
    intro i hi
    have hmod : i % size < size := Nat.mod_lt _ (by omega)
    have hbit := hbits ((i % size + (size - rot)) % size) (Nat.mod_lt _ (by omega))
    rw [add_sub_mod_add_mod hmod hrot] at hbit
    rw [hrep i hi, hbit, getLsbD_bitmask hdvd hback hi, Nat.add_mod_mod]
  · rintro rfl
    refine ⟨fun i hi => ?_, hpos, hones, hrot, fun i hi => ?_⟩
    · have hmod : i % size < size := Nat.mod_lt _ (by omega)
      rw [hlow _ hmod, getLsbD_bitmask hdvd hback hi,
        getLsbD_bitmask hdvd hback (hmod.trans_le hle), Nat.mod_mod]
    · have hmod : (i + rot) % size < size := Nat.mod_lt _ (by omega)
      have hsum : i + rot + (size - rot) = i + size := by omega
      rw [hlow _ hmod, getLsbD_bitmask hdvd hback (hmod.trans_le hle), Nat.mod_mod, Nat.add_mod_mod,
        Nat.mod_add_mod, hsum, Nat.add_mod_right, Nat.mod_eq_of_lt hi]

/-! ## The check -/

/-- The width of the values that `is_logical_imm` is asked about. -/
def logicalBits (is32 : Bool) : ℕ := if is32 then 32 else 64

theorem dvd_logicalBits {is32 : Bool} (h : size ∈ [2, 4, 8, 16, 32, 64])
    (hle : size ≤ logicalBits is32) : 0 < size ∧ size ∣ logicalBits is32 := by
  simp only [List.mem_cons, List.not_mem_nil, or_false] at h
  rcases h with rfl | rfl | rfl | rfl | rfl | rfl <;> cases is32 <;> revert hle <;> decide

/-- One round of the loop over the sizes. -/
theorem round_iff {bits : ℕ} (hpos : 0 < size) (hdvd : size ∣ bits) (hle : size ≤ bits)
    (v : BitVec bits) :
    replicated bits size v.toNat = v.toNat ∧ isRotatedMask (v.toNat % 2 ^ size) size = true ↔
      ∃ ones rot, 0 < ones ∧ ones < size ∧ rot < size ∧ v = bitmask bits size ones rot := by
  rw [isRotatedMask_iff (Nat.mod_lt _ (Nat.two_pow_pos size))]
  constructor
  · rintro ⟨hrep, ones, rot, hones, hlt, hrot, hbits⟩
    exact ⟨ones, (size - rot) % size, hones, hlt, Nat.mod_lt _ hpos,
      (isRun_iff_eq_bitmask hdvd hle hones hlt hrot v).1 ⟨hrep, hones, hlt, hrot, hbits⟩⟩
  · rintro ⟨ones, rot, hones, hlt, hrot, hv⟩
    have hback : (size - rot) % size < size := Nat.mod_lt _ hpos
    -- rotating back twice
    have htwice : (size - (size - rot) % size) % size = rot := by
      rcases Nat.eq_zero_or_pos rot with rfl | hrotpos
      · simp
      · rw [Nat.mod_eq_of_lt (by omega : size - rot < size), Nat.sub_sub_self hrot.le,
          Nat.mod_eq_of_lt hrot]
    rw [← htwice] at hv
    obtain ⟨hrep, hrun⟩ := (isRun_iff_eq_bitmask hdvd hle hones hlt hback v).2 hv
    exact ⟨hrep, ones, _, hrun⟩

/-- The values with a rotated run in an element are neither zero nor all ones. -/
theorem ne_of_isRotatedMask {bits v : ℕ} (hle : size ≤ bits)
    (h : isRotatedMask (v % 2 ^ size) size = true) : v ≠ 0 ∧ v ≠ 2 ^ bits - 1 := by
  obtain ⟨ones, rot, hrun⟩ := (isRotatedMask_iff (Nat.mod_lt _ (Nat.two_pow_pos size))).1 h
  obtain ⟨hzero, hfull⟩ := hrun.ne
  constructor
  · rintro rfl
    exact hzero (Nat.zero_mod _)
  · rintro rfl
    apply hfull
    apply Nat.eq_of_testBit_eq
    intro i
    by_cases hi : i < size
    · simp [hi.trans_le hle]
    · simp [hi]

/-- `is_logical_imm` accepts exactly the bitmask immediates, for 64-bit values and for 32-bit
ones. -/
theorem isLogicalImm_iff (is32 : Bool) (v : BitVec (logicalBits is32)) :
    isLogicalImm v.toNat (logicalBits is32) = true ↔ IsBitmaskImm v := by
  unfold isLogicalImm IsBitmaskImm
  simp only [decide_eq_true_eq, List.any_eq_true]
  constructor
  · rintro ⟨-, -, size, hsize, hle, hround⟩
    obtain ⟨hpos, hdvd⟩ := dvd_logicalBits hsize hle
    exact ⟨size, hsize, hle, (round_iff hpos hdvd hle v).1 hround⟩
  · rintro ⟨size, hsize, hle, hbitmask⟩
    obtain ⟨hpos, hdvd⟩ := dvd_logicalBits hsize hle
    have hround := (round_iff hpos hdvd hle v).2 hbitmask
    obtain ⟨hzero, hfull⟩ := ne_of_isRotatedMask hle hround.2
    exact ⟨hzero, hfull, size, hsize, hle, hround⟩

end Rvr.A64
