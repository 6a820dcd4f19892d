import Mathlib

/-!
# Little-endian byte memories

A memory over `a`-bit addresses is a total function from addresses to bytes.  Multi-byte accesses
are little-endian and wrap around the address space: byte `i` of an access at `addr` lies at
`addr + i` modulo `2 ^ a`.
-/

namespace ByteMemory

variable {a : ℕ}

/-- The number spelled by the `n` bytes from `addr` on, least significant byte first. -/
def readLE (m : BitVec a → BitVec 8) (addr : BitVec a) : ℕ → ℕ
  | 0 => 0
  | n + 1 => (m addr).toNat + 256 * readLE m (addr + 1) n

/-- Replace the `n` bytes from `addr` on by the low bytes of `v`. -/
def writeLE (m : BitVec a → BitVec 8) (addr : BitVec a) (n v : ℕ) : BitVec a → BitVec 8 :=
  fun x => if (x - addr).toNat < n then BitVec.ofNat 8 (v >>> (8 * (x - addr).toNat)) else m x

theorem readLE_lt (m : BitVec a → BitVec 8) (addr : BitVec a) (n : ℕ) :
    readLE m addr n < 2 ^ (8 * n) := by
  induction n generalizing addr with
  | zero => exact Nat.one_pos
  | succ n ih =>
    have hrest := ih (addr + 1)
    rw [readLE, Nat.mul_succ, Nat.pow_add]
    omega

/-- A write depends only on the low `8 * n` bits of the value. -/
theorem writeLE_congr {m : BitVec a → BitVec 8} {addr : BitVec a} {n v w : ℕ}
    (h : v % 2 ^ (8 * n) = w % 2 ^ (8 * n)) : writeLE m addr n v = writeLE m addr n w := by
  funext x
  unfold writeLE
  generalize (x - addr).toNat = k
  by_cases hk : k < n
  · rw [if_pos hk, if_pos hk]
    apply BitVec.eq_of_getLsbD_eq
    intro i hi
    have hlt : 8 * k + i < 8 * n := by omega
    have hbit := congrArg (Nat.testBit · (8 * k + i)) h
    simp only [Nat.testBit_mod_two_pow, hlt, decide_true, Bool.true_and] at hbit
    rw [BitVec.getLsbD_ofNat, BitVec.getLsbD_ofNat, Nat.testBit_shiftRight,
      Nat.testBit_shiftRight, hbit]
  · rw [if_neg hk, if_neg hk]

/-- Truncating the value to the window first writes the same bytes. -/
theorem writeLE_setWidth {w : ℕ} (m : BitVec a → BitVec 8) (addr : BitVec a) (n : ℕ)
    (v : BitVec w) : writeLE m addr n (v.setWidth (8 * n)).toNat = writeLE m addr n v.toNat := by
  apply writeLE_congr
  rw [BitVec.toNat_setWidth, Nat.mod_mod]

end ByteMemory
