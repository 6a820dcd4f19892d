import Mathlib

/-!
# Little-endian numbers in byte strings

The number that a list of bytes spells, least significant byte first, and the bytes of a number.
-/

namespace LittleEndian

/-- The number spelled by the bytes. -/
def toNat : List (BitVec 8) → ℕ
  | [] => 0
  | b :: bs => b.toNat + 256 * toNat bs

/-- The low `n` bytes of a number. -/
def bytes : ℕ → ℕ → List (BitVec 8)
  | 0, _ => []
  | n + 1, v => BitVec.ofNat 8 v :: bytes n (v / 256)

@[simp] theorem length_bytes (n v : ℕ) : (bytes n v).length = n := by
  induction n generalizing v with
  | zero => rfl
  | succ n ih => rw [bytes, List.length_cons, ih]

/-- Reading the bytes of a number back. -/
theorem toNat_bytes {n v : ℕ} (h : v < 256 ^ n) : toNat (bytes n v) = v := by
  induction n generalizing v with
  | zero => exact (Nat.lt_one_iff.1 h).symm
  | succ n ih =>
    have hdiv : v / 256 < 256 ^ n := by
      exact Nat.div_lt_of_lt_mul (by rwa [Nat.mul_comm])
    rw [bytes, toNat, ih hdiv]
    exact Nat.mod_add_div v 256

end LittleEndian
