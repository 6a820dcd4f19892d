import Mathlib

/-!
# Functions that distribute over the bits of a word

A network of shifts by constants, masks and ors distributes over `|||`, and so do the permutations
of bits and the functions that collect bits.  Such a function is determined by its values on the
words with a single bit, `OrLinear.ext`.
-/

variable {u v w : ℕ}

/-- The function of words takes the or of two words to the or of their values. -/
structure OrLinear (f : BitVec w → BitVec v) : Prop where
  zero : f 0 = 0
  or : ∀ x y, f (x ||| y) = f x ||| f y

namespace OrLinear

open BitVec

variable {f g : BitVec w → BitVec v}

theorem id : OrLinear (fun x : BitVec w => x) := ⟨rfl, fun _ _ => rfl⟩

theorem comp {f : BitVec v → BitVec u} {g : BitVec w → BitVec v} (hf : OrLinear f)
    (hg : OrLinear g) : OrLinear fun x => f (g x) :=
  ⟨by rw [hg.zero, hf.zero], fun x y => by rw [hg.or, hf.or]⟩

theorem union (hf : OrLinear f) (hg : OrLinear g) : OrLinear fun x => f x ||| g x where
  zero := by rw [hf.zero, hg.zero, BitVec.or_self]
  or x y := by rw [hf.or, hg.or]; ac_rfl

/-- Every bit of the value is one bit of the word. -/
theorem of_permutation (σ : ℕ → ℕ) (h : ∀ x, ∀ i < v, (f x).getLsbD i = x.getLsbD (σ i)) :
    OrLinear f where
  zero := by
    apply eq_of_getLsbD_eq
    intro i hi
    rw [h 0 i hi]
    simp
  or x y := by
    apply eq_of_getLsbD_eq
    intro i hi
    rw [getLsbD_or, h _ i hi, h x i hi, h y i hi, getLsbD_or]

theorem and (c : BitVec w) : OrLinear fun x : BitVec w => x &&& c where
  zero := zero_and
  or x y := by
    apply eq_of_getLsbD_eq
    intro i _
    simp only [getLsbD_and, getLsbD_or, Bool.and_or_distrib_right]

theorem shiftLeft (k : ℕ) : OrLinear fun x : BitVec w => x <<< k :=
  ⟨zero_shiftLeft k, fun x y => shiftLeft_or_distrib x y k⟩

theorem ushiftRight (k : ℕ) : OrLinear fun x : BitVec w => x >>> k :=
  ⟨zero_ushiftRight, fun x y => ushiftRight_or_distrib x y k⟩

/-- Two functions that distribute over the bits agree once they agree on single bits.  The induction
is on a bound above which the word has no bits. -/
theorem ext (hf : OrLinear f) (hg : OrLinear g)
    (hbit : ∀ i < w, f (twoPow w i) = g (twoPow w i)) (x : BitVec w) : f x = g x := by
  suffices h : ∀ n, ∀ x : BitVec w, (∀ i, n ≤ i → x.getLsbD i = false) → f x = g x from
    h w x fun i hi => getLsbD_of_ge x i hi
  intro n
  induction n with
  | zero =>
    intro x hx
    have hzero : x = 0 := eq_of_getLsbD_eq fun i _ => by simp [hx i (Nat.zero_le i)]
    rw [hzero, hf.zero, hg.zero]
  | succ n ih =>
    intro x hx
    by_cases htop : x.getLsbD n
    · have hn : n < w := lt_of_getLsbD htop
      have hsplit : x = (x &&& ~~~twoPow w n) ||| twoPow w n := by
        apply eq_of_getLsbD_eq
        intro i hi
        by_cases hin : n = i
        · subst hin
          simp [htop, hi]
        · simp [hi, Ne.symm hin]
      have hlow : ∀ i, n ≤ i → (x &&& ~~~twoPow w n).getLsbD i = false := by
        intro i hi
        by_cases hin : n = i
        · subst hin
          simp
        · simp [hx i (by omega)]
      rw [hsplit, hf.or, hg.or, hbit n hn, ih _ hlow]
    · refine ih x fun i hi => ?_
      rcases Nat.eq_or_lt_of_le hi with rfl | hlt
      · exact Bool.eq_false_iff.2 htop
      · exact hx i hlt

end OrLinear
