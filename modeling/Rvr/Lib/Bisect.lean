import Mathlib

/-!
# Binary search with probes that change the state

The search keeps an interval and probes a point inside it: the answer yes moves the lower end up to
the point, the answer no moves the upper end below it.  A probe may change the state that later
probes see, so no order between the answers is assumed.  The search ends at `d` exactly if every
probe that it makes answers whether its point is at most `d`.  The points that it then looks at are
known beforehand (`path`), so for probes that only move the state on along a line the condition is
one on the places of that line.
-/

namespace Bisect

variable {σ : Type*}

/-- The search from `lo` to `hi`, for at most so many probes. -/
def search (mid : ℕ → ℕ → ℕ) (probe : ℕ → σ → Bool × σ) : ℕ → ℕ → ℕ → σ → ℕ × σ
  | 0, lo, _, s => (lo, s)
  | fuel + 1, lo, hi, s =>
    if lo < hi then
      let (yes, s') := probe (mid lo hi) s
      if yes then search mid probe fuel (mid lo hi) hi s'
      else search mid probe fuel lo (mid lo hi - 1) s'
    else (lo, s)

/-- Every probe that the search makes answers whether its point is at most `d`. -/
def Truthful (mid : ℕ → ℕ → ℕ) (probe : ℕ → σ → Bool × σ) (d : ℕ) : ℕ → ℕ → ℕ → σ → Prop
  | 0, _, _, _ => True
  | fuel + 1, lo, hi, s =>
    lo < hi →
      (probe (mid lo hi) s).1 = decide (mid lo hi ≤ d) ∧
        if mid lo hi ≤ d then Truthful mid probe d fuel (mid lo hi) hi (probe (mid lo hi) s).2
        else Truthful mid probe d fuel lo (mid lo hi - 1) (probe (mid lo hi) s).2

/-- The points that a search looks at if it is told where `d` is. -/
def path (mid : ℕ → ℕ → ℕ) (d : ℕ) : ℕ → ℕ → ℕ → List ℕ
  | 0, _, _ => []
  | fuel + 1, lo, hi =>
    if lo < hi then
      mid lo hi ::
        if mid lo hi ≤ d then path mid d fuel (mid lo hi) hi else path mid d fuel lo (mid lo hi - 1)
    else []

variable {mid : ℕ → ℕ → ℕ} {probe : ℕ → σ → Bool × σ} {fuel lo hi top : ℕ}

section

variable (hmid : ∀ {lo hi}, lo < hi → hi ≤ top → lo < mid lo hi ∧ mid lo hi ≤ hi)
include hmid

theorem mem_search (hle : lo ≤ hi) (htop : hi ≤ top) (s : σ) :
    lo ≤ (search mid probe fuel lo hi s).1 ∧ (search mid probe fuel lo hi s).1 ≤ hi := by
  induction fuel generalizing lo hi s with
  | zero => exact ⟨le_rfl, hle⟩
  | succ fuel ih =>
    unfold search
    split
    case isFalse => exact ⟨le_rfl, hle⟩
    case isTrue hlt =>
      obtain ⟨hlo, hhi⟩ := hmid hlt htop
      dsimp only
      split
      · obtain ⟨hl, hh⟩ := ih hhi htop (probe (mid lo hi) s).2
        exact ⟨hlo.le.trans hl, hh⟩
      · obtain ⟨hl, hh⟩ := ih (Nat.le_sub_one_of_lt hlo) ((Nat.sub_le _ _).trans (hhi.trans htop))
          (probe (mid lo hi) s).2
        exact ⟨hl, by omega⟩

/-- A search with enough fuel ends at `d` exactly if its probes say where `d` is. -/
theorem search_eq_iff {d : ℕ} (hd : lo ≤ d ∧ d ≤ hi) (htop : hi ≤ top) (hfuel : hi - lo ≤ fuel)
    (s : σ) : (search mid probe fuel lo hi s).1 = d ↔ Truthful mid probe d fuel lo hi s := by
  induction fuel generalizing lo hi s with
  | zero => simp only [search, Truthful, iff_true]; omega
  | succ fuel ih =>
    unfold search Truthful
    by_cases hlt : lo < hi
    case neg => simp only [hlt, if_false, false_imp_iff, iff_true]; omega
    case pos =>
      obtain ⟨hlo, hhi⟩ := hmid hlt htop
      simp only [hlt, if_true, true_imp_iff]
      -- a wrong answer sends the search to the side where `d` is not
      by_cases hm : mid lo hi ≤ d
      · rw [if_pos hm, decide_eq_true hm, ← ih ⟨hm, hd.2⟩ htop (by omega)]
        cases (probe (mid lo hi) s).1
        · have hdown := (mem_search hmid (Nat.le_sub_one_of_lt hlo) (by omega)
            (probe (mid lo hi) s).2 : _ ∧ (search mid probe fuel lo _ _).1 ≤ _)
          simp only [Bool.false_eq_true, if_false, false_and, iff_false]
          omega
        · simp
      · rw [if_neg hm, decide_eq_false hm, ← ih ⟨hd.1, by omega⟩ (by omega) (by omega)]
        cases (probe (mid lo hi) s).1
        · simp
        · have hup := (mem_search hmid hhi htop (probe (mid lo hi) s).2 :
            _ ≤ (search mid probe fuel _ hi _).1 ∧ _)
          simp only [if_true, Bool.true_eq_false, false_and, iff_false]
          omega

/-- Probes that always answer where `d` is, from states that they keep. -/
theorem truthful_of_forall {d : ℕ} {I : σ → Prop} (htop : hi ≤ top)
    (hprobe : ∀ m, 0 < m → m ≤ top → ∀ s, I s →
      (probe m s).1 = decide (m ≤ d) ∧ I (probe m s).2) (s : σ) (hs : I s) :
    Truthful mid probe d fuel lo hi s := by
  induction fuel generalizing lo hi s with
  | zero => trivial
  | succ fuel ih =>
    intro hlt
    obtain ⟨hlo, hhi⟩ := hmid hlt htop
    obtain ⟨hanswer, hkept⟩ := hprobe _ (by omega) (hhi.trans htop) s hs
    refine ⟨hanswer, ?_⟩
    split
    · exact ih htop _ hkept
    · exact ih ((Nat.sub_le _ _).trans (hhi.trans htop)) _ hkept

/-- Probes that move on along a line and answer for the place that they reach are right exactly if
the places at the sums of the points of the path are. -/
theorem truthful_iff_path {d bound o : ℕ} {place : ℕ → σ} (answer : ℕ → Bool) (htop : hi ≤ top)
    (hprobe : ∀ o m, 0 < o → 0 < m → o + m < bound →
      probe m (place o) = (answer (o + m), place (o + m))) (ho : 0 < o)
    (hbound : o + (path mid d fuel lo hi).sum < bound) :
    Truthful mid probe d fuel lo hi (place o) ↔
      ∀ i, (h : i < (path mid d fuel lo hi).length) →
        answer (o + ((path mid d fuel lo hi).take (i + 1)).sum) =
          decide ((path mid d fuel lo hi)[i] ≤ d) := by
  induction fuel generalizing lo hi o with
  | zero => simp [Truthful, path]
  | succ fuel ih =>
    unfold Truthful
    by_cases hlt : lo < hi
    case neg => simp [path, hlt]
    case pos =>
      obtain ⟨hlo, hhi⟩ := hmid hlt htop
      -- the rest of the path begins at the place of the first probe
      obtain ⟨lo', hi', hrest, htop', hnext⟩ : ∃ lo' hi',
          path mid d (fuel + 1) lo hi = mid lo hi :: path mid d fuel lo' hi' ∧ hi' ≤ top ∧
          ∀ s, (if mid lo hi ≤ d then Truthful mid probe d fuel (mid lo hi) hi s
            else Truthful mid probe d fuel lo (mid lo hi - 1) s) =
              Truthful mid probe d fuel lo' hi' s := by
        by_cases hm : mid lo hi ≤ d
        · exact ⟨_, _, by simp [path, hlt, hm], htop, fun _ => if_pos hm⟩
        · exact ⟨_, _, by simp [path, hlt, hm], (Nat.sub_le _ _).trans (hhi.trans htop),
            fun _ => if_neg hm⟩
      rw [hrest, List.sum_cons] at hbound
      simp only [hrest, hnext, hprobe o _ ho (by omega) (by omega : o + mid lo hi < bound)]
      rw [ih htop' (by omega) (by omega)]
      simp only [hlt, true_imp_iff]
      constructor
      · rintro ⟨hfirst, hothers⟩ i hi
        cases i with
        | zero => simpa using hfirst
        | succ i => simpa [Nat.add_assoc] using hothers i (by simpa using hi)
      · intro h
        refine ⟨by simpa using h 0 (by simp), fun i hi => ?_⟩
        simpa [Nat.add_assoc] using h (i + 1) (by simpa using hi)

end

end Bisect
