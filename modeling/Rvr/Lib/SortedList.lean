import Mathlib

/-!
# Sets as strictly increasing lists

A finite set over a linear order has exactly one strictly increasing list of its elements.  This
file has the list of a `Finset`, computed by insertion so that it evaluates on concrete sets, and
the union of two such lists by the usual two-pointer merge.
-/

/-- Machine words in their unsigned order. -/
instance BitVec.instLinearOrder {w : ℕ} : LinearOrder (BitVec w) where
  le_refl _ := BitVec.le_refl _
  le_trans _ _ _ := BitVec.le_trans
  le_antisymm _ _ := BitVec.le_antisymm
  le_total _ _ := BitVec.le_total _ _
  lt_iff_le_not_ge a b := by rw [BitVec.lt_def, BitVec.le_def, BitVec.le_def]; omega
  toDecidableLE := inferInstance
  toDecidableEq := inferInstance
  toDecidableLT := inferInstance

namespace SortedList

open List

variable {α : Type*} [LinearOrder α]

/-- Two strictly increasing lists with the same elements are equal. -/
theorem ext_of_mem_iff {as bs : List α} (has : as.Pairwise (· < ·)) (hbs : bs.Pairwise (· < ·))
    (h : ∀ x, x ∈ as ↔ x ∈ bs) : as = bs := by
  have hperm : as.Perm bs := (perm_ext_iff_of_nodup (has.imp ne_of_lt) (hbs.imp ne_of_lt)).2 h
  exact hperm.eq_of_pairwise' (has.imp le_of_lt) (hbs.imp le_of_lt)

/-! ## The list of a finite set -/

/-- The elements of a finite set in increasing order. -/
def ofFinset (s : Finset α) : List α :=
  Quot.liftOn s.val (insertionSort (· ≤ ·)) fun as bs h =>
    ((perm_insertionSort _ as).trans (h.trans (perm_insertionSort _ bs).symm)).eq_of_pairwise'
      (pairwise_insertionSort _ as) (pairwise_insertionSort _ bs)

theorem coe_ofFinset (s : Finset α) : (ofFinset s : Multiset α) = s.val := by
  obtain ⟨m, hm⟩ := s
  induction m using Quot.inductionOn with
  | _ as => exact Quot.sound (perm_insertionSort _ as)

@[simp] theorem mem_ofFinset {s : Finset α} {a : α} : a ∈ ofFinset s ↔ a ∈ s := by
  rw [← Multiset.mem_coe, coe_ofFinset, Finset.mem_val]

theorem nodup_ofFinset (s : Finset α) : (ofFinset s).Nodup := by
  rw [← Multiset.coe_nodup, coe_ofFinset]
  exact s.nodup

theorem pairwise_ofFinset (s : Finset α) : (ofFinset s).Pairwise (· < ·) := by
  have hle : (ofFinset s).Pairwise (· ≤ ·) := by
    obtain ⟨m, hm⟩ := s
    induction m using Quot.inductionOn with
    | _ as => exact pairwise_insertionSort _ as
  exact hle.imp₂ (fun _ _ => lt_of_le_of_ne) (nodup_ofFinset s)

/-! ## Insertion -/

theorem pairwise_orderedInsert {as : List α} {a : α} (h : as.Pairwise (· < ·)) (ha : a ∉ as) :
    (as.orderedInsert (· ≤ ·) a).Pairwise (· < ·) := by
  have hle := (h.imp le_of_lt).orderedInsert (r := (· ≤ ·)) a
  have hnodup : (as.orderedInsert (· ≤ ·) a).Nodup :=
    (perm_orderedInsert _ a as).nodup_iff.2 (nodup_cons.2 ⟨ha, h.imp ne_of_lt⟩)
  exact hle.imp₂ (fun _ _ => lt_of_le_of_ne) hnodup

/-- Insertion in front of the first element that is not below the new one. -/
theorem insertIdx_takeWhile (as : List α) (a : α) :
    as.insertIdx (as.takeWhile (· < a)).length a = as.orderedInsert (· ≤ ·) a := by
  induction as with
  | nil => rfl
  | cons b as ih =>
    rw [takeWhile_cons]
    by_cases hlt : b < a
    · rw [if_pos (decide_eq_true hlt), length_cons, insertIdx_succ_cons, ih,
        orderedInsert_of_not_le _ as (not_le.2 hlt)]
    · rw [if_neg (by simpa using not_lt.1 hlt), orderedInsert_cons_of_le _ as (not_lt.1 hlt)]
      rfl

/-! ## Merging -/

/-- The two-pointer merge, which keeps one copy of an element of both lists.  It takes at most as
many steps as there are elements. -/
def mergeAux : ℕ → List α → List α → List α
  | _, [], bs => bs
  | _, a :: as, [] => a :: as
  | 0, _ :: _, _ :: _ => []
  | n + 1, a :: as, b :: bs =>
    if a = b then a :: mergeAux n as bs
    else if a < b then a :: mergeAux n as (b :: bs)
    else b :: mergeAux n (a :: as) bs

def merge (as bs : List α) : List α := mergeAux (as.length + bs.length) as bs

theorem mem_mergeAux {x : α} {n : ℕ} {as bs : List α} (hn : as.length + bs.length ≤ n) :
    x ∈ mergeAux n as bs ↔ x ∈ as ∨ x ∈ bs := by
  fun_induction mergeAux n as bs with
  | case1 => simp
  | case2 => simp
  | case3 => simp at hn
  | case4 n as b bs ih =>
    simp only [length_cons] at hn
    simp only [mem_cons, ih (by omega)]
    tauto
  | case5 n a as b bs hne hlt ih =>
    simp only [length_cons] at hn ih
    simp only [mem_cons, ih (by omega)]
    tauto
  | case6 n a as b bs hne hlt ih =>
    simp only [length_cons] at hn ih
    simp only [mem_cons, ih (by omega)]
    tauto

theorem pairwise_mergeAux {n : ℕ} {as bs : List α} (hn : as.length + bs.length ≤ n)
    (has : as.Pairwise (· < ·)) (hbs : bs.Pairwise (· < ·)) :
    (mergeAux n as bs).Pairwise (· < ·) := by
  fun_induction mergeAux n as bs with
  | case1 => exact hbs
  | case2 => exact has
  | case3 => exact List.Pairwise.nil
  | case4 n a as bs ih =>
    simp only [length_cons] at hn
    rw [pairwise_cons] at has hbs ⊢
    refine ⟨fun x hx => ?_, ih (by omega) has.2 hbs.2⟩
    rcases (mem_mergeAux (by omega)).1 hx with hx | hx
    · exact has.1 x hx
    · exact hbs.1 x hx
  | case5 n a as b bs hne hlt ih =>
    simp only [length_cons] at hn ih
    rw [pairwise_cons] at has ⊢
    refine ⟨fun x hx => ?_, ih (by omega) has.2 hbs⟩
    rcases (mem_mergeAux (by simp only [length_cons]; omega)).1 hx with hx | hx
    · exact has.1 x hx
    · rcases mem_cons.1 hx with rfl | hx
      · exact hlt
      · exact hlt.trans ((pairwise_cons.1 hbs).1 x hx)
  | case6 n a as b bs hne hlt ih =>
    have hgt : b < a := lt_of_le_of_ne (not_lt.1 hlt) (Ne.symm hne)
    simp only [length_cons] at hn ih
    rw [pairwise_cons] at hbs ⊢
    refine ⟨fun x hx => ?_, ih (by omega) has hbs.2⟩
    rcases (mem_mergeAux (by simp only [length_cons]; omega)).1 hx with hx | hx
    · rcases mem_cons.1 hx with rfl | hx
      · exact hgt
      · exact hgt.trans ((pairwise_cons.1 has).1 x hx)
    · exact hbs.1 x hx

@[simp] theorem mem_merge {x : α} {as bs : List α} : x ∈ merge as bs ↔ x ∈ as ∨ x ∈ bs :=
  mem_mergeAux (Nat.le_refl _)

theorem pairwise_merge {as bs : List α} (has : as.Pairwise (· < ·)) (hbs : bs.Pairwise (· < ·)) :
    (merge as bs).Pairwise (· < ·) :=
  pairwise_mergeAux (Nat.le_refl _) has hbs

end SortedList
