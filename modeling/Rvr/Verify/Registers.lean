import Rvr.Cfg.Registers

/-!
# The loops over register values

The operations on stored values are those of the lattice of `RegisterValue`: a stored value that has
been built is one of the lattice, and the loops of `merge` compute the join.
-/

namespace Rvr

open SortedList List

namespace RawValue

/-! ## The loops of `merge` -/

/-- A result that is given up once it has too many values. -/
def bounded (values : List U64) : Option (List U64) :=
  if maxValues < values.length then none else some values

theorem mergeRest_eq {rest merged : List U64} (h : merged.length ≤ maxValues) :
    mergeRest rest merged = bounded (merged ++ rest) := by
  induction rest generalizing merged with
  | nil => rw [mergeRest, append_nil, bounded, if_neg (Nat.not_lt.2 h)]
  | cons value rest ih =>
    rw [mergeRest]
    split_ifs with hlen
    · have hmany : maxValues < (merged ++ value :: rest).length := by
        simp only [length_append, length_cons, length_nil] at hlen ⊢
        omega
      rw [bounded, if_pos hmany]
    · rw [ih (Nat.not_lt.1 hlen), append_assoc, singleton_append]

/-- One round of the first loop pushes the first value of the merged lists. -/
theorem mergeLoops_step {fuel : ℕ} {as bs as' bs' merged : List U64} {value : U64}
    (hloop : mergeBoth (fuel + 1) as bs merged = if maxValues < (merged ++ [value]).length then none
      else mergeBoth fuel as' bs' (merged ++ [value]))
    (hmerge : mergeAux (fuel + 1) as bs = value :: mergeAux fuel as' bs')
    (ih : (merged ++ [value]).length ≤ maxValues → mergeLoops fuel as' bs' (merged ++ [value]) =
      bounded (merged ++ [value] ++ mergeAux fuel as' bs')) :
    mergeLoops (fuel + 1) as bs merged =
      bounded (merged ++ mergeAux (fuel + 1) as bs) := by
  rw [mergeLoops, hloop, hmerge]
  split_ifs with hlen
  · have hmany : maxValues < (merged ++ value :: mergeAux fuel as' bs').length := by
      simp only [length_append, length_cons, length_nil] at hlen ⊢
      omega
    rw [bounded, if_pos hmany]
    rfl
  · have hrest := ih (Nat.not_lt.1 hlen)
    rwa [append_assoc] at hrest

/-- The loops compute the merged list, unless it is too long. -/
theorem mergeLoops_eq {fuel : ℕ} {as bs merged : List U64} (hfuel : as.length + bs.length ≤ fuel)
    (h : merged.length ≤ maxValues) :
    mergeLoops fuel as bs merged = bounded (merged ++ mergeAux fuel as bs) := by
  induction fuel generalizing as bs merged with
  | zero =>
    obtain rfl : as = [] := eq_nil_of_length_eq_zero (by omega)
    exact mergeRest_eq h
  | succ fuel ih =>
    match as, bs with
    | [], bs =>
      have hloop : mergeLoops (fuel + 1) [] bs merged = mergeRest bs merged := by
        cases bs <;> rfl
      rw [hloop, mergeRest_eq h]
      cases bs <;> rfl
    | a :: as, [] =>
      have hloop : mergeLoops (fuel + 1) (a :: as) [] merged = mergeRest (a :: as) merged := by
        change (mergeRest (a :: as) merged >>= fun merged => mergeRest [] merged) = _
        cases mergeRest (a :: as) merged <;> rfl
      rw [hloop, mergeRest_eq h]
      rfl
    | a :: as, b :: bs =>
      simp only [length_cons] at hfuel
      rcases lt_trichotomy a b with hlt | rfl | hgt
      · have hmerge : mergeAux (fuel + 1) (a :: as) (b :: bs) =
            a :: mergeAux fuel as (b :: bs) := by
          rw [mergeAux, if_neg hlt.ne, if_pos hlt]
        refine mergeLoops_step ?_ hmerge (ih (by simp only [length_cons]; omega))
        simp only [mergeBoth, compare_lt_iff_lt.2 hlt]
      · have hmerge : mergeAux (fuel + 1) (a :: as) (a :: bs) =
            a :: mergeAux fuel as bs := by
          rw [mergeAux, if_pos rfl]
        refine mergeLoops_step ?_ hmerge (ih (by omega))
        simp only [mergeBoth, compare_eq_iff_eq.2]
      · have hmerge : mergeAux (fuel + 1) (a :: as) (b :: bs) =
            b :: mergeAux fuel (a :: as) bs := by
          rw [mergeAux, if_neg hgt.ne', if_neg hgt.not_gt]
        refine mergeLoops_step ?_ hmerge (ih (by simp only [length_cons]; omega))
        simp only [mergeBoth, compare_gt_iff_gt.2 hgt]

/-! ## Stored values and the lattice -/

end RawValue

/-- A value as it is stored. -/
def RegisterValue.toRaw (r : RegisterValue) : RawValue := ⟨r.kind, r.values⟩

namespace RegisterValue

variable (r : RegisterValue)

@[simp] theorem kind_toRaw : r.toRaw.kind = r.kind := rfl

@[simp] theorem values_toRaw : r.toRaw.values = r.values := rfl

theorem toRaw_addValue (value : U64) :
    (r.addValue value).toRaw = r.toRaw.addValue value := by
  unfold addValue RawValue.addValue
  rw [kind_toRaw, values_toRaw]
  by_cases hkind : r.kind ≠ .constant
  · rw [if_pos hkind, if_pos hkind]
  rw [if_neg hkind, if_neg hkind]
  by_cases hmem : value ∈ r.values
  · rw [dif_pos hmem, if_pos hmem]
  rw [dif_neg hmem, if_neg hmem]
  by_cases hlen : maxValues ≤ r.values.length
  · rw [dif_pos hlen, if_pos hlen]
    rfl
  · rw [dif_neg hlen, if_neg hlen]
    rw [insertIdx_takeWhile, not_not.1 hkind]
    rfl

theorem toRaw_merge (a b : RegisterValue) : (a.merge b).toRaw = a.toRaw.merge b.toRaw := by
  have hloops : RawValue.mergeLoops (a.values.length + b.values.length) a.values b.values [] =
      RawValue.bounded (SortedList.merge a.values b.values) :=
    RawValue.mergeLoops_eq (Nat.le_refl _) (Nat.zero_le _)
  unfold merge RawValue.merge
  rw [kind_toRaw, kind_toRaw, values_toRaw, values_toRaw, hloops, RawValue.bounded]
  by_cases hkind : a.kind = .unknown ∨ b.kind = .unknown
  · rw [dif_pos hkind, if_pos hkind]
    rfl
  rw [dif_neg hkind, if_neg hkind]
  by_cases hlen : maxValues < (SortedList.merge a.values b.values).length
  · rw [dif_pos hlen, if_pos hlen]
    rfl
  · rw [dif_neg hlen, if_neg hlen]
    rfl

end RegisterValue

namespace RawValue

/-- What has been built is a value of the lattice. -/
theorem Built.exists_toRaw {r : RawValue} (h : Built r) : ∃ v : RegisterValue, v.toRaw = r := by
  induction h with
  | unknown => exact ⟨.unknown, rfl⟩
  | constant value => exact ⟨.constant value, rfl⟩
  | addValue value _ ih =>
    obtain ⟨v, rfl⟩ := ih
    exact ⟨v.addValue value, v.toRaw_addValue value⟩
  | merge _ _ ih ih' =>
    obtain ⟨v, rfl⟩ := ih
    obtain ⟨v', rfl⟩ := ih'
    exact ⟨v.merge v', v.toRaw_merge v'⟩

/-- The union of two vectors, as a set. -/
def union (a b : RawValue) : Finset U64 := a.values.toFinset ∪ b.values.toFinset

/-- Two values can be merged to constants. -/
def Mergeable (a b : RawValue) : Prop :=
  a.kind = .constant ∧ b.kind = .constant ∧ (union a b).card ≤ 16

theorem toFinset_merge (as bs : List U64) :
    (SortedList.merge as bs).toFinset = as.toFinset ∪ bs.toFinset := by
  ext v
  simp

/-- The merged list is as long as the union is large. -/
theorem length_merge (a b : RegisterValue) :
    (SortedList.merge a.values b.values).length = (union a.toRaw b.toRaw).card := by
  have hnodup : (SortedList.merge a.values b.values).Nodup :=
    (pairwise_merge a.sorted b.sorted).imp ne_of_lt
  rw [← toFinset_card_of_nodup hnodup, toFinset_merge]
  rfl

theorem merge_of_mergeable {a b : RegisterValue} (h : Mergeable a.toRaw b.toRaw) :
    (a.toRaw.merge b.toRaw).kind = .constant ∧
      (a.toRaw.merge b.toRaw).values.toFinset = union a.toRaw b.toRaw := by
  obtain ⟨ha, hb, hcard⟩ := h
  rw [← a.toRaw_merge b]
  rcases RegisterValue.merge_cases a b with ⟨-, hk | hk | hlen⟩ | ⟨-, -, hkind, hvalues⟩
  · exact absurd (hk.symm.trans ha) (by decide)
  · exact absurd (hk.symm.trans hb) (by decide)
  · rw [length_merge] at hlen
    exact absurd hcard (Nat.not_le.2 hlen)
  · refine ⟨hkind, ?_⟩
    change (a.merge b).values.toFinset = _
    rw [hvalues, toFinset_merge]
    rfl

theorem merge_of_not_mergeable {a b : RegisterValue} (h : ¬ Mergeable a.toRaw b.toRaw) :
    a.toRaw.merge b.toRaw = unknown := by
  rw [← a.toRaw_merge b]
  rcases RegisterValue.merge_cases a b with ⟨hunknown, -⟩ | ⟨ha, hb, -, hvalues⟩
  · rw [hunknown]
    rfl
  · refine absurd ⟨ha, hb, ?_⟩ h
    rw [← length_merge, ← hvalues]
    exact (a.merge b).length_le

end RawValue

namespace RawState

/-- What the rounds of `merge` leave: the registers of the rounds are merged, and something changed
if one of them did. -/
theorem foldl_mergeRegister (other : RawState) {idxs : List (Fin numRegs)} (hnodup : idxs.Nodup)
    (s : RawState) (changed : Bool) :
    idxs.foldl (mergeRegister other) (s, changed) =
      (fun i => if i ∈ idxs then (s i).merge (other i) else s i,
        changed || idxs.any fun i => (s i).merge (other i) ≠ s i) := by
  induction idxs generalizing s changed with
  | nil => simp
  | cons idx idxs ih =>
    obtain ⟨hidx, hnodup⟩ := nodup_cons.1 hnodup
    rw [foldl_cons, mergeRegister]
    by_cases hsame : (s idx).merge (other idx) = s idx
    · rw [if_neg (not_not.2 hsame), ih hnodup]
      refine Prod.ext (funext fun i => ?_) (by simp [hsame])
      by_cases hi : i = idx
      · subst hi
        simp [hsame]
      · simp [hi]
    · -- the later rounds do not look at the register that is updated here
      rw [if_pos hsame, ih hnodup]
      refine Prod.ext (funext fun i => ?_) (by simp [hsame])
      by_cases hi : i = idx
      · subst hi
        simp [hidx]
      · simp [hi]

/-- `merge` reports a change exactly when it makes one. -/
theorem merge_changed_iff (s other : RawState) :
    (s.merge other).2 = true ↔ (s.merge other).1 ≠ s := by
  have hnodup : (finRange numRegs).tail.Nodup := (nodup_finRange _).tail
  rw [merge, foldl_mergeRegister other hnodup]
  simp only [Bool.false_or, any_eq_true, decide_eq_true_eq, ne_eq, funext_iff, not_forall]
  constructor
  · rintro ⟨i, hi, hne⟩
    exact ⟨i, by rwa [if_pos hi]⟩
  · rintro ⟨i, hne⟩
    by_cases hi : i ∈ (finRange numRegs).tail
    · rw [if_pos hi] at hne
      exact ⟨i, hi, hne⟩
    · rw [if_neg hi] at hne
      exact absurd rfl hne

end RawState

open RawValue in
/-- The domain of the analysis: constants are at most 16 in increasing order, `merge` is the union
of the constants as long as there are no more of them, hence a join, and merging states reports
every change. -/
theorem registerValues_spec :
    (∀ r, Built r →
      (r.kind = .constant →
        1 ≤ r.values.length ∧ r.values.length ≤ 16 ∧ r.values.Pairwise (· < ·)) ∧
      (r.kind = .unknown → r.values = [])) ∧
    (∀ a b, Built a → Built b →
      (Mergeable a b →
        (a.merge b).kind = .constant ∧ (a.merge b).values.toFinset = union a b) ∧
      (¬ Mergeable a b → a.merge b = unknown)) ∧
    (∀ a b, Built a → Built b → a.merge b = b.merge a) ∧
    (∀ a b c, Built a → Built b → Built c → (a.merge b).merge c = a.merge (b.merge c)) ∧
    (∀ a, Built a → a.merge a = a) ∧
    (∀ s other : RawState, (s.merge other).2 = true ↔ (s.merge other).1 ≠ s) := by
  refine ⟨fun r hr => ?_, fun a b ha hb => ?_, fun a b ha hb => ?_, fun a b c ha hb hc => ?_,
    fun a ha => ?_, RawState.merge_changed_iff⟩
  · obtain ⟨v, rfl⟩ := hr.exists_toRaw
    refine ⟨fun hkind => ⟨?_, v.length_le, v.sorted⟩, fun hkind => v.eq_nil_iff.2 hkind⟩
    exact length_pos_of_ne_nil (RegisterValue.values_ne_nil hkind)
  · obtain ⟨v, rfl⟩ := ha.exists_toRaw
    obtain ⟨v', rfl⟩ := hb.exists_toRaw
    exact ⟨merge_of_mergeable, merge_of_not_mergeable⟩
  · obtain ⟨v, rfl⟩ := ha.exists_toRaw
    obtain ⟨v', rfl⟩ := hb.exists_toRaw
    rw [← v.toRaw_merge, ← v'.toRaw_merge]
    exact congrArg _ (sup_comm v v')
  · obtain ⟨v, rfl⟩ := ha.exists_toRaw
    obtain ⟨v', rfl⟩ := hb.exists_toRaw
    obtain ⟨v'', rfl⟩ := hc.exists_toRaw
    simp only [← RegisterValue.toRaw_merge]
    exact congrArg _ (sup_assoc v v' v'')
  · obtain ⟨v, rfl⟩ := ha.exists_toRaw
    rw [← v.toRaw_merge]
    exact congrArg _ (sup_idem v)

open RawValue in
/-- Two constants of which neither is a value of the other. -/
theorem registerValues_spec_two :
    ((constant 7).merge (constant 3)).kind = .constant ∧
      ((constant 7).merge (constant 3)).values.toFinset = union (constant 7) (constant 3) := by
  refine (registerValues_spec.2.1 _ _ (.constant 7) (.constant 3)).1 ⟨rfl, rfl, ?_⟩
  simp [union, constant]

end Rvr
