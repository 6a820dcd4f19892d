import Mathlib

/-!
# Following a partial function

`orbit f n a` is what is visited from `a` in at most `n` steps of a partial function.  Where the
function has a finite domain and no two elements have the same successor, the orbit of an element
without a predecessor visits nothing twice and ends, two such orbits have nothing in common, and
together they are a permutation of what can be reached from elements without a predecessor.
-/

namespace Orbit

variable {α : Type*} (f : α → Option α)

/-- The elements after `a`, at most `n` of them. -/
def orbit : ℕ → α → List α
  | 0, _ => []
  | n + 1, a =>
    match f a with
    | some b => b :: orbit n b
    | none => []

/-- One step. -/
abbrev Step (a b : α) : Prop := f a = some b

abbrev Reaches : α → α → Prop := Relation.ReflTransGen (Step f)

variable {f} {n : ℕ} {a b c r : α}

theorem orbit_succ_some (h : f a = some b) : orbit f (n + 1) a = b :: orbit f n b := by
  rw [orbit, h]

theorem orbit_succ_none (h : f a = none) : orbit f (n + 1) a = [] := by
  rw [orbit, h]

theorem reaches_of_mem (h : b ∈ a :: orbit f n a) : Reaches f a b := by
  induction n generalizing a with
  | zero =>
    rw [orbit, List.mem_singleton] at h
    exact h ▸ .refl
  | succ n ih =>
    rcases List.mem_cons.1 h with rfl | h
    · exact .refl
    · cases hf : f a with
      | none =>
        rw [orbit_succ_none hf] at h
        cases h
      | some c =>
        rw [orbit_succ_some hf] at h
        exact .head hf (ih h)

/-- An orbit that did not use all its steps has ended: more steps add nothing. -/
theorem orbit_eq_of_length_lt (h : (orbit f n a).length < n) {m : ℕ} (hm : n ≤ m) :
    orbit f m a = orbit f n a := by
  induction n generalizing a m with
  | zero => cases h
  | succ n ih =>
    obtain ⟨m, rfl⟩ : ∃ k, m = k + 1 := ⟨m - 1, by omega⟩
    cases hf : f a with
    | none => rw [orbit_succ_none hf, orbit_succ_none hf]
    | some b =>
      rw [orbit_succ_some hf] at h
      rw [orbit_succ_some hf, orbit_succ_some hf, ih (Nat.lt_of_succ_lt_succ h) (by omega)]

/-- An orbit that has ended contains all that can be reached. -/
theorem mem_orbit_of_reaches (h : (orbit f n a).length < n) (hr : Reaches f a b) :
    b ∈ a :: orbit f n a := by
  induction n generalizing a with
  | zero => cases h
  | succ n ih =>
    rcases Relation.ReflTransGen.cases_head hr with rfl | ⟨c, hstep, hrest⟩
    · exact List.mem_cons_self
    · rw [orbit_succ_some hstep] at h ⊢
      exact List.mem_cons_of_mem _ (ih (Nat.lt_of_succ_lt_succ h) hrest)

/-! ## Functions without joins -/

/-- The function stays in a list of elements, no two of which have the same successor. -/
structure Unjoined (f : α → Option α) (dom : List α) : Prop where
  closed : ∀ a ∈ dom, ∀ b, f a = some b → b ∈ dom
  inj : ∀ a ∈ dom, ∀ b ∈ dom, ∀ c, f a = some c → f b = some c → a = b

/-- An element without a predecessor. -/
structure Root (f : α → Option α) (dom : List α) (r : α) : Prop where
  mem : r ∈ dom
  not_step : ∀ a ∈ dom, f a ≠ some r

section Unjoined

variable {dom : List α} (hf : Unjoined f dom)
include hf

theorem Unjoined.mem_of_reaches (ha : a ∈ dom) (h : Reaches f a b) : b ∈ dom := by
  induction h with
  | refl => exact ha
  | tail _ hstep ih => exact hf.closed _ ih _ hstep

/-- Each element of an orbit is the successor of the one before it. -/
theorem Unjoined.isChain_orbit (n : ℕ) (ha : a ∈ dom) :
    (a :: orbit f n a).IsChain fun b c => b ∈ dom ∧ f b = some c := by
  induction n generalizing a with
  | zero => exact .singleton a
  | succ n ih =>
    cases h : f a with
    | none =>
      rw [orbit_succ_none h]
      exact .singleton a
    | some b =>
      rw [orbit_succ_some h]
      exact .cons_cons ⟨ha, h⟩ (ih (hf.closed a ha b h))

/-- Nothing is reached from two roots. -/
theorem Unjoined.root_unique {r₁ r₂ : α} (h₁ : Root f dom r₁) (h₂ : Root f dom r₂)
    (hx₁ : Reaches f r₁ a) (hx₂ : Reaches f r₂ a) : r₁ = r₂ := by
  induction hx₁ with
  | refl =>
    rcases Relation.ReflTransGen.cases_tail hx₂ with heq | ⟨y, hy, hstep⟩
    · exact heq
    · exact absurd hstep (h₁.not_step y (hf.mem_of_reaches h₂.mem hy))
  | tail hpre hstep ih =>
    have hmem := hf.mem_of_reaches h₁.mem hpre
    rcases Relation.ReflTransGen.cases_tail hx₂ with rfl | ⟨y, hy, hstep'⟩
    · exact absurd hstep (h₂.not_step _ hmem)
    · obtain rfl := hf.inj _ hmem y (hf.mem_of_reaches h₂.mem hy) _ hstep hstep'
      exact ih hy

/-- There is no way back to an element that is reached from a root: going back along a cycle would
never meet the root. -/
theorem Unjoined.not_cycle (hr : Root f dom r) (h : Reaches f r a) :
    ¬ Relation.TransGen (Step f) a a := by
  induction h with
  | refl =>
    intro hcycle
    obtain ⟨y, hy, hstep⟩ := Relation.TransGen.tail'_iff.1 hcycle
    exact hr.not_step y (hf.mem_of_reaches hr.mem hy) hstep
  | tail hpre hstep ih =>
    intro hcycle
    obtain ⟨y, hy, hstep'⟩ := Relation.TransGen.tail'_iff.1 hcycle
    have hmem := hf.mem_of_reaches hr.mem hpre
    obtain rfl := hf.inj _ hmem y
      (hf.mem_of_reaches (hf.closed _ hmem _ hstep) hy) _ hstep hstep'
    exact ih (.head' hstep hy)

theorem Unjoined.nodup_orbit_of_reaches (hr : Root f dom r) (h : Reaches f r a) :
    (a :: orbit f n a).Nodup := by
  induction n generalizing a with
  | zero => exact List.nodup_singleton a
  | succ n ih =>
    cases hstep : f a with
    | none =>
      rw [orbit_succ_none hstep]
      exact List.nodup_singleton a
    | some b =>
      rw [orbit_succ_some hstep, List.nodup_cons]
      refine ⟨fun ha => hf.not_cycle hr h ?_, ih (h.tail hstep)⟩
      exact .head' hstep (reaches_of_mem ha)

/-- The orbit of a root ends within the domain. -/
theorem Unjoined.length_orbit_lt (hr : Root f dom r) (hn : dom.length ≤ n) :
    (orbit f n r).length < n := by
  have hnodup : (r :: orbit f n r).Nodup := hf.nodup_orbit_of_reaches hr .refl
  have hsub : r :: orbit f n r ⊆ dom := fun b hb =>
    hf.mem_of_reaches hr.mem (reaches_of_mem hb)
  have hlen := (List.subperm_of_subset hnodup hsub).length_le
  rw [List.length_cons] at hlen
  omega

/-- The orbits of all roots make up what is reached from them. -/
theorem Unjoined.perm_flatMap_orbit [DecidableEq α] {roots : List α} (hdom : dom.Nodup)
    (hroots : roots.Nodup) (hroot : ∀ r ∈ roots, Root f dom r)
    (hcover : ∀ a ∈ dom, ∃ r ∈ roots, Reaches f r a) (hn : dom.length ≤ n) :
    (roots.flatMap fun r => r :: orbit f n r).Perm dom := by
  have hnodup : (roots.flatMap fun r => r :: orbit f n r).Nodup := by
    refine List.nodup_flatMap.2 ⟨fun r hr => hf.nodup_orbit_of_reaches (hroot r hr) .refl, ?_⟩
    refine hroots.imp_of_mem fun {r₁ r₂} hr₁ hr₂ hne x hx₁ hx₂ => hne ?_
    exact hf.root_unique (hroot r₁ hr₁) (hroot r₂ hr₂) (reaches_of_mem hx₁) (reaches_of_mem hx₂)
  refine (List.perm_ext_iff_of_nodup hnodup hdom).2 fun x => ⟨fun hx => ?_, fun hx => ?_⟩
  · obtain ⟨r, hr, hx⟩ := List.mem_flatMap.1 hx
    exact hf.mem_of_reaches (hroot r hr).mem (reaches_of_mem hx)
  · obtain ⟨r, hr, hreach⟩ := hcover x hx
    exact List.mem_flatMap.2
      ⟨r, hr, mem_orbit_of_reaches (hf.length_orbit_lt (hroot r hr) hn) hreach⟩

end Unjoined

end Orbit
