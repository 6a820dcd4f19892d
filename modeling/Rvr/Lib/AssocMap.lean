import Mathlib

/-!
# Association maps built by insertion

What a map holds after the elements of a list have been inserted into it one after another, and
searching the values of a map by a key that every value carries.
-/

namespace AssocMap

open List

variable {α κ V : Type*} [DecidableEq κ] (key : α → κ) (value : α → V)

variable {as : List α}

variable (m : AList fun _ : κ => V)

/-- An inserted element is found under its key if later elements with the same key have the same
value. -/
theorem lookup_foldl_insert {a : α} (ha : a ∈ as)
    (huniq : ∀ b ∈ as, key b = key a → value b = value a) :
    (as.foldl (fun m x => m.insert (key x) (value x)) m).lookup (key a) = some (value a) := by
  -- from the end of the list: what is inserted last is found first
  induction as using reverseRecOn with
  | nil => cases ha
  | append_singleton as b ih =>
    rw [foldl_append, foldl_cons, foldl_nil]
    by_cases hkey : key b = key a
    · rw [← hkey, AList.lookup_insert, huniq b (by simp) hkey]
    · rw [AList.lookup_insert_ne (Ne.symm hkey)]
      refine ih ?_ fun c hc => huniq c (mem_append_left _ hc)
      rcases mem_append.1 ha with hmem | hmem
      · exact hmem
      · exact absurd (congrArg key (mem_singleton.1 hmem)).symm hkey

/-- What is found was in the map or has been inserted. -/
theorem exists_of_lookup_foldl_insert {m : AList fun _ : κ => V} {k : κ} {v : V}
    (h : (as.foldl (fun m x => m.insert (key x) (value x)) m).lookup k = some v) :
    m.lookup k = some v ∨ ∃ a ∈ as, key a = k ∧ value a = v := by
  induction as using reverseRecOn with
  | nil => exact .inl h
  | append_singleton as b ih =>
    rw [foldl_append, foldl_cons, foldl_nil] at h
    by_cases hkey : key b = k
    · subst hkey
      rw [AList.lookup_insert] at h
      exact .inr ⟨b, by simp, rfl, Option.some.inj h⟩
    · rw [AList.lookup_insert_ne (Ne.symm hkey)] at h
      rcases ih h with hm | ⟨a, ha, hak⟩
      · exact .inl hm
      · exact .inr ⟨a, mem_append_left _ ha, hak⟩

/-- What nothing was inserted under is as before. -/
theorem lookup_foldl_insert_of_notMem {k : κ} (h : k ∉ as.map key) :
    (as.foldl (fun m x => m.insert (key x) (value x)) m).lookup k = m.lookup k := by
  induction as using reverseRecOn with
  | nil => rfl
  | append_singleton as b ih =>
    rw [map_append, mem_append, not_or] at h
    have hne : k ≠ key b := fun hk => h.2 (mem_singleton.2 hk)
    rw [foldl_append, foldl_cons, foldl_nil, AList.lookup_insert_ne hne, ih h.1]

/-- What is left after some keys have been erased. -/
theorem lookup_foldl_erase (ks : List κ) (k : κ) :
    (ks.foldl (fun m x => m.erase x) m).lookup k = if k ∈ ks then none else m.lookup k := by
  induction ks using reverseRecOn with
  | nil => rfl
  | append_singleton ks b ih =>
    rw [foldl_append, foldl_cons, foldl_nil]
    by_cases hkb : k = b
    · rw [hkb, AList.lookup_erase, if_pos (by simp)]
    · rw [AList.lookup_erase_ne hkb, ih]
      simp [hkb]

/-- The entries after insertions under different keys, the last one first. -/
theorem entries_foldl_insert (h : (as.map key).Nodup) :
    (as.foldl (fun m x => m.insert (key x) (value x)) (∅ : AList fun _ : κ => V)).entries =
      (as.map fun a => ⟨key a, value a⟩).reverse := by
  induction as using reverseRecOn with
  | nil => rfl
  | append_singleton as b ih =>
    rw [map_append, nodup_append] at h
    have hentries := ih h.1
    have hfresh : key b ∉ as.foldl (fun m x => m.insert (key x) (value x))
        (∅ : AList fun _ : κ => V) := by
      rw [AList.mem_keys, AList.keys, hentries, keys, map_reverse, mem_reverse,
        map_map]
      intro hmem
      exact h.2.2 _ hmem _ (mem_singleton.2 rfl) rfl
    rw [foldl_append, foldl_cons, foldl_nil, AList.entries_insert_of_notMem hfresh,
      hentries, map_append, reverse_append]
    rfl

/-- Values that know their key are found by it. -/
theorem find?_values {m : AList fun _ : κ => V} {keyOf : V → κ}
    (h : ∀ k v, m.lookup k = some v → keyOf v = k) (k : κ) :
    ((m.entries.map fun e => e.2).find? fun v => keyOf v = k) = m.lookup k := by
  have hentries : ∀ e ∈ m.entries, keyOf e.2 = e.1 := fun e he =>
    h e.1 e.2 (AList.mem_lookup_iff.2 he)
  change _ = dlookup k m.entries
  generalize m.entries = entries at hentries
  induction entries with
  | nil => rfl
  | cons e entries ih =>
    obtain ⟨k', v⟩ := e
    have hv : keyOf v = k' := hentries ⟨k', v⟩ mem_cons_self
    rw [map_cons, find?_cons]
    by_cases hk : k' = k
    · subst hk
      rw [dlookup_cons_eq]
      simp only [hv, decide_true]
    · have hrest : dlookup k (⟨k', v⟩ :: entries) = dlookup k entries :=
        dlookup_cons_ne entries _ (Ne.symm hk)
      rw [hrest, ← ih fun e he => hentries e (mem_cons_of_mem _ he)]
      simp only [hv, hk, decide_false]

end AssocMap
