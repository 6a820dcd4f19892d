import Rvr.Cfg.Predecessors

/-!
# The predecessor map is the transpose of the successor map

A partial map stands for the edges of the items it was made of.  Adding edges and merging keep this,
so every schedule gives the transpose of the whole successor map.
-/

namespace Rvr

/-! ## Extending a map of sets -/

variable {m : AddrMap (Finset U64)}

namespace AddrMap

/-- The set that a map has for a key. -/
def setAt (m : AddrMap (Finset U64)) (key : U64) : Finset U64 := (m.lookup key).getD ∅

theorem mem_setAt_extend {key k a : U64} {set : Finset U64} :
    a ∈ setAt (extend m key set) k ↔ a ∈ setAt m k ∨ k = key ∧ a ∈ set := by
  by_cases hk : k = key
  · subst hk
    simp [setAt, extend]
  · simp [setAt, extend, hk]

theorem mem_extend {key k : U64} {set : Finset U64} :
    k ∈ extend m key set ↔ k = key ∨ k ∈ m := AList.mem_insert _

/-- Extending by one set after another. -/
theorem mem_setAt_foldl_extend {α : Type} (key : α → U64) (set : α → Finset U64) {as : List α}
    {k a : U64} :
    a ∈ setAt (as.foldl (fun m x => extend m (key x) (set x)) m) k ↔
      a ∈ setAt m k ∨ ∃ x ∈ as, k = key x ∧ a ∈ set x := by
  induction as generalizing m with
  | nil => simp
  | cons x as ih =>
    rw [List.foldl_cons, ih, mem_setAt_extend, List.exists_mem_cons_iff, or_assoc]

theorem mem_foldl_extend {α : Type} (key : α → U64) (set : α → Finset U64) {as : List α} {k : U64} :
    k ∈ as.foldl (fun m x => extend m (key x) (set x)) m ↔ k ∈ m ∨ ∃ x ∈ as, k = key x := by
  induction as generalizing m with
  | nil => simp
  | cons x as ih =>
    rw [List.foldl_cons, ih, mem_extend, List.exists_mem_cons_iff]
    tauto

/-- A key without a set reads as the empty set. -/
theorem mem_of_mem_setAt {key a : U64} (h : a ∈ setAt m key) : key ∈ m := by
  rw [← AList.lookup_isSome]
  cases hm : m.lookup key with
  | none => simp [setAt, hm] at h
  | some set => rfl

end AddrMap

/-! ## Partial maps -/

/-- A partial map is the transpose of the items: it has exactly their edges, and no key without
one. -/
structure Transposes (items : List (U64 × List U64)) (m : AddrMap (Finset U64)) : Prop where
  edge : ∀ succ pc, pc ∈ m.setAt succ ↔ ∃ e ∈ items, e.1 = pc ∧ succ ∈ e.2
  key : ∀ succ, succ ∈ m → ∃ e ∈ items, succ ∈ e.2

theorem mem_setAt_addEdges {e : U64 × List U64} {succ pc : U64} :
    pc ∈ (addEdges m e).setAt succ ↔ pc ∈ m.setAt succ ∨ e.1 = pc ∧ succ ∈ e.2 := by
  rw [addEdges, AddrMap.mem_setAt_foldl_extend (fun s => s) fun _ => {e.1}]
  refine or_congr_right ⟨?_, ?_⟩
  · rintro ⟨s, hs, rfl, hpc⟩
    exact ⟨(Finset.mem_singleton.1 hpc).symm, hs⟩
  · rintro ⟨rfl, hsucc⟩
    exact ⟨succ, hsucc, rfl, Finset.mem_singleton_self _⟩

theorem mem_setAt_mergePredecessors {order : HashOrder} {round : ℕ} {a b : AddrMap (Finset U64)}
    {succ pc : U64} :
    pc ∈ (mergePredecessors order round a b).setAt succ ↔
      pc ∈ a.setAt succ ∨ pc ∈ b.setAt succ := by
  refine (AddrMap.mem_setAt_foldl_extend (fun s => s) fun s => b.setAt s).trans (or_congr_right ?_)
  constructor
  · rintro ⟨s, -, rfl, hpc⟩
    exact hpc
  · intro hpc
    have hkey : succ ∈ b.keys := AddrMap.mem_of_mem_setAt hpc
    exact ⟨succ, (order.mem_list _ _ _).2 (List.mem_toFinset.2 hkey), rfl, hpc⟩

namespace Transposes

theorem empty : Transposes [] ∅ := ⟨by simp [AddrMap.setAt], by simp⟩

theorem addEdges {items : List (U64 × List U64)} (h : Transposes items m) (e : U64 × List U64) :
    Transposes (items ++ [e]) (addEdges m e) := by
  constructor
  · intro succ pc
    rw [mem_setAt_addEdges, h.edge]
    simp only [List.mem_append, List.mem_singleton, or_and_right, exists_or, exists_eq_left]
  · intro succ hsucc
    rw [Rvr.addEdges, AddrMap.mem_foldl_extend (fun s => s) fun _ => {e.1}] at hsucc
    rcases hsucc with hm | ⟨s, hs, rfl⟩
    · obtain ⟨e', he', hmem⟩ := h.key succ hm
      exact ⟨e', List.mem_append_left _ he', hmem⟩
    · exact ⟨e, by simp, hs⟩

theorem mergePredecessors {as bs : List (U64 × List U64)} {a b : AddrMap (Finset U64)}
    (ha : Transposes as a) (hb : Transposes bs b) (order : HashOrder) (round : ℕ) :
    Transposes (as ++ bs) (mergePredecessors order round a b) := by
  constructor
  · intro succ pc
    rw [mem_setAt_mergePredecessors, ha.edge, hb.edge]
    simp only [List.mem_append, or_and_right, exists_or]
  · intro succ hsucc
    rw [Rvr.mergePredecessors, AddrMap.mem_foldl_extend (fun s => s) fun s => (b.lookup s).getD ∅]
      at hsucc
    rcases hsucc with hm | ⟨s, hs, rfl⟩
    · obtain ⟨e, he, hmem⟩ := ha.key succ hm
      exact ⟨e, List.mem_append_left _ he, hmem⟩
    · rw [order.mem_list, List.mem_toFinset] at hs
      obtain ⟨e, he, hmem⟩ := hb.key succ hs
      exact ⟨e, List.mem_append_right _ he, hmem⟩

end Transposes

theorem transposes_buildPredecessorsWith (order : HashOrder)
    (schedule : Schedule (U64 × List U64)) :
    Transposes schedule.items (buildPredecessorsWith order schedule) :=
  Schedule.run_induction Transposes.empty (fun _ _ e h => h.addEdges e)
    (fun round _ _ _ _ ha hb => ha.mergePredecessors hb order round) schedule

/-! ## The whole map -/

theorem Iterates.exists_iff {items : List (U64 × List U64)} {successors : AddrMap (Finset U64)}
    (h : Iterates items successors) {pc succ : U64} :
    (∃ e ∈ items, e.1 = pc ∧ succ ∈ e.2) ↔ ∃ succs, successors.lookup pc = some succs ∧
      succ ∈ succs := by
  have hentry : ∀ succs, successors.lookup pc = some succs ↔
      ∃ e ∈ items, e.1 = pc ∧ e.2.toFinset = succs := by
    intro succs
    rw [← Option.mem_def, AList.mem_lookup_iff, ← h.mem_iff, List.mem_map]
    simp only [Sigma.mk.injEq, heq_eq_eq]
  constructor
  · rintro ⟨e, he, hpc, hsucc⟩
    exact ⟨e.2.toFinset, (hentry _).2 ⟨e, he, hpc, rfl⟩, List.mem_toFinset.2 hsucc⟩
  · rintro ⟨succs, hlookup, hsucc⟩
    obtain ⟨e, he, hpc, rfl⟩ := (hentry succs).1 hlookup
    exact ⟨e, he, hpc, List.mem_toFinset.1 hsucc⟩

/-- Whatever the schedule, the order of the entries and the order in which hash sets and maps are
iterated, the predecessor map is the transpose of the successor map. -/
theorem buildPredecessorsWith_transpose (successors : AddrMap (Finset U64)) (order : HashOrder)
    (schedule : Schedule (U64 × List U64)) (h : Iterates schedule.items successors) :
    (∀ succ pc,
      (∃ preds, (buildPredecessorsWith order schedule).lookup succ = some preds ∧ pc ∈ preds) ↔
        ∃ succs, successors.lookup pc = some succs ∧ succ ∈ succs) ∧
    (∀ succ, succ ∈ buildPredecessorsWith order schedule →
      ∃ pc succs, successors.lookup pc = some succs ∧ succ ∈ succs) := by
  have htrans := transposes_buildPredecessorsWith order schedule
  constructor
  · intro succ pc
    rw [← h.exists_iff, ← htrans.edge, AddrMap.setAt]
    cases (buildPredecessorsWith order schedule).lookup succ <;> simp
  · intro succ hsucc
    obtain ⟨e, he, hmem⟩ := htrans.key succ hsucc
    exact ⟨e.1, h.exists_iff.1 ⟨e, he, rfl, hmem⟩⟩

/-- Two addresses with a common successor, in two pieces. -/
theorem buildPredecessorsWith_transpose_two :
    (∃ preds, (buildPredecessorsWith .ascending
        (.reduce 0 (.fold [(4, [3])]) (.reduce 1 .identity (.fold [(1, [3, 2])])))).lookup 3 =
          some preds ∧
      1 ∈ preds) ↔
    ∃ succs, (((∅ : AddrMap (Finset U64)).insert 1 {2, 3}).insert 4 {3}).lookup 1 = some succs ∧
      3 ∈ succs := by
  have hset : ([3, 2] : List U64).toFinset = {2, 3} := by decide
  have hiterates : Iterates [(4, [3]), (1, [3, 2])]
      (((∅ : AddrMap (Finset U64)).insert 1 {2, 3}).insert 4 {3}) := by
    rw [Iterates, List.map_cons, List.map_cons, hset]
    exact .refl _
  exact (buildPredecessorsWith_transpose _ .ascending
    (.reduce 0 (.fold [(4, [3])]) (.reduce 1 .identity (.fold [(1, [3, 2])]))) hiterates).1 3 1

/-- The sequential loop of the model is the schedule with one piece. -/
theorem buildPredecessors_eq (successors : AddrMap (Finset U64)) (order : HashOrder) :
    buildPredecessors successors = buildPredecessorsWith order
      (.fold (successors.entries.map fun e => (e.1, SortedList.ofFinset e.2))) := by
  rw [buildPredecessorsWith, Schedule.run, List.foldl_map]
  rfl

end Rvr
