import Rvr.Lib.Trace

/-!
# Moving items between lists

Every key has a list of items.  A move takes the first item with an identity out of the list of one
key and appends it to the list of another.  Moves of different identities do not see each other: a
run leaves the items of all other identities alone, so that what happens to the items of one
identity is decided by its own move.

`run_eq_of_confluent` says when the lists after a run do not depend on the order of the moves and on
where they take their items from.
-/

namespace Moves

open List

variable {κ ι ρ : Type*} [DecidableEq κ] [DecidableEq ι] (ident : ρ → ι)

/-- Take an item from the list of `src` to the list of `dst`. -/
structure Move (κ ι : Type*) where
  item : ι
  src : κ
  dst : κ

/-- The items of one identity in a list. -/
def items (i : ι) (l : List ρ) : List ρ := l.filter fun r => ident r = i

/-- A list without the first item of an identity. -/
def without (i : ι) (l : List ρ) : List ρ := l.eraseP fun r => ident r = i

/-- The lists after a move; nothing happens if the source does not have the item. -/
def move (lists : κ → List ρ) (m : Move κ ι) : κ → List ρ := fun h =>
  (if h = m.src then without ident m.item (lists h) else lists h) ++
    if h = m.dst then (items ident m.item (lists m.src)).head?.toList else []

variable {p : ι → Bool}

section Without

variable {ident} {i j : ι} {r : ρ} {l : List ρ}

theorem without_cons_of_eq (h : ident r = i) : without ident i (r :: l) = l :=
  eraseP_cons_of_pos (by simpa using h)

theorem without_cons_of_ne (h : ident r ≠ i) :
    without ident i (r :: l) = r :: without ident i l :=
  eraseP_cons_of_neg (by simpa using h)

theorem without_of_items_eq_nil (h : items ident i l = []) : without ident i l = l :=
  eraseP_of_forall_not (filter_eq_nil_iff.1 h)

theorem items_append (l l' : List ρ) :
    items ident i (l ++ l') = items ident i l ++ items ident i l' :=
  filter_append ..

theorem without_append (h : items ident i l ≠ []) (l' : List ρ) :
    without ident i (l ++ l') = without ident i l ++ l' := by
  obtain ⟨r, hr⟩ := exists_mem_of_ne_nil _ h
  obtain ⟨hr, hi⟩ := mem_filter.1 hr
  exact eraseP_append_left (p := fun r => ident r = i) hi _ hr

theorem filter_without_of_not (hp : p i = false) (l : List ρ) :
    (without ident i l).filter (fun r => p (ident r)) = l.filter fun r => p (ident r) := by
  induction l with
  | nil => rfl
  | cons r l ih =>
    by_cases hr : ident r = i
    · rw [without_cons_of_eq hr, filter_cons_of_neg (by simp [hr, hp])]
    · rw [without_cons_of_ne hr, filter_cons, filter_cons, ih]

theorem items_without (i : ι) (l : List ρ) :
    items ident i (without ident i l) = (items ident i l).tail := by
  induction l with
  | nil => rfl
  | cons r l ih =>
    unfold items at ih ⊢
    by_cases hr : ident r = i
    · rw [without_cons_of_eq hr, filter_cons_of_pos (by simpa using hr), tail_cons]
    · rw [without_cons_of_ne hr, filter_cons_of_neg (by simpa using hr),
        filter_cons_of_neg (by simpa using hr), ih]

theorem without_comm (l : List ρ) (i j : ι) :
    without ident j (without ident i l) = without ident i (without ident j l) := by
  by_cases hij : i = j
  · rw [hij]
  · induction l with
    | nil => rfl
    | cons r l ih =>
      by_cases hi : ident r = i
      · have hj : ident r ≠ j := fun h => hij (hi.symm.trans h)
        rw [without_cons_of_eq hi, without_cons_of_ne hj, without_cons_of_eq hi]
      · by_cases hj : ident r = j
        · rw [without_cons_of_ne hi, without_cons_of_eq hj, without_cons_of_eq hj]
        · rw [without_cons_of_ne hi, without_cons_of_ne hj, without_cons_of_ne hj,
            without_cons_of_ne hi, ih]

end Without

/-! ## One move -/

section Step

variable {ident} {lists : κ → List ρ} {m : Move κ ι}

omit [DecidableEq κ] in
theorem filter_pick_of_not (hp : p m.item = false) :
    (items ident m.item (lists m.src)).head?.toList.filter (fun r => p (ident r)) = [] := by
  refine filter_eq_nil_iff.2 fun r hr => ?_
  have hmem := mem_of_mem_head? (Option.mem_toList.1 hr)
  have hid : ident r = m.item := by simpa using (mem_filter.1 hmem).2
  rw [hid, hp]
  exact Bool.false_ne_true

/-- Items of other identities stay where they are. -/
theorem filter_move_of_not (hp : p m.item = false) (h : κ) :
    (move ident lists m h).filter (fun r => p (ident r)) =
      (lists h).filter fun r => p (ident r) := by
  rw [move, filter_append]
  split_ifs
  · rw [filter_without_of_not hp, filter_pick_of_not hp, append_nil]
  · rw [filter_without_of_not hp, filter_nil, append_nil]
  · rw [filter_pick_of_not hp, append_nil]
  · rw [filter_nil, append_nil]

omit [DecidableEq κ] in
theorem items_pick : items ident m.item (items ident m.item (lists m.src)).head?.toList =
    (items ident m.item (lists m.src)).head?.toList := by
  refine filter_eq_self.2 fun r hr => ?_
  exact (mem_filter.1 (mem_of_mem_head? (Option.mem_toList.1 hr))).2

/-- What a move does to the items of its identity. -/
theorem items_move_self (h : κ) : items ident m.item (move ident lists m h) =
    (if h = m.src then (items ident m.item (lists h)).tail else items ident m.item (lists h)) ++
      if h = m.dst then (items ident m.item (lists m.src)).head?.toList else [] := by
  rw [move, items_append, apply_ite (items ident m.item), apply_ite (items ident m.item),
    items_without,
    items_pick]
  rfl

end Step

/-! ## Runs -/

section Run

variable {ident} {lists : κ → List ρ} {moves pre post : List (Move κ ι)} {m : Move κ ι}

/-- A run leaves the items of all other identities alone. -/
theorem filter_run_of_not (hp : ∀ m ∈ moves, p m.item = false) (h : κ) :
    (Trace.run (move ident) lists moves h).filter (fun r => p (ident r)) =
      (lists h).filter fun r => p (ident r) := by
  induction moves using reverseRecOn with
  | nil => rfl
  | append_singleton moves m ih =>
    rw [Trace.run_append_singleton, filter_move_of_not (hp m (by simp)),
      ih fun m hm => hp m (mem_append_left _ hm)]

theorem items_run_of_ne {i : ι} (hi : ∀ m ∈ moves, m.item ≠ i) (h : κ) :
    items ident i (Trace.run (move ident) lists moves h) = items ident i (lists h) :=
  filter_run_of_not (p := fun j => j = i) (fun m hm => decide_eq_false (hi m hm)) h

theorem run_split (lists : κ → List ρ) (pre : List (Move κ ι)) (m : Move κ ι)
    (post : List (Move κ ι)) : Trace.run (move ident) lists (pre ++ m :: post) =
      Trace.run (move ident) (move ident (Trace.run (move ident) lists pre) m) post := by
  rw [Trace.run, foldl_append]
  rfl

/-- What a run does to the items of an identity that it moves once. -/
theorem items_run (hpre : ∀ m' ∈ pre, m'.item ≠ m.item) (hpost : ∀ m' ∈ post, m'.item ≠ m.item)
    (h : κ) : items ident m.item (Trace.run (move ident) lists (pre ++ m :: post) h) =
      (if h = m.src then (items ident m.item (lists h)).tail else items ident m.item (lists h)) ++
        if h = m.dst then (items ident m.item (lists m.src)).head?.toList else [] := by
  rw [run_split, items_run_of_ne hpost, items_move_self, items_run_of_ne hpre, items_run_of_ne hpre]

/-- Of the items of some identities that go to the same list, the one moved last is the last
there. -/
theorem getLast?_filter_run (hp : p m.item = true)
    (hpre : ∀ m' ∈ pre, m'.item ≠ m.item) (hpost : ∀ m' ∈ post, p m'.item = false)
    (hhas : items ident m.item (lists m.src) ≠ []) :
    ((Trace.run (move ident) lists (pre ++ m :: post) m.dst).filter
      (fun r => p (ident r))).getLast?.map ident = some m.item := by
  obtain ⟨r, l, hl⟩ := exists_cons_of_ne_nil hhas
  have hr : ident r = m.item := by
    have hmem : r ∈ items ident m.item (lists m.src) := by rw [hl]; exact mem_cons_self
    simpa using (mem_filter.1 hmem).2
  rw [run_split, filter_run_of_not hpost, move, if_pos rfl, items_run_of_ne hpre, hl,
    filter_append, head?_cons, Option.toList_some, filter_cons_of_pos (by simp [hr, hp]),
    filter_nil, getLast?_concat, Option.map_some, hr]

end Run

/-! ## Runs with the same moves in another order -/

/-- The item is in some list. -/
def Somewhere (lists : κ → List ρ) (i : ι) : Prop := ∃ k, items ident i (lists k) ≠ []

/-- The moves have different items, and each takes its item from a list that has it if there is
one. -/
structure Allowed (lists : κ → List ρ) (moves : List (Move κ ι)) : Prop where
  nodup : (moves.map (·.item)).Nodup
  src : ∀ m ∈ moves, Somewhere ident lists m.item → items ident m.item (lists m.src) ≠ []

omit [DecidableEq κ] in
/-- No other move has the item of a move. -/
theorem Allowed.item_ne {ident : ρ → ι} {lists : κ → List ρ} {pre post : List (Move κ ι)}
    {m : Move κ ι}
    (h : Allowed ident lists (pre ++ m :: post)) : ∀ m' ∈ pre ++ post, m'.item ≠ m.item := by
  intro m' hm' heq
  have hnodup := h.nodup
  rw [map_append, map_cons, nodup_middle, nodup_cons, ← map_append] at hnodup
  exact hnodup.1 (heq ▸ mem_map_of_mem hm')

/-- Where an item can be taken from does not matter for the observed lists, and no two items go to
the same list. -/
structure Confluent (observed : κ → Prop) (lists : κ → List ρ) (updates : List (ι × κ)) : Prop where
  src : ∀ u ∈ updates, ∀ k k', k ≠ k' → items ident u.1 (lists k) ≠ [] →
    items ident u.1 (lists k') ≠ [] →
    ¬ observed k ∧ (items ident u.1 (lists k)).head? = (items ident u.1 (lists k')).head?
  dst : ∀ u ∈ updates, ∀ u' ∈ updates, u.2 = u'.2 → Somewhere ident lists u.1 →
    Somewhere ident lists u'.1 → u.1 = u'.1

section Confluent

variable {ident} {observed : κ → Prop} {lists : κ → List ρ} {updates : List (ι × κ)}
  {moves moves' : List (Move κ ι)}

/-- What is appended to a list by the moves of a run, in their order. -/
def appended (ident : ρ → ι) (lists : κ → List ρ) (h : κ) (moves : List (Move κ ι)) : List ρ :=
  moves.flatMap fun m =>
    if h = m.dst then (items ident m.item (lists m.src)).head?.toList else []

theorem items_appended_of_ne {i : ι} (hi : ∀ m ∈ moves, m.item ≠ i) (h : κ) :
    items ident i (appended ident lists h moves) = [] := by
  refine filter_eq_nil_iff.2 fun r hr => ?_
  obtain ⟨m, hm, hr⟩ := mem_flatMap.1 hr
  split_ifs at hr
  · have hmem := mem_of_mem_head? (Option.mem_toList.1 hr)
    have hid : ident r = m.item := by simpa using (mem_filter.1 hmem).2
    simpa [hid] using hi m hm
  · cases hr

variable (hconf : Confluent ident observed lists updates)
include hconf

/-- An observed list after a run: it has lost the first item of every identity that was moved,
whether or not it had one, and what was appended follows. -/
theorem run_observed
    (hmoves : ∀ m ∈ moves, (m.item, m.dst) ∈ updates) (hallowed : Allowed ident lists moves) {h : κ}
    (hobs : observed h) : Trace.run (move ident) lists moves h =
      (moves.map (·.item)).foldl (fun l i => without ident i l) (lists h) ++
        appended ident lists h moves := by
  induction moves using reverseRecOn with
  | nil => simp [appended]
  | append_singleton moves m ih =>
    obtain ⟨hnodup, hsrc⟩ := hallowed
    rw [map_append, nodup_append] at hnodup
    have hne : ∀ m' ∈ moves, m'.item ≠ m.item := fun m' hm' heq =>
      hnodup.2.2 _ (mem_map_of_mem hm') _ (mem_singleton.2 rfl) heq
    have ih := ih (fun m hm => hmoves m (mem_append_left _ hm))
      ⟨hnodup.1, fun m hm => hsrc m (mem_append_left _ hm)⟩
    have hitems : ∀ k, items ident m.item (Trace.run (move ident) lists moves k) =
        items ident m.item (lists k) := items_run_of_ne hne
    have hfold : items ident m.item
        ((moves.map (·.item)).foldl (fun l i => without ident i l) (lists h)) =
        items ident m.item (lists h) := by
      have := hitems h
      rwa [ih, items_append, items_appended_of_ne hne, append_nil] at this
    have htaken : (if h = m.src then without ident m.item (Trace.run (move ident) lists moves h)
        else Trace.run (move ident) lists moves h) = without ident m.item
          ((moves.map (·.item)).foldl (fun l i => without ident i l) (lists h)) ++
            appended ident lists h moves := by
      by_cases hnil : items ident m.item (lists h) = []
      · rw [without_of_items_eq_nil ((hitems h).trans hnil), ite_self, ih,
          without_of_items_eq_nil (hfold.trans hnil)]
      · -- an observed list that has the item is the only one to take it from
        have hsrc' := hsrc m (by simp) ⟨h, hnil⟩
        have hh : h = m.src := by
          by_contra hne'
          exact (hconf.src _ (hmoves m (by simp)) h m.src hne' hnil hsrc').1 hobs
        rw [if_pos hh, ih, without_append (by rwa [hfold])]
    rw [Trace.run_append_singleton, move, htaken, hitems, appended, appended]
    simp

/-- The first item of an identity is the same in all lists that have it. -/
theorem head?_items_eq {u : ι × κ} (hu : u ∈ updates)
    {k k' : κ} (hk : Somewhere ident lists u.1 → items ident u.1 (lists k) ≠ [])
    (hk' : Somewhere ident lists u.1 → items ident u.1 (lists k') ≠ []) :
    (items ident u.1 (lists k)).head? = (items ident u.1 (lists k')).head? := by
  by_cases hsome : Somewhere ident lists u.1
  · by_cases heq : k = k'
    · rw [heq]
    · exact (hconf.src u hu k k' heq (hk hsome) (hk' hsome)).2
  · have hnil : ∀ j, items ident u.1 (lists j) = [] := by simpa [Somewhere] using hsome
    rw [hnil k, hnil k']

/-- What one move appends is all that is appended to a list, if there is anything. -/
theorem appended_eq
    (hmoves : ∀ m ∈ moves, (m.item, m.dst) ∈ updates) (hallowed : Allowed ident lists moves)
    {m : Move κ ι} (hm : m ∈ moves) (hsome : Somewhere ident lists m.item) :
    appended ident lists m.dst moves = (items ident m.item (lists m.src)).head?.toList := by
  obtain ⟨pre, post, rfl⟩ := append_of_mem hm
  have hnone : ∀ m' ∈ pre ++ post, (if m.dst = m'.dst then
      (items ident m'.item (lists m'.src)).head?.toList else []) = [] := by
    intro m' hm'
    have hmem : m' ∈ pre ++ m :: post := by
      rcases mem_append.1 hm' with h | h
      · exact mem_append_left _ h
      · exact mem_append_right _ (mem_cons_of_mem _ h)
    split_ifs with hdst
    · have hnil : items ident m'.item (lists m'.src) = [] := by
        by_contra h
        exact hallowed.item_ne m' hm'
          (hconf.dst _ (hmoves m' hmem) _ (hmoves m hm) hdst.symm ⟨_, h⟩ hsome)
      rw [hnil]
      rfl
    · rfl
  rw [appended, flatMap_append, flatMap_cons,
    flatMap_eq_nil_iff.2 fun m' h => hnone m' (mem_append_left _ h),
    flatMap_eq_nil_iff.2 fun m' h => hnone m' (mem_append_right _ h), if_pos rfl,
    nil_append, append_nil]

omit hconf

theorem appended_eq_nil {h : κ} (hnone : ∀ m ∈ moves, m.dst = h → ¬ Somewhere ident lists m.item) :
    appended ident lists h moves = [] := by
  refine flatMap_eq_nil_iff.2 fun m hm => ?_
  split_ifs with hdst
  · have hnil : items ident m.item (lists m.src) = [] := by
      by_contra hne
      exact hnone m hm hdst.symm ⟨_, hne⟩
    rw [hnil]
    rfl
  · rfl

/-- Two runs of the same updates, in any order and from any sources, have the same observed
lists. -/
theorem run_eq_of_confluent (hconf : Confluent ident observed lists updates)
    (hperm : (moves.map fun m => (m.item, m.dst)).Perm updates)
    (hperm' : (moves'.map fun m => (m.item, m.dst)).Perm updates)
    (hallowed : Allowed ident lists moves) (hallowed' : Allowed ident lists moves') {h : κ}
    (hobs : observed h) :
    Trace.run (move ident) lists moves h = Trace.run (move ident) lists moves' h := by
  have hmem : ∀ m ∈ moves, (m.item, m.dst) ∈ updates := fun m hm =>
    hperm.mem_iff.1 (mem_map_of_mem hm)
  have hmem' : ∀ m ∈ moves', (m.item, m.dst) ∈ updates := fun m hm =>
    hperm'.mem_iff.1 (mem_map_of_mem hm)
  have hitems : (moves.map (·.item)).Perm (moves'.map (·.item)) := by
    have := (hperm.trans hperm'.symm).map Prod.fst
    rwa [map_map, map_map] at this
  have hcomm : RightCommutative fun (l : List ρ) (i : ι) => without ident i l :=
    ⟨fun l i j => without_comm l i j⟩
  rw [run_observed hconf hmem hallowed hobs, run_observed hconf hmem' hallowed' hobs,
    hitems.foldl_eq]
  congr 1
  by_cases hany : ∃ m ∈ moves, m.dst = h ∧ Somewhere ident lists m.item
  · obtain ⟨m, hm, rfl, hsome⟩ := hany
    obtain ⟨m', hm', heq⟩ := mem_map.1 (hperm'.mem_iff.2 (hmem m hm))
    obtain ⟨hitem, hdst⟩ := Prod.mk.inj heq
    rw [appended_eq hconf hmem hallowed hm hsome, ← hdst,
      appended_eq hconf hmem' hallowed' hm' (hitem ▸ hsome), hitem]
    exact congrArg _ (head?_items_eq hconf (hmem m hm) (hallowed.src m hm)
      (hitem ▸ hallowed'.src m' hm'))
  · rw [appended_eq_nil fun m hm hdst hsome => hany ⟨m, hm, hdst, hsome⟩,
      appended_eq_nil fun m' hm' hdst hsome => ?_]
    obtain ⟨m, hm, heq⟩ := mem_map.1 (hperm.mem_iff.2 (hmem' m' hm'))
    obtain ⟨hitem, hdst'⟩ := Prod.mk.inj heq
    exact hany ⟨m, hm, hdst'.trans hdst, hitem.symm ▸ hsome⟩

end Confluent

end Moves
