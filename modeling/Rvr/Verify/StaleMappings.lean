import Rvr.Cfg.BlockTable
import Rvr.Lib.AssocMap
import Rvr.Lib.Moves

/-!
# Stale mappings

`fix_stale_mappings` follows the mapping of every absorbed address to a block that remains and moves
the range of the address to the list of that block.  The mappings that it leaves do not depend on
the order in which it meets them.  The lists do: the addresses are met in hash order, so two ranges
that go to the same list are appended in hash order, and a range that is in several lists is taken
from the first of them in hash order.
-/

namespace Rvr

open Moves List

variable {X : Xlen}

/-- Iterate every set with a given element first, if it has it, and in ascending order otherwise. -/
def HashOrder.first (a : U64) : HashOrder where
  list _ s := if a ∈ s then a :: (SortedList.ofFinset s).erase a else SortedList.ofFinset s
  mem_list _ s b := by
    have hnodup := SortedList.nodup_ofFinset s
    split_ifs with ha
    · by_cases hab : b = a
      · simp [hab, ha]
      · simp [hnodup.mem_erase_iff, hab, SortedList.mem_ofFinset]
    · exact SortedList.mem_ofFinset
  nodup_list _ s := by
    have hnodup := SortedList.nodup_ofFinset s
    split_ifs with ha
    · exact nodup_cons.2 ⟨hnodup.not_mem_erase, hnodup.erase a⟩
    · exact hnodup

namespace BlockTable

variable {table : BlockTable X} {order : HashOrder}

/-- The list of a key. -/
def listOf (m : AddrMap (List (U64 × U64))) (key : U64) : List (U64 × U64) := (m.lookup key).getD []

/-- The lists of a table. -/
abbrev lists (table : BlockTable X) : U64 → List (U64 × U64) := listOf table.blockContinuations

/-! ## Taking a range -/

variable {pc : U64}

/-- The first range that starts at an address. -/
theorem head?_items_of_findIdx? {l : List (U64 × U64)} {pos : ℕ}
    (h : l.findIdx? (fun r => r.1 = pc) = some pos) :
    (items Prod.fst pc l).head? = l[pos]? := by
  obtain ⟨hlt, hpos, hbefore⟩ := findIdx?_eq_some_iff_getElem.1 h
  rw [items, head?_filter, getElem?_eq_getElem hlt, find?_eq_some_iff_getElem]
  exact ⟨hpos, pos, hlt, rfl, fun j hj => by simpa using hbefore j hj⟩

theorem takeRange_eq (m : AddrMap (List (U64 × U64))) (pc : U64) (keys : List U64) :
    takeRange m pc keys =
      (keys.find? fun key => items Prod.fst pc (listOf m key) ≠ []).bind fun key =>
        (items Prod.fst pc (listOf m key)).head?.map fun range =>
          (range, m.insert key (without Prod.fst pc (listOf m key))) := by
  induction keys with
  | nil => rfl
  | cons key keys ih =>
    rw [takeRange]
    cases hidx : ((m.lookup key).getD []).findIdx? fun r => r.1 = pc with
    | none =>
      have hnil : items Prod.fst pc (listOf m key) = [] :=
        filter_eq_nil_iff.2 fun r hr => by simpa using findIdx?_eq_none_iff.1 hidx r hr
      rw [find?_cons_of_neg (by simp [hnil]), ih]
    | some pos =>
      have hhead := head?_items_of_findIdx? hidx
      have herase : without Prod.fst pc (listOf m key) = (listOf m key).eraseIdx pos := by
        rw [without, eraseP_eq_eraseIdx]
        rw [listOf, hidx]
      have hne : items Prod.fst pc (listOf m key) ≠ [] := by
        intro hnil
        have hnone : (listOf m key)[pos]? = none := hhead.symm.trans (congrArg head? hnil)
        obtain ⟨hlt, -, -⟩ := findIdx?_eq_some_iff_getElem.1 hidx
        exact absurd hlt (not_lt.2 (getElem?_eq_none_iff.1 hnone))
      rw [find?_cons_of_pos (by simpa using hne), Option.bind_some, herase]
      rw [listOf, hhead]

/-! ## One update -/

theorem mem_keys_of_listOf {m : AddrMap (List (U64 × U64))} {key : U64} (h : listOf m key ≠ []) :
    key ∈ m.keys.toFinset := by
  rw [mem_toFinset, ← AList.mem_keys, ← AList.lookup_isSome]
  cases hlookup : m.lookup key with
  | none => exact absurd (by rw [listOf, hlookup]; rfl) h
  | some l => rfl

theorem ne_nil_of_items {l : List (U64 × U64)} (h : items Prod.fst pc l ≠ []) :
    l ≠ [] := fun hl => h (by rw [hl]; rfl)

theorem listOf_insert (m : AddrMap (List (U64 × U64))) (key : U64) (l : List (U64 × U64))
    (h : U64) :
    listOf (m.insert key l) h = if h = key then l else listOf m h := by
  unfold listOf
  split_ifs with heq
  · rw [heq, AList.lookup_insert, Option.getD_some]
  · rw [AList.lookup_insert_ne heq]

/-- Taking a range out of one list and pushing it on another is a move. -/
theorem listOf_push_insert {m : AddrMap (List (U64 × U64))} {key dst : U64} {r : U64 × U64}
    (hr : (items Prod.fst pc (listOf m key)).head? = some r) :
    listOf (AddrMap.push (m.insert key (without Prod.fst pc (listOf m key))) dst r) =
      move Prod.fst (listOf m) ⟨pc, key, dst⟩ := by
  funext h
  rw [AddrMap.push, listOf_insert, ← listOf, listOf_insert, listOf_insert, move]
  rw [hr]
  by_cases hdst : h = dst
  · subst hdst
    by_cases hkey : h = key
    · simp [hkey]
    · simp [hkey]
  · by_cases hkey : h = key
    · subst hkey
      simp [hdst]
    · simp [hdst, hkey]

/-- The key that a range is taken from is one that has it, if there is one; the first key of the
order is preferred. -/
theorem exists_move (acc : BlockTable X) (round : ℕ) (u : U64 × U64) :
    ∃ key, (updateMapping order (acc, round) u).1.lists =
        move Prod.fst acc.lists ⟨u.1, key, u.2⟩ ∧
      (Moves.Somewhere Prod.fst acc.lists u.1 → items Prod.fst u.1 (acc.lists key) ≠ []) ∧
      ∀ a, order = .first a → items Prod.fst u.1 (acc.lists a) ≠ [] → key = a := by
  have hlists : (updateMapping order (acc, round) u).1.lists =
      listOf ((takeRange acc.blockContinuations u.1
        (order.list round acc.blockContinuations.keys.toFinset)).elim acc.blockContinuations
          fun found => found.2.push u.2 found.1) := by
    unfold updateMapping
    dsimp only
    cases takeRange acc.blockContinuations u.1 _ <;> rfl
  rw [hlists, takeRange_eq]
  cases hfind : (order.list round acc.blockContinuations.keys.toFinset).find? fun key =>
      items Prod.fst u.1 (listOf acc.blockContinuations key) ≠ [] with
  | none =>
    have hnil : ∀ key, items Prod.fst u.1 (acc.lists key) = [] := by
      intro key
      by_contra hne
      have hmem := (order.mem_list round _ key).2 (mem_keys_of_listOf (ne_nil_of_items hne))
      exact find?_eq_none.1 hfind key hmem (decide_eq_true hne)
    refine ⟨0, funext fun h => ?_, fun ⟨key, hne⟩ => absurd (hnil key) hne,
      fun a _ hne => absurd (hnil a) hne⟩
    rw [move, without_of_items_eq_nil (hnil h), hnil]
    simp
  | some key =>
    have hne : items Prod.fst u.1 (acc.lists key) ≠ [] := by
      simpa using find?_some hfind
    refine ⟨key, funext fun h => ?_, fun _ => hne, fun a hfirst ha => ?_⟩
    · obtain ⟨r, rest, hitems⟩ := exists_cons_of_ne_nil hne
      have hhead := (congrArg head? hitems).trans head?_cons
      rw [Option.bind_some, hhead, Option.map_some, Option.elim_some, ← listOf_push_insert hhead]
    · subst hfirst
      have hmem := mem_keys_of_listOf (ne_nil_of_items ha)
      have hlist : (HashOrder.first a).list round acc.blockContinuations.keys.toFinset =
          a :: (SortedList.ofFinset acc.blockContinuations.keys.toFinset).erase a := if_pos hmem
      rw [hlist, find?_cons_of_pos (by simpa using ha)] at hfind
      exact (Option.some.inj hfind).symm

/-! ## All updates -/

theorem absorbedToMerged_foldl_updateMapping (us : List (U64 × U64)) (acc : BlockTable X × ℕ) :
    (us.foldl (updateMapping order) acc).1.absorbedToMerged =
      us.foldl (fun m u => m.insert u.1 u.2) acc.1.absorbedToMerged := by
  induction us generalizing acc with
  | nil => rfl
  | cons u us ih => exact ih _

theorem blocks_foldl_updateMapping (us : List (U64 × U64)) (acc : BlockTable X × ℕ) :
    (us.foldl (updateMapping order) acc).1.blocks = acc.1.blocks := by
  induction us generalizing acc with
  | nil => rfl
  | cons u us ih => exact ih _

/-- The moves of a list of updates, each from a key that has the range in the lists before all of
them. -/
theorem exists_moves (acc : BlockTable X × ℕ) {us : List (U64 × U64)} (hus : (us.map (·.1)).Nodup) :
    ∃ moves : List (Moves.Move U64 U64), moves.map (fun m => (m.item, m.dst)) = us ∧
      (us.foldl (updateMapping order) acc).1.lists =
        Trace.run (move Prod.fst) acc.1.lists moves ∧
      Moves.Allowed Prod.fst acc.1.lists moves ∧
      ∀ m ∈ moves, ∀ a, order = .first a →
        items Prod.fst m.item (acc.1.lists a) ≠ [] → m.src = a := by
  induction us using reverseRecOn with
  | nil => exact ⟨[], rfl, rfl, ⟨nodup_nil, by simp⟩, by simp⟩
  | append_singleton us u ih =>
    have hnodup := hus
    rw [map_append, nodup_append] at hus
    obtain ⟨moves, hmoves, hlists, hallowed, hfirst⟩ := ih hus.1
    have hitems : moves.map (·.item) = us.map (·.1) := by
      rw [← hmoves, map_map]
      rfl
    have hne : ∀ m ∈ moves, m.item ≠ u.1 := fun m hm heq =>
      hus.2.2 _ (hitems ▸ mem_map_of_mem hm) _ (mem_singleton.2 rfl) heq
    generalize hacc : us.foldl (updateMapping order) acc = acc' at hlists
    obtain ⟨key, hmove, hsrc, hprefer⟩ := @exists_move _ order acc'.1 acc'.2 u
    have hsame : ∀ k, items Prod.fst u.1 (acc'.1.lists k) =
        items Prod.fst u.1 (acc.1.lists k) := fun k => by
      rw [hlists, items_run_of_ne hne]
    refine ⟨moves ++ [⟨u.1, key, u.2⟩], by simp [hmoves], ?_, ⟨?_, ?_⟩, ?_⟩
    · rw [foldl_append, hacc, Trace.run_append_singleton, ← hlists]
      exact hmove
    · rw [map_append, hitems]
      simpa using hnodup
    · intro m hm
      rcases mem_append.1 hm with hm | hm
      · exact hallowed.src m hm
      · obtain rfl := mem_singleton.1 hm
        rintro ⟨k, hk⟩
        rw [← hsame]
        exact hsrc ⟨k, by rwa [hsame]⟩
    · intro m hm a ha
      rcases mem_append.1 hm with hm | hm
      · exact hfirst m hm a ha
      · obtain rfl := mem_singleton.1 hm
        intro hk
        exact hprefer a ha (by rwa [hsame])

/-! ## Following chains -/

/-- The starts of the blocks that remain. -/
def remaining (table : BlockTable X) : Finset U64 := (table.blocks.map (·.start)).toFinset

/-- Every round visits another mapped address, so that the rounds are enough. -/
theorem followChain_eq {visited : Finset U64} {n m : ℕ} (rem : Finset U64) (current : U64)
    (hn : (table.absorbedToMerged.keys.toFinset \ visited).card < n)
    (hm : (table.absorbedToMerged.keys.toFinset \ visited).card < m) :
    table.followChain rem n visited current = table.followChain rem m visited current := by
  induction n generalizing m visited current with
  | zero => cases hn
  | succ n ih =>
    obtain ⟨m, rfl⟩ : ∃ k, m = k + 1 := ⟨m - 1, by omega⟩
    rw [followChain, followChain]
    split_ifs with hvisited hrem
    · rfl
    · rfl
    · cases hlookup : table.absorbedToMerged.lookup current with
      | none => rfl
      | some next =>
        have hmem : current ∈ table.absorbedToMerged.keys.toFinset \ visited := by
          rw [Finset.mem_sdiff, mem_toFinset, ← AList.mem_keys, ← AList.lookup_isSome, hlookup]
          exact ⟨rfl, hvisited⟩
        have hcard := Finset.card_erase_of_mem hmem
        rw [← Finset.sdiff_insert] at hcard
        have hpos := Finset.card_pos.2 ⟨current, hmem⟩
        exact ih next (by omega) (by omega)

theorem mem_of_followChain {rem visited : Finset U64} {n : ℕ} {current target : U64}
    (h : table.followChain rem n visited current = some target) : target ∈ rem := by
  induction n generalizing visited current with
  | zero => cases h
  | succ n ih =>
    rw [followChain] at h
    split_ifs at h with _ hrem
    · obtain rfl := Option.some.inj h
      exact hrem
    · cases hlookup : table.absorbedToMerged.lookup current with
      | none =>
        rw [hlookup] at h
        cases h
      | some next =>
        rw [hlookup] at h
        exact ih h

/-- What becomes of the mapping of an address: nothing if it is not stale, otherwise the target that
its chain leads to, if it does. -/
def staleTarget (table : BlockTable X) (pc : U64) : Option (Option U64) :=
  (table.absorbedToMerged.lookup pc).bind fun target =>
    if target ∈ table.remaining then none
    else some (table.followChain table.remaining (table.absorbedToMerged.keys.length + 2)
      {pc} target)

theorem mem_keys_of_staleTarget {t : Option U64} (h : table.staleTarget pc = some t) :
    pc ∈ table.absorbedToMerged.keys.toFinset := by
  rw [mem_toFinset, ← AList.mem_keys, ← AList.lookup_isSome]
  cases hlookup : table.absorbedToMerged.lookup pc with
  | none =>
    rw [staleTarget, hlookup] at h
    cases h
  | some t => rfl

/-- The updates, in the order in which the addresses are met. -/
def updates (table : BlockTable X) (order : HashOrder) : List (U64 × U64) :=
  (order.list 1 table.absorbedToMerged.keys.toFinset).filterMap fun pc =>
    (table.staleTarget pc).join.map (pc, ·)

/-- The addresses whose chains are broken. -/
def broken (table : BlockTable X) (order : HashOrder) : List U64 :=
  (order.list 1 table.absorbedToMerged.keys.toFinset).filter fun pc =>
    table.staleTarget pc = some none

theorem filterMap_stale (pcs : List U64) :
    (pcs.filterMap fun absorbedPc => (table.absorbedToMerged.lookup absorbedPc).bind fun targetPc =>
      if targetPc ∈ table.remaining then none
      else some (absorbedPc, table.followChain table.remaining
        (table.absorbedToMerged.keys.length + 2) {absorbedPc} targetPc)) =
      pcs.filterMap fun pc => (table.staleTarget pc).map (pc, ·) := by
  congr 1
  funext pc
  rw [staleTarget]
  cases table.absorbedToMerged.lookup pc with
  | none => rfl
  | some target => by_cases hrem : target ∈ table.remaining <;> simp [hrem]

theorem filterMap_updates (pcs : List U64) :
    (pcs.filterMap fun pc => (table.staleTarget pc).map (pc, ·)).filterMap
        (fun e => e.2.map fun target => (e.1, target)) =
      pcs.filterMap fun pc => (table.staleTarget pc).join.map (pc, ·) := by
  rw [filterMap_filterMap]
  congr 1
  funext pc
  cases table.staleTarget pc <;> rfl

theorem map_broken (pcs : List U64) :
    ((pcs.filterMap fun pc => (table.staleTarget pc).map (pc, ·)).filter fun e => e.2 = none).map
        (·.1) = pcs.filter fun pc => table.staleTarget pc = some none := by
  induction pcs with
  | nil => rfl
  | cons pc pcs ih =>
    rw [filterMap_cons, filter_cons, ← ih]
    rcases table.staleTarget pc with _ | _ | target <;> simp

theorem fixStaleMappings_eq : table.fixStaleMappings order =
    let updated := ((table.updates order).foldl (updateMapping order) (table, 2)).1
    { updated with
      absorbedToMerged :=
        (table.broken order).foldl (fun m pc => m.erase pc) updated.absorbedToMerged } := by
  rw [updates, broken, ← map_broken, ← filterMap_updates, ← filterMap_stale]
  rfl

theorem blocks_fixStaleMappings : (table.fixStaleMappings order).blocks = table.blocks := by
  exact blocks_foldl_updateMapping _ _

theorem lists_fixStaleMappings : (table.fixStaleMappings order).lists =
    ((table.updates order).foldl (updateMapping order) (table, 2)).1.lists := by
  rw [fixStaleMappings_eq]

theorem mem_updates {target : U64} :
    (pc, target) ∈ table.updates order ↔ table.staleTarget pc = some (some target) := by
  rw [updates, mem_filterMap]
  constructor
  · rintro ⟨pc', -, h⟩
    obtain ⟨target', hjoin, heq⟩ := Option.map_eq_some_iff.1 h
    obtain ⟨rfl, rfl⟩ := Prod.mk.inj heq
    exact Option.join_eq_some_iff.1 hjoin
  · intro h
    exact ⟨pc, (order.mem_list _ _ _).2 (mem_keys_of_staleTarget h), by rw [h]; rfl⟩

theorem map_fst_updates : (table.updates order).map (·.1) =
    (order.list 1 table.absorbedToMerged.keys.toFinset).filter fun pc =>
      (table.staleTarget pc).join.isSome := by
  rw [updates, map_filterMap, ← filterMap_eq_filter]
  congr 1
  funext pc
  rw [Option.guard]
  cases (table.staleTarget pc).join <;> rfl

theorem nodup_updates : ((table.updates order).map (·.1)).Nodup := by
  rw [map_fst_updates]
  exact (order.nodup_list _ _).filter _

theorem perm_updates (order order' : HashOrder) :
    (table.updates order).Perm (table.updates order') := by
  refine (perm_ext_iff_of_nodup nodup_updates.of_map nodup_updates.of_map).2 fun u => ?_
  rw [mem_updates, mem_updates]

/-- The mapping of an address afterwards. -/
theorem lookup_fixStaleMappings (pc : U64) :
    (table.fixStaleMappings order).absorbedToMerged.lookup pc =
      (table.staleTarget pc).getD (table.absorbedToMerged.lookup pc) := by
  have hbroken : pc ∈ table.broken order ↔ table.staleTarget pc = some none := by
    rw [broken, mem_filter, decide_eq_true_eq, and_iff_right_iff_imp]
    exact fun h => (order.mem_list _ _ _).2 (mem_keys_of_staleTarget h)
  rw [fixStaleMappings_eq]
  dsimp only
  rw [absorbedToMerged_foldl_updateMapping, AssocMap.lookup_foldl_erase]
  rcases hstale : table.staleTarget pc with _ | _ | target
  · rw [if_neg (by rw [hbroken, hstale]; simp), AssocMap.lookup_foldl_insert_of_notMem]
    · rfl
    · rw [map_fst_updates, mem_filter, hstale]
      simp
  · rw [if_pos (hbroken.2 hstale)]
    rfl
  · rw [if_neg (by rw [hbroken, hstale]; simp)]
    refine AssocMap.lookup_foldl_insert (fun u : U64 × U64 => u.1) (·.2) _
      (mem_updates.2 hstale) fun u hu hpc => ?_
    have hu := mem_updates.1 hu
    rw [hpc, hstale] at hu
    exact (Option.some.inj (Option.some.inj hu)).symm

/-- Every mapping afterwards is to a block that remains. -/
theorem mem_remaining_of_lookup {target : U64}
    (h : (table.fixStaleMappings order).absorbedToMerged.lookup pc = some target) :
    target ∈ table.remaining := by
  rw [lookup_fixStaleMappings, staleTarget] at h
  cases hlookup : table.absorbedToMerged.lookup pc with
  | none =>
    rw [hlookup] at h
    cases h
  | some t =>
    rw [hlookup, Option.bind_some] at h
    split_ifs at h with hrem
    · obtain rfl := Option.some.inj h
      exact hrem
    · exact mem_of_followChain h

/-! ## The lists afterwards -/

/-- The moves of an order, and where the order `first a` takes ranges from. -/
theorem exists_moves_fixStaleMappings (order : HashOrder) :
    ∃ moves : List (Moves.Move U64 U64), moves.map (fun m => (m.item, m.dst)) =
      table.updates order ∧
      (table.fixStaleMappings order).lists = Trace.run (move Prod.fst) table.lists moves ∧
      Moves.Allowed Prod.fst table.lists moves ∧
      ∀ m ∈ moves, ∀ a, order = .first a →
        items Prod.fst m.item (table.lists a) ≠ [] → m.src = a := by
  obtain ⟨moves, hmoves, hlists, hallowed, hfirst⟩ :=
    @exists_moves _ order (table, 2) (table.updates order) nodup_updates
  exact ⟨moves, hmoves, lists_fixStaleMappings.trans hlists, hallowed, hfirst⟩

theorem lists_fixStaleMappings_eq
    (h : Moves.Confluent Prod.fst (· ∈ table.remaining) table.lists (table.updates .ascending))
    (order order' : HashOrder) (hpc : pc ∈ table.remaining) :
    (table.fixStaleMappings order).lists pc = (table.fixStaleMappings order').lists pc := by
  obtain ⟨moves, hmoves, hlists, hallowed, -⟩ := @exists_moves_fixStaleMappings _ table order
  obtain ⟨moves', hmoves', hlists', hallowed', -⟩ := @exists_moves_fixStaleMappings _ table order'
  rw [hlists, hlists']
  exact run_eq_of_confluent h (hmoves ▸ perm_updates order _) (hmoves' ▸ perm_updates order' _)
    hallowed hallowed' hpc

/-- The ranges of an address when they are taken from a given list. -/
theorem items_fixStaleMappings_first {u : U64 × U64} (hu : u ∈ table.updates order) {a : U64}
    (ha : items Prod.fst u.1 (table.lists a) ≠ []) (pc : U64) :
    items Prod.fst u.1 ((table.fixStaleMappings (.first a)).lists pc) =
      (if pc = a then (items Prod.fst u.1 (table.lists pc)).tail
        else items Prod.fst u.1 (table.lists pc)) ++
      if pc = u.2 then (items Prod.fst u.1 (table.lists a)).head?.toList else [] := by
  obtain ⟨moves, hmoves, hlists, hallowed, hfirst⟩ :=
    @exists_moves_fixStaleMappings _ table (.first a)
  obtain ⟨m, hm, rfl⟩ := mem_map.1 (hmoves.symm ▸ (perm_updates order _).mem_iff.1 hu)
  have hsrc : m.src = a := hfirst m hm a rfl ha
  obtain ⟨pre, post, rfl⟩ := append_of_mem hm
  rw [hlists, items_run (fun m' h => hallowed.item_ne m' (mem_append_left _ h))
    (fun m' h => hallowed.item_ne m' (mem_append_right _ h)), hsrc]

/-- The address that an order has first is updated first. -/
theorem updates_first {u : U64 × U64} (hu : u ∈ table.updates order) :
    ∃ rest, table.updates (.first u.1) = u :: rest := by
  have hstale : table.staleTarget u.1 = some (some u.2) := mem_updates.1 hu
  have hmem : u.1 ∈ table.absorbedToMerged.keys.toFinset := mem_keys_of_staleTarget hstale
  have hlist : (HashOrder.first u.1).list 1 table.absorbedToMerged.keys.toFinset =
      u.1 :: (SortedList.ofFinset table.absorbedToMerged.keys.toFinset).erase u.1 := if_pos hmem
  rw [updates, hlist, filterMap_cons, hstale]
  exact ⟨_, rfl⟩

/-- Of two addresses, the one that an order has first is appended first. -/
theorem getLast?_fixStaleMappings_first {u u' : U64 × U64} (hu : u ∈ table.updates order)
    (hu' : u' ∈ table.updates order) (hne : u.1 ≠ u'.1)
    (hsome : Moves.Somewhere Prod.fst table.lists u'.1) :
    (((table.fixStaleMappings (.first u.1)).lists u'.2).filter
      fun r => r.1 = u.1 ∨ r.1 = u'.1).getLast?.map Prod.fst = some u'.1 := by
  obtain ⟨moves, hmoves, hlists, hallowed, -⟩ := @exists_moves_fixStaleMappings _ table (.first u.1)
  obtain ⟨rest, hrest⟩ := updates_first hu
  have hmem : u' ∈ table.updates (.first u.1) := (perm_updates order _).mem_iff.1 hu'
  rw [hrest] at hmoves hmem
  obtain ⟨m, ms, rfl, rfl, hms⟩ := map_eq_cons_iff.1 hmoves
  have hmem : u' ∈ rest := mem_of_ne_of_mem (fun h => hne (h ▸ rfl)) hmem
  obtain ⟨m', hm', rfl⟩ := mem_map.1 (hms.symm ▸ hmem)
  obtain ⟨pre, post, rfl⟩ := append_of_mem hm'
  have hbefore : Moves.Allowed Prod.fst table.lists ((m :: pre) ++ m' :: post) := hallowed
  have hfirst : Moves.Allowed Prod.fst table.lists ([] ++ m :: (pre ++ m' :: post)) := hallowed
  rw [hlists, ← cons_append]
  refine getLast?_filter_run (p := fun i => i = m.item ∨ i = m'.item) (by simp)
    (fun m'' h => hbefore.item_ne m'' (mem_append_left _ h)) (fun m'' h => ?_)
    (hallowed.src m' (by simp) hsome)
  have h₁ := hfirst.item_ne m'' (by simp [h])
  have h₂ := hbefore.item_ne m'' (mem_append_right _ h)
  simp [h₁, h₂]

/-- The target of an update is a block that remains. -/
theorem mem_remaining_of_mem_updates {u : U64 × U64} (hu : u ∈ table.updates order) :
    u.2 ∈ table.remaining := by
  have hstale : table.staleTarget u.1 = some (some u.2) := mem_updates.1 hu
  have hlookup : (table.fixStaleMappings order).absorbedToMerged.lookup u.1 = some u.2 := by
    rw [lookup_fixStaleMappings, hstale]
    rfl
  exact mem_remaining_of_lookup hlookup

/-- If the lists do not depend on the order, the updates are confluent. -/
theorem confluent_of_lists_eq (h : ∀ order order' : HashOrder, ∀ pc ∈ table.remaining,
      (table.fixStaleMappings order).lists pc = (table.fixStaleMappings order').lists pc) :
    Moves.Confluent Prod.fst (· ∈ table.remaining) table.lists (table.updates .ascending) := by
  have hunobserved : ∀ u ∈ table.updates .ascending, ∀ k k', k ≠ k' →
      items Prod.fst u.1 (table.lists k) ≠ [] →
      items Prod.fst u.1 (table.lists k') ≠ [] → k ∉ table.remaining := by
    intro u hu k k' hne hk hk' hmem
    -- taken from `k` the list of `k` is one shorter than taken from `k'`
    have heq := congrArg (fun l => (items Prod.fst u.1 l).length) (h (.first k) (.first k') k hmem)
    simp only [items_fixStaleMappings_first hu hk, items_fixStaleMappings_first hu hk'] at heq
    obtain ⟨r, l, hl⟩ := exists_cons_of_ne_nil hk
    obtain ⟨r', l', hl'⟩ := exists_cons_of_ne_nil hk'
    rw [hl, hl'] at heq
    split_ifs at heq <;> simp at heq
  refine ⟨fun u hu k k' hne hk hk' => ⟨hunobserved u hu k k' hne hk hk', ?_⟩,
    fun u hu u' hu' hdst hsome hsome' => ?_⟩
  · have hmem := mem_remaining_of_mem_updates hu
    have heq := congrArg (items Prod.fst u.1) (h (.first k) (.first k') u.2 hmem)
    have hk₀ : u.2 ≠ k := fun heq => hunobserved u hu k k' hne hk hk' (heq ▸ hmem)
    have hk₀' : u.2 ≠ k' := fun heq => hunobserved u hu k' k hne.symm hk' hk (heq ▸ hmem)
    rw [items_fixStaleMappings_first hu hk, items_fixStaleMappings_first hu hk', if_neg hk₀,
      if_neg hk₀'] at heq
    obtain ⟨r', l', hl'⟩ := exists_cons_of_ne_nil hk'
    simpa [hl'] using heq
  · by_contra hne
    have hlast := getLast?_fixStaleMappings_first hu hu' hne hsome'
    have hlast' := getLast?_fixStaleMappings_first hu' hu (Ne.symm hne) hsome
    rw [← hdst, h (.first u.1) (.first u'.1) u.2 (mem_remaining_of_mem_updates hu)] at hlast
    simp only [or_comm] at hlast hlast'
    exact hne (Option.some.inj (hlast'.symm.trans hlast))

/-- `fix_stale_mappings` ends, leaves mappings to remaining blocks only, and these do not depend on
the order of the hash maps; the lists of the remaining blocks are independent of it exactly if the
ranges can be moved in any order and from any list that has them. -/
theorem fixStaleMappings_confluent_iff (table : BlockTable X) :
    (∀ pc target n, table.absorbedToMerged.keys.length + 2 ≤ n →
      table.followChain table.remaining n {pc} target =
        table.followChain table.remaining (table.absorbedToMerged.keys.length + 2) {pc} target) ∧
    (∀ order pc target, (table.fixStaleMappings order).absorbedToMerged.lookup pc = some target →
      ∃ b ∈ (table.fixStaleMappings order).blocks, b.start = target) ∧
    (∀ order order' pc, (table.fixStaleMappings order).absorbedToMerged.lookup pc =
      (table.fixStaleMappings order').absorbedToMerged.lookup pc) ∧
    ((∀ order order', ∀ b ∈ (table.fixStaleMappings order).blocks,
        (table.fixStaleMappings order).lists b.start =
          (table.fixStaleMappings order').lists b.start) ↔
      Moves.Confluent Prod.fst (· ∈ table.remaining) table.lists (table.updates .ascending)) := by
  refine ⟨fun pc target n hn => ?_, fun order pc target h => ?_, fun order order' pc => ?_, ?_⟩
  · have hcard : (table.absorbedToMerged.keys.toFinset \ {pc}).card ≤
        table.absorbedToMerged.keys.length :=
      (Finset.card_le_card Finset.sdiff_subset).trans (toFinset_card_le _)
    exact followChain_eq _ _ (by omega) (by omega)
  · have hmem := mem_remaining_of_lookup h
    rw [blocks_fixStaleMappings]
    simpa [remaining] using hmem
  · rw [lookup_fixStaleMappings, lookup_fixStaleMappings]
  · simp only [blocks_fixStaleMappings]
    have hremaining : ∀ {pc}, pc ∈ table.remaining ↔ ∃ b ∈ table.blocks, b.start = pc := by
      simp [remaining]
    constructor
    · refine fun h => confluent_of_lists_eq fun order order' pc hpc => ?_
      obtain ⟨b, hb, rfl⟩ := hremaining.1 hpc
      exact h order order' b hb
    · exact fun h order order' b hb => lists_fixStaleMappings_eq h order order'
        (hremaining.2 ⟨b, hb, rfl⟩)

end BlockTable

/-- A branch whose two sides jump to a shared tail: three blocks in a chain, of which the last falls
through. -/
def sharedTail : BlockTable .rv64 :=
  let registry := ExtensionRegistry.standard .rv64
  let table : BlockTable .rv64 := .fromInstructionTable
    (.fromBytes (InstructionTable.codeBytes
      [0x00B50463, 0x0140006F, 0x0100006F, 0x0040006F, 0x00128293,
      0x0000006F, 0xFF5FF06F]) 0x1000 registry (by decide)) registry .ascending
  ((table.mergeBlocks registry).tailDuplicate registry BlockTable.defaultTailDupSize
    .ascending).formSuperblocks registry BlockTable.defaultSuperblockDepth

/-- The tail is merged, then duplicated into its predecessors, so that two ranges are moved to the
first of them: in hash order. -/
theorem fixStaleMappings_sharedTail :
    sharedTail.blocks.map (·.start) = [0x1000, 0x1004, 0x1008, 0x1014] ∧
      (sharedTail.fixStaleMappings .ascending).lists 0x1004 =
        [(0x1018, 0x101C), (0x100C, 0x1010), (0x1010, 0x1014)] ∧
      (sharedTail.fixStaleMappings (.first 0x1010)).lists 0x1004 =
        [(0x1018, 0x101C), (0x1010, 0x1014), (0x100C, 0x1010)] := by
  decide +kernel

end Rvr
