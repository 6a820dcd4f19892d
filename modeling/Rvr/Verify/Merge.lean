import Rvr.Cfg.BlockTable
import Rvr.Lib.AssocMap
import Rvr.Lib.Orbit

/-!
# Merging blocks

`merge_blocks` decides in one pass over the blocks which of them are absorbed, and follows the chain
of absorbed blocks from every other block in a second pass.  A merge target has a single
predecessor, so that chains never join; a chain can only close on itself, and then no block leads
into it.  In the first pass a block is absorbed after it was looked at itself, so the blocks of a
longer cycle are not all absorbed: what is lost is exactly a block that is its own merge target.
-/

namespace Rvr

open ExtensionRegistry List

variable {X : Xlen}

/-- The addresses from the start of a block to its end. -/
def BasicBlock.range (b : BasicBlock) : U64 × U64 := (b.start, b.stop)

/-- The address is in the block. -/
def BasicBlock.Has (b : BasicBlock) (pc : U64) : Prop := b.start ≤ pc ∧ pc < b.stop

/-- The blocks have no address in common. -/
def BasicBlock.Apart (b b' : BasicBlock) : Prop := ∀ pc, b.Has pc → ¬ b'.Has pc

instance : Std.Symm BasicBlock.Apart := ⟨fun _ _ h pc hb hb' => h pc hb' hb⟩

/-- Blocks that have their last instruction and no address in common. -/
structure DisjointBlocks (blocks : List BasicBlock) : Prop where
  has_lastPc : ∀ b ∈ blocks, b.Has b.lastPc
  apart : blocks.Pairwise BasicBlock.Apart

namespace DisjointBlocks

variable {blocks : List BasicBlock} (h : DisjointBlocks blocks) {b b' : BasicBlock}
include h

variable (hb : b ∈ blocks)
include hb

/-- An address is in one block only. -/
theorem eq_of_has (hb' : b' ∈ blocks) {pc : U64} (hpc : b.Has pc)
    (hpc' : b'.Has pc) : b = b' := by
  by_contra hne
  exact h.apart.forall hb hb' hne pc hpc hpc'

theorem has_start : b.Has b.start :=
  ⟨le_refl _, (h.has_lastPc b hb).1.trans_lt (h.has_lastPc b hb).2⟩

theorem eq_of_lastPc (hb' : b' ∈ blocks) (heq : b.lastPc = b'.lastPc) : b = b' :=
  h.eq_of_has hb hb' (h.has_lastPc b hb) (heq ▸ h.has_lastPc b' hb')

theorem eq_of_start (hb' : b' ∈ blocks) (heq : b.start = b'.start) : b = b' :=
  h.eq_of_has hb hb' (h.has_start hb) (heq ▸ h.has_start hb')

omit hb

theorem nodup : blocks.Nodup := by
  refine h.apart.imp_of_mem fun {b b'} hb _ hapart heq => ?_
  exact hapart b.lastPc (h.has_lastPc b hb) (heq ▸ h.has_lastPc b hb)

theorem nodup_map_range : (blocks.map BasicBlock.range).Nodup :=
  h.nodup.map_on fun _ hb _ hb' heq => h.eq_of_start hb hb' (Prod.mk.inj heq).1

theorem nodup_map_start : (blocks.map (·.start)).Nodup :=
  h.nodup.map_on fun _ hb _ hb' heq => h.eq_of_start hb hb' heq

end DisjointBlocks

namespace BlockTable

variable {table : BlockTable X} {registry : ExtensionRegistry X}

variable {b : BasicBlock}

theorem mem_of_blockAt {start : U64} (h : table.blockAt start = some b) :
    b ∈ table.blocks ∧ b.start = start :=
  ⟨mem_reverse.1 (mem_of_find?_eq_some h), by simpa using find?_some h⟩

theorem blockAt_start (hdisj : DisjointBlocks table.blocks) (hb : b ∈ table.blocks) :
    table.blockAt b.start = some b := by
  cases hfind : table.blockAt b.start with
  | none =>
    have := find?_eq_none.1 hfind b (mem_reverse.2 hb)
    simp at this
  | some c =>
    obtain ⟨hc, hstart⟩ := mem_of_blockAt hfind
    rw [hdisj.eq_of_start hc hb hstart]

/-- Where control goes after the last instruction of a block, if it is a jump or a fall-through with
a target. -/
def Leads (table : BlockTable X) (registry : ExtensionRegistry X) (b : BasicBlock) (target : U64) :
    Prop :=
  ∃ t : X.Reg, Xlen.toU64 t = target ∧
    (table.terminatorAt registry b.lastPc = some (.jump t) ∨
      table.terminatorAt registry b.lastPc = some (.fall (some t)))

/-- A merge target is where the block leads, and the block is its only predecessor. -/
theorem getMergeTarget_eq_some {target : U64} (h : table.getMergeTarget registry b = some target) :
    table.Leads registry b target ∧ table.predecessors.lookup target = some {b.lastPc} := by
  rw [getMergeTarget, Option.filter_eq_some_iff] at h
  obtain ⟨hlead, hcond⟩ := h
  refine ⟨?_, ?_⟩
  · split at hlead
    · next t hterm =>
      obtain ⟨t', ht', heq⟩ := Option.map_eq_some_iff.1 hlead
      exact ⟨t', heq, .inr (ht' ▸ hterm)⟩
    · next t hterm => exact ⟨t, Option.some.inj hlead, .inl hterm⟩
    · cases hlead
  · obtain ⟨-, hany⟩ := of_decide_eq_true hcond
    cases hpreds : table.predecessors.lookup target with
    | none =>
      rw [hpreds] at hany
      cases hany
    | some preds =>
      rw [hpreds] at hany
      obtain ⟨hcard, hmem⟩ := of_decide_eq_true hany
      obtain ⟨a, rfl⟩ := Finset.card_eq_one.1 hcard
      rw [Finset.mem_singleton.1 hmem]

/-! ## What is absorbed -/

/-- The targets that the first pass has marked after some of the blocks. -/
def absorbedBy (table : BlockTable X) (registry : ExtensionRegistry X) (blocks : List BasicBlock) :
    Finset U64 :=
  blocks.foldl (fun absorbed block =>
    if block.start ∈ absorbed then absorbed
    else
      match table.getMergeTarget registry block with
      | some target => insert target absorbed
      | none => absorbed) ∅

theorem absorbable_eq : table.absorbable registry = table.absorbedBy registry table.blocks := rfl

/-- One more block marks its merge target, unless it is marked itself. -/
theorem mem_absorbedBy_append {blocks : List BasicBlock} {target : U64} :
    target ∈ table.absorbedBy registry (blocks ++ [b]) ↔
      target ∈ table.absorbedBy registry blocks ∨
        b.start ∉ table.absorbedBy registry blocks ∧
          table.getMergeTarget registry b = some target := by
  simp only [absorbedBy, foldl_append, foldl_cons]
  split_ifs with hb
  · simp [hb]
  · cases htarget : table.getMergeTarget registry b with
    | none => simp
    | some t => simp [hb, or_comm, eq_comm]

/-- A marked target was marked by a block that was not marked before it. -/
theorem mem_absorbedBy {blocks : List BasicBlock} {target : U64} :
    target ∈ table.absorbedBy registry blocks ↔
      ∃ pre b post, blocks = pre ++ b :: post ∧ b.start ∉ table.absorbedBy registry pre ∧
        table.getMergeTarget registry b = some target := by
  induction blocks using reverseRecOn with
  | nil => simp [absorbedBy]
  | append_singleton blocks c ih =>
    rw [mem_absorbedBy_append, ih]
    constructor
    · rintro (⟨pre, b, post, rfl, hb, htarget⟩ | ⟨hc, htarget⟩)
      · exact ⟨pre, b, post ++ [c], by simp, hb, htarget⟩
      · exact ⟨blocks, c, [], rfl, hc, htarget⟩
    · rintro ⟨pre, b, post, heq, hb, htarget⟩
      rcases eq_nil_or_concat' post with rfl | ⟨post, d, rfl⟩
      · obtain ⟨rfl, rfl⟩ := append_singleton_inj.1 heq
        exact .inr ⟨hb, htarget⟩
      · rw [← cons_append, ← append_assoc] at heq
        obtain ⟨rfl, rfl⟩ := append_singleton_inj.1 heq
        exact .inl ⟨pre, b, post, rfl, hb, htarget⟩

/-- A block that is its own merge target is marked. -/
theorem mem_absorbable_of_self (hb : b ∈ table.blocks)
    (hself : table.getMergeTarget registry b = some b.start) :
    b.start ∈ table.absorbable registry := by
  obtain ⟨pre, post, hsplit⟩ := append_of_mem hb
  rw [absorbable_eq, mem_absorbedBy]
  by_cases hpre : b.start ∈ table.absorbedBy registry pre
  · obtain ⟨pre', c, post', rfl, hc, htarget⟩ := mem_absorbedBy.1 hpre
    exact ⟨pre', c, post' ++ b :: post, by rw [hsplit]; simp, hc, htarget⟩
  · exact ⟨pre, b, post, hsplit, hpre, hself⟩

/-! ## Chains -/

/-- One step of a chain: the absorbed block that a block merges with. -/
def mergeStep (table : BlockTable X) (registry : ExtensionRegistry X) (b : BasicBlock) :
    Option BasicBlock :=
  (table.getMergeTarget registry b).bind fun target =>
    if target ∈ table.absorbable registry then table.blockAt target else none

/-- The chain of a block. -/
def chainOf (table : BlockTable X) (registry : ExtensionRegistry X) (b : BasicBlock) :
    List BasicBlock :=
  table.mergeChain registry (table.absorbable registry) table.blocks.length b

theorem mergeChain_eq_orbit (n : ℕ) (b : BasicBlock) :
    table.mergeChain registry (table.absorbable registry) n b =
      Orbit.orbit (table.mergeStep registry) n b := by
  induction n generalizing b with
  | zero => rfl
  | succ n ih =>
    rw [mergeChain, Orbit.orbit, mergeStep]
    cases table.getMergeTarget registry b with
    | none => rfl
    | some target =>
      by_cases hmem : target ∈ table.absorbable registry
      · cases hblock : table.blockAt target with
        | none => simp [hblock]
        | some c => simp [hmem, hblock, ih]
      · simp [hmem]

theorem mergeStep_eq_some {c : BasicBlock} (h : table.mergeStep registry b = some c) :
    c ∈ table.blocks ∧ table.getMergeTarget registry b = some c.start ∧
      c.start ∈ table.absorbable registry := by
  obtain ⟨target, htarget, h⟩ := Option.bind_eq_some_iff.1 h
  split_ifs at h with hmem
  obtain ⟨hc, rfl⟩ := mem_of_blockAt h
  exact ⟨hc, htarget, hmem⟩

section Disjoint

variable (hdisj : DisjointBlocks table.blocks)
include hdisj

/-- A merge target has one predecessor, so only one block merges with it. -/
theorem unjoined_mergeStep : Orbit.Unjoined (table.mergeStep registry) table.blocks where
  closed _ _ _ h := (mergeStep_eq_some h).1
  inj b hb b' hb' c h h' := by
    have hpreds := (getMergeTarget_eq_some (mergeStep_eq_some h).2.1).2
    have hpreds' := (getMergeTarget_eq_some (mergeStep_eq_some h').2.1).2
    have heq := Option.some.inj (hpreds.symm.trans hpreds')
    exact hdisj.eq_of_lastPc hb hb' (Finset.singleton_injective heq)

omit hdisj in
theorem root_of_notMem_absorbable (hb : b ∈ table.blocks)
    (habs : b.start ∉ table.absorbable registry) :
    Orbit.Root (table.mergeStep registry) table.blocks b :=
  ⟨hb, fun _ _ h => habs (mergeStep_eq_some h).2.2⟩

/-- A marked target that starts a block is one step after the block that marked it. -/
theorem mergeStep_of_mem {c : BasicBlock} (hc : c ∈ table.blocks)
    (htarget : table.getMergeTarget registry b = some c.start)
    (hmem : c.start ∈ table.absorbable registry) : table.mergeStep registry b = some c := by
  rw [mergeStep, htarget, Option.bind_some, if_pos hmem, blockAt_start hdisj hc]

/-- Blocks that were not marked when the first pass came to them are in the chain of a block that
stays: the block that marks such a block later comes after it, so the way back ends. -/
theorem exists_reaches_of_notMem_absorbedBy
    (hself : ∀ b ∈ table.blocks, table.getMergeTarget registry b ≠ some b.start)
    {pre post : List BasicBlock} (hsplit : table.blocks = pre ++ b :: post)
    (hb : b.start ∉ table.absorbedBy registry pre) :
    ∃ r ∈ table.blocks, r.start ∉ table.absorbable registry ∧
      Orbit.Reaches (table.mergeStep registry) r b := by
  -- on the number of blocks that come after it
  induction hlen : post.length using Nat.strongRecOn generalizing pre b post with
  | ind n ih =>
    have hmem : b ∈ table.blocks := by rw [hsplit]; simp
    by_cases habs : b.start ∈ table.absorbable registry
    · obtain ⟨pre', c, post', hsplit', hc, htarget⟩ := mem_absorbedBy.1 habs
      have hlt : post'.length < n := by
        rcases append_eq_append_iff.1 (hsplit.symm.trans hsplit') with
          ⟨mid, rfl, hmid⟩ | ⟨mid, rfl, hmid⟩
        · -- the marking block is not before it
          cases mid with
          | nil =>
            obtain ⟨rfl, -⟩ := List.cons.inj hmid
            exact absurd htarget (hself b hmem)
          | cons d mid =>
            obtain ⟨-, rfl⟩ := List.cons.inj hmid
            rw [← hlen, append_eq, length_append, length_cons]
            omega
        · cases mid with
          | nil =>
            obtain ⟨rfl, -⟩ := List.cons.inj hmid
            exact absurd htarget (hself c hmem)
          | cons d mid =>
            obtain ⟨rfl, -⟩ := List.cons.inj hmid
            exact absurd (mem_absorbedBy.2 ⟨pre', c, mid, rfl, hc, htarget⟩) hb
      obtain ⟨r, hr, hrabs, hreach⟩ := ih _ hlt hsplit' hc rfl
      exact ⟨r, hr, hrabs, hreach.tail (mergeStep_of_mem hdisj hmem htarget habs)⟩
    · exact ⟨b, hmem, habs, .refl⟩

/-- The blocks that stay. -/
def heads (table : BlockTable X) (registry : ExtensionRegistry X) : List BasicBlock :=
  table.blocks.filter fun b => b.start ∉ table.absorbable registry

omit hdisj in
theorem mem_heads : b ∈ table.heads registry ↔
    b ∈ table.blocks ∧ b.start ∉ table.absorbable registry := by
  rw [heads, mem_filter, decide_eq_true_eq]

/-- The chain of a block that stays ends. -/
theorem length_orbit_lt_of_mem_heads (hb : b ∈ table.heads registry) {n : ℕ}
    (hn : table.blocks.length ≤ n) :
    (Orbit.orbit (table.mergeStep registry) n b).length < n :=
  (unjoined_mergeStep hdisj).length_orbit_lt
    (root_of_notMem_absorbable (mem_heads.1 hb).1 (mem_heads.1 hb).2) hn

/-- No block is lost: the blocks that stay with their chains are all the blocks. -/
theorem perm_heads_chainOf
    (hself : ∀ b ∈ table.blocks, table.getMergeTarget registry b ≠ some b.start) :
    ((table.heads registry).flatMap fun b => b :: table.chainOf registry b).Perm table.blocks := by
  simp only [chainOf, mergeChain_eq_orbit]
  refine (unjoined_mergeStep hdisj).perm_flatMap_orbit hdisj.nodup (hdisj.nodup.filter _)
    (fun r hr => root_of_notMem_absorbable (mem_heads.1 hr).1 (mem_heads.1 hr).2)
    (fun b hb => ?_) le_rfl
  by_cases habs : b.start ∈ table.absorbable registry
  · obtain ⟨pre, c, post, hsplit, hc, htarget⟩ := mem_absorbedBy.1 habs
    obtain ⟨r, hr, hrabs, hreach⟩ := exists_reaches_of_notMem_absorbedBy hdisj hself hsplit hc
    exact ⟨r, mem_heads.2 ⟨hr, hrabs⟩, hreach.tail (mergeStep_of_mem hdisj hb htarget habs)⟩
  · exact ⟨b, mem_heads.2 ⟨hb, habs⟩, .refl⟩

/-- A block that is its own merge target is in no chain. -/
theorem notMem_chainOf_of_self {r : BasicBlock} (hb : b ∈ table.blocks)
    (hself : table.getMergeTarget registry b = some b.start)
    (habs : b.start ∈ table.absorbable registry) (hr : r ∈ table.heads registry) :
    b ∉ table.chainOf registry r := by
  intro hmem
  rw [chainOf, mergeChain_eq_orbit] at hmem
  have hroot := root_of_notMem_absorbable (mem_heads.1 hr).1 (mem_heads.1 hr).2
  exact (unjoined_mergeStep hdisj).not_cycle hroot
    (Orbit.reaches_of_mem (mem_cons_of_mem r hmem)) (.single (mergeStep_of_mem hdisj hb hself habs))

end Disjoint

/-! ## The merged table -/

/-- A block that stays, with the instructions of its chain. -/
def mergedBlock (b : BasicBlock) (chain : List BasicBlock) : BasicBlock :=
  ⟨b.start, b.stop, b.instructionCount + (chain.map (·.instructionCount)).sum,
    ((chain.map (·.lastPc)).getLast?).getD b.lastPc⟩

/-- Lists that are empty add nothing. -/
theorem flatMap_filter_ne_nil {α β γ : Type*} [DecidableEq γ] {g : α → List γ} {f : α → List β}
    (h : ∀ {a}, g a = [] → f a = []) (as : List α) :
    (as.filter fun a => g a ≠ []).flatMap f = as.flatMap f := by
  induction as with
  | nil => rfl
  | cons a as ih =>
    rw [flatMap_cons, ← ih]
    by_cases ha : g a = []
    · simp [ha, h ha]
    · simp [ha]

section Fold

variable (g : BasicBlock → List BasicBlock) (hs : List BasicBlock) (init : BlockTable X)

theorem blocks_foldl_mergeInto : (hs.foldl (fun m b => mergeInto m b (g b)) init).blocks =
    init.blocks ++ hs.map fun b => mergedBlock b (g b) := by
  induction hs generalizing init with
  | nil => simp
  | cons b hs ih =>
    rw [foldl_cons, ih, mergeInto, append_assoc]
    rfl

theorem absorbedToMerged_foldl_mergeInto :
    (hs.foldl (fun m b => mergeInto m b (g b)) init).absorbedToMerged =
      (hs.flatMap fun b => (g b).map fun c => (c.start, b.start)).foldl
        (fun m e => m.insert e.1 e.2) init.absorbedToMerged := by
  induction hs generalizing init with
  | nil => rfl
  | cons b hs ih =>
    rw [foldl_cons, ih, flatMap_cons, foldl_append, foldl_map]
    rfl

theorem blockContinuations_foldl_mergeInto :
    (hs.foldl (fun m b => mergeInto m b (g b)) init).blockContinuations =
      (hs.filter fun b => g b ≠ []).foldl
        (fun m b => m.insert b.start ((g b).map BasicBlock.range)) init.blockContinuations := by
  induction hs generalizing init with
  | nil => rfl
  | cons b hs ih =>
    rw [foldl_cons, ih, filter_cons]
    by_cases hnil : g b = []
    · simp [hnil, mergeInto]
    · simp only [mergeInto, hnil, ne_eq]
      rfl

end Fold

theorem mergeBlocks_eq (h : table.absorbable registry ≠ ∅) : table.mergeBlocks registry =
    (table.heads registry).foldl (fun m b => mergeInto m b (table.chainOf registry b))
      { table with blocks := [], absorbedToMerged := ∅, blockContinuations := ∅ } := by
  rw [mergeBlocks, if_neg h, heads, foldl_filter]
  congr 1
  funext m b
  by_cases hb : b.start ∈ table.absorbable registry
  · simp [hb]
  · simp [chainOf]

/-- The ranges of all lists. -/
def listed (table : BlockTable X) : List (U64 × U64) :=
  table.blockContinuations.entries.flatMap fun e => e.2

theorem mem_listed {r : U64 × U64} : r ∈ table.listed ↔
    ∃ h list, table.blockContinuations.lookup h = some list ∧ r ∈ list := by
  rw [listed, mem_flatMap]
  constructor
  · rintro ⟨⟨h, list⟩, he, hr⟩
    exact ⟨h, list, AList.mem_lookup_iff.2 he, hr⟩
  · rintro ⟨h, list, hlookup, hr⟩
    exact ⟨⟨h, list⟩, AList.mem_lookup_iff.1 hlookup, hr⟩

/-- The second range is where the block of the first one leads. -/
def Follows (table : BlockTable X) (registry : ExtensionRegistry X) (r r' : U64 × U64) : Prop :=
  ∃ b ∈ table.blocks, b.range = r ∧ table.Leads registry b r'.1

/-- What merging the blocks of a table is: every block is still there or in exactly one list and
once, the ranges of a list follow each other from the block that has it, the absorbed starts are
mapped to that block, and no instruction is lost. -/
structure Merges (table : BlockTable X) (registry : ExtensionRegistry X) (merged : BlockTable X) :
    Prop where
  once : ∀ b ∈ table.blocks,
    (merged.blocks.map BasicBlock.range).count b.range + merged.listed.count b.range = 1
  of_listed : ∀ r ∈ merged.listed, ∃ b ∈ table.blocks, b.range = r
  follows : ∀ h list, merged.blockContinuations.lookup h = some list → list ≠ [] →
    ∃ b ∈ merged.blocks, b.start = h ∧ (b.range :: list).IsChain (table.Follows registry)
  absorbed : ∀ s h, merged.absorbedToMerged.lookup s = some h ↔
    ∃ list, merged.blockContinuations.lookup h = some list ∧ s ∈ list.map (·.1)
  count : (merged.blocks.map (·.instructionCount)).sum = (table.blocks.map (·.instructionCount)).sum

section Merged

variable (hdisj : DisjointBlocks table.blocks) (habs : table.absorbable registry ≠ ∅)
include habs

theorem blocks_mergeBlocks : (table.mergeBlocks registry).blocks =
    (table.heads registry).map fun b => mergedBlock b (table.chainOf registry b) := by
  rw [mergeBlocks_eq habs, blocks_foldl_mergeInto, nil_append]

theorem map_range_mergeBlocks : (table.mergeBlocks registry).blocks.map BasicBlock.range =
    (table.heads registry).map BasicBlock.range := by
  rw [blocks_mergeBlocks habs, map_map]
  rfl

include hdisj

theorem perm_listed_mergeBlocks : (table.mergeBlocks registry).listed.Perm
    (((table.heads registry).flatMap (table.chainOf registry)).map BasicBlock.range) := by
  have hkeys : ((table.heads registry).filter fun b => table.chainOf registry b ≠ []).map (·.start)
      |>.Nodup :=
    hdisj.nodup_map_start.sublist ((filter_sublist.trans filter_sublist).map _)
  rw [listed, mergeBlocks_eq habs, blockContinuations_foldl_mergeInto]
  rw [AssocMap.entries_foldl_insert _ _ hkeys, map_flatMap]
  refine ((reverse_perm _).flatMap_right _).trans ?_
  rw [flatMap_map, flatMap_filter_ne_nil (fun h => by rw [h]; rfl)]

/-- The lists of the merged table are the chains. -/
theorem lookup_blockContinuations_mergeBlocks {h : U64} {list : List (U64 × U64)} :
    (table.mergeBlocks registry).blockContinuations.lookup h = some list ↔
      ∃ b ∈ table.heads registry, b.start = h ∧ table.chainOf registry b ≠ [] ∧
        (table.chainOf registry b).map BasicBlock.range = list := by
  rw [mergeBlocks_eq habs, blockContinuations_foldl_mergeInto]
  constructor
  · intro hlookup
    rcases AssocMap.exists_of_lookup_foldl_insert _ _ hlookup with hnone | ⟨b, hb, hkey, hval⟩
    · cases hnone
    · obtain ⟨hb, hne⟩ := mem_filter.1 hb
      exact ⟨b, hb, hkey, of_decide_eq_true hne, hval⟩
  · rintro ⟨b, hb, rfl, hne, rfl⟩
    refine AssocMap.lookup_foldl_insert (fun b : BasicBlock => b.start) _ _
      (mem_filter.2 ⟨hb, decide_eq_true hne⟩) fun c hc hstart => ?_
    have hmem := (mem_heads.1 (mem_filter.1 hc).1).1
    rw [hdisj.eq_of_start hmem (mem_heads.1 hb).1 hstart]

/-- An absorbed start is mapped to the block whose chain has it: it is in one chain only. -/
theorem lookup_absorbedToMerged_mergeBlocks {s h : U64} :
    (table.mergeBlocks registry).absorbedToMerged.lookup s = some h ↔
      ∃ b ∈ table.heads registry, b.start = h ∧
        ∃ c ∈ table.chainOf registry b, c.start = s := by
  rw [mergeBlocks_eq habs, absorbedToMerged_foldl_mergeInto]
  constructor
  · intro hlookup
    rcases AssocMap.exists_of_lookup_foldl_insert _ _ hlookup with hnone | ⟨e, he, hkey, hval⟩
    · cases hnone
    · obtain ⟨b, hb, he⟩ := mem_flatMap.1 he
      obtain ⟨c, hc, rfl⟩ := mem_map.1 he
      exact ⟨b, hb, hval, c, hc, hkey⟩
  · rintro ⟨b, hb, rfl, c, hc, rfl⟩
    refine AssocMap.lookup_foldl_insert (fun e : U64 × U64 => e.1) (·.2) ∅ (a := (c.start, b.start))
      (mem_flatMap.2 ⟨b, hb, mem_map.2 ⟨c, hc, rfl⟩⟩) ?_
    rintro e he hstart
    obtain ⟨b', hb', he⟩ := mem_flatMap.1 he
    obtain ⟨c', hc', rfl⟩ := mem_map.1 he
    rw [chainOf, mergeChain_eq_orbit] at hc hc'
    have hf : Orbit.Unjoined (table.mergeStep registry) table.blocks := unjoined_mergeStep hdisj
    have hroot := root_of_notMem_absorbable (mem_heads.1 hb).1 (mem_heads.1 hb).2
    have hroot' := root_of_notMem_absorbable (mem_heads.1 hb').1 (mem_heads.1 hb').2
    have hreach := Orbit.reaches_of_mem (mem_cons_of_mem b hc)
    have hreach' := Orbit.reaches_of_mem (mem_cons_of_mem b' hc')
    obtain rfl := hdisj.eq_of_start (hf.mem_of_reaches hroot'.mem hreach')
      (hf.mem_of_reaches hroot.mem hreach) hstart
    rw [hf.root_unique hroot' hroot hreach' hreach]

theorem merges_mergeBlocks
    (hself : ∀ b ∈ table.blocks, table.getMergeTarget registry b ≠ some b.start) :
    Merges table registry (table.mergeBlocks registry) := by
  have hperm := perm_heads_chainOf hdisj hself
  have hlisted := perm_listed_mergeBlocks hdisj habs
  have happend := map_append_flatMap_perm (table.heads registry) id (table.chainOf registry)
  rw [map_id] at happend
  refine ⟨fun b hb => ?_, fun r hr => ?_, fun h list hlookup _ => ?_, fun s h => ?_, ?_⟩
  · rw [map_range_mergeBlocks habs, hlisted.count_eq, ← count_append, ← map_append,
      ((happend.trans hperm).map _).count_eq]
    exact count_eq_one_of_mem hdisj.nodup_map_range (mem_map_of_mem hb)
  · obtain ⟨c, hc, rfl⟩ := mem_map.1 (hlisted.mem_iff.1 hr)
    exact ⟨c, (happend.trans hperm).mem_iff.1 (mem_append_right _ hc), rfl⟩
  · obtain ⟨b, hb, rfl, -, rfl⟩ := (lookup_blockContinuations_mergeBlocks hdisj habs).1 hlookup
    refine ⟨mergedBlock b (table.chainOf registry b), ?_, rfl, ?_⟩
    · rw [blocks_mergeBlocks habs]
      exact mem_map_of_mem hb
    · have hf : Orbit.Unjoined (table.mergeStep registry) table.blocks := unjoined_mergeStep hdisj
      have hchain := hf.isChain_orbit table.blocks.length (mem_heads.1 hb).1
      rw [← mergeChain_eq_orbit] at hchain
      change ((b :: table.chainOf registry b).map BasicBlock.range).IsChain _
      rw [isChain_map]
      refine hchain.imp fun c d ⟨hc, hstep⟩ => ⟨c, hc, rfl, ?_⟩
      exact (getMergeTarget_eq_some (mergeStep_eq_some hstep).2.1).1
  · rw [lookup_absorbedToMerged_mergeBlocks hdisj habs]
    simp only [lookup_blockContinuations_mergeBlocks hdisj habs]
    constructor
    · rintro ⟨b, hb, rfl, c, hc, rfl⟩
      exact ⟨_, ⟨b, hb, rfl, ne_nil_of_mem hc, rfl⟩,
        mem_map.2 ⟨c.range, mem_map_of_mem hc, rfl⟩⟩
    · rintro ⟨list, ⟨b, hb, rfl, -, rfl⟩, hs⟩
      obtain ⟨r, hr, rfl⟩ := mem_map.1 hs
      obtain ⟨c, hc, rfl⟩ := mem_map.1 hr
      exact ⟨b, hb, rfl, c, hc, rfl⟩
  · rw [blocks_mergeBlocks habs, map_map, ← (hperm.map _).sum_eq, map_flatMap,
      flatMap_def, sum_flatten, map_map]
    rfl

/-- A block that is its own merge target is neither a block any more nor in a list. -/
theorem not_merges_of_self (hb : b ∈ table.blocks)
    (hself : table.getMergeTarget registry b = some b.start)
    (hmem : b.start ∈ table.absorbable registry) :
    ¬ Merges table registry (table.mergeBlocks registry) := by
  intro hmerges
  have hhead : b.range ∉ (table.heads registry).map BasicBlock.range := by
    intro h
    obtain ⟨c, hc, heq⟩ := mem_map.1 h
    obtain ⟨hc, hcabs⟩ := mem_heads.1 hc
    rw [hdisj.eq_of_start hc hb (Prod.mk.inj heq).1] at hcabs
    exact hcabs hmem
  have hlist : b.range ∉ (table.mergeBlocks registry).listed := by
    intro h
    obtain ⟨c, hc, heq⟩ := mem_map.1 ((perm_listed_mergeBlocks hdisj habs).mem_iff.1 h)
    obtain ⟨r, hr, hc⟩ := mem_flatMap.1 hc
    have hcmem : c ∈ table.blocks := by
      rw [chainOf, mergeChain_eq_orbit] at hc
      exact (unjoined_mergeStep hdisj).mem_of_reaches (mem_heads.1 hr).1
        (Orbit.reaches_of_mem (mem_cons_of_mem r hc))
    rw [hdisj.eq_of_start hcmem hb (Prod.mk.inj heq).1] at hc
    exact notMem_chainOf_of_self hdisj hb hself hmem hr hc
  have honce := hmerges.once b hb
  rw [map_range_mergeBlocks habs, count_eq_zero_of_not_mem hhead,
    count_eq_zero_of_not_mem hlist] at honce
  cases honce

end Merged

/-- The table has no lists and maps nothing. -/
def Unmerged (table : BlockTable X) : Prop :=
  table.listed = [] ∧ ∀ s, table.absorbedToMerged.lookup s = none

/-- Where nothing is absorbed the table stays as it is, with what it listed before. -/
theorem merges_self_iff (hdisj : DisjointBlocks table.blocks) :
    Merges table registry table ↔ table.Unmerged := by
  have hone : ∀ b ∈ table.blocks, (table.blocks.map BasicBlock.range).count b.range = 1 :=
    fun b hb => count_eq_one_of_mem hdisj.nodup_map_range (mem_map_of_mem hb)
  constructor
  · intro hmerges
    have hlisted : table.listed = [] := by
      refine eq_nil_iff_forall_not_mem.2 fun r hr => ?_
      obtain ⟨b, hb, rfl⟩ := hmerges.of_listed r hr
      have honce := hmerges.once b hb
      have hpos := count_pos_iff.2 hr
      rw [hone b hb] at honce
      omega
    refine ⟨hlisted, fun s => Option.eq_none_iff_forall_ne_some.2 fun h hlookup => ?_⟩
    obtain ⟨list, hlist, hs⟩ := (hmerges.absorbed s h).1 hlookup
    obtain ⟨r, hr, -⟩ := mem_map.1 hs
    have hmem := mem_listed.2 ⟨h, list, hlist, hr⟩
    rw [hlisted] at hmem
    cases hmem
  · rintro ⟨hlisted, hnone⟩
    have hempty : ∀ h list, table.blockContinuations.lookup h = some list → list = [] := by
      refine fun h list hlookup => eq_nil_iff_forall_not_mem.2 fun r hr => ?_
      have hmem := mem_listed.2 ⟨h, list, hlookup, hr⟩
      rw [hlisted] at hmem
      cases hmem
    refine ⟨fun b hb => ?_, fun r hr => ?_, fun h list hlookup hne => ?_, fun s h => ?_, rfl⟩
    · rw [hlisted, hone b hb, count_nil]
    · rw [hlisted] at hr
      cases hr
    · exact absurd (hempty h list hlookup) hne
    · rw [hnone s]
      refine ⟨fun hcontra => (by cases hcontra), ?_⟩
      rintro ⟨list, hlookup, hs⟩
      rw [hempty h list hlookup] at hs
      cases hs

/-- Merging keeps every block unless one is its own merge target, which is then lost.  The chains
that are followed end in any case.  If nothing is absorbed the lists that the table had before
stay. -/
theorem mergeBlocks_merges_iff (hdisj : DisjointBlocks table.blocks) :
    (∀ b ∈ table.blocks, b.start ∉ table.absorbable registry → ∀ n, table.blocks.length ≤ n →
      table.mergeChain registry (table.absorbable registry) n b =
        table.mergeChain registry (table.absorbable registry) table.blocks.length b) ∧
    (Merges table registry (table.mergeBlocks registry) ↔
      (∀ b ∈ table.blocks, table.getMergeTarget registry b ≠ some b.start) ∧
        (table.absorbable registry ≠ ∅ ∨ table.Unmerged)) := by
  constructor
  · intro b hb habs n hn
    rw [mergeChain_eq_orbit, mergeChain_eq_orbit]
    exact Orbit.orbit_eq_of_length_lt
      (length_orbit_lt_of_mem_heads hdisj (mem_heads.2 ⟨hb, habs⟩) le_rfl) hn
  · by_cases habs : table.absorbable registry = ∅
    · have hself : ∀ b ∈ table.blocks, table.getMergeTarget registry b ≠ some b.start := by
        intro b hb hself
        have hmem := mem_absorbable_of_self hb hself
        rw [habs] at hmem
        cases hmem
      have hsame : table.mergeBlocks registry = table := if_pos habs
      rw [hsame, merges_self_iff hdisj]
      exact ⟨fun h => ⟨hself, .inr h⟩, fun h => h.2.resolve_left (fun hne => hne habs)⟩
    · refine ⟨fun hmerges => ⟨fun b hb hself => ?_, .inl habs⟩, fun h =>
        merges_mergeBlocks hdisj habs h.1⟩
      exact not_merges_of_self hdisj habs hb hself (mem_absorbable_of_self hb hself) hmerges

end BlockTable

/-- `ret`, and `j .` behind it. -/
def idleLoop : BlockTable .rv64 :=
  .fromInstructionTable
    (.fromBytes (InstructionTable.codeBytes [0x00008067, 0x0000006F]) 0x1000
      (standard .rv64) (by decide))
    (standard .rv64) .ascending

theorem blocks_idleLoop :
    idleLoop.blocks = [⟨0x1000, 0x1004, 1, 0x1000⟩, ⟨0x1004, 0x1008, 1, 0x1004⟩] := by
  decide +kernel

theorem disjointBlocks_idleLoop : DisjointBlocks idleLoop.blocks := by
  rw [blocks_idleLoop]
  refine ⟨?_, pairwise_pair.2 fun pc hpc hpc' => ?_⟩
  · simp [BasicBlock.Has]
  · exact absurd hpc'.1 (not_le.2 hpc.2)

/-- The loop is the only predecessor of itself; the table that remains has one instruction of
two. -/
theorem mergeBlocks_idleLoop : DisjointBlocks idleLoop.blocks ∧
    ¬ BlockTable.Merges idleLoop (standard .rv64)
      (idleLoop.mergeBlocks (standard .rv64)) := by
  refine ⟨disjointBlocks_idleLoop, fun hmerges => ?_⟩
  have hcount := hmerges.count
  revert hcount
  decide +kernel

/-- The condition on that table. -/
theorem mergeBlocks_merges_iff_idleLoop :
    BlockTable.Merges idleLoop (standard .rv64)
        (idleLoop.mergeBlocks (standard .rv64)) ↔
      (∀ b ∈ idleLoop.blocks,
        idleLoop.getMergeTarget (standard .rv64) b ≠ some b.start) ∧
        (idleLoop.absorbable (standard .rv64) ≠ ∅ ∨ idleLoop.Unmerged) :=
  (BlockTable.mergeBlocks_merges_iff disjointBlocks_idleLoop).2

end Rvr
