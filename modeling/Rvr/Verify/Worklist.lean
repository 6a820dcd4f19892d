import Rvr.Cfg.Analysis
import Rvr.Lib.Worklist

/-!
# The worklist reaches a post-fixpoint

The worklist of the control flow analysis as an instance of `Worklist.Problem`.  A node is an
address with a decoded instruction; pushing, merging and recording successors let the snapshot grow,
so each round of the loop keeps the invariant of the library, and when the loop runs out of
addresses nothing is pending.
-/

namespace Rvr

open Worklist (Problem Snapshot)

variable {X : Xlen}

/-- The dataflow problem that the worklist solves. -/
def AnalysisContext.problem (ctx : AnalysisContext X) : Problem U64 RegisterState where
  active pc := ctx.table.instructionSizeAtPc pc ≠ 0 ∧ ctx.table.isValidPc pc = true
  succs pc state :=
    match ctx.table.getAtPc pc with
    | some instr =>
      ctx.getSuccessors pc (ctx.table.instructionSizeAtPc pc) (.fromInstr instr) state
    | none => ∅
  transfer pc state :=
    match ctx.table.getAtPc pc with
    | some instr =>
      Rvr.transfer ctx.table pc (ctx.table.instructionSizeAtPc pc) (.fromInstr instr) state
    | none => state

namespace WorklistState

/-- The snapshot of the loop variables. -/
def view (w : WorklistState) : Snapshot U64 RegisterState where
  states pc := w.states.lookup pc
  pending := {pc | pc ∈ w.inWorklist}
  edges pc := w.successors.lookup pc

/-! ## Growth -/

theorem grows_push (w : WorklistState) (addr : U64) : w.view.Grows (w.push addr).view := by
  unfold push
  split_ifs with hmem
  · exact .refl _
  · exact
      { states_le := fun _ s h => ⟨s, h, le_refl s⟩
        unchanged := fun _ _ => rfl
        pending_subset := fun _ h => Finset.mem_insert_of_mem h
        edges_subset := fun _ e h => ⟨e, h, subset_refl e⟩ }

theorem mem_inWorklist_push (w : WorklistState) (addr : U64) : addr ∈ (w.push addr).inWorklist := by
  unfold push
  split_ifs with hmem
  · exact hmem
  · exact Finset.mem_insert_self _ _

@[simp] theorem states_push (w : WorklistState) (addr : U64) : (w.push addr).states = w.states := by
  unfold push
  split_ifs <;> rfl

/-- Raising the state of a target and pushing the target. -/
theorem grows_insert_push (w : WorklistState) {target : U64} {state : RegisterState}
    (hle : ∀ old, w.states.lookup target = some old → old ≤ state) :
    w.view.Grows ({ w with states := w.states.insert target state }.push target).view := by
  let w' := { w with states := w.states.insert target state }
  have hgrow := grows_push w' target
  refine
    { states_le := fun n s h => ?_
      unchanged := fun n hn => ?_
      pending_subset := hgrow.pending_subset
      edges_subset := hgrow.edges_subset }
  · rw [view, states_push]
    by_cases hn : n = target
    · subst hn
      exact ⟨state, AList.lookup_insert _, hle s h⟩
    · exact ⟨s, (AList.lookup_insert_ne hn).trans h, le_refl s⟩
  · -- the target itself is pending
    have hne : n ≠ target := by
      rintro rfl
      exact hn (mem_inWorklist_push w' n)
    rw [view, states_push]
    exact AList.lookup_insert_ne hne

variable (out : RegisterState)

theorem grows_propagate (w : WorklistState) (target : U64) :
    w.view.Grows (propagate out w target).view := by
  unfold propagate
  cases hold : w.states.lookup target with
  | none => exact grows_insert_push w fun old h => by rw [hold] at h; cases h
  | some existing =>
    dsimp only
    cases hchanged : existing.mergeChanged out with
    | true =>
      refine grows_insert_push w fun old h => ?_
      obtain rfl : existing = old := Option.some.inj (hold.symm.trans h)
      exact le_sup_left
    | false =>
      -- nothing changed: inserting the merged state puts back the old one
      have hsame : existing.merge out = existing := RegisterState.mergeChanged_eq_false.1 hchanged
      have hlookup : ∀ n, (w.states.insert target (existing.merge out)).lookup n
          = w.states.lookup n := by
        intro n
        by_cases hn : n = target
        · subst hn
          rw [AList.lookup_insert, hsame, hold]
        · exact AList.lookup_insert_ne hn
      exact
        { states_le := fun n s h => ⟨s, (hlookup n).trans h, le_refl s⟩
          unchanged := fun n _ => hlookup n
          pending_subset := subset_refl _
          edges_subset := fun _ e h => ⟨e, h, subset_refl e⟩ }

/-- The state that is propagated arrives. -/
theorem le_lookup_propagate (w : WorklistState) (target : U64) :
    ∃ st, (propagate out w target).states.lookup target = some st ∧ out ≤ st := by
  unfold propagate
  cases w.states.lookup target with
  | none => exact ⟨out, by rw [states_push]; exact AList.lookup_insert _, le_refl out⟩
  | some existing =>
    refine ⟨existing.merge out, ?_, le_sup_right⟩
    dsimp only
    split_ifs
    · rw [states_push]
      exact AList.lookup_insert _
    · exact AList.lookup_insert _

theorem le_lookup_foldl_propagate {targets : List U64} (w : WorklistState)
    {target : U64} (h : target ∈ targets) :
    ∃ st, (targets.foldl (propagate out) w).states.lookup target = some st ∧ out ≤ st := by
  induction targets generalizing w with
  | nil => cases h
  | cons t targets ih =>
    rcases List.mem_cons.1 h with rfl | h
    · obtain ⟨st, hst, hle⟩ := le_lookup_propagate out w target
      have hgrow := Snapshot.Grows.foldl view (grows_propagate out) targets (propagate out w target)
      obtain ⟨st', hst', hle'⟩ := hgrow.states_le target st hst
      exact ⟨st', hst', hle.trans hle'⟩
    · exact ih _ h

/-! ## The queue -/

/-- Everything pending is in the part of the worklist that is still ahead. -/
def Queued (w : WorklistState) : Prop := ∀ a ∈ w.inWorklist, a ∈ w.worklist.drop w.idx

variable {w : WorklistState}

theorem Queued.push (h : w.Queued) (hidx : w.idx ≤ w.worklist.length) (addr : U64) :
    (w.push addr).Queued := by
  unfold WorklistState.push
  split_ifs with hmem
  · exact h
  · intro a ha
    rw [List.drop_append_of_le_length hidx, List.mem_append, List.mem_singleton]
    rcases Finset.mem_insert.1 ha with ha | ha
    · exact .inr ha
    · exact .inl (h a ha)

theorem Queued.pop (h : w.Queued) {pc : U64} (hpc : w.worklist[w.idx]? = some pc) :
    (w.pop pc).Queued := by
  intro a ha
  obtain ⟨hne, ha⟩ := Finset.mem_erase.1 ha
  obtain ⟨hlt, hget⟩ := List.getElem?_eq_some_iff.1 hpc
  have hdrop := h a ha
  rw [List.drop_eq_getElem_cons hlt, hget, List.mem_cons] at hdrop
  exact hdrop.resolve_left hne

/-- The loop counter stays within the worklist, and everything pending is ahead of it. -/
structure QueueInv (w : WorklistState) : Prop where
  queued : w.Queued
  idx_le : w.idx ≤ w.worklist.length

theorem QueueInv.push (h : w.QueueInv) (addr : U64) : (w.push addr).QueueInv where
  queued := h.queued.push h.idx_le addr
  idx_le := by
    unfold WorklistState.push
    split_ifs
    · exact h.idx_le
    · exact h.idx_le.trans (by simp)

theorem QueueInv.withStates (h : w.QueueInv) (states : AddrMap RegisterState) :
    { w with states := states }.QueueInv :=
  ⟨h.queued, h.idx_le⟩

theorem QueueInv.propagate (h : w.QueueInv) (out : RegisterState) (target : U64) :
    (propagate out w target).QueueInv := by
  unfold WorklistState.propagate
  cases w.states.lookup target with
  | none => exact (h.withStates _).push target
  | some existing =>
    dsimp only
    split_ifs
    · exact (h.withStates _).push target
    · exact h.withStates _

theorem QueueInv.foldl {α : Type*} {step : WorklistState → α → WorklistState}
    (hstep : ∀ w a, QueueInv w → QueueInv (step w a)) (as : List α) (h : w.QueueInv) :
      (as.foldl step w).QueueInv := by
  induction as generalizing w with
  | nil => exact h
  | cons a as ih => exact ih (hstep w a h)

theorem QueueInv.seed (h : w.QueueInv) (addr : U64) : (w.seed addr).QueueInv := by
  unfold WorklistState.seed
  split_ifs
  · exact h
  · exact (h.push addr).withStates _

/-! ## One round -/

variable (ctx : AnalysisContext X) (order : HashOrder)

/-- Processing an instruction lets the snapshot grow and settles the instruction. -/
theorem visit_spec (w : WorklistState) {pc : U64} {instr : DecodedInstr X} (state : RegisterState)
    (hinstr : ctx.table.getAtPc pc = some instr) :
    w.view.Grows (w.visit ctx order pc instr state).view ∧
      ctx.problem.Settled (w.visit ctx order pc instr state).view pc state := by
  have hsuccs : ctx.problem.succs pc state = ctx.getSuccessors pc (ctx.table.instructionSizeAtPc pc)
      (.fromInstr instr) state := by simp only [AnalysisContext.problem, hinstr]
  have hout : ctx.problem.transfer pc state = transfer ctx.table pc
      (ctx.table.instructionSizeAtPc pc) (.fromInstr instr) state := by
    simp only [AnalysisContext.problem, hinstr]
  set succs := ctx.getSuccessors pc (ctx.table.instructionSizeAtPc pc) (.fromInstr instr) state
  set out := transfer ctx.table pc (ctx.table.instructionSizeAtPc pc) (.fromInstr instr) state
  set v := (order.list (w.idx + 1) succs).foldl (WorklistState.propagate out) w
  have hgrow : w.view.Grows v.view := Snapshot.Grows.foldl view (grows_propagate out) _ w
  have hrecord : v.view.Grows (w.visit ctx order pc instr state).view :=
    { states_le := fun _ s h => ⟨s, h, le_refl s⟩
      unchanged := fun _ _ => rfl
      pending_subset := subset_refl _
      edges_subset := fun n e h => by
        by_cases hn : n = pc
        · subst hn
          refine ⟨e ∪ succs, ?_, Finset.subset_union_left⟩
          change (v.successors.insert n ((v.successors.lookup n).getD ∅ ∪ succs)).lookup n = _
          change v.successors.lookup n = some e at h
          rw [AList.lookup_insert, h]
          rfl
        · exact ⟨e, (AList.lookup_insert_ne hn).trans h, subset_refl e⟩ }
  refine ⟨hgrow.trans hrecord, ⟨_, AList.lookup_insert _, ?_⟩, fun t ht => ?_⟩
  · rw [hsuccs]
    exact Finset.subset_union_right
  · rw [hsuccs] at ht
    rw [Problem.Absorbed, hout]
    exact le_lookup_foldl_propagate out w ((order.mem_list _ _ _).2 ht)

theorem QueueInv.visit (h : w.QueueInv) (pc : U64) (instr : DecodedInstr X)
    (state : RegisterState) : (w.visit ctx order pc instr state).QueueInv := by
  have hfold := QueueInv.foldl (fun w a h => QueueInv.propagate (w := w) h
    (transfer ctx.table pc (ctx.table.instructionSizeAtPc pc) (.fromInstr instr) state) a)
    (order.list (w.idx + 1) (ctx.getSuccessors pc (ctx.table.instructionSizeAtPc pc)
      (.fromInstr instr) state)) h
  exact ⟨hfold.queued, hfold.idx_le⟩

/-- The invariant of the loop. -/
structure LoopInv (w : WorklistState) : Prop where
  queue : w.QueueInv
  settled : ctx.problem.Inv w.view

variable {ctx} {order}

/-- What a round does: it takes the next address off the worklist and, if an instruction with a
state is there, processes it. -/
theorem step_cases (ctx : AnalysisContext X) (order : HashOrder) {pc : U64}
    (hpc : w.worklist[w.idx]? = some pc) :
    (w.step ctx order = w.pop pc ∧ ¬ (ctx.problem.active pc ∧ (w.states.lookup pc).isSome)) ∨
      ∃ instr state, ctx.table.getAtPc pc = some instr ∧ w.states.lookup pc = some state ∧
        w.step ctx order = (w.pop pc).visit ctx order pc instr state := by
  unfold step
  rw [hpc]
  dsimp only
  rw [show (w.pop pc).states = w.states from rfl]
  cases hstate : w.states.lookup pc with
  | none => exact .inl ⟨rfl, fun h => absurd h.2 (by simp)⟩
  | some state =>
    split_ifs with hsize
    · exact .inl ⟨rfl, fun h => h.1.1 hsize⟩
    · cases hinstr : ctx.table.getAtPc pc with
      | none =>
        refine .inl ⟨rfl, fun h => ?_⟩
        have hvalid := h.1.2
        rw [InstructionTable.isValidPc_eq, hinstr] at hvalid
        cases hvalid
      | some instr => exact .inr ⟨instr, state, rfl, rfl, rfl⟩

theorem LoopInv.step (h : LoopInv ctx w) (hidx : w.idx < w.worklist.length) :
    LoopInv ctx (w.step ctx order) := by
  obtain ⟨pc, hpc⟩ : ∃ pc, w.worklist[w.idx]? = some pc := ⟨_, List.getElem?_eq_getElem hidx⟩
  have hpop : (w.pop pc).QueueInv := ⟨h.queue.queued.pop hpc, hidx⟩
  have hview : (w.pop pc).view = w.view.pop pc := by
    simp only [view, WorklistState.pop, Snapshot.pop, Snapshot.mk.injEq, true_and, and_true]
    ext a
    simp [and_comm]
  rcases step_cases ctx order hpc with ⟨hstep, hskip⟩ | ⟨instr, state, hinstr, hstate, hstep⟩
  · rw [hstep]
    refine ⟨hpop, ?_⟩
    rw [hview]
    refine h.settled.step (Snapshot.Grows.refl _) fun s hactive hs => ?_
    exact absurd ⟨hactive, Option.isSome_of_eq_some hs⟩ hskip
  · rw [hstep]
    obtain ⟨hgrow, hsettled⟩ := visit_spec ctx order (w.pop pc) state hinstr
    refine ⟨hpop.visit ctx order pc instr state, ?_⟩
    rw [hview] at hgrow
    refine h.settled.step hgrow fun s _ hs => ?_
    obtain rfl : state = s := Option.some.inj (hstate.symm.trans hs)
    exact hsettled

/-! ## The whole run -/

theorem LoopInv.loop {maxIterations fuel : ℕ} (h : LoopInv ctx w) :
    LoopInv ctx (WorklistState.loop ctx order maxIterations fuel w) := by
  induction fuel generalizing w with
  | zero => exact h
  | succ fuel ih =>
    unfold WorklistState.loop
    split_ifs with hidx
    · exact h
    · exact ih (h.step hidx)
    · exact h

/-- Every address with a state is pending. -/
def AllPending (w : WorklistState) : Prop :=
  ∀ pc state, w.states.lookup pc = some state → pc ∈ w.inWorklist

theorem AllPending.seed (h : w.AllPending) (addr : U64) :
    (w.seed addr).AllPending := by
  unfold WorklistState.seed
  split_ifs
  · exact h
  · intro pc state hstate
    by_cases hpc : pc = addr
    · subst hpc
      exact mem_inWorklist_push w pc
    · exact (grows_push w addr).pending_subset
        (h pc state ((AList.lookup_insert_ne hpc).symm.trans hstate))

/-- Seeding keeps the queue in order and everything pending. -/
theorem seeded (addrs : List U64) (hqueue : w.QueueInv) (hpending : w.AllPending) :
    (addrs.foldl seed w).QueueInv ∧ (addrs.foldl seed w).AllPending := by
  induction addrs generalizing w with
  | nil => exact ⟨hqueue, hpending⟩
  | cons a addrs ih => exact ih (hqueue.seed a) (hpending.seed a)

theorem loopInv_init : LoopInv ctx (.init ctx order) := by
  have hempty : empty.QueueInv := ⟨fun a ha => absurd ha (Finset.notMem_empty a), Nat.zero_le _⟩
  obtain ⟨hqueue, hpending⟩ := seeded (order.list 0 ctx.functionEntries) hempty
    fun pc state h => by cases h
  obtain ⟨hqueue, hpending⟩ := seeded (order.list 1 ctx.internalTargets) hqueue hpending
  exact ⟨hqueue, fun pc state _ hstate hnot => absurd (hpending pc state hstate) hnot⟩

/-! ## The end of the loop -/

@[simp] theorem idx_push (w : WorklistState) (addr : U64) : (w.push addr).idx = w.idx := by
  unfold push
  split_ifs <;> rfl

theorem idx_propagate (w : WorklistState) (target : U64) :
    (propagate out w target).idx = w.idx := by
  unfold propagate
  cases w.states.lookup target with
  | none => exact idx_push _ _
  | some existing =>
    dsimp only
    split_ifs
    · exact idx_push _ _
    · rfl

theorem idx_foldl_propagate (targets : List U64) (w : WorklistState) :
    (targets.foldl (propagate out) w).idx = w.idx := by
  induction targets generalizing w with
  | nil => rfl
  | cons t targets ih => exact (ih _).trans (idx_propagate out w t)

theorem idx_step (hidx : w.idx < w.worklist.length) :
    (w.step ctx order).idx = w.idx + 1 := by
  rcases step_cases ctx order (List.getElem?_eq_getElem hidx) with
    ⟨hstep, -⟩ | ⟨instr, state, -, -, hstep⟩
  · rw [hstep]
    rfl
  · rw [hstep]
    exact idx_foldl_propagate _ _ _

/-- With fuel for one round more than the cap the loop ends as it does in the source: the worklist
is used up or the cap is exceeded. -/
theorem loop_ends {maxIterations fuel : ℕ} (h : LoopInv ctx w)
    (hfuel : maxIterations + 2 ≤ fuel + w.idx) :
    (WorklistState.loop ctx order maxIterations fuel w).idx
        = (WorklistState.loop ctx order maxIterations fuel w).worklist.length ∨
      maxIterations < (WorklistState.loop ctx order maxIterations fuel w).idx := by
  induction fuel generalizing w with
  | zero => exact .inr (by unfold WorklistState.loop; omega)
  | succ fuel ih =>
    unfold WorklistState.loop
    split_ifs with hidx hcap
    · exact .inr hcap
    · exact ih (h.step hidx) (by rw [idx_step hidx]; omega)
    · exact .inl (Nat.le_antisymm h.queue.idx_le (Nat.not_lt.1 hidx))

end WorklistState

open WorklistState in
/-- The loop of `worklist` runs until the worklist is used up or the cap is exceeded. -/
theorem worklistFinal_ends (ctx : AnalysisContext X) (order : HashOrder) :
    (worklistFinal ctx order).idx = (worklistFinal ctx order).worklist.length ∨
      ctx.table.maxIterations < (worklistFinal ctx order).idx :=
  loop_ends loopInv_init (Nat.le_add_right _ _)

open WorklistState in
/-- When the worklist is used up, every instruction with a state is settled. -/
theorem worklistFinal_settled {ctx : AnalysisContext X} {order : HashOrder} {pc : U64}
    {state : RegisterState}
    (hend : (worklistFinal ctx order).idx = (worklistFinal ctx order).worklist.length)
    (hactive : ctx.problem.active pc)
    (hstate : (worklistFinal ctx order).states.lookup pc = some state) :
    ctx.problem.Settled (worklistFinal ctx order).view pc state := by
  have hinv : LoopInv ctx (worklistFinal ctx order) := loopInv_init.loop
  refine hinv.settled.postFixpoint ?_ hactive hstate
  refine Set.eq_empty_iff_forall_notMem.2 fun a ha => ?_
  have hdrop := hinv.queue.queued a ha
  rw [hend, List.drop_length] at hdrop
  cases hdrop

/-- If the worklist loop ends because the worklist is used up, then for every address with a state
and a decoded instruction the recorded successors include those of its final state, and merging the
state after the instruction into the final state of any of them changes nothing. -/
theorem worklist_postFixpoint (t : InstructionTable X) (order : HashOrder)
    (hend : (worklistFinal (analysisContext t) order).idx
      = (worklistFinal (analysisContext t) order).worklist.length)
    {pc : U64} {instr : DecodedInstr X} {state : RegisterState}
    (hinstr : t.getAtPc pc = some instr) (hsize : t.instructionSizeAtPc pc ≠ 0)
    (hstate : (worklistFinal (analysisContext t) order).states.lookup pc = some state) :
    let size := t.instructionSizeAtPc pc
    let d := DecodedInstruction.fromInstr instr
    let succs := (analysisContext t).getSuccessors pc size d state
    (∃ recorded, (worklist (analysisContext t) order).1.lookup pc = some recorded ∧
      succs ⊆ recorded) ∧
    ∀ target ∈ succs, ∃ final,
      (worklistFinal (analysisContext t) order).states.lookup target = some final ∧
      final.mergeChanged (transfer t pc size d state) = false ∧
      final.merge (transfer t pc size d state) = final := by
  intro size d succs
  have htable : (analysisContext t).table.getAtPc pc = some instr := hinstr
  have hvalid : t.isValidPc pc = true := by rw [t.isValidPc_eq, hinstr]; rfl
  obtain ⟨hrecorded, habsorbed⟩ := worklistFinal_settled hend ⟨hsize, hvalid⟩ hstate
  have hsuccs : (analysisContext t).problem.succs pc state = succs := by
    simp only [AnalysisContext.problem, htable]
    rfl
  have hout : (analysisContext t).problem.transfer pc state = transfer t pc size d state := by
    simp only [AnalysisContext.problem, htable]
    rfl
  rw [hsuccs] at hrecorded habsorbed
  refine ⟨hrecorded, fun target htarget => ?_⟩
  obtain ⟨final, hfinal, hle⟩ := habsorbed target htarget
  rw [hout] at hle
  have hmerge : final.merge (transfer t pc size d state) = final := sup_eq_left.2 hle
  exact ⟨final, hfinal, RegisterState.mergeChanged_eq_false.2 hmerge, hmerge⟩

/-- `addi a0, a0, 1; j -4` at `0x1000`. -/
def countingLoop : InstructionTable .rv64 :=
  .fromBytes (InstructionTable.codeBytes [0x00150513, 0xFFDFF06F]) 0x1000 (.standard .rv64)
    (by decide)

theorem worklist_postFixpoint_countingLoop :
    (worklistFinal (analysisContext countingLoop) .ascending).idx = 2 ∧
      ∃ recorded, (worklist (analysisContext countingLoop) .ascending).1.lookup 0x1004
        = some recorded ∧ 0x1000 ∈ recorded := by
  have hinstr : countingLoop.getAtPc 0x1004 = some ⟨.i .jal, 0x1004, 4, 0xFFDFF06F, .J 0 (-4)⟩ := by
    decide +kernel
  obtain ⟨state, hstate⟩ := Option.isSome_iff_exists.1
    (show ((worklistFinal (analysisContext countingLoop) .ascending).states.lookup 0x1004).isSome =
      true
      by decide +kernel)
  obtain ⟨⟨recorded, hrecorded, hsub⟩, -⟩ :=
    worklist_postFixpoint countingLoop .ascending (by decide +kernel) hinstr
      (by decide +kernel) hstate
  refine ⟨by decide +kernel, recorded, hrecorded, hsub ?_⟩
  change (0x1000 : U64) ∈ countingLoop.insertValid (addSigned 0x1004 (-4)) ∅
  decide +kernel

end Rvr
