import Rvr.Emit.Rules

/-!
# Counting retired instructions in emitted functions

In the modes `Count` and `Suspend` a function adds constants to `instret`, and each constant is
`instr_idx` at the place where the text is rendered.  `Way` names the texts through which control
can leave the function of a block, and `CProject.blockWay` finds the one that a state leaves
through.  The counter is right on every way out but two: the exit check saves it without the
instructions of the block, and behind a branch whose target is inlined it is short of the branch, or
not updated at all (`instret_exact_iff`).
-/

namespace Rvr

open CStmt

variable {X : Xlen} {rt : Runtime X}

/-- The counter that is left behind: the field of the state structure after a return, the parameter
otherwise. -/
def CState.leaveInstret (st : CState X) : CLeave X → U64
  | .ret => st.stateInstret
  | _ => st.guest.instret

/-- The counter that a function leaves behind is the one it was entered with, plus the number of
instructions whose text was entered. -/
def InstretExact (rt : Runtime X) (body : List (CStmt X)) (st : CState X) : Prop :=
  let (st', leave) := runFunction rt body st
  st'.leaveInstret leave = st.guest.instret + BitVec.ofNat 64 (st'.retired - st.retired)

/-! ## Ways out of a function -/

/-- The text through which control leaves the function of a block. -/
inductive Way
  /-- The suspension check at the start. -/
  | limit
  /-- A write to `tohost` that ends the program. -/
  | tohost
  | exitCheck
  | sideExit
  | terminator
  /-- What follows a branch with an inline entry. -/
  | takenInline
  /-- The end of a function without instructions. -/
  | footer
  deriving DecidableEq

section Ways

variable (rt)

/-- Run the statements of an instruction and its exit check. -/
def CEmitter.statementsWay (em : CEmitter X) (ir : InstrIR X) (st : CState X) :
    CState X × Option Way :=
  match execAll rt (em.renderStmts ir.statements) st.enter with
  | (st', some _) => (st', some .tohost)
  | (st', none) =>
    if Stmt.statementsWriteExit ir.statements ∧ st'.guest.hasExited ≠ 0 then (st', some .exitCheck)
    else (st', none)

/-- Whether an instruction is a branch that is taken. -/
def InstrIR.branches (ir : InstrIR X) (s : GuestState X) : Bool :=
  match ir.terminator with
  | .branch cond _ _ _ => cond.eval rt s ≠ 0
  | _ => false

namespace CProject

variable (project : CProject)

/-- The way out from the last instruction of a block. -/
def lastWay (em : CEmitter X) (ir : InstrIR X) (st : CState X) : Way :=
  match project.takenInline ir with
  | some _ =>
    match execAll rt (em.renderStmts ir.statements) st.enter with
    | (_, some _) => .tohost
    | (_, none) => .takenInline
  | none => (CEmitter.statementsWay rt { em with current := ir } ir st).2.getD .terminator

/-- The way out from the instructions of a block. -/
def instructionsWay : CEmitter X → List (InstrIR X) → CState X → Way
  | _, [], _ => .footer
  | em, [ir], st => project.lastWay rt em ir st
  | em, ir :: nextIr :: rest, st =>
    match CEmitter.statementsWay rt { em with current := ir } ir st with
    | (_, some way) => way
    | (st', none) =>
      if ir.branches rt st'.guest then .sideExit
      else instructionsWay (em.next ir) (nextIr :: rest) st'

/-- The way out of the function of a block. -/
def blockWay (block : BlockIR X) (st : CState X) : Way :=
  if project.config.instretMode.suspends ∧ st.targetInstret ≤ st.guest.instret then .limit
  else project.instructionsWay rt (.new project.config project.inputs) block.instructions st

end CProject

end Ways

/-! ## Text that counts when control leaves -/

/-- Text that leaves the counter alone if control goes on after it, and has added `n` to it if
control leaves. -/
structure AddsOnLeave (rt : Runtime X) (n : ℕ) (body : List (CStmt X)) : Prop where
  retired : ∀ st, (execAll rt body st).1.retired = st.retired
  goesOn : ∀ {st st'}, execAll rt body st = (st', none) →
    st'.guest.instret = st.guest.instret
  leaves : ∀ {st st' l}, execAll rt body st = (st', some l) →
    st'.leaveInstret l = st.guest.instret + BitVec.ofNat 64 n

namespace AddsOnLeave

variable {n : ℕ} {as bs : List (CStmt X)}

theorem nil : AddsOnLeave rt n [] where
  retired _ := rfl
  goesOn h := by
    cases h
    rfl
  leaves h := nomatch h

theorem append (has : AddsOnLeave rt n as) (hbs : AddsOnLeave rt n bs) :
    AddsOnLeave rt n (as ++ bs) where
  retired st := by
    have hretired := has.retired st
    rcases h : execAll rt as st with ⟨st₁, _ | l⟩
    · rw [h] at hretired
      rw [execAll_append_of_none h, hbs.retired]
      exact hretired
    · rw [h] at hretired
      rw [execAll_append_of_some h]
      exact hretired
  goesOn {st st'} h := by
    rcases has' : execAll rt as st with ⟨st₁, _ | l⟩
    · rw [execAll_append_of_none has'] at h
      rw [hbs.goesOn h, has.goesOn has']
    · rw [execAll_append_of_some has'] at h
      cases h
  leaves {st st' l} h := by
    rcases has' : execAll rt as st with ⟨st₁, _ | l₁⟩
    · rw [execAll_append_of_none has'] at h
      rw [hbs.leaves h, has.goesOn has']
    · rw [execAll_append_of_some has'] at h
      cases h
      exact has.leaves has'

/-- A statement that is no way out and does not count. -/
theorem single {c : CStmt X} (hexec : ∀ st, (c.exec rt st).2 = none)
    (hinstret : ∀ st, (c.exec rt st).1.guest.instret = st.guest.instret)
    (hretired : ∀ st, (c.exec rt st).1.retired = st.retired) : AddsOnLeave rt n [c] where
  retired st := by rw [execAll_singleton, hretired]
  goesOn {st st'} h := by
    rw [execAll_singleton] at h
    rw [← hinstret st, h]
  leaves {st st' l} h := by
    rw [execAll_singleton] at h
    have hnone := hexec st
    rw [h] at hnone
    cases hnone

theorem cons {c : CStmt X} (hexec : ∀ st, (c.exec rt st).2 = none)
    (hinstret : ∀ st, (c.exec rt st).1.guest.instret = st.guest.instret)
    (hretired : ∀ st, (c.exec rt st).1.retired = st.retired) (hbs : AddsOnLeave rt n bs) :
    AddsOnLeave rt n (c :: bs) :=
  append (single hexec hinstret hretired) hbs

theorem ite (cond : CCond X) (has : AddsOnLeave rt n as) (hbs : AddsOnLeave rt n bs) :
    AddsOnLeave rt n [.ite cond as bs] where
  retired st := by
    rw [execAll_ite]
    split_ifs
    · exact has.retired st
    · exact hbs.retired st
  goesOn {st st'} h := by
    rw [execAll_ite] at h
    split_ifs at h
    · exact has.goesOn h
    · exact hbs.goesOn h
  leaves {st st' l} h := by
    rw [execAll_ite] at h
    split_ifs at h
    · exact has.leaves h
    · exact hbs.leaves h

theorem ite_prop {p : Prop} [Decidable p] (has : AddsOnLeave rt n as) (hbs : AddsOnLeave rt n bs) :
    AddsOnLeave rt n (if p then as else bs) := by
  split_ifs
  · exact has
  · exact hbs

/-- A return that saves the counter. -/
theorem save_ret : AddsOnLeave rt n [.saveInstret n, .ret] where
  retired _ := rfl
  goesOn h := nomatch h
  leaves h := by
    cases h
    rfl

theorem add_save_ret : AddsOnLeave rt n [.addInstret n, .saveInstret 0, .ret] where
  retired _ := rfl
  goesOn h := nomatch h
  leaves h := by
    cases h
    exact BitVec.add_zero _

theorem tailCall (start : U64) : AddsOnLeave rt 0 [.tailCall start] where
  retired _ := rfl
  goesOn h := nomatch h
  leaves h := by
    cases h
    exact (BitVec.add_zero _).symm

theorem add_tailCall (start : U64) : AddsOnLeave rt n [.addInstret n, .tailCall start] where
  retired _ := rfl
  goesOn h := nomatch h
  leaves h := by
    cases h
    rfl

theorem tailDispatch (target : CTarget X) : AddsOnLeave rt 0 [.tailDispatch target] where
  retired _ := rfl
  goesOn h := nomatch h
  leaves h := by
    cases h
    exact (BitVec.add_zero _).symm

end AddsOnLeave

/-! ## The emitter -/

/-- The modes in which a function counts with one addition for the whole block. -/
def InstretMode.countsBlocks (m : InstretMode) : Prop := m = .count ∨ m = .suspend

instance (m : InstretMode) : Decidable m.countsBlocks := inferInstanceAs (Decidable (_ ∨ _))

namespace InstretMode.countsBlocks

variable {m : InstretMode} (h : m.countsBlocks)
include h

theorem counts : m.counts = true := by rcases h with rfl | rfl <;> rfl

theorem not_perInstruction : m.isPerInstruction = false := by rcases h with rfl | rfl <;> rfl

end InstretMode.countsBlocks

theorem Stmt.instret_exec_write (target : WriteTarget X) (value : Expr X) (s : GuestState X) :
    ((Stmt.write target value).exec rt s).instret = s.instret := by
  cases target <;> rfl

theorem instret_handleTohostWrite (value : X.Reg) (s : GuestState X) :
    (handleTohostWrite value s).instret = s.instret := by
  unfold handleTohostWrite
  dsimp only
  split_ifs <;> rfl

namespace CEmitter

variable {em : CEmitter X} (hmode : em.config.instretMode.countsBlocks)

theorem write_adds {n : ℕ} (target : WriteTarget X) (value : Expr X) :
    AddsOnLeave rt n [.write target value] :=
  .single (fun _ => rfl) (fun st => Stmt.instret_exec_write target value st.guest) fun _ => rfl

include hmode

theorem saveToState_eq : em.saveToState = [.saveInstret 0] := if_pos hmode.counts

theorem save_ret_adds : AddsOnLeave rt 0 (em.saveToState ++ [.ret]) := by
  rw [saveToState_eq hmode]
  exact .save_ret

theorem renderInstretCheck_adds (target : CTarget X) :
    AddsOnLeave rt 0 (em.renderInstretCheck target) :=
  .ite_prop (.ite _ (.cons (fun _ => rfl) (fun _ => rfl) (fun _ => rfl) (save_ret_adds hmode)) .nil)
    .nil

theorem renderExitAt_adds (code : Expr X) (pc : U64) :
    AddsOnLeave rt 0 (em.renderExitAt code pc) :=
  .cons (fun _ => rfl) (fun _ => rfl) (fun _ => rfl) <|
    .cons (fun _ => rfl) (fun _ => rfl) (fun _ => rfl) <|
      .cons (fun _ => rfl) (fun _ => rfl) (fun _ => rfl) (save_ret_adds hmode)

theorem renderJumpStatic_adds (target : U64) : AddsOnLeave rt 0 (em.renderJumpStatic target) :=
  .append (renderInstretCheck_adds hmode _)
    (.ite_prop (.tailCall _) (renderExitAt_adds hmode _ _))

theorem renderJumpDynamic_adds (target : CTarget X) :
    AddsOnLeave rt 0 (em.renderJumpDynamic target) :=
  .append (renderInstretCheck_adds hmode _) (.tailDispatch _)

theorem renderResolvedTarget_adds (varName : CTarget X) (target : U64) :
    AddsOnLeave rt 0 (em.renderResolvedTarget varName target) :=
  .ite_prop
    (.ite _ (.append (.ite_prop (renderInstretCheck_adds hmode _) .nil) (.tailCall _)) .nil) .nil

theorem renderResolvedTargets_adds (varName : CTarget X) (targets : List U64) :
    AddsOnLeave rt 0 (targets.flatMap (em.renderResolvedTarget varName)) := by
  induction targets with
  | nil => exact .nil
  | cons target targets ih => exact .append (renderResolvedTarget_adds hmode _ _) ih

theorem renderJumpResolved_adds (targets : List U64) (fallback : Expr X) :
    AddsOnLeave rt 0 (em.renderJumpResolved targets fallback) := by
  unfold renderJumpResolved
  split
  · exact renderJumpDynamic_adds hmode _
  · exact .append (renderResolvedTarget_adds hmode _ _) (renderJumpDynamic_adds hmode _)
  · exact .append (.cons (fun _ => rfl) (fun _ => rfl) (fun _ => rfl)
      (renderResolvedTargets_adds hmode _ _)) (renderJumpDynamic_adds hmode _)

theorem renderBranchTarget_adds (target : U64) :
    AddsOnLeave rt 0 (em.renderBranchTarget target) :=
  .ite_prop (.append (renderInstretCheck_adds hmode _) (.tailCall _)) (renderExitAt_adds hmode _ _)

omit hmode in
theorem renderTraceBranch_adds (hook : String) (target : U64) :
    AddsOnLeave rt 0 (em.renderTraceBranch hook target) :=
  .ite_prop (.single (fun _ => rfl) (fun _ => rfl) fun _ => rfl) .nil

theorem renderBranch_adds (cond : Expr X) (target fallPc : U64) :
    AddsOnLeave rt 0 (em.renderBranch cond target fallPc) :=
  .append
    (.append (.ite _ (.append (renderTraceBranch_adds _ _) (renderBranchTarget_adds hmode _)) .nil)
      (renderTraceBranch_adds _ _))
    (renderBranchTarget_adds hmode _)

theorem renderBranchSimple_adds (cond : Expr X) (target : U64) :
    AddsOnLeave rt 0 (em.renderBranchSimple cond target) :=
  .ite _ (.ite_prop (.tailCall _) (renderExitAt_adds hmode _ _)) .nil

theorem renderTerminator_adds (simple : Bool) (fallPc : U64) (term : Terminator X) :
    AddsOnLeave rt 0 (em.renderTerminator simple fallPc term) := by
  cases term with
  | fall target => exact renderJumpStatic_adds hmode _
  | jump target => exact renderJumpStatic_adds hmode _
  | jumpDyn addr resolved =>
    cases resolved with
    | none => exact renderJumpDynamic_adds hmode _
    | some targets => exact renderJumpResolved_adds hmode _ _
  | branch cond target fall hint =>
    cases simple with
    | true => exact renderBranchSimple_adds hmode _ _
    | false => exact renderBranch_adds hmode _ _ _
  | exit code => exact renderExitAt_adds hmode _ _
  | trap message => exact renderExitAt_adds hmode _ _

/-- A side exit adds the instructions up to the branch. -/
theorem renderSideExit_adds (cond : Expr X) (target : U64) :
    AddsOnLeave rt em.instrIdx (em.renderSideExit cond target) := by
  refine .ite _ (.ite_prop ?_ ?_) .nil
  · rw [if_pos hmode.counts]
    exact .add_tailCall _
  · rw [if_pos hmode.counts]
    exact .cons (fun _ => rfl) (fun _ => rfl) (fun _ => rfl) <|
      .cons (fun _ => rfl) (fun _ => rfl) (fun _ => rfl) <|
        .cons (fun _ => rfl) (fun _ => rfl) (fun _ => rfl) .save_ret

/-- A write leaves the function only when the program ends through `tohost`, and then the current
instruction is counted. -/
theorem renderWriteStmt_adds (target : WriteTarget X) (value : Expr X) :
    AddsOnLeave rt (em.instrIdx + 1) (em.renderWriteStmt target value) := by
  cases target with
  | reg idx => exact .ite_prop .nil (write_adds _ _)
  | mem base offset width =>
    refine .ite_prop (.ite _ ?_ (write_adds _ _)) (write_adds _ _)
    refine .cons (fun _ => rfl) (fun st => instret_handleTohostWrite _ st.guest) (fun _ => rfl)
      (.ite _ ?_ .nil)
    rw [if_pos hmode.counts, saveToState_eq hmode]
    exact .cons (fun _ => rfl) (fun _ => rfl) (fun _ => rfl) .add_save_ret
  | temp idx =>
    exact .single (fun _ => rfl) (fun st => Stmt.instret_exec_write (.temp idx) value st.guest)
      fun _ => rfl
  | _ => exact write_adds _ _

end CEmitter

section Statements

variable {em : CEmitter X}

mutual

theorem CEmitter.renderStmt_adds (hmode : em.config.instretMode.countsBlocks) (stmt : Stmt X) :
    AddsOnLeave rt (em.instrIdx + 1) (em.renderStmt stmt) := by
  cases stmt with
  | write target value => exact renderWriteStmt_adds hmode target value
  | ite cond thenStmts elseStmts =>
    exact .ite _ (renderStmts_adds hmode thenStmts) (renderStmts_adds hmode elseStmts)
  | externCall fnName args => exact .single (fun _ => rfl) (fun _ => rfl) fun _ => rfl

theorem CEmitter.renderStmts_adds (hmode : em.config.instretMode.countsBlocks)
    (stmts : List (Stmt X)) : AddsOnLeave rt (em.instrIdx + 1) (em.renderStmts stmts) := by
  cases stmts with
  | nil => exact .nil
  | cons stmt stmts => exact .append (renderStmt_adds hmode stmt) (renderStmts_adds hmode stmts)

end

end Statements

/-! ## Text that always leaves -/

/-- Control never reaches the end of the text. -/
def AlwaysLeaves (rt : Runtime X) (body : List (CStmt X)) : Prop :=
  ∀ st, (execAll rt body st).2.isSome

namespace AlwaysLeaves

variable {as bs : List (CStmt X)}

theorem append (hbs : AlwaysLeaves rt bs) : AlwaysLeaves rt (as ++ bs) := by
  intro st
  rcases h : execAll rt as st with ⟨st₁, _ | l⟩
  · rw [execAll_append_of_none h]
    exact hbs st₁
  · rw [execAll_append_of_some h]
    rfl

theorem ite_prop {p : Prop} [Decidable p] (has : AlwaysLeaves rt as) (hbs : AlwaysLeaves rt bs) :
    AlwaysLeaves rt (if p then as else bs) := by
  split_ifs
  · exact has
  · exact hbs

end AlwaysLeaves

variable {instrs : List (InstrIR X)}

namespace CEmitter

variable (em : CEmitter X)

theorem renderExitAt_leaves (code : Expr X) (pc : U64) :
    AlwaysLeaves rt (em.renderExitAt code pc) :=
  .append fun _ => rfl

theorem renderJumpStatic_leaves (target : U64) : AlwaysLeaves rt (em.renderJumpStatic target) :=
  .append (.ite_prop (fun _ => rfl) (em.renderExitAt_leaves _ _))

theorem renderJumpDynamic_leaves (target : CTarget X) :
    AlwaysLeaves rt (em.renderJumpDynamic target) :=
  .append fun _ => rfl

theorem renderBranchTarget_leaves (target : U64) : AlwaysLeaves rt (em.renderBranchTarget target) :=
  .ite_prop (.append fun _ => rfl) (em.renderExitAt_leaves _ _)

theorem renderTerminator_leaves (fallPc : U64) (term : Terminator X) :
    AlwaysLeaves rt (em.renderTerminator false fallPc term) := by
  cases term with
  | fall target => exact em.renderJumpStatic_leaves _
  | jump target => exact em.renderJumpStatic_leaves _
  | jumpDyn addr resolved =>
    cases resolved with
    | none => exact em.renderJumpDynamic_leaves _
    | some targets =>
      change AlwaysLeaves rt (em.renderJumpResolved _ addr)
      unfold renderJumpResolved
      split
      · exact em.renderJumpDynamic_leaves _
      · exact .append (em.renderJumpDynamic_leaves _)
      · exact .append (em.renderJumpDynamic_leaves _)
  | branch cond target fall hint => exact .append (em.renderBranchTarget_leaves _)
  | exit code => exact em.renderExitAt_leaves _ _
  | trap message => exact em.renderExitAt_leaves _ _

theorem renderInstruction_leaves (ir : InstrIR X) (fallPc : U64) (nextInstrPc : Option U64) :
    AlwaysLeaves rt (em.renderInstruction ir true fallPc nextInstrPc false) :=
  .append (.append (.append (renderTerminator_leaves _ _ _)))

/-- A function with instructions is left by its last instruction at the latest. -/
theorem renderInstructions_leaves (fallPc : U64) {last : CEmitter X → InstrIR X → List (CStmt X)}
    (hlast : ∀ em ir, AlwaysLeaves rt (last em ir)) (h : instrs ≠ []) :
    AlwaysLeaves rt (renderInstructions fallPc false last em instrs).flatten := by
  induction instrs generalizing em with
  | nil => exact absurd rfl h
  | cons ir rest ih =>
    cases rest with
    | nil =>
      rw [renderInstructions, List.flatten_singleton]
      exact hlast em ir
    | cons nextIr rest =>
      exact .append (ih (em.next ir) (List.cons_ne_nil _ _))

end CEmitter

theorem CProject.renderLast_leaves (rt : Runtime X) (project : CProject)
    (blockMap : U64 → Option (BlockIR X)) (endPc : U64) (em : CEmitter X) (ir : InstrIR X) :
    AlwaysLeaves rt (project.renderLast blockMap endPc em ir) := by
  unfold CProject.renderLast
  split
  · exact .append (CEmitter.renderJumpStatic_leaves _ _)
  · exact em.renderInstruction_leaves _ _ _

/-! ## What has been counted -/

/-- The counter where control stands: the one left behind, or the parameter if control goes on. -/
def outInstret : CState X × Option (CLeave X) → U64
  | (st, some l) => st.leaveInstret l
  | (st, none) => st.guest.instret

/-- Since `st₀`, `executed` instructions have been entered and the counter has grown by
`counted`. -/
structure Counted (st₀ : CState X) (counted executed : ℕ) (r : CState X × Option (CLeave X)) :
    Prop where
  instret : outInstret r = st₀.guest.instret + BitVec.ofNat 64 counted
  retired : r.1.retired = st₀.retired + executed

namespace Counted

variable {st₀ st st' : CState X} {l : CLeave X} {c e n : ℕ} {as bs : List (CStmt X)}

theorem refl (st : CState X) : Counted st 0 0 (st, none) where
  instret := (BitVec.add_zero _).symm
  retired := rfl

variable (h : Counted st₀ c e (st, none))
include h

theorem enter : Counted st₀ c (e + 1) (st.enter, none) where
  instret := h.instret
  retired := congrArg (· + 1) h.retired

theorem goesOn (has : AddsOnLeave rt n as)
    (hexec : execAll rt as st = (st', none)) : Counted st₀ c e (st', none) where
  instret := (has.goesOn hexec).trans h.instret
  retired := by
    have hretired := has.retired st
    rw [hexec] at hretired
    exact hretired.trans h.retired

theorem leaves (has : AddsOnLeave rt n as)
    (hexec : execAll rt as st = (st', some l)) : Counted st₀ (c + n) e (st', some l) where
  instret := by
    have hinstret : st.guest.instret = st₀.guest.instret + BitVec.ofNat 64 c := h.instret
    change st'.leaveInstret l = _
    rw [has.leaves hexec, hinstret, BitVec.add_assoc, ← BitVec.ofNat_add]
  retired := by
    have hretired := has.retired st
    rw [hexec] at hretired
    exact hretired.trans h.retired

/-- Text that adds nothing. -/
theorem exec (has : AddsOnLeave rt 0 as) :
    Counted st₀ c e (execAll rt as st) := by
  rcases hexec : execAll rt as st with ⟨st', _ | l⟩
  · exact h.goesOn has hexec
  · exact h.leaves has hexec

omit h

theorem append_of_some (h : Counted st₀ c e (execAll rt as st))
    (hsome : (execAll rt as st).2.isSome) :
    Counted st₀ c e (execAll rt (as ++ bs) st) := by
  rcases hexec : execAll rt as st with ⟨st', _ | l⟩
  · rw [hexec] at hsome
    cases hsome
  · rw [execAll_append_of_some hexec, ← hexec]
    exact h

/-- Text that adds nothing, after other text. -/
theorem append (h : Counted st₀ c e (execAll rt as st)) (hbs : AddsOnLeave rt 0 bs) :
    Counted st₀ c e (execAll rt (as ++ bs) st) := by
  rcases hexec : execAll rt as st with ⟨st', _ | l⟩
  · rw [execAll_append_of_none hexec]
    rw [hexec] at h
    exact h.exec hbs
  · exact h.append_of_some (by rw [hexec]; rfl)

/-- Counting at the end of the text of the last instruction. -/
theorem add (h : Counted st₀ 0 e (st, none)) (has : AddsOnLeave rt 0 as) :
    Counted st₀ n e (execAll rt ([.addInstret n] ++ as) st) := by
  have hinstret : st.guest.instret = st₀.guest.instret + BitVec.ofNat 64 0 := h.instret
  have hadded : Counted st₀ n e
      (st.update fun s => { s with instret := s.instret + BitVec.ofNat 64 n }, none) := by
    refine ⟨?_, h.retired⟩
    change st.guest.instret + BitVec.ofNat 64 n = _
    rw [hinstret, BitVec.add_zero]
  exact hadded.exec has

end Counted

/-! ## Instructions -/

/-- Whether the way out counts the instructions of the block. -/
def Way.counts : Way → Bool
  | .exitCheck | .takenInline => false
  | _ => true

namespace CEmitter

variable {em : CEmitter X} {ir : InstrIR X} {st₀ st st' : CState X} {e : ℕ} {way : Way}

variable (rt em) (hmode : em.config.instretMode.countsBlocks)
include hmode

/-- If no way out is taken, control goes on to the end of the instruction with nothing counted. -/
theorem head_none (hst : Counted st₀ 0 e (st, none))
    (hway : em.statementsWay rt ir st = (st', none)) :
    execAll rt (em.head ir) st = (st', none) ∧ Counted st₀ 0 (e + 1) (st', none) := by
  rw [execAll_head]
  unfold statementsWay at hway
  rcases hexec : execAll rt (em.renderStmts ir.statements) st.enter with ⟨st₁, _ | l⟩
  · rw [hexec] at hway
    dsimp only at hway
    split_ifs at hway with hexit
    · cases hway
    obtain rfl : st₁ = st' := congrArg Prod.fst hway
    refine ⟨?_, hst.enter.goesOn (renderStmts_adds hmode _) hexec⟩
    rw [execAll_append_of_none hexec]
    by_cases hwrite : Stmt.statementsWriteExit ir.statements
    · rw [if_pos hwrite]
      refine (execAll_ite _ _).trans (if_neg ?_)
      intro hexited
      exact hexit ⟨hwrite, of_decide_eq_true hexited⟩
    · rw [if_neg hwrite, execAll_nil]
  · rw [hexec] at hway
    cases hway

/-- If a way out is taken, the instruction is counted, unless it is the exit check. -/
theorem head_some (hst : Counted st₀ 0 e (st, none))
    (hway : em.statementsWay rt ir st = (st', some way)) :
    (execAll rt (em.head ir) st).2.isSome ∧
      Counted st₀ (if way.counts then em.instrIdx + 1 else 0) (e + 1)
        (execAll rt (em.head ir) st) := by
  rw [execAll_head]
  unfold statementsWay at hway
  rcases hexec : execAll rt (em.renderStmts ir.statements) st.enter with ⟨st₁, _ | l⟩
  · rw [hexec] at hway
    dsimp only at hway
    split_ifs at hway with hexit
    swap
    · cases hway
    obtain rfl : Way.exitCheck = way := Option.some.inj (congrArg Prod.snd hway)
    have hgoes := hst.enter.goesOn (renderStmts_adds hmode _) hexec
    have hholds : CCond.hasExited.holds rt st₁ = true := decide_eq_true hexit.2
    rw [execAll_append_of_none hexec, if_pos hexit.1]
    have hcheck : execAll rt em.renderExitCheck st₁ =
        execAll rt ([.setPc (.const em.currentPc)] ++ em.saveToState ++ [.ret]) st₁ :=
      (execAll_ite _ _).trans (if_pos hholds)
    rw [hcheck, List.append_assoc]
    refine ⟨?_, hgoes.exec (.cons (fun _ => rfl) (fun _ => rfl) (fun _ => rfl)
      (save_ret_adds hmode))⟩
    exact AlwaysLeaves.append (AlwaysLeaves.append fun _ => rfl) st₁
  · rw [hexec] at hway
    cases hway
    rw [execAll_append_of_some hexec]
    refine ⟨rfl, ?_⟩
    have hleft := hst.enter.leaves (renderStmts_adds hmode _) hexec
    rw [Nat.zero_add] at hleft
    exact hleft

theorem renderSideExit_taken {cond : Expr X} (target : U64) (hst : Counted st₀ 0 e (st, none))
    (hcond : cond.eval rt st.guest ≠ 0) :
    (execAll rt (em.renderSideExit cond target) st).2.isSome ∧
      Counted st₀ em.instrIdx e (execAll rt (em.renderSideExit cond target) st) := by
  have hsome : (execAll rt (em.renderSideExit cond target) st).2.isSome := by
    have hholds : (CCond.expr cond).holds rt st = true := decide_eq_true hcond
    rw [renderSideExit, execAll_ite, if_pos hholds]
    exact AlwaysLeaves.ite_prop (.append fun _ => rfl) (.append fun _ => rfl) st
  refine ⟨hsome, ?_⟩
  rcases hexec : execAll rt (em.renderSideExit cond target) st with ⟨st₁, _ | l⟩
  · rw [hexec] at hsome
    cases hsome
  · have hleft := hst.leaves (renderSideExit_adds hmode _ _) hexec
    rw [Nat.zero_add] at hleft
    exact hleft

omit hmode in
theorem renderSideExit_notTaken {cond : Expr X} (target : U64)
    (hcond : ¬ cond.eval rt st.guest ≠ 0) :
    execAll rt (em.renderSideExit cond target) st = (st, none) :=
  (execAll_ite _ _).trans (if_neg fun h => hcond (of_decide_eq_true h))

/-- At a branch that is not the last instruction, control leaves if the branch is taken and goes on
with nothing counted if it is not. -/
theorem renderInstructionEnd_notLast (fallPc : U64) (nextInstrPc : Option U64) (simple : Bool)
    (hst : Counted st₀ 0 e (st, none)) :
    let r := execAll rt (em.renderInstructionEnd false fallPc nextInstrPc simple) st
    if em.current.branches rt st.guest then r.2.isSome ∧ Counted st₀ em.instrIdx e r
    else r = (st, none) := by
  unfold renderInstructionEnd InstrIR.branches
  dsimp only
  rw [hmode.not_perInstruction]
  cases em.current.terminator with
  | branch cond target fall hint =>
    by_cases hcond : cond.eval rt st.guest ≠ 0
    · exact (if_pos (decide_eq_true hcond)).mpr (em.renderSideExit_taken rt hmode _ hst hcond)
    · exact (if_neg fun h => hcond (of_decide_eq_true h)).mpr
        (em.renderSideExit_notTaken rt _ hcond)
  | _ => rfl

/-- The last instruction counts itself and those before it. -/
theorem renderInstructionEnd_last (fallPc : U64) (nextInstrPc : Option U64) (simple : Bool)
    (hst : Counted st₀ 0 e (st, none)) :
    Counted st₀ em.instrIdx e
      (execAll rt (em.renderInstructionEnd true fallPc nextInstrPc simple) st) := by
  have hend : em.renderInstructionEnd true fallPc nextInstrPc simple =
      [.addInstret em.instrIdx] ++ em.renderTerminator simple fallPc em.current.terminator := by
    unfold renderInstructionEnd
    dsimp only
    rw [hmode.not_perInstruction, hmode.counts]
    rfl
  rw [hend]
  exact hst.add (renderTerminator_adds hmode simple fallPc _)

/-- The text of the last instruction. -/
theorem renderInstruction_last (ir : InstrIR X) (fallPc : U64) (nextInstrPc : Option U64)
    (simple : Bool) (hst : Counted st₀ 0 e (st, none)) :
    let way := (CEmitter.statementsWay rt { em with current := ir } ir st).2.getD .terminator
    Counted st₀ (if way.counts then em.instrIdx + 1 else 0) (e + 1)
      (execAll rt (em.renderInstruction ir true fallPc nextInstrPc simple) st) := by
  rw [renderInstruction_eq]
  rcases hway : CEmitter.statementsWay rt { em with current := ir } ir st with ⟨st₁, _ | way⟩
  · obtain ⟨hexec, hst₁⟩ := head_none rt { em with current := ir } hmode hst hway
    rw [execAll_append_of_none hexec]
    exact (em.next ir).renderInstructionEnd_last rt hmode fallPc nextInstrPc simple hst₁
  · obtain ⟨hsome, hcounted⟩ := head_some rt { em with current := ir } hmode hst hway
    exact hcounted.append_of_some hsome

/-- An instruction that is not the last one: control leaves by its statements or as a taken branch,
or goes on with nothing counted. -/
theorem renderInstruction_notLast (ir : InstrIR X) (fallPc : U64) (nextInstrPc : Option U64)
    (simple : Bool) (hst : Counted st₀ 0 e (st, none)) :
    let r := execAll rt (em.renderInstruction ir false fallPc nextInstrPc simple) st
    match CEmitter.statementsWay rt { em with current := ir } ir st with
    | (_, some way) =>
      r.2.isSome ∧ Counted st₀ (if way.counts then em.instrIdx + 1 else 0) (e + 1) r
    | (st', none) =>
      if ir.branches rt st'.guest then r.2.isSome ∧ Counted st₀ (em.instrIdx + 1) (e + 1) r
      else r = (st', none) ∧ Counted st₀ 0 (e + 1) (st', none) := by
  intro r
  have hr : r = execAll rt (em.renderInstruction ir false fallPc nextInstrPc simple) st := rfl
  rw [renderInstruction_eq] at hr
  rcases hway : CEmitter.statementsWay rt { em with current := ir } ir st with ⟨st₁, _ | way⟩
  · obtain ⟨hexec, hst₁⟩ := head_none rt { em with current := ir } hmode hst hway
    rw [execAll_append_of_none hexec] at hr
    have hend := (em.next ir).renderInstructionEnd_notLast rt hmode fallPc nextInstrPc simple hst₁
    rw [← hr] at hend
    by_cases hbranch : ir.branches rt st₁.guest
    · exact (if_pos hbranch).mpr ((if_pos hbranch).mp hend)
    · exact (if_neg hbranch).mpr ⟨(if_neg hbranch).mp hend, hst₁⟩
  · obtain ⟨hsome, hcounted⟩ := head_some rt { em with current := ir } hmode hst hway
    have hexec : r = execAll rt (CEmitter.head { em with current := ir } ir) st := by
      rcases hhead : execAll rt (CEmitter.head { em with current := ir } ir) st
        with ⟨st₂, _ | l⟩
      · rw [hhead] at hsome
        cases hsome
      · rw [hr, execAll_append_of_some hhead]
    exact hexec ▸ ⟨hsome, hcounted⟩

/-- The counter stays behind in an inlined block: fewer instructions have been counted than executed
before it, and none of its ways out makes up for that. -/
theorem renderAll_short (fallPc : U64) (simple : Bool)
    (hst : Counted st₀ 0 e (st, none)) (hidx : em.instrIdx < e) :
    ∃ c e', Counted st₀ c e' (execAll rt (em.renderAll fallPc simple instrs).flatten st) ∧
      c < e' ∧ e' ≤ e + instrs.length := by
  induction instrs generalizing em e st with
  | nil => exact ⟨0, e, hst, by omega, by simp⟩
  | cons ir rest ih =>
    cases rest with
    | nil =>
      have hlast := em.renderInstruction_last rt hmode ir fallPc none simple hst
      rw [renderAll, renderInstructions, List.flatten_singleton]
      refine ⟨_, e + 1, hlast, ?_, by simp⟩
      split_ifs <;> omega
    | cons nextIr rest =>
      rw [renderAll, renderInstructions, List.flatten_cons]
      have hstep := em.renderInstruction_notLast rt hmode ir fallPc
        (some (Xlen.toU64 nextIr.pc)) simple hst
      rcases hway : CEmitter.statementsWay rt { em with current := ir } ir st with ⟨st₁, _ | way⟩
      · rw [hway] at hstep
        by_cases hbranch : ir.branches rt st₁.guest
        · obtain ⟨hsome, hcounted⟩ := (if_pos hbranch).mp hstep
          exact ⟨_, _, hcounted.append_of_some hsome, by omega, by simp⟩
        · obtain ⟨hexec, hst₁⟩ := (if_neg hbranch).mp hstep
          rw [execAll_append_of_none hexec]
          obtain ⟨c, e', hcounted, hlt, hle⟩ :=
            ih (em.next ir) hmode hst₁ (Nat.succ_lt_succ hidx)
          exact ⟨c, e', hcounted, hlt, hle.trans (by simp; omega)⟩
      · rw [hway] at hstep
        refine ⟨_, _, hstep.2.append_of_some hstep.1, ?_, by simp⟩
        split_ifs <;> omega

/-- Behind a branch with an inline entry the counter stays behind. -/
theorem renderTakenInline_counted (ir : InstrIR X) (endPc : U64) (cond : Expr X)
    (inlined : Option (BlockIR X)) (hst : Counted st₀ 0 em.instrIdx (st, none)) :
    let r := execAll rt (em.renderTakenInline endPc cond inlined ir) st
    match execAll rt (em.renderStmts ir.statements) st.enter with
    | (_, some _) => Counted st₀ (em.instrIdx + 1) (em.instrIdx + 1) r
    | (_, none) => ∃ c e, Counted st₀ c e r ∧ c < e ∧
        e ≤ em.instrIdx + 1 + ((inlined.map (·.instructions)).getD []).length := by
  intro r
  have hr : r = execAll rt (em.renderTakenInline endPc cond inlined ir) st := rfl
  unfold renderTakenInline at hr
  rw [List.append_assoc, List.append_assoc, execAll_enter] at hr
  rcases hexec : execAll rt (em.renderStmts ir.statements) st.enter with ⟨st₁, _ | l⟩
  · have hst₁ := hst.enter.goesOn (renderStmts_adds hmode _) hexec
    rw [execAll_append_of_none hexec] at hr
    rw [hr]
    have hjump (after : CEmitter X) (hafter : after.config = em.config) :
        AddsOnLeave rt 0 (after.renderJumpStatic endPc) :=
      renderJumpStatic_adds (hafter ▸ hmode) endPc
    by_cases hcond : (CCond.expr cond).holds rt st₁
    · obtain ⟨c, e', hcounted, hlt, hle⟩ := em.renderAll_short rt hmode
        ((inlined.map fun b => Xlen.toU64 b.endPc).getD 0) true hst₁ (Nat.lt_succ_self _)
      refine ⟨c, e', Counted.append ?_ (hjump _ rfl), hlt, hle⟩
      rw [execAll_ite, if_pos hcond]
      exact hcounted
    · refine ⟨0, em.instrIdx + 1, Counted.append ?_ (hjump _ rfl), Nat.succ_pos _,
        Nat.le_add_right _ _⟩
      rw [execAll_ite, if_neg hcond]
      exact hst₁
  · have hleft := hst.enter.leaves (renderStmts_adds hmode _) hexec
    rw [execAll_append_of_some hexec] at hr
    rw [Nat.zero_add, ← hr] at hleft
    exact hleft

end CEmitter

/-! ## Blocks -/

namespace CProject

variable (rt) (project : CProject) {em : CEmitter X} {st₀ st : CState X}
  {blockMap : U64 → Option (BlockIR X)} {N : ℕ}

variable (hmode : em.config.instretMode.countsBlocks)
  (hinlined : ∀ start b, blockMap start = some b → b.instructions.length ≤ N)
include hmode hinlined

theorem renderLast_counted (endPc : U64) (ir : InstrIR X)
    (hst : Counted st₀ 0 em.instrIdx (st, none)) :
    ∃ c e, Counted st₀ c e (execAll rt (project.renderLast blockMap endPc em ir) st) ∧
      c ≤ e ∧ e ≤ em.instrIdx + 1 + N ∧ (c = e ↔ (project.lastWay rt em ir st).counts) := by
  unfold renderLast lastWay
  rcases project.takenInline ir with _ | ⟨cond, start⟩
  · have hlast := em.renderInstruction_last rt hmode ir endPc none false hst
    refine ⟨_, _, hlast, ?_, Nat.le_add_right _ _, ?_⟩
    · split_ifs <;> omega
    · split_ifs with hway <;> simp [hway]
  · have hlen : (((blockMap start).map (·.instructions)).getD []).length ≤ N := by
      cases hblock : blockMap start with
      | none => exact Nat.zero_le N
      | some b => exact hinlined start b hblock
    have hlast := em.renderTakenInline_counted rt hmode ir endPc cond (blockMap start) hst
    rcases hexec : execAll rt (em.renderStmts ir.statements) st.enter with ⟨st₁, _ | l⟩
    · rw [hexec] at hlast
      obtain ⟨c, e, hcounted, hlt, hle⟩ := hlast
      exact ⟨c, e, hcounted, hlt.le, by omega, by simp [Way.counts]; omega⟩
    · rw [hexec] at hlast
      exact ⟨_, _, hlast, le_rfl, Nat.le_add_right _ _, by simp [Way.counts]⟩

/-- The counter is right where control leaves the instructions of a block if and only if the way out
counts them. -/
theorem instructions_counted (endPc : U64) (hinstrs : instrs ≠ [])
    (hst : Counted st₀ 0 em.instrIdx (st, none)) :
    ∃ c e, Counted st₀ c e (execAll rt (CEmitter.renderInstructions endPc false
        (project.renderLast blockMap endPc) em instrs).flatten st) ∧
      c ≤ e ∧ e ≤ em.instrIdx + instrs.length + N ∧
      (c = e ↔ (project.instructionsWay rt em instrs st).counts) := by
  induction instrs generalizing em st with
  | nil => exact absurd rfl hinstrs
  | cons ir rest ih =>
    cases rest with
    | nil =>
      rw [CEmitter.renderInstructions, List.flatten_singleton]
      exact project.renderLast_counted rt hmode hinlined endPc ir hst
    | cons nextIr rest =>
      rw [CEmitter.renderInstructions, List.flatten_cons, instructionsWay]
      have hstep := em.renderInstruction_notLast rt hmode ir endPc
        (some (Xlen.toU64 nextIr.pc)) false hst
      rcases hway : CEmitter.statementsWay rt { em with current := ir } ir st with ⟨st₁, _ | way⟩
      · rw [hway] at hstep
        dsimp only
        by_cases hbranch : ir.branches rt st₁.guest
        · obtain ⟨hsome, hcounted⟩ := (if_pos hbranch).mp hstep
          rw [if_pos hbranch]
          exact ⟨_, _, hcounted.append_of_some hsome, le_rfl, by simp; omega, by simp [Way.counts]⟩
        · obtain ⟨hexec, hst₁⟩ := (if_neg hbranch).mp hstep
          rw [if_neg hbranch, execAll_append_of_none hexec]
          have hnext : (em.next ir).config.instretMode.countsBlocks := hmode
          obtain ⟨c, e, hcounted, hle, hlen, hiff⟩ := ih hnext (List.cons_ne_nil _ _) hst₁
          exact ⟨c, e, hcounted, hle, hlen.trans (by simp [CEmitter.next]; omega), hiff⟩
      · rw [hway] at hstep
        refine ⟨_, _, hstep.2.append_of_some hstep.1, ?_, by simp; omega, ?_⟩
        · split_ifs <;> omega
        · split_ifs with hcounts <;> simp [hcounts]

end CProject

/-- A function that is left with `c` counted and `e` executed is exact if they are the same
number. -/
theorem Counted.exact_iff {body : List (CStmt X)} {st : CState X} {c e : ℕ}
    (h : Counted st c e (execAll rt body st)) (hsome : (execAll rt body st).2.isSome)
    (hc : c < 2 ^ 64) (he : e < 2 ^ 64) : InstretExact rt body st ↔ c = e := by
  unfold InstretExact runFunction
  rcases hexec : execAll rt body st with ⟨st', _ | l⟩
  · rw [hexec] at hsome
    cases hsome
  · rw [hexec] at h
    have hinstret : st'.leaveInstret l = st.guest.instret + BitVec.ofNat 64 c := h.instret
    have hretired : st'.retired = st.retired + e := h.retired
    change st'.leaveInstret l = st.guest.instret + BitVec.ofNat 64 (st'.retired - st.retired) ↔ _
    rw [hinstret, hretired, Nat.add_sub_cancel_left, BitVec.add_right_inj]
    constructor
    · intro heq
      have hnat := congrArg BitVec.toNat heq
      rwa [BitVec.toNat_ofNat, BitVec.toNat_ofNat, Nat.mod_eq_of_lt hc, Nat.mod_eq_of_lt he] at hnat
    · rintro rfl
      rfl

theorem CEmitter.statementsWay_ne_footer {em : CEmitter X} {ir : InstrIR X} {st st' : CState X}
    {way : Way} (h : em.statementsWay rt ir st = (st', some way)) : way ≠ .footer := by
  rintro rfl
  unfold CEmitter.statementsWay at h
  split at h
  · cases h
  · split_ifs at h <;> cases h

namespace CProject

variable (project : CProject) {blockMap : U64 → Option (BlockIR X)} {block : BlockIR X}
  {st : CState X}

/-- Only a function without instructions is left through its end. -/
theorem instructionsWay_ne_footer {em : CEmitter X} (h : instrs ≠ []) :
    project.instructionsWay rt em instrs st ≠ .footer := by
  induction instrs generalizing em st with
  | nil => exact absurd rfl h
  | cons ir rest ih =>
    cases rest with
    | nil =>
      rw [instructionsWay]
      unfold lastWay
      split
      · split <;> nofun
      · rcases hway : CEmitter.statementsWay rt { em with current := ir } ir st
          with ⟨st₁, _ | way⟩
        · nofun
        · exact CEmitter.statementsWay_ne_footer hway
    | cons nextIr rest =>
      rw [instructionsWay]
      rcases hway : CEmitter.statementsWay rt { em with current := ir } ir st with ⟨st₁, _ | way⟩
      · dsimp only
        split_ifs
        · nofun
        · exact ih (List.cons_ne_nil _ _)
      · exact CEmitter.statementsWay_ne_footer hway

theorem instretExact_limit
    (hlimit : project.config.instretMode.suspends ∧ st.targetInstret ≤ st.guest.instret) :
    InstretExact rt (project.blockFunction blockMap block) st := by
  unfold InstretExact runFunction
  rw [project.execAll_blockFunction_limit hlimit]
  change st.guest.instret = st.guest.instret + BitVec.ofNat 64 (st.retired - st.retired)
  rw [Nat.sub_self, BitVec.add_zero]

/-- A function without instructions returns without saving the counter. -/
theorem instretExact_nil (hblock : block.instructions = [])
    (hlimit : ¬ (project.config.instretMode.suspends ∧ st.targetInstret ≤ st.guest.instret)) :
    InstretExact rt (project.blockFunction blockMap block) st ↔
      st.stateInstret = st.guest.instret := by
  have hexec : execAll rt (project.blockFunction blockMap block) st = (st, none) := by
    rw [project.execAll_blockFunction hlimit, hblock]
    rfl
  unfold InstretExact runFunction
  rw [hexec]
  change st.stateInstret = st.guest.instret + BitVec.ofNat 64 (st.retired - st.retired) ↔ _
  rw [Nat.sub_self, BitVec.add_zero]

end CProject

theorem Way.counts_iff {way : Way} (h : way ≠ .footer) (p : Prop) :
    way.counts ↔ way ≠ .exitCheck ∧ way ≠ .takenInline ∧ (way = .footer → p) := by
  cases way <;> simp [Way.counts] at h ⊢

/-- In the modes `Count` and `Suspend`, on the path that a state takes through the function of a
block, `instret` is exact if and only if the path leaves neither through an exit check nor behind a
branch with an inline entry, and a block without instructions is entered with the counter saved. -/
theorem instret_exact_iff (project : CProject) (hmode : project.config.instretMode.countsBlocks)
    {blockMap : U64 → Option (BlockIR X)}
    (hinlined : ∀ start b, blockMap start = some b → b.instructions.length < 2 ^ 63)
    {block : BlockIR X} (hlen : block.instructions.length < 2 ^ 63) (st : CState X) :
    let way := project.blockWay rt block st
    InstretExact rt (project.blockFunction blockMap block) st ↔
      way ≠ .exitCheck ∧ way ≠ .takenInline ∧
        (way = .footer → st.stateInstret = st.guest.instret) := by
  intro way
  have hway : way = project.blockWay rt block st := rfl
  unfold CProject.blockWay at hway
  by_cases hlimit : project.config.instretMode.suspends ∧ st.targetInstret ≤ st.guest.instret
  · rw [if_pos hlimit] at hway
    rw [hway]
    exact iff_of_true (project.instretExact_limit hlimit) ⟨nofun, nofun, nofun⟩
  · rw [if_neg hlimit] at hway
    by_cases hblock : block.instructions = []
    · rw [hblock, CProject.instructionsWay] at hway
      rw [hway, project.instretExact_nil hblock hlimit]
      simp
    · let em : CEmitter X := .new project.config project.inputs
      have hem : em.config.instretMode.countsBlocks := hmode
      obtain ⟨c, e, hcounted, hle, hbound, hiff⟩ := project.instructions_counted rt hem
        (fun start b hb => (hinlined start b hb).le) (Xlen.toU64 block.endPc) hblock (.refl st)
      have hleaves := em.renderInstructions_leaves (Xlen.toU64 block.endPc)
        (project.renderLast_leaves rt blockMap (Xlen.toU64 block.endPc)) hblock st
      rw [← project.execAll_blockFunction hlimit] at hcounted hleaves
      have he : e < 2 ^ 64 := by
        have hidx : em.instrIdx = 0 := rfl
        omega
      rw [hcounted.exact_iff hleaves (hle.trans_lt he) he, hiff, ← Way.counts_iff, hway]
      rw [hway]
      exact project.instructionsWay_ne_footer hblock

section ExitCall

/-- `addi a7, x0, 93; ecall` at `0x1000`: the exit call of the Linux table. -/
def exitCall : List (DecodedInstr .rv64) :=
  [⟨.i .addi, 0x1000, 4, 0x05D00893, .I 17 0 93⟩, ⟨.i .ecall, 0x1004, 4, 0x00000073, .none⟩]

/-- A block at `0x1000` made of decoded instructions. -/
def linuxBlock (instrs : List (DecodedInstr .rv64)) : BlockIR .rv64 :=
  (instrs.map (ExtensionRegistry.standardWith .rv64 (linuxHandler .standard)).lift).foldl
    BlockIR.push (.new 0x1000)

/-- A project that counts, with one block. -/
def countingProject : CProject where
  config := ⟨.count, false, false⟩
  inputs := ⟨0x1000, 0x1008, {0x1000}, ∅⟩
  takenInlines := ∅

/-- The state before the first block. -/
def startState : CState .rv64 := ⟨.zero .rv64, 0, 0, 0, 0⟩

theorem instret_exact_addi :
    InstretExact (.idle .rv64) (countingProject.blockFunction (fun _ => none)
      (linuxBlock (exitCall.take 1))) startState := by
  refine (instret_exact_iff countingProject (.inl rfl) ?_ (by decide +kernel) startState).2
    (by decide +kernel)
  intro start b hb
  cases hb

/-- The exit call is executed, and the state structure says that nothing has been. -/
theorem instret_exit_call_lost :
    (ExtensionRegistry.standardWith .rv64 (linuxHandler .standard)).decode
        [0x93, 0x08, 0xD0, 0x05] 0x1000 = exitCall[0]? ∧
      (ExtensionRegistry.standardWith .rv64 (linuxHandler .standard)).decode
        [0x73, 0x00, 0x00, 0x00] 0x1004 = exitCall[1]? ∧
      let body := countingProject.blockFunction (fun _ => none) (linuxBlock exitCall)
      let r := runFunction (.idle .rv64) body startState
      (r.1.retired = 2 ∧ r.2 = .ret ∧ r.1.stateInstret = 0) ∧
        ¬ InstretExact (.idle .rv64) body startState := by
  unfold InstretExact
  decide +kernel

end ExitCall

end Rvr
