import Rvr.Emit.Emitter

/-!
# Running emitted text

Rules for the pieces that the text of every function is made of: the start of an instruction, the
checks that return to the host, and the entry of a block function.
-/

namespace Rvr

open CStmt

variable {X : Xlen} {rt : Runtime X}

/-- The text of one more instruction is entered. -/
def CState.enter (st : CState X) : CState X := { st with retired := st.retired + 1 }

/-- The state with which a function returns to the host. -/
def CState.leaveAt (st : CState X) (s : GuestState X) (pc : X.Reg) : CState X :=
  { st with guest := { s with pc := pc }, stateInstret := s.instret }

theorem InstretMode.counts_of_suspends {m : InstretMode} (h : m.suspends = true) :
    m.counts = true := by
  cases m with
  | off | count => cases h
  | suspend | perInstruction => rfl

namespace CEmitter

/-! ## The start of an instruction -/

theorem execAll_renderTracePc (em : CEmitter X) (st : CState X) :
    execAll rt em.renderTracePc st = (st, none) := by
  unfold renderTracePc
  split_ifs <;> rfl

/-- The text of an instruction starts with nothing but its statements. -/
theorem execAll_enter (em : CEmitter X) (ir : InstrIR X) (body : List (CStmt X)) (st : CState X) :
    execAll rt ([.begin ir] ++ em.renderTracePc ++ body) st = execAll rt body st.enter := by
  refine execAll_append_of_none ?_
  exact execAll_renderTracePc em st.enter

/-- The text of an instruction up to its exit check. -/
def head (em : CEmitter X) (ir : InstrIR X) : List (CStmt X) :=
  [.begin ir] ++ em.renderTracePc ++ em.renderStmts ir.statements ++
    (if Stmt.statementsWriteExit ir.statements then em.renderExitCheck else [])

theorem execAll_head (em : CEmitter X) (ir : InstrIR X) (st : CState X) :
    execAll rt (em.head ir) st =
      execAll rt (em.renderStmts ir.statements ++
        (if Stmt.statementsWriteExit ir.statements then em.renderExitCheck else [])) st.enter := by
  unfold head
  rw [List.append_assoc _ (em.renderStmts _)]
  exact execAll_enter em ir _ st

/-- The text of an instruction is its head and its end, for which it has been counted. -/
theorem renderInstruction_eq (em : CEmitter X) (ir : InstrIR X) (isLast : Bool) (fallPc : U64)
    (nextInstrPc : Option U64) (simple : Bool) :
    em.renderInstruction ir isLast fallPc nextInstrPc simple =
      CEmitter.head { em with current := ir } ir ++
        (em.next ir).renderInstructionEnd isLast fallPc nextInstrPc simple := rfl

/-! ## Returning to the host -/

section Counting

variable {em : CEmitter X} (hcounts : em.config.instretMode.counts = true)

include hcounts

theorem execAll_leave (target : CTarget X) (st : CState X) :
    execAll rt ([.setPc target] ++ em.saveToState ++ [.ret]) st
      = (st.leaveAt st.guest (target.eval rt st), some .ret) := by
  rw [saveToState, if_pos hcounts]
  simp only [CState.leaveAt, execAll, exec, CState.update, List.cons_append, List.nil_append,
    BitVec.add_zero]

theorem execAll_renderExitCheck (st : CState X) :
    execAll rt em.renderExitCheck st
      = if st.guest.hasExited ≠ 0 then (st.leaveAt st.guest em.current.pc, some .ret)
        else (st, none) := by
  rw [renderExitCheck, execAll_ite, execAll_leave hcounts]
  simp only [CCond.holds, decide_eq_true_eq, execAll_nil, CTarget.eval, currentPc,
    Xlen.fromU64_toU64]

/-- Leaving with an exit code; the exit flag is already set when the code is evaluated. -/
theorem execAll_renderExitAt {code : Expr X} {value : X.Reg} {st : CState X}
    (hcode : code.eval rt { st.guest with hasExited := 1 } = value) (pc : U64) :
    execAll rt (em.renderExitAt code pc) st
      = (st.leaveAt { st.guest with hasExited := 1, exitCode := value.setWidth 8 } (X.fromU64 pc),
          some .ret) := by
  have hsplit : em.renderExitAt code pc
      = [.setExited, .setExitCode code] ++ ([.setPc (.const pc)] ++ em.saveToState ++ [.ret]) := by
    simp [renderExitAt]
  have hset : execAll rt [.setExited, .setExitCode code] st
      = ({ st with guest := { st.guest with hasExited := 1, exitCode := value.setWidth 8 } },
        none) := by
    simp only [execAll, exec, CState.update, hcode]
  rw [hsplit, execAll_append_of_none hset, execAll_leave hcounts]
  rfl

end Counting

/-- Below the limit a function goes on, at the limit it returns. -/
theorem execAll_renderInstretCheck (em : CEmitter X) (target : CTarget X) (st : CState X) :
    execAll rt (em.renderInstretCheck target) st
      = if em.config.instretMode.suspends ∧ st.targetInstret ≤ st.guest.instret
        then (st.leaveAt st.guest (target.eval rt st), some .ret) else (st, none) := by
  unfold renderInstretCheck
  by_cases hsuspends : em.config.instretMode.suspends
  · rw [if_pos hsuspends, execAll_ite,
      execAll_leave (InstretMode.counts_of_suspends hsuspends)]
    simp only [CCond.holds, decide_eq_true_eq, execAll_nil, hsuspends, true_and]
  · rw [if_neg hsuspends, if_neg fun h => hsuspends h.1]
    rfl

end CEmitter

/-! ## Block functions -/

namespace CProject

variable (project : CProject) {blockMap : U64 → Option (BlockIR X)} {block : BlockIR X}
  {st : CState X}

/-- At the limit. -/
theorem execAll_blockFunction_limit
    (hlimit : project.config.instretMode.suspends ∧ st.targetInstret ≤ st.guest.instret) :
    execAll rt (project.blockFunction blockMap block) st
      = (st.leaveAt st.guest block.startPc, some .ret) := by
  refine (execAll_append_of_some ((CEmitter.execAll_renderInstretCheck
    (.new project.config project.inputs) (.const (Xlen.toU64 block.startPc)) st).trans
      (if_pos hlimit))).trans ?_
  rw [CTarget.eval, Xlen.fromU64_toU64]

/-- Below the limit. -/
theorem execAll_blockFunction
    (hlimit : ¬ (project.config.instretMode.suspends ∧ st.targetInstret ≤ st.guest.instret)) :
    execAll rt (project.blockFunction blockMap block) st =
      execAll rt (CEmitter.renderInstructions (Xlen.toU64 block.endPc) false
        (project.renderLast blockMap (Xlen.toU64 block.endPc)) (.new project.config project.inputs)
        block.instructions).flatten st :=
  execAll_append_of_none ((CEmitter.execAll_renderInstretCheck
    (.new project.config project.inputs) (.const (Xlen.toU64 block.startPc)) st).trans
      (if_neg hlimit))

end CProject

end Rvr
