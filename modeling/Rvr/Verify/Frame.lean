import Rvr.Verify.Lifts

/-!
# Registers that an instruction writes

The analysis takes the written register of an instruction from its operands (`extract_written_reg`).
For every lift of the standard extensions this is right: executing the lifted statements leaves
every other register alone (`standardBody_writesOnly`).
-/

namespace Rvr

variable {X : Xlen}

/-! ## Statements that leave a register alone -/

mutual

/-- Whether a statement can write register `r`. -/
def Stmt.writesReg (r : ℕ) : Stmt X → Bool
  | .write target _ =>
    match target with
    | .reg idx => idx = r
    | _ => false
  | .ite _ thenStmts elseStmts =>
    Stmt.statementsWriteReg r thenStmts || Stmt.statementsWriteReg r elseStmts
  | .externCall _ _ => false

/-- Whether one of several statements can write register `r`. -/
def Stmt.statementsWriteReg (r : ℕ) : List (Stmt X) → Bool
  | [] => false
  | st :: sts => st.writesReg r || Stmt.statementsWriteReg r sts

end

theorem WriteTarget.readReg_write {rt : Runtime X} {s : GuestState X} {v : X.Reg} {r : ℕ}
    {t : WriteTarget X} (h : t ≠ .reg r) : (t.write rt s v).readReg r = s.readReg r := by
  cases t with
  | reg idx => exact GuestState.readReg_writeReg_ne s (fun hr => h (by rw [hr])) v
  | _ => rfl

mutual

theorem Stmt.readReg_exec (rt : Runtime X) (s : GuestState X) (r : ℕ) :
    ∀ st : Stmt X, st.writesReg r = false → (st.exec rt s).readReg r = s.readReg r
  | .write target value, h => by
    refine WriteTarget.readReg_write ?_
    rintro rfl
    exact absurd h (by simp [writesReg])
  | .ite cond thenStmts elseStmts, h => by
    rw [writesReg, Bool.or_eq_false_iff] at h
    rw [Stmt.exec_ite]
    split_ifs
    · exact Stmt.readReg_execAll rt s r elseStmts h.2
    · exact Stmt.readReg_execAll rt s r thenStmts h.1
  | .externCall _ _, _ => rfl

theorem Stmt.readReg_execAll (rt : Runtime X) (s : GuestState X) (r : ℕ) :
    ∀ sts : List (Stmt X), Stmt.statementsWriteReg r sts = false →
      (Stmt.execAll rt sts s).readReg r = s.readReg r
  | [], _ => rfl
  | st :: sts, h => by
    rw [statementsWriteReg, Bool.or_eq_false_iff] at h
    rw [Stmt.execAll_cons, Stmt.readReg_execAll rt (st.exec rt s) r sts h.2,
      Stmt.readReg_exec rt s r st h.1]

end

/-! ## Lifts that write at most one register -/

/-- A body that writes no register but `rd`; writes to `x0` do not count. -/
def Lifted.WritesOnly (body : Lifted X) (rd : Option ℕ) : Prop :=
  ∀ r, r ≠ 0 → rd ≠ some r → Stmt.statementsWriteReg r body.1 = false

/-- A write of no register but the destination of the operands. -/
def WriteTarget.WithinDest (args : InstrArgs) (target : WriteTarget X) (_ : Expr X) : Prop :=
  ∀ idx, target = .reg idx → args.Dest idx

theorem destClass (args : InstrArgs) :
    LiftClass False (fun _ : Expr X => True) (WriteTarget.WithinDest args) args where
  toExprClass := .univ
  writeReg hidx _ := by
    rintro _ ⟨⟩
    exact hidx
  writeCsr _ _ _ := by rintro _ ⟨⟩
  writeMem _ _ _ _ _ := by rintro _ ⟨⟩

mutual

theorem Stmt.Within.writesReg {args : InstrArgs} {r : ℕ} (hr : ¬ args.Dest r) {st : Stmt X}
    (h : st.Within (fun _ => True) (WriteTarget.WithinDest args)) : st.writesReg r = false := by
  cases st with
  | write target value =>
    cases target with
    | reg idx =>
      refine decide_eq_false ?_
      rintro rfl
      exact hr (h _ rfl)
    | _ => rfl
  | ite cond thenStmts elseStmts =>
    rw [Stmt.writesReg, Stmt.AllWithin.writesReg hr h.2.1, Stmt.AllWithin.writesReg hr h.2.2]
    rfl
  | externCall fnName args => rfl

theorem Stmt.AllWithin.writesReg {args : InstrArgs} {r : ℕ} (hr : ¬ args.Dest r)
    {sts : List (Stmt X)}
    (h : Stmt.AllWithin (fun _ => True) (WriteTarget.WithinDest args) sts) :
    Stmt.statementsWriteReg r sts = false := by
  cases sts with
  | nil => rfl
  | cons st sts =>
    rw [Stmt.statementsWriteReg, h.1.writesReg hr, Stmt.AllWithin.writesReg hr h.2]
    rfl

end

/-- A lift of a standard extension writes no register but the one its operands name. -/
theorem standardBody_writesOnly (d : DecodedInstr X) :
    (standardBody d).WritesOnly (extractWrittenReg d.args) := by
  intro r hr hrd
  have hbody := within_standardBody (destClass d.args) False.elim
    (fun _ _ => ⟨trivial, fun _ => by rintro _ ⟨⟩⟩) fun _ =>
      ⟨fun _ => by rintro _ ⟨⟩, fun _ => by rintro _ ⟨⟩⟩
  refine hbody.1.writesReg fun hdest => hrd ?_
  rwa [InstrArgs.Dest, if_neg hr] at hdest

end Rvr
