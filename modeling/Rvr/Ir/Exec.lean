import Rvr.Ir.Fold

/-!
# Rules for executing statements

What each kind of write does to each part of the guest state, and how statement lists execute.  The
field lemmas hold by definition and are tagged for `simp`; proofs about lifted instructions use them
and never unfold the state operations.
-/

namespace Rvr

variable {X : Xlen} {rt : Runtime X}

namespace GuestState

variable (s : GuestState X)

/-! ## Registers -/

@[simp] theorem readReg_zero : s.readReg 0 = 0 := rfl

theorem readReg_writeReg (r q : ℕ) (v : X.Reg) :
    (s.writeReg r v).readReg q = if q = r ∧ q ≠ 0 then v else s.readReg q := by
  unfold readReg writeReg
  by_cases hq : q = 0
  · simp [hq]
  · by_cases hqr : q = r
    · subst hqr; simp [hq]
    · by_cases hr : r = 0
      · simp [hr]
      · simp [hqr, hr]

/-- A register other than the written one keeps its value. -/
theorem readReg_writeReg_ne {r q : ℕ} (h : q ≠ r) (v : X.Reg) :
    (s.writeReg r v).readReg q = s.readReg q := by
  rw [readReg_writeReg, if_neg (fun hq => h hq.1)]

/-- A register other than `x0` holds what was last written to it. -/
theorem readReg_writeReg_self {r : ℕ} (h : r ≠ 0) (v : X.Reg) :
    (s.writeReg r v).readReg r = v := by
  rw [readReg_writeReg, if_pos ⟨rfl, h⟩]

/-- Writing back what a register holds changes nothing. -/
theorem writeReg_readReg_self (r : ℕ) : s.writeReg r (s.readReg r) = s := by
  unfold writeReg readReg
  split_ifs
  · rfl
  · rw [Function.update_eq_self]

@[simp] theorem writeReg_zero (v : X.Reg) : s.writeReg 0 v = s := rfl

section Fields

variable (r : ℕ) (v : X.Reg)

@[simp] theorem writeReg_mem : (s.writeReg r v).mem = s.mem := rfl
@[simp] theorem writeReg_csrs : (s.writeReg r v).csrs = s.csrs := rfl
@[simp] theorem writeReg_instret : (s.writeReg r v).instret = s.instret := rfl
@[simp] theorem writeReg_resAddr : (s.writeReg r v).resAddr = s.resAddr := rfl
@[simp] theorem writeReg_resValid : (s.writeReg r v).resValid = s.resValid := rfl
@[simp] theorem writeReg_hasExited : (s.writeReg r v).hasExited = s.hasExited := rfl
@[simp] theorem writeReg_exitCode : (s.writeReg r v).exitCode = s.exitCode := rfl
@[simp] theorem writeReg_temps : (s.writeReg r v).temps = s.temps := rfl

end Fields

/-! ## Control and status registers -/

/-- A CSR that is not a counter holds what was last written to it. -/
theorem readCsr_writeCsr_self {c : ℕ} (h : isCounter c = false) (h' : isCounterHigh c = false)
    (v : X.Reg) : (s.writeCsr c v).readCsr c = v := by
  simp [readCsr, writeCsr, h, h']

end GuestState

/-! ## Statements -/

namespace Stmt

variable (s : GuestState X)

/-- A write whose value is not a runtime call writes the value to the target. -/
theorem exec_write {t : WriteTarget X} {e : Expr X} (h : e.isCall = false) :
    (Stmt.write t e).exec rt s = t.write rt s (e.eval rt s) := by
  change t.write rt { s with mem := e.memAfter rt s } (e.eval rt s) = _
  rw [Expr.memAfter_of_isCall h]

section Targets

variable {e : Expr X} (h : e.isCall = false)
include h

theorem exec_writeReg (r : ℕ) : (writeReg r e).exec rt s = s.writeReg r (e.eval rt s) :=
  exec_write s h

theorem exec_writeTemp (i : ℕ) :
    (writeTemp i e).exec rt s = { s with temps := Function.update s.temps i (e.eval rt s) } :=
  exec_write s h

theorem exec_writeMem (base : Expr X) (offset : BitVec 16) (width : ℕ) :
    (writeMem base offset e width).exec rt s =
      s.storeMem (base.eval rt s + offset.signExtend X.value) width (e.eval rt s) :=
  exec_write s h

/-- A store without an offset. -/
theorem exec_writeMem_zero (base : Expr X) (width : ℕ) :
    (writeMem base 0 e width).exec rt s = s.storeMem (base.eval rt s) width (e.eval rt s) := by
  have hoffset : (0 : BitVec 16).signExtend X.value = 0#X.value := by cases X <;> rfl
  rw [exec_writeMem s h, hoffset, BitVec.add_zero]

end Targets

theorem exec_setReservation :
    (writeResValid (.imm (X.fromU64 1))).exec rt s = { s with resValid := 1 } := by
  cases X <;> rfl

theorem exec_clearReservation :
    (writeResValid (.imm (X.fromU64 0))).exec rt s = { s with resValid := 0 } := by
  cases X <;> rfl

@[simp] theorem execAll_nil : execAll rt [] s = s := rfl

@[simp] theorem execAll_cons (st : Stmt X) (sts : List (Stmt X)) :
    execAll rt (st :: sts) s = execAll rt sts (st.exec rt s) := rfl

theorem execAll_append (as bs : List (Stmt X)) :
    execAll rt (as ++ bs) s = execAll rt bs (execAll rt as s) := by
  induction as generalizing s with
  | nil => rfl
  | cons a as ih => rw [List.cons_append, execAll_cons, execAll_cons, ih]

theorem statementsWriteExit_append (as bs : List (Stmt X)) :
    statementsWriteExit (as ++ bs) = (statementsWriteExit as || statementsWriteExit bs) := by
  induction as with
  | nil => rfl
  | cons a as ih =>
    rw [List.cons_append, statementsWriteExit, statementsWriteExit, ih, Bool.or_assoc]

theorem exec_ite (c : Expr X) (ts es : List (Stmt X)) :
    (Stmt.ite c ts es).exec rt s =
      if c.eval rt s = 0 then execAll rt es s else execAll rt ts s := rfl

end Stmt

/-- An instruction none of whose statements can exit runs its statements and then its
terminator. -/
theorem InstrIR.exec_of_not_writesExit {i : InstrIR X} (s : GuestState X)
    (h : Stmt.statementsWriteExit i.statements = false) :
    i.exec rt s =
      (Stmt.execAll rt i.statements s,
        i.terminator.control rt (Stmt.execAll rt i.statements s) i.nextPc) := by
  simp [InstrIR.exec, h]

/-- The state after an instruction is the one its statements leave, whatever the terminator does. -/
theorem InstrIR.exec_fst (i : InstrIR X) (s : GuestState X) :
    (i.exec rt s).1 = Stmt.execAll rt i.statements s := by
  unfold InstrIR.exec
  simp only
  split_ifs <;> rfl

end Rvr
