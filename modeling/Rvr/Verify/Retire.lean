import Rvr.Emit.Rules
import Rvr.Verify.Lifts

/-!
# Retiring instructions

The emitted code keeps the pc only in its control flow: `state->pc` is written where control leaves
to the host and is stale in between.  What a lifted instruction does to the rest of the state does
not depend on that field (`retire_setPc`), and the statements that are rendered for it do what the
statements of the IR do (`execAll_renderStmts`).  The exceptions are writes to the `tohost` address,
which are calls of the host when the host interface is enabled.
-/

namespace Rvr

open Stmt

variable {X : Xlen} {rt : Runtime X}

/-! ## Expressions that do not read the pc -/

mutual

/-- An expression that does not read `state->pc`. -/
def Expr.PcFree : Expr X → Prop
  | .pc => False
  | .mem base _ _ _ => base.PcFree
  | .memAddr addr _ _ => addr.PcFree
  | .unary _ e => e.PcFree
  | .binary _ l r => l.PcFree ∧ r.PcFree
  | .ternary _ c t e => c.PcFree ∧ t.PcFree ∧ e.PcFree
  | .externCall _ args _ => Expr.AllPcFree args
  | _ => True

def Expr.AllPcFree : List (Expr X) → Prop
  | [] => True
  | e :: es => e.PcFree ∧ Expr.AllPcFree es

end

/-- A state with another `pc` field. -/
def GuestState.setPc (s : GuestState X) (pc : X.Reg) : GuestState X := { s with pc := pc }

/-- A host whose functions do not read `state->pc`. -/
def Runtime.IgnoresPc (rt : Runtime X) : Prop :=
  ∀ name args (s : GuestState X) pc,
    rt.ret name args (s.setPc pc) = rt.ret name args s ∧
      rt.mem name args (s.setPc pc) = rt.mem name args s

section SetPc

variable (s : GuestState X) (pc : X.Reg)

mutual

theorem Expr.eval_setPc (hrt : rt.IgnoresPc) {e : Expr X} (h : e.PcFree) :
    e.eval rt (s.setPc pc) = e.eval rt s := by
  cases e with
  | pc => cases h
  | mem base offset width signed =>
    have hbase : base.PcFree := h
    simp only [Expr.eval, Expr.eval_setPc hrt hbase]
    rfl
  | memAddr addr width signed =>
    have haddr : addr.PcFree := h
    simp only [Expr.eval, Expr.eval_setPc hrt haddr]
    rfl
  | unary op e =>
    have he : e.PcFree := h
    simp only [Expr.eval, Expr.eval_setPc hrt he]
  | binary op l r =>
    obtain ⟨hl, hr⟩ := h
    simp only [Expr.eval, Expr.eval_setPc hrt hl, Expr.eval_setPc hrt hr]
  | ternary op c t e =>
    obtain ⟨hc, ht, he⟩ := h
    simp only [Expr.eval, Expr.eval_setPc hrt hc, Expr.eval_setPc hrt ht, Expr.eval_setPc hrt he]
  | externCall name args width =>
    have hargs : Expr.AllPcFree args := h
    simp only [Expr.eval, Expr.evalArgs_setPc hrt hargs]
    exact (hrt name _ s pc).1
  | _ => rfl

theorem Expr.evalArgs_setPc (hrt : rt.IgnoresPc) {es : List (Expr X)} (h : Expr.AllPcFree es) :
    Expr.evalArgs rt (s.setPc pc) es = Expr.evalArgs rt s es := by
  cases es with
  | nil => rfl
  | cons e es =>
    obtain ⟨he, hes⟩ := h
    simp only [Expr.evalArgs, Expr.eval_setPc hrt he, Expr.evalArgs_setPc hrt hes]

end

theorem Expr.memAfter_setPc (hrt : rt.IgnoresPc) {e : Expr X} (h : e.PcFree) :
    e.memAfter rt (s.setPc pc) = e.memAfter rt s := by
  cases e with
  | externCall name args width =>
    have hargs : Expr.AllPcFree args := h
    simp only [Expr.memAfter, Expr.evalArgs_setPc s pc hrt hargs]
    exact (hrt name _ s pc).2
  | _ => rfl

end SetPc

/-! ## Plain statements -/

/-- An expression that does not read the pc and is not a call. -/
def Expr.Plain (e : Expr X) : Prop := e.PcFree ∧ e.isCall = false

/-- A write that neither reads nor writes the pc, and that does not drop the result of a call:
writes to `x0` are not rendered. -/
def WriteTarget.PlainWrite (target : WriteTarget X) (value : Expr X) : Prop :=
  value.PcFree ∧
    match target with
    | .reg idx => idx = 0 → value.isCall = false
    | .mem base _ _ => base.PcFree
    | .pc => False
    | _ => True

/-- Statements made of plain expressions and writes. -/
abbrev Stmt.AllPlain (sts : List (Stmt X)) : Prop :=
  Stmt.AllWithin Expr.Plain WriteTarget.PlainWrite sts

/-- What the lifts use is plain. -/
theorem plainExprs : ExprClass (X := X) False Expr.Plain where
  imm _ := ⟨trivial, rfl⟩
  reg _ := ⟨trivial, rfl⟩
  csr _ := ⟨trivial, rfl⟩
  resAddr := ⟨trivial, rfl⟩
  resValid := ⟨trivial, rfl⟩
  mem _ _ _ h := ⟨h.1, rfl⟩
  memAddr _ _ h := ⟨h.1, rfl⟩
  unary _ _ h := ⟨h.1, rfl⟩
  binary _ _ _ _ hl hr := ⟨⟨hl.1, hr.1⟩, rfl⟩
  select hc ht he := ⟨⟨hc.1, ht.1, he.1⟩, rfl⟩

theorem plainClass (args : InstrArgs) :
    LiftClass (X := X) False Expr.Plain WriteTarget.PlainWrite args
    where
  toExprClass := plainExprs
  writeReg _ h := ⟨h.1, fun _ => h.2⟩
  writeCsr _ _ h := ⟨h.1, trivial⟩
  writeMem _ _ _ hbase h := ⟨h.1, hbase.1⟩

theorem plain_hasReservation : HasReservation (X := X) Expr.Plain WriteTarget.PlainWrite :=
  ⟨fun h => ⟨h.1, trivial⟩, fun h => ⟨h.1, trivial⟩⟩

theorem plain_hasTemps : HasTemps (X := X) Expr.Plain WriteTarget.PlainWrite :=
  fun _ => ⟨⟨trivial, rfl⟩, fun h => ⟨h.1, trivial⟩⟩

theorem allPcFree_callArgs (args : ℕ) :
    Expr.AllPcFree (SyscallTable.callArgs args : List (Expr X)) := by
  have hregs (is : List ℕ) : Expr.AllPcFree (is.map fun i => (.read (REG_A0 + i) : Expr X)) := by
    induction is with
    | nil => trivial
    | cons i is ih => exact ⟨trivial, ih⟩
  exact ⟨trivial, hregs _⟩

theorem plainSyscalls : SyscallClass (X := X) Expr.Plain WriteTarget.PlainWrite where
  toExprClass := plainExprs
  writeA0 h := ⟨h.1, fun _ => h.2⟩
  call _ _ _ := ⟨allPcFree_callArgs _, fun h => absurd h (by decide)⟩
  writeExited h := ⟨h.1, trivial⟩
  writeExitCode h := ⟨h.1, trivial⟩

/-- Every instruction that the standard registry lifts is plain. -/
theorem plain_lift {handler : DecodedInstr X → InstrIR X} (hhandler : IsHandler handler)
    {d : DecodedInstr X} (hstd : d.opid.isStandard = true) :
    let ir := (ExtensionRegistry.standardWith X handler).lift d
    Stmt.AllPlain ir.statements ∧ ir.terminator.Within Expr.Plain :=
  within_lift (plainClass d.args) plainSyscalls plain_hasTemps
    (fun _ => plain_hasReservation) hhandler hstd

/-! ## Statements -/

section Statements

variable (s : GuestState X) (pc : X.Reg)

theorem WriteTarget.write_setPc (hrt : rt.IgnoresPc) {target : WriteTarget X} {value : Expr X}
    (h : target.PlainWrite value) (v : X.Reg) :
    target.write rt (s.setPc pc) v = (target.write rt s v).setPc pc := by
  cases target with
  | mem base offset width =>
    have hbase : base.PcFree := h.2
    simp only [WriteTarget.write, Expr.eval_setPc s pc hrt hbase]
    rfl
  | pc => exact absurd h.2 id
  | _ => rfl

mutual

theorem Stmt.exec_setPc (hrt : rt.IgnoresPc) {st : Stmt X}
    (h : st.Within Expr.Plain WriteTarget.PlainWrite) (s : GuestState X) :
    st.exec rt (s.setPc pc) = (st.exec rt s).setPc pc := by
  cases st with
  | write target value =>
    have hwrite : target.PlainWrite value := h
    have hmem := Expr.memAfter_setPc s pc hrt hwrite.1
    have heval := Expr.eval_setPc s pc hrt hwrite.1
    rw [exec, heval, hmem]
    exact WriteTarget.write_setPc { s with mem := value.memAfter rt s } pc hrt hwrite _
  | ite cond thenStmts elseStmts =>
    obtain ⟨hcond, hthen, helse⟩ := h
    rw [exec_ite, exec_ite, Expr.eval_setPc s pc hrt hcond.1]
    split_ifs
    · exact execAll_setPc hrt helse s
    · exact execAll_setPc hrt hthen s
  | externCall fnName args =>
    have hargs (es : List (Expr X)) (hes : ∀ e ∈ es, e.Plain) : Expr.AllPcFree es := by
      induction es with
      | nil => trivial
      | cons e es ih =>
        exact ⟨(hes e List.mem_cons_self).1, ih fun e he => hes e (List.mem_cons_of_mem _ he)⟩
    simp only [exec, Expr.evalArgs_setPc s pc hrt (hargs args h)]
    rw [(hrt fnName _ s pc).2]
    rfl

theorem Stmt.execAll_setPc (hrt : rt.IgnoresPc) {sts : List (Stmt X)} (h : Stmt.AllPlain sts)
    (s : GuestState X) : execAll rt sts (s.setPc pc) = (execAll rt sts s).setPc pc := by
  cases sts with
  | nil => rfl
  | cons st sts =>
    rw [execAll_cons, exec_setPc hrt h.1 s]
    exact execAll_setPc hrt h.2 (st.exec rt s)

end

end Statements

/-! ## Rendered statements -/

mutual

/-- No store of the statement that the host interface looks at goes to `tohost`. -/
def Stmt.AvoidsTohost (rt : Runtime X) : Stmt X → GuestState X → Prop
  | .write (.mem base offset width) _, s =>
    width = 4 ∨ width = 8 → (base.eval rt s).setWidth 32 + offset.signExtend 32 ≠ TOHOST_ADDR
  | .ite cond thenStmts elseStmts, s =>
    if cond.eval rt s = 0 then Stmt.AllAvoidTohost rt elseStmts s
    else Stmt.AllAvoidTohost rt thenStmts s
  | _, _ => True

def Stmt.AllAvoidTohost (rt : Runtime X) : List (Stmt X) → GuestState X → Prop
  | [], _ => True
  | st :: sts, s => st.AvoidsTohost rt s ∧ Stmt.AllAvoidTohost rt sts (st.exec rt s)

end

mutual

/-- Where the stores go does not depend on the `pc` field. -/
theorem Stmt.avoidsTohost_setPc (hrt : rt.IgnoresPc) {st : Stmt X}
    (h : st.Within Expr.Plain WriteTarget.PlainWrite) {s : GuestState X} {pc : X.Reg}
    (havoid : st.AvoidsTohost rt (s.setPc pc)) : st.AvoidsTohost rt s := by
  cases st with
  | write target value =>
    cases target with
    | mem base offset width =>
      have hbase : base.PcFree := h.2
      simp only [Stmt.AvoidsTohost, Expr.eval_setPc s pc hrt hbase] at havoid ⊢
      exact havoid
    | _ => trivial
  | ite cond thenStmts elseStmts =>
    obtain ⟨hcond, hthen, helse⟩ := h
    rw [Stmt.AvoidsTohost, Expr.eval_setPc s pc hrt hcond.1] at havoid
    rw [Stmt.AvoidsTohost]
    split_ifs at havoid ⊢
    · exact allAvoidTohost_setPc hrt helse havoid
    · exact allAvoidTohost_setPc hrt hthen havoid
  | externCall fnName args => trivial

theorem Stmt.allAvoidTohost_setPc (hrt : rt.IgnoresPc) {sts : List (Stmt X)}
    (h : Stmt.AllPlain sts) {s : GuestState X} {pc : X.Reg}
    (havoid : Stmt.AllAvoidTohost rt sts (s.setPc pc)) : Stmt.AllAvoidTohost rt sts s := by
  cases sts with
  | nil => trivial
  | cons st sts =>
    obtain ⟨hst, hsts⟩ := havoid
    rw [exec_setPc pc hrt h.1 s] at hsts
    exact ⟨avoidsTohost_setPc hrt h.1 hst, allAvoidTohost_setPc hrt h.2 hsts⟩

end

namespace CEmitter

variable (em : CEmitter X)

/-- A write is rendered as itself. -/
theorem execAll_write (target : WriteTarget X) (value : Expr X) (st : CState X) :
    CStmt.execAll rt [.write target value] st =
      (st.update ((Stmt.write target value).exec rt), none) := rfl

theorem execAll_renderWriteStmt {target : WriteTarget X} {value : Expr X}
    (h : target.PlainWrite value) {st : CState X}
    (havoid : em.config.htifEnabled = true →
      (Stmt.write target value).AvoidsTohost rt st.guest) :
    CStmt.execAll rt (em.renderWriteStmt target value) st =
      (st.update ((Stmt.write target value).exec rt), none) := by
  cases target with
  | reg idx =>
    unfold renderWriteStmt
    dsimp only
    split_ifs with hidx
    · -- a write to `x0` is dropped
      subst hidx
      have hexec : (Stmt.write (.reg 0) value).exec rt st.guest = st.guest :=
        exec_write st.guest (h.2 rfl)
      unfold CState.update
      rw [hexec, CStmt.execAll_nil]
    · exact execAll_write _ _ _
  | mem base offset width =>
    unfold renderWriteStmt
    dsimp only
    split_ifs with htohost
    · have hother : ¬ (CCond.isTohost base offset).holds rt st = true := fun hholds =>
        havoid htohost.1 htohost.2 (of_decide_eq_true hholds)
      unfold renderMemWriteTohost
      rw [CStmt.execAll_ite, if_neg hother]
      exact execAll_write _ _ _
    · exact execAll_write _ _ _
  | _ => rfl

mutual

theorem execAll_renderStmt {stmt : Stmt X} (h : stmt.Within Expr.Plain WriteTarget.PlainWrite)
    {st : CState X} (havoid : em.config.htifEnabled = true → stmt.AvoidsTohost rt st.guest) :
    CStmt.execAll rt (em.renderStmt stmt) st = (st.update (stmt.exec rt), none) := by
  cases stmt with
  | write target value => exact em.execAll_renderWriteStmt h havoid
  | ite cond thenStmts elseStmts =>
    obtain ⟨-, hthen, helse⟩ := h
    simp only [Stmt.AvoidsTohost] at havoid
    rw [renderStmt, CStmt.execAll_ite]
    unfold CState.update
    by_cases hcond : cond.eval rt st.guest = 0
    · have hnot : ¬ (CCond.expr cond).holds rt st = true := fun hh => of_decide_eq_true hh hcond
      rw [if_pos hcond] at havoid
      rw [if_neg hnot, exec_ite, if_pos hcond]
      exact execAll_renderStmts helse havoid
    · have hholds : (CCond.expr cond).holds rt st = true := decide_eq_true hcond
      rw [if_neg hcond] at havoid
      rw [if_pos hholds, exec_ite, if_neg hcond]
      exact execAll_renderStmts hthen havoid
  | externCall fnName args => rfl

/-- The text of statements does what the statements do, if it does not call the host. -/
theorem execAll_renderStmts {stmts : List (Stmt X)} (h : Stmt.AllPlain stmts) {st : CState X}
    (havoid : em.config.htifEnabled = true → Stmt.AllAvoidTohost rt stmts st.guest) :
    CStmt.execAll rt (em.renderStmts stmts) st = (st.update (execAll rt stmts), none) := by
  cases stmts with
  | nil => rfl
  | cons stmt stmts =>
    rw [renderStmts, CStmt.execAll_append_of_none
      (execAll_renderStmt h.1 fun hhtif => (havoid hhtif).1)]
    exact execAll_renderStmts h.2 fun hhtif => (havoid hhtif).2

end

end CEmitter

/-! ## Retiring -/

/-- How an instruction ends: the program exits, or control goes to an address. -/
inductive Retired (X : Xlen)
  | exited (s : GuestState X)
  | goto (s : GuestState X) (pc : X.Reg)

/-- The program exits with a code, or goes on. -/
def Retired.ofControl (s : GuestState X) : Control X → Retired X
  | .goto pc => .goto s pc
  | .exit code => .exited { s with hasExited := 1, exitCode := code }

/-- A state with one more instruction counted. -/
def GuestState.count (s : GuestState X) : GuestState X := { s with instret := s.instret + 1 }

/-- Whether the program exits at the exit check of an instruction. -/
def InstrIR.exits (rt : Runtime X) (ir : InstrIR X) (s : GuestState X) : Prop :=
  statementsWriteExit ir.statements ∧ (execAll rt ir.statements s).hasExited ≠ 0

instance (ir : InstrIR X) (s : GuestState X) : Decidable (ir.exits rt s) :=
  inferInstanceAs (Decidable (_ ∧ _))

/-- Execute the statements of an instruction and its exit check; if the program goes on, count the
instruction and pass control on. -/
def InstrIR.retire (rt : Runtime X) (ir : InstrIR X) (s : GuestState X) : Retired X :=
  let s₁ := execAll rt ir.statements s
  if ir.exits rt s then .exited s₁
  else .ofControl s₁.count (ir.terminator.control rt s₁.count ir.nextPc)

theorem InstrIR.retire_of_exits {ir : InstrIR X} {s : GuestState X} (h : ir.exits rt s) :
    ir.retire rt s = .exited (execAll rt ir.statements s) := if_pos h

theorem InstrIR.retire_of_not_exits {ir : InstrIR X} {s : GuestState X} (h : ¬ ir.exits rt s) :
    ir.retire rt s = .ofControl (execAll rt ir.statements s).count
      (ir.terminator.control rt (execAll rt ir.statements s).count ir.nextPc) := if_neg h

def Retired.setPc (pc : X.Reg) : Retired X → Retired X
  | .exited s => .exited (s.setPc pc)
  | .goto s target => .goto (s.setPc pc) target

theorem Retired.ofControl_setPc (s : GuestState X) (pc : X.Reg) (c : Control X) :
    Retired.ofControl (s.setPc pc) c = (Retired.ofControl s c).setPc pc := by
  cases c <;> rfl

theorem Terminator.control_setPc (hrt : rt.IgnoresPc) {term : Terminator X}
    (h : term.Within Expr.Plain) (s : GuestState X) (pc nextPc : X.Reg) :
    term.control rt (s.setPc pc) nextPc = term.control rt s nextPc := by
  cases term with
  | jumpDyn addr resolved =>
    have haddr : addr.Plain := h.1
    simp only [Terminator.control, Expr.eval_setPc s pc hrt haddr.1]
  | branch cond target fall hint =>
    have hcond : cond.Plain := h
    simp only [Terminator.control, Expr.eval_setPc s pc hrt hcond.1]
  | exit code =>
    have hcode : code.Plain := h.1
    simp only [Terminator.control, Expr.eval_setPc s pc hrt hcode.1]
  | _ => rfl

/-- What an instruction does does not depend on the `pc` field, and it keeps the field. -/
theorem InstrIR.retire_setPc (hrt : rt.IgnoresPc) {ir : InstrIR X}
    (hstmts : Stmt.AllPlain ir.statements) (hterm : ir.terminator.Within Expr.Plain)
    (s : GuestState X) (pc : X.Reg) : ir.retire rt (s.setPc pc) = (ir.retire rt s).setPc pc := by
  have hexec := execAll_setPc pc hrt hstmts s
  by_cases hexit : ir.exits rt s
  · have hexit' : ir.exits rt (s.setPc pc) := by
      unfold InstrIR.exits
      rw [hexec]
      exact hexit
    rw [InstrIR.retire_of_exits hexit, InstrIR.retire_of_exits hexit', hexec]
    rfl
  · have hexit' : ¬ ir.exits rt (s.setPc pc) := by
      unfold InstrIR.exits
      rw [hexec]
      exact hexit
    rw [InstrIR.retire_of_not_exits hexit, InstrIR.retire_of_not_exits hexit', hexec]
    change Retired.ofControl ((execAll rt ir.statements s).count.setPc pc)
      (ir.terminator.control rt ((execAll rt ir.statements s).count.setPc pc) ir.nextPc) = _
    rw [Terminator.control_setPc hrt hterm, Retired.ofControl_setPc]

/-! ## What retiring keeps -/

mutual

/-- The guest cannot write the counter. -/
theorem Stmt.instret_exec (st : Stmt X) (s : GuestState X) :
    (st.exec rt s).instret = s.instret := by
  cases st with
  | write target value => cases target <;> rfl
  | ite cond thenStmts elseStmts =>
    rw [exec_ite]
    split_ifs
    · exact instret_execAll elseStmts s
    · exact instret_execAll thenStmts s
  | externCall fnName args => rfl

theorem Stmt.instret_execAll (sts : List (Stmt X)) (s : GuestState X) :
    (execAll rt sts s).instret = s.instret := by
  cases sts with
  | nil => rfl
  | cons st sts => rw [execAll_cons, instret_execAll sts, instret_exec st]

end

mutual

/-- Statements that cannot write the exit flag keep it. -/
theorem Stmt.hasExited_exec {st : Stmt X} (h : st.writesExit = false) (s : GuestState X) :
    (st.exec rt s).hasExited = s.hasExited := by
  cases st with
  | write target value =>
    cases target with
    | exited => cases h
    | _ => rfl
  | ite cond thenStmts elseStmts =>
    obtain ⟨hthen, helse⟩ := Bool.or_eq_false_iff.1 h
    rw [exec_ite]
    split_ifs
    · exact hasExited_execAll helse s
    · exact hasExited_execAll hthen s
  | externCall fnName args => rfl

theorem Stmt.hasExited_execAll {sts : List (Stmt X)} (h : statementsWriteExit sts = false)
    (s : GuestState X) : (execAll rt sts s).hasExited = s.hasExited := by
  cases sts with
  | nil => rfl
  | cons st sts =>
    obtain ⟨hst, hsts⟩ := Bool.or_eq_false_iff.1 h
    rw [execAll_cons, hasExited_execAll hsts, hasExited_exec hst]

end

section Retired

variable {ir : InstrIR X} {s s' : GuestState X} {pc : X.Reg}

/-- An instruction that passes control on has been counted and has not exited. -/
theorem InstrIR.retire_goto (h : ir.retire rt s = .goto s' pc) :
    s'.instret = s.instret + 1 ∧ (s.hasExited = 0 → s'.hasExited = 0) := by
  by_cases hexit : ir.exits rt s
  · rw [InstrIR.retire_of_exits hexit] at h
    cases h
  · rw [InstrIR.retire_of_not_exits hexit] at h
    cases hcontrol : ir.terminator.control rt (execAll rt ir.statements s).count ir.nextPc with
    | exit code =>
      rw [hcontrol] at h
      cases h
    | goto target =>
      rw [hcontrol] at h
      cases h
      refine ⟨congrArg (· + 1) (instret_execAll ir.statements s), fun hs => ?_⟩
      by_cases hwrite : statementsWriteExit ir.statements = true
      · by_contra hne
        exact hexit ⟨hwrite, hne⟩
      · exact (hasExited_execAll (Bool.eq_false_iff.2 hwrite) s).trans hs

theorem InstrIR.retire_exited (h : ir.retire rt s = .exited s') : s'.hasExited ≠ 0 := by
  by_cases hexit : ir.exits rt s
  · rw [InstrIR.retire_of_exits hexit] at h
    cases h
    exact hexit.2
  · rw [InstrIR.retire_of_not_exits hexit] at h
    cases hcontrol : ir.terminator.control rt (execAll rt ir.statements s).count ir.nextPc with
    | goto target =>
      rw [hcontrol] at h
      cases h
    | exit code =>
      rw [hcontrol] at h
      cases h
      exact (by decide : (1 : BitVec 8) ≠ 0)

end Retired

end Rvr
