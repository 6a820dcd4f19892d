import Rvr.Emit.Emitter
import Rvr.Verify.Lifts

/-!
# Temporaries in emitted functions

A write to a temporary is rendered as a declaration, and the instructions of a block share the scope
of the function body.  Every instruction that the standard registry lifts reads only temporaries
that it has declared itself; but two instructions that declare the same temporary make a function
that does not compile (`temps_wellScoped_iff`).
-/

namespace Rvr

open ExtensionRegistry List

variable {X : Xlen}

/-! ## Scopes -/

section Scopes

mutual

/-- The temporaries that an expression reads. -/
def Expr.temps : Expr X → List ℕ
  | .temp idx => [idx]
  | .mem base _ _ _ => base.temps
  | .memAddr addr _ _ => addr.temps
  | .unary _ e => e.temps
  | .binary _ l r => l.temps ++ r.temps
  | .ternary _ c t e => c.temps ++ t.temps ++ e.temps
  | .externCall _ args _ => Expr.argsTemps args
  | _ => []

def Expr.argsTemps : List (Expr X) → List ℕ
  | [] => []
  | e :: es => e.temps ++ Expr.argsTemps es

end

def WriteTarget.temps : WriteTarget X → List ℕ
  | .mem base _ _ => base.temps
  | _ => []

def CTarget.temps : CTarget X → List ℕ
  | .expr e => e.temps
  | _ => []

def CCond.temps : CCond X → List ℕ
  | .expr e => e.temps
  | .isTohost base _ => base.temps
  | .targetIs target _ => target.temps
  | _ => []

namespace CStmt

/-- The temporaries that a statement reads, the branches of an `if` apart. -/
def temps : CStmt X → List ℕ
  | .declTemp _ value | .declTarget value => value.temps
  | .write target value => value.temps ++ target.temps
  | .call _ args => Expr.argsTemps args
  | .ite cond _ _ => cond.temps
  | .setExitCode code => code.temps
  | .setPc target | .tailDispatch target => target.temps
  | .tohost value => value.temps
  | _ => []

def isIf : CStmt X → Bool
  | .ite .. => true
  | _ => false

/-- The temporary that a statement declares in the scope it stands in. -/
def decls : CStmt X → List ℕ
  | .declTemp idx _ => [idx]
  | _ => []

/-- The temporaries declared in a scope, not counting the scopes within it. -/
def declared (body : List (CStmt X)) : List ℕ := body.flatMap decls

mutual

/-- Every scope within a statement declares each temporary at most once. -/
def innerUnique : CStmt X → Prop
  | .ite _ thenBody elseBody =>
    ((declared thenBody).Nodup ∧ innerUniqueAll thenBody) ∧
      (declared elseBody).Nodup ∧ innerUniqueAll elseBody
  | _ => True

def innerUniqueAll : List (CStmt X) → Prop
  | [] => True
  | c :: cs => innerUnique c ∧ innerUniqueAll cs

end

/-- Every scope of a function, the body itself included, declares each temporary at most once. -/
def UniqueDecls (body : List (CStmt X)) : Prop := (declared body).Nodup ∧ innerUniqueAll body

mutual

/-- Every read within a statement is of a temporary that is visible. -/
def readsVisible (visible : List ℕ) : CStmt X → Prop
  | .ite cond thenBody elseBody =>
    cond.temps ⊆ visible ∧ readsVisibleAll visible thenBody ∧ readsVisibleAll visible elseBody
  | c => c.temps ⊆ visible

/-- Statements of one scope in order: a declaration is visible in the statements after it. -/
def readsVisibleAll (visible : List ℕ) : List (CStmt X) → Prop
  | [] => True
  | c :: cs => readsVisible visible c ∧ readsVisibleAll (visible ++ decls c) cs

end

end CStmt

end Scopes

/-! ## Rules -/

namespace CStmt

@[simp] theorem declared_nil : declared ([] : List (CStmt X)) = [] := rfl

@[simp] theorem declared_cons (c : CStmt X) (cs : List (CStmt X)) :
    declared (c :: cs) = c.decls ++ declared cs := rfl

@[simp] theorem declared_append (as bs : List (CStmt X)) :
    declared (as ++ bs) = declared as ++ declared bs := flatMap_append

theorem innerUniqueAll_append {as bs : List (CStmt X)} :
    innerUniqueAll (as ++ bs) ↔ innerUniqueAll as ∧ innerUniqueAll bs := by
  induction as with
  | nil => simp [innerUniqueAll]
  | cons a as ih => simp only [cons_append, innerUniqueAll, ih, and_assoc]

theorem readsVisibleAll_append {visible : List ℕ} {as bs : List (CStmt X)} :
    readsVisibleAll visible (as ++ bs) ↔
      readsVisibleAll visible as ∧ readsVisibleAll (visible ++ declared as) bs := by
  induction as generalizing visible with
  | nil => simp [readsVisibleAll]
  | cons a as ih =>
    simp only [cons_append, readsVisibleAll, ih, declared_cons, and_assoc, append_assoc]

/-- Where `visible` are visible, a piece of text reads only what it may and declares `temps`. -/
structure Declares (visible temps : List ℕ) (body : List (CStmt X)) : Prop where
  declared : declared body = temps
  inner : innerUniqueAll body
  reads : readsVisibleAll visible body

namespace Declares

variable {visible temps temps' : List ℕ} {as bs : List (CStmt X)}

theorem nil : Declares visible [] ([] : List (CStmt X)) := ⟨rfl, trivial, trivial⟩

theorem append (has : Declares visible temps as) (hbs : Declares (visible ++ temps) temps' bs) :
    Declares visible (temps ++ temps') (as ++ bs) where
  declared := by rw [declared_append, has.declared, hbs.declared]
  inner := innerUniqueAll_append.2 ⟨has.inner, hbs.inner⟩
  reads := readsVisibleAll_append.2 ⟨has.reads, by rw [has.declared]; exact hbs.reads⟩

/-- A statement other than an `if`. -/
theorem single {c : CStmt X} (hc : c.isIf = false) (hdecls : c.decls = temps)
    (h : c.temps ⊆ visible) : Declares visible temps [c] := by
  cases c with
  | ite cond t e => cases hc
  | _ => exact ⟨(List.append_nil _).trans hdecls, ⟨trivial, trivial⟩, h, trivial⟩

/-- An `if` whose branches declare nothing. -/
theorem ite {cond : CCond X} (hcond : cond.temps ⊆ visible) (has : Declares visible [] as)
    (hbs : Declares visible [] bs) : Declares visible [] [.ite cond as bs] where
  declared := rfl
  inner := ⟨⟨⟨has.declared ▸ nodup_nil, has.inner⟩, hbs.declared ▸ nodup_nil, hbs.inner⟩,
    trivial⟩
  reads := ⟨⟨hcond, has.reads, hbs.reads⟩, trivial⟩

/-- Text without declarations in front. -/
theorem append_nil (has : Declares visible [] as) (hbs : Declares visible temps bs) :
    Declares visible temps (as ++ bs) :=
  has.append ((List.append_nil visible).symm ▸ hbs)

/-- Text without declarations after other text. -/
theorem append_plain (has : Declares visible temps as) (hbs : Declares (visible ++ temps) [] bs) :
    Declares visible temps (as ++ bs) :=
  List.append_nil temps ▸ has.append hbs

theorem cons_nil {c : CStmt X} (hc : c.isIf = false) (hdecls : c.decls = [])
    (h : c.temps ⊆ visible) (hbs : Declares visible temps bs) : Declares visible temps (c :: bs) :=
  append_nil (single hc hdecls h) hbs

theorem ite_prop {p : Prop} [Decidable p] (has : Declares visible temps as)
    (hbs : Declares visible temps bs) : Declares visible temps (if p then as else bs) := by
  split_ifs
  · exact has
  · exact hbs

end Declares

end CStmt

/-! ## The emitter -/

namespace CEmitter

open CStmt

variable (em : CEmitter X) {visible : List ℕ}

theorem saveToState_declares : Declares visible [] em.saveToState :=
  .ite_prop (.single rfl rfl (nil_subset _)) .nil

theorem save_ret_declares : Declares visible [] (em.saveToState ++ [.ret]) :=
  .append_nil em.saveToState_declares (.single rfl rfl (nil_subset _))

theorem renderInstretCheck_declares {target : CTarget X} (h : target.temps ⊆ visible) :
    Declares visible [] (em.renderInstretCheck target) :=
  .ite_prop (.ite (nil_subset _) (.cons_nil rfl rfl h em.save_ret_declares) .nil) .nil

theorem renderExitCheck_declares : Declares visible [] em.renderExitCheck :=
  .ite (nil_subset _) (.cons_nil rfl rfl (nil_subset _) em.save_ret_declares) .nil

theorem renderExitAt_declares {code : Expr X} (h : code.temps ⊆ visible) (pc : U64) :
    Declares visible [] (em.renderExitAt code pc) :=
  .cons_nil rfl rfl (nil_subset _) <| .cons_nil rfl rfl h <|
    .cons_nil rfl rfl (nil_subset _) em.save_ret_declares

theorem tailCall_declares (start : U64) : Declares visible [] [CStmt.tailCall (X := X) start] :=
  .single rfl rfl (nil_subset _)

theorem renderJumpStatic_declares (target : U64) :
    Declares visible [] (em.renderJumpStatic target) :=
  .append_nil (em.renderInstretCheck_declares (nil_subset _))
    (.ite_prop (tailCall_declares _) (em.renderExitAt_declares (nil_subset _) _))

theorem renderJumpDynamic_declares {target : CTarget X} (h : target.temps ⊆ visible) :
    Declares visible [] (em.renderJumpDynamic target) :=
  .append_nil (em.renderInstretCheck_declares h) (.single rfl rfl h)

theorem renderResolvedTarget_declares {varName : CTarget X} (h : varName.temps ⊆ visible)
    (target : U64) : Declares visible [] (em.renderResolvedTarget varName target) :=
  .ite_prop
    (.ite h (.append_nil (.ite_prop (em.renderInstretCheck_declares (nil_subset _)) .nil)
      (tailCall_declares _)) .nil) .nil

theorem flatMap_declares {α : Type} {f : α → List (CStmt X)} (h : ∀ a, Declares visible [] (f a))
    (as : List α) : Declares visible [] (as.flatMap f) := by
  induction as with
  | nil => exact .nil
  | cons a as ih => exact .append_nil (h a) ih

theorem renderJumpResolved_declares (targets : List U64) {fallback : Expr X}
    (h : fallback.temps ⊆ visible) :
    Declares visible [] (em.renderJumpResolved targets fallback) := by
  unfold renderJumpResolved
  split
  · exact em.renderJumpDynamic_declares h
  · exact .append_nil (em.renderResolvedTarget_declares h _) (em.renderJumpDynamic_declares h)
  · exact .append_nil (.append_nil (.single rfl rfl h)
      (flatMap_declares (em.renderResolvedTarget_declares (nil_subset _)) _))
      (em.renderJumpDynamic_declares (nil_subset _))

theorem renderBranchTarget_declares (target : U64) :
    Declares visible [] (em.renderBranchTarget target) :=
  .ite_prop (.append_nil (em.renderInstretCheck_declares (nil_subset _)) (tailCall_declares _))
    (em.renderExitAt_declares (nil_subset _) _)

theorem renderTraceBranch_declares (hook : String) (target : U64) :
    Declares visible [] (em.renderTraceBranch hook target) :=
  .ite_prop (.single rfl rfl (nil_subset _)) .nil

theorem renderBranch_declares {cond : Expr X} (h : cond.temps ⊆ visible) (target fallPc : U64) :
    Declares visible [] (em.renderBranch cond target fallPc) :=
  .append_nil (.append_nil
    (.ite h (.append_nil (em.renderTraceBranch_declares _ _) (em.renderBranchTarget_declares _))
      .nil)
    (em.renderTraceBranch_declares _ _)) (em.renderBranchTarget_declares _)

theorem renderBranchSimple_declares {cond : Expr X} (h : cond.temps ⊆ visible) (target : U64) :
    Declares visible [] (em.renderBranchSimple cond target) :=
  .ite h (.ite_prop (tailCall_declares _) (em.renderExitAt_declares (nil_subset _) _)) .nil

theorem renderSideExit_declares {cond : Expr X} (h : cond.temps ⊆ visible) (target : U64) :
    Declares visible [] (em.renderSideExit cond target) := by
  refine .ite h (.ite_prop ?_ ?_) .nil
  · exact .append_nil (.ite_prop (.single rfl rfl (nil_subset _)) .nil) (tailCall_declares _)
  · refine .cons_nil rfl rfl (nil_subset _) (.cons_nil rfl rfl (nil_subset _)
      (.cons_nil rfl rfl (nil_subset _) (.append_nil ?_ ?_)))
    · exact .ite_prop (.single rfl rfl (nil_subset _)) .nil
    · exact .single rfl rfl (nil_subset _)

end CEmitter

/-! ## Statements and instructions -/

def Terminator.temps : Terminator X → List ℕ
  | .jumpDyn addr _ => addr.temps
  | .branch cond _ _ _ => cond.temps
  | .exit code => code.temps
  | _ => []

def WriteTarget.decls : WriteTarget X → List ℕ
  | .temp idx => [idx]
  | _ => []

mutual

/-- A statement that has nothing to do with temporaries. -/
def Stmt.TempFree : Stmt X → Prop
  | .write target value => target.decls = [] ∧ target.temps = [] ∧ value.temps = []
  | .ite cond thenStmts elseStmts =>
    cond.temps = [] ∧ Stmt.AllTempFree thenStmts ∧ Stmt.AllTempFree elseStmts
  | .externCall _ args => Expr.argsTemps args = []

def Stmt.AllTempFree : List (Stmt X) → Prop
  | [] => True
  | st :: sts => st.TempFree ∧ Stmt.AllTempFree sts

end

namespace CEmitter

open CStmt

variable (em : CEmitter X) {visible : List ℕ}

theorem renderTerminator_declares (simple : Bool) (fallPc : U64) {term : Terminator X}
    (h : term.temps ⊆ visible) : Declares visible [] (em.renderTerminator simple fallPc term) := by
  cases term with
  | fall target => exact em.renderJumpStatic_declares _
  | jump target => exact em.renderJumpStatic_declares _
  | jumpDyn addr resolved =>
    cases resolved with
    | none => exact em.renderJumpDynamic_declares h
    | some targets => exact em.renderJumpResolved_declares _ h
  | branch cond target fall hint =>
    cases simple with
    | true => exact em.renderBranchSimple_declares h _
    | false => exact em.renderBranch_declares h _ _
  | exit code => exact em.renderExitAt_declares h _
  | trap message => exact em.renderExitAt_declares (nil_subset _) _

/-- A write declares the temporary it is to, if it is one; with tracing of the host interface a
store is rendered under a condition. -/
theorem renderWriteStmt_declares (target : WriteTarget X) {value : Expr X}
    (htarget : target.temps ⊆ visible) (hvalue : value.temps ⊆ visible) :
    Declares visible target.decls (em.renderWriteStmt target value) := by
  have hreads : (CStmt.write target value).temps ⊆ visible := append_subset.2 ⟨hvalue, htarget⟩
  cases target with
  | reg idx => exact .ite_prop .nil (.single rfl rfl hreads)
  | mem base offset width =>
    refine .ite_prop (.ite htarget (.cons_nil rfl rfl hvalue ?_) (.single rfl rfl hreads))
      (.single rfl rfl hreads)
    refine .ite (nil_subset _) (.append_nil (.append_nil (.cons_nil rfl rfl (nil_subset _)
      ?_) em.saveToState_declares) (.single rfl rfl (nil_subset _))) .nil
    exact .ite_prop (.single rfl rfl (nil_subset _)) .nil
  | temp idx => exact .single rfl rfl hvalue
  | _ => exact .single rfl rfl hreads

mutual

theorem renderStmt_tempFree {st : Stmt X} (h : st.TempFree) :
    Declares visible [] (em.renderStmt st) := by
  cases st with
  | write target value =>
    obtain ⟨hdecls, htarget, hvalue⟩ := h
    have hwrite : Declares visible target.decls (em.renderWriteStmt target value) :=
      em.renderWriteStmt_declares target (htarget ▸ nil_subset _) (hvalue ▸ nil_subset _)
    rw [hdecls] at hwrite
    exact hwrite
  | ite cond thenStmts elseStmts =>
    obtain ⟨hcond, hthen, helse⟩ := h
    have hreads : (CCond.expr cond).temps ⊆ visible := by
      change cond.temps ⊆ visible
      rw [hcond]
      exact nil_subset _
    exact .ite hreads (renderStmts_tempFree hthen) (renderStmts_tempFree helse)
  | externCall fnName args =>
    have hargs : (CStmt.call fnName args).temps = [] := h
    exact .single rfl rfl (hargs ▸ nil_subset _)

theorem renderStmts_tempFree {sts : List (Stmt X)} (h : Stmt.AllTempFree sts) :
    Declares visible [] (em.renderStmts sts) := by
  cases sts with
  | nil => exact .nil
  | cons st sts => exact .append_nil (renderStmt_tempFree h.1) (renderStmts_tempFree h.2)

end

theorem renderTracePc_declares : Declares visible [] em.renderTracePc :=
  .ite_prop (.cons_nil rfl rfl (nil_subset _) (.single rfl rfl (nil_subset _))) .nil

theorem renderInstructionEnd_declares (isLast : Bool) (fallPc : U64) (nextInstrPc : Option U64)
    (simple : Bool) (h : em.current.terminator.temps ⊆ visible) :
    Declares visible [] (em.renderInstructionEnd isLast fallPc nextInstrPc simple) := by
  refine .append_nil (.ite_prop (.append_nil (.single rfl rfl (nil_subset _))
    (.ite_prop .nil (em.renderInstretCheck_declares (nil_subset _)))) .nil) (.ite_prop ?_ ?_)
  · exact .append_nil (.ite_prop (.single rfl rfl (nil_subset _)) .nil)
      (em.renderTerminator_declares simple fallPc h)
  · split
    · next hterm =>
      rw [hterm] at h
      exact em.renderSideExit_declares h _
    · exact .nil

/-- The text of an instruction declares what its statements declare, if the terminator reads nothing
else. -/
theorem renderInstruction_declares {ir : InstrIR X} {temps : List ℕ}
    (hstmts : ∀ em : CEmitter X, Declares [] temps (em.renderStmts ir.statements))
    (hterm : ir.terminator.temps ⊆ temps) (isLast : Bool) (fallPc : U64) (nextInstrPc : Option U64)
    (simple : Bool) :
    Declares [] temps (em.renderInstruction ir isLast fallPc nextInstrPc simple) := by
  refine .append_plain (.append_plain (.append_nil (.cons_nil rfl rfl (nil_subset _)
    (CEmitter.renderTracePc_declares _)) (hstmts _)) ?_) ?_
  · exact .ite_prop (CEmitter.renderExitCheck_declares _) .nil
  · exact CEmitter.renderInstructionEnd_declares _ isLast fallPc nextInstrPc simple hterm

end CEmitter

/-! ## Lifted bodies -/

namespace Expr

/-- The expressions that read only temporaries of a list. -/
theorem tempsClass (S : List ℕ) : ExprClass False fun e : Expr X => e.temps ⊆ S where
  imm _ := nil_subset _
  reg _ := nil_subset _
  csr _ := nil_subset _
  resAddr := nil_subset _
  resValid := nil_subset _
  mem _ _ _ h := h
  memAddr _ _ h := h
  unary _ _ h := h
  binary _ _ _ _ hl hr := append_subset.2 ⟨hl, hr⟩
  select hc ht he := append_subset.2 ⟨append_subset.2 ⟨hc, ht⟩, he⟩

/-- An operator that reads no temporaries besides those of its operands. -/
def KeepsTemps (op : Expr X → Expr X → Expr X) : Prop :=
  ∀ {S : List ℕ} {l r : Expr X}, l.temps ⊆ S → r.temps ⊆ S → (op l r).temps ⊆ S

end Expr

/-- A body that has nothing to do with temporaries. -/
def Lifted.TempFree (body : Lifted X) : Prop := Stmt.AllTempFree body.1 ∧ body.2.temps = []

section Bodies

/-- Writes that have nothing to do with temporaries. -/
def WriteTarget.TempFreeWrite (target : WriteTarget X) (value : Expr X) : Prop :=
  target.decls = [] ∧ target.temps ⊆ [] ∧ value.temps ⊆ []

/-- What the lifts use apart from temporaries has nothing to do with them. -/
theorem tempFreeClass {args : InstrArgs} :
    LiftClass False (fun e : Expr X => e.temps ⊆ []) WriteTarget.TempFreeWrite args where
  toExprClass := Expr.tempsClass []
  writeReg _ h := ⟨rfl, nil_subset _, h⟩
  writeCsr _ _ h := ⟨rfl, nil_subset _, h⟩
  writeMem _ _ _ hbase h := ⟨rfl, hbase, h⟩

theorem tempFree_hasReservation :
    HasReservation (fun e : Expr X => e.temps ⊆ []) WriteTarget.TempFreeWrite :=
  ⟨fun h => ⟨rfl, nil_subset _, h⟩, fun h => ⟨rfl, nil_subset _, h⟩⟩

theorem argsTemps_callArgs (args : ℕ) :
    Expr.argsTemps (SyscallTable.callArgs args : List (Expr X)) = [] := by
  have hregs (is : List ℕ) :
      Expr.argsTemps (is.map fun i => (.read (REG_A0 + i) : Expr X)) = [] := by
    induction is with
    | nil => rfl
    | cons i is ih => exact ih
  exact hregs _

theorem tempFreeSyscalls :
    SyscallClass (fun e : Expr X => e.temps ⊆ []) WriteTarget.TempFreeWrite where
  toExprClass := Expr.tempsClass []
  writeA0 h := ⟨rfl, nil_subset _, h⟩
  call _ _ _ := ⟨rfl, nil_subset _, subset_nil.2 (argsTemps_callArgs _)⟩
  writeExited h := ⟨rfl, nil_subset _, h⟩
  writeExitCode h := ⟨rfl, nil_subset _, h⟩

mutual

theorem Stmt.Within.tempFree {st : Stmt X}
    (h : st.Within (fun e => e.temps ⊆ []) WriteTarget.TempFreeWrite) : st.TempFree := by
  cases st with
  | write target value =>
    exact ⟨h.1, subset_nil.1 h.2.1, subset_nil.1 h.2.2⟩
  | ite cond thenStmts elseStmts =>
    exact ⟨subset_nil.1 h.1, Stmt.AllWithin.tempFree h.2.1, Stmt.AllWithin.tempFree h.2.2⟩
  | externCall fnName args =>
    have hargs (es : List (Expr X)) (hes : ∀ e ∈ es, e.temps ⊆ []) : Expr.argsTemps es = [] := by
      induction es with
      | nil => rfl
      | cons e es ih =>
        rw [Expr.argsTemps, subset_nil.1 (hes e mem_cons_self),
          ih fun e he => hes e (mem_cons_of_mem _ he)]
        rfl
    exact hargs args h

theorem Stmt.AllWithin.tempFree {sts : List (Stmt X)}
    (h : Stmt.AllWithin (fun e => e.temps ⊆ []) WriteTarget.TempFreeWrite sts) :
    Stmt.AllTempFree sts := by
  cases sts with
  | nil => trivial
  | cons st sts => exact ⟨h.1.tempFree, Stmt.AllWithin.tempFree h.2⟩

end

theorem Lifted.Within.tempFree {body : Lifted X}
    (h : Lifted.Within (fun e => e.temps ⊆ []) WriteTarget.TempFreeWrite body) :
    Lifted.TempFree body := by
  refine ⟨h.1.tempFree, ?_⟩
  have hterm := h.2
  cases hbody : body.2 with
  | jumpDyn addr resolved | exit code =>
    rw [hbody] at hterm
    exact subset_nil.1 hterm.1
  | branch cond target fall hint =>
    rw [hbody] at hterm
    exact subset_nil.1 hterm
  | _ => rfl

end Bodies

/-! ## Instructions that declare temporaries -/

/-- The temporaries that the lift of an instruction declares: an AMO keeps the old value, and the
address and the operand if rd overwrites them; a jump through a register keeps the base if the link
overwrites it. -/
def DecodedInstr.temps (d : DecodedInstr X) : List ℕ :=
  match d.opid, d.args with
  | .i .jalr, .I rd rs1 _ | .c .jalr, .I rd rs1 _ => if rd = rs1 then [0] else []
  | .a .lrW, _ | .a .lrD, _ | .a .scW, _ | .a .scD, _ => []
  | .a _, .Amo rd rs1 rs2 _ _ =>
    (if rd = rs1 then [1] else []) ++ (if rd = rs2 then [3] else []) ++ [2]
  | _, _ => []

/-- The statements of a body declare some temporaries, and the terminator reads only those. -/
def Lifted.Declares (body : Lifted X) (temps : List ℕ) : Prop :=
  (∀ em : CEmitter X, CStmt.Declares [] temps (em.renderStmts body.1)) ∧ body.2.temps ⊆ temps

section Declaring

open CStmt

theorem declares_of_tempFree {body : Lifted X} (h : Lifted.TempFree body) :
    Lifted.Declares body [] :=
  ⟨fun em => em.renderStmts_tempFree h.1, subset_nil.2 h.2⟩

/-- A register saved in a temporary under a condition, in front of other statements. -/
theorem CEmitter.renderStmts_save (em : CEmitter X) {c : Prop} [Decidable c] {idx : ℕ} (reg : ℕ)
    {visible temps : List ℕ} {sts : List (Stmt X)}
    (h : CStmt.Declares (visible ++ if c then [idx] else []) temps (em.renderStmts sts)) :
    CStmt.Declares visible ((if c then [idx] else []) ++ temps)
      (em.renderStmts ((if c then [Stmt.writeTemp idx (.read reg)] else []) ++ sts)) := by
  split_ifs at h ⊢
  · have htemp : CStmt.Declares visible [idx] (em.renderStmt (.writeTemp idx (.read reg))) :=
      em.renderWriteStmt_declares (.temp idx) (nil_subset _) (nil_subset _)
    exact htemp.append h
  · exact (List.append_nil visible) ▸ h

theorem declares_link {rd rs1 : ℕ} {v : X.Reg} {target : Expr X}
    (h : target.temps ⊆ if rd = rs1 then [0] else []) :
    Lifted.Declares
      ((if rd = rs1 then [Stmt.writeTemp 0 (.read rs1)] else []) ++ writeRd rd (.imm v),
        .jumpDyn target none) (if rd = rs1 then [0] else []) := by
  refine ⟨fun em => ?_, h⟩
  have hwrite : CStmt.Declares ([] ++ if rd = rs1 then [0] else []) []
      (em.renderStmts (writeRd rd (.imm v))) :=
    em.renderStmts_tempFree
      (allWithin_writeRd (@tempFreeClass X (.J rd 0)) rfl (nil_subset _)).tempFree
  have hlink := em.renderStmts_save rs1 hwrite
  rw [List.append_nil] at hlink
  exact hlink

theorem declares_liftJalr {args : InstrArgs} {pc : X.Reg} {size : ℕ} {raw : BitVec 32} :
    Lifted.Declares (liftJalr args pc size)
      (DecodedInstr.temps ⟨.i .jalr, pc, size, raw, args⟩) := by
  cases args with
  | I rd rs1 imm =>
    have hclass := Expr.tempsClass (X := X) (if rd = rs1 then [0] else [])
    refine declares_link (hclass.and (hclass.add ?_ (nil_subset _)) (nil_subset _))
    split_ifs
    · exact List.Subset.refl _
    · exact nil_subset _
  | _ => exact declares_of_tempFree (within_trap _).tempFree

theorem declares_liftCJalr {args : InstrArgs} {pc : X.Reg} {size : ℕ} {raw : BitVec 32} :
    Lifted.Declares (liftCJalr args pc size)
      (DecodedInstr.temps ⟨.c .jalr, pc, size, raw, args⟩) := by
  cases args with
  | I rd rs1 imm =>
    refine declares_link ?_
    split_ifs
    · exact List.Subset.refl _
    · exact nil_subset _
  | _ => exact declares_of_tempFree (within_trap _).tempFree

theorem declares_liftAmo {rd rs1 rs2 width : ℕ} {signed : Bool} {op : Expr X → Expr X → Expr X}
    (h : Expr.KeepsTemps op) :
    Lifted.Declares (liftAmo rd rs1 rs2 width signed op)
      ((if rd = rs1 then [1] else []) ++ (if rd = rs2 then [3] else []) ++ [2]) := by
  refine ⟨fun em => ?_, nil_subset _⟩
  have haddr : (if rd = rs1 then .temp 1 else .read rs1 : Expr X).temps ⊆
      if rd = rs1 then [1] else [] := by
    split_ifs
    · exact List.Subset.refl _
    · exact nil_subset _
  have hsrc : (if rd = rs2 then .temp 3 else .read rs2 : Expr X).temps ⊆
      if rd = rs2 then [3] else [] := by
    split_ifs
    · exact List.Subset.refl _
    · exact nil_subset _
  set addr : Expr X := if rd = rs1 then .temp 1 else .read rs1
  set src : Expr X := if rd = rs2 then .temp 3 else .read rs2
  rw [append_assoc]
  change CStmt.Declares [] _ (em.renderStmts ((_ ++ _) ++ _))
  rw [append_assoc]
  refine em.renderStmts_save rs1 (em.renderStmts_save rs2 ?_)
  have haddrV : addr.temps ⊆ [] ++ (if rd = rs1 then [1] else []) ++ if rd = rs2 then [3] else [] :=
    subset_append_of_subset_left _ haddr
  have hsrcV : src.temps ⊆ [] ++ (if rd = rs1 then [1] else []) ++ if rd = rs2 then [3] else [] :=
    subset_append_of_subset_right _ hsrc
  generalize ([] ++ (if rd = rs1 then [1] else []) ++ if rd = rs2 then [3] else []) = visible
    at haddrV hsrcV
  have hold : (Expr.temp 2 : Expr X).temps ⊆ visible ++ [2] := subset_append_right _ _
  have hload : (if signed then .memS addr width else .memU addr width : Expr X).temps ⊆
      visible := by
    split_ifs <;> exact haddrV
  have hstore := subset_append_of_subset_left [2] haddrV
  have hvalue := h hold (subset_append_of_subset_left [2] hsrcV)
  refine CStmt.Declares.append (em.renderWriteStmt_declares (.temp 2) (nil_subset _) hload) ?_
  refine .append_nil (em.renderWriteStmt_declares (.reg rd) (nil_subset _) hold) ?_
  refine .append_nil (em.renderWriteStmt_declares (.mem addr 0 width) hstore hvalue) ?_
  exact .append_nil (em.renderWriteStmt_declares .resValid (nil_subset _)
    (nil_subset _)) .nil

theorem declares_liftAOp {rd rs1 rs2 : ℕ} {op : AOp} {pc : X.Reg} {size : ℕ} {raw : BitVec 32}
    {aq rl : Bool} :
    Lifted.Declares (X := X) (liftAOp rd rs1 rs2 op)
      (DecodedInstr.temps ⟨.a op, pc, size, raw, .Amo rd rs1 rs2 aq rl⟩) := by
  cases op with
  | lrW | lrD | scW | scD =>
    exact declares_of_tempFree (within_liftAOp (@tempFreeClass X (.Amo rd rs1 rs2 aq rl)) rfl
      (fun h => absurd h (by decide)) tempFree_hasReservation).tempFree
  | amoswapW | amoswapD => exact declares_liftAmo fun hl hr => hr
  | amoaddW | amoaddD => exact declares_liftAmo (Expr.tempsClass _).add
  | amoxorW | amoxorD => exact declares_liftAmo (Expr.tempsClass _).xor
  | amoandW | amoandD => exact declares_liftAmo (Expr.tempsClass _).and
  | amoorW | amoorD => exact declares_liftAmo (Expr.tempsClass _).or
  | amominW => exact declares_liftAmo (Expr.tempsClass _).min32
  | amomaxW => exact declares_liftAmo (Expr.tempsClass _).max32
  | amominuW => exact declares_liftAmo (Expr.tempsClass _).minu32
  | amomaxuW => exact declares_liftAmo (Expr.tempsClass _).maxu32
  | amominD => exact declares_liftAmo (Expr.tempsClass _).min
  | amomaxD => exact declares_liftAmo (Expr.tempsClass _).max
  | amominuD => exact declares_liftAmo (Expr.tempsClass _).minu
  | amomaxuD => exact declares_liftAmo (Expr.tempsClass _).maxu

theorem declares_standardBody (d : DecodedInstr X) : Lifted.Declares (standardBody d) d.temps := by
  by_cases huses : d.opid.usesTemps = true
  · obtain ⟨opid, pc, size, raw, args⟩ := d
    cases opid with
    | i op =>
      cases op with
      | jalr => exact declares_liftJalr
      | _ => cases huses
    | c op =>
      cases op with
      | jalr => exact declares_liftCJalr
      | _ => cases huses
    | a op =>
      cases args with
      | Amo rd rs1 rs2 aq rl => exact declares_liftAOp
      | _ => cases op <;> exact declares_of_tempFree (within_trap _).tempFree
    | _ => cases huses
  · have htemps : d.temps = [] := by
      obtain ⟨opid, pc, size, raw, args⟩ := d
      cases opid with
      | i op | c op | a op =>
        cases op <;> first | rfl | (cases args <;> rfl) | exact absurd rfl huses
      | _ => rfl
    rw [htemps]
    exact declares_of_tempFree (within_standardBody tempFreeClass False.elim
      (fun h => absurd h huses) fun _ => tempFree_hasReservation).tempFree

end Declaring

/-- The text of a lifted instruction declares the temporaries of the instruction. -/
theorem lift_declares {handler : DecodedInstr X → InstrIR X} (hhandler : IsHandler handler)
    {d : DecodedInstr X} (hstd : d.opid.isStandard = true) :
    Lifted.Declares (((standardWith X handler).lift d).statements,
      ((standardWith X handler).lift d).terminator) d.temps := by
  by_cases hecall : d.opid = .i .ecall
  · have htemps : d.temps = [] := by
      unfold DecodedInstr.temps
      rw [hecall]
    rw [standard_lift_ecall handler hecall, htemps]
    exact declares_of_tempFree (within_handler tempFreeSyscalls hhandler d).tempFree
  · rw [standard_lift handler hstd hecall]
    exact declares_standardBody d

/-! ## Blocks -/

section Blocks

variable {handler : DecodedInstr X → InstrIR X} {ds : List (DecodedInstr X)}

theorem renderAll_declares (hhandler : IsHandler handler) (em : CEmitter X) (fallPc : U64)
    (hstd : ∀ d ∈ ds, d.opid.isStandard = true) :
    List.Forall₂ (fun d text => CStmt.Declares [] d.temps text) ds
      (em.renderAll fallPc false (ds.map (standardWith X handler).lift)) := by
  have htext {d : DecodedInstr X} (hd : d.opid.isStandard = true) (em : CEmitter X) (isLast : Bool)
      (next : Option U64) : CStmt.Declares [] d.temps (em.renderInstruction
        ((standardWith X handler).lift d) isLast fallPc next false) :=
    em.renderInstruction_declares (lift_declares hhandler hd).1 (lift_declares hhandler hd).2 isLast
      fallPc next false
  induction ds generalizing em with
  | nil => exact .nil
  | cons d ds ih =>
    cases ds with
    | nil => exact .cons (htext (hstd d mem_cons_self) em true none) .nil
    | cons d' ds =>
      exact .cons (htext (hstd d mem_cons_self) em false _)
        (ih (em.next _) fun d hd => hstd d (mem_cons_of_mem _ hd))

theorem flatten_declares {texts : List (List (CStmt X))}
    (h : List.Forall₂ (fun (d : DecodedInstr X) text => CStmt.Declares [] d.temps text) ds texts) :
    CStmt.declared texts.flatten = ds.flatMap DecodedInstr.temps ∧
      CStmt.innerUniqueAll texts.flatten ∧
      ∀ text ∈ texts, CStmt.readsVisibleAll [] text := by
  induction h with
  | nil => exact ⟨rfl, trivial, nofun⟩
  | cons hd hds ih =>
    obtain ⟨hdeclared, hinner, hreads⟩ := ih
    refine ⟨?_, CStmt.innerUniqueAll_append.2 ⟨hd.inner, hinner⟩, ?_⟩
    · rw [flatten_cons, CStmt.declared_append, hd.declared, hdeclared, flatMap_cons]
    · intro text htext
      rcases mem_cons.1 htext with rfl | htext
      · exact hd.reads
      · exact hreads text htext

/-- The body of a function made of instructions that the standard registry decodes and lifts: each
temporary is declared at most once in every scope, and every read is preceded by a declaration in
the text of the same instruction, if and only if no two of the instructions declare the same
temporary. -/
theorem temps_wellScoped_iff (hhandler : IsHandler handler) (em : CEmitter X) (fallPc : U64)
    (hdec : ∀ d ∈ ds, ∃ bytes pc,
      (standardWith X handler).decode bytes pc = some d) :
    let texts := em.renderAll fallPc false (ds.map (standardWith X handler).lift)
    (CStmt.UniqueDecls texts.flatten ∧ ∀ text ∈ texts, CStmt.readsVisibleAll [] text) ↔
      (ds.flatMap DecodedInstr.temps).Nodup := by
  intro texts
  have hstd : ∀ d ∈ ds, d.opid.isStandard = true := by
    intro d hd
    obtain ⟨bytes, pc, hdecode⟩ := hdec d hd
    exact isStandard_of_decode hdecode
  obtain ⟨hdeclared, hinner, hreads⟩ :=
    flatten_declares (renderAll_declares hhandler em fallPc hstd)
  unfold CStmt.UniqueDecls
  rw [hdeclared]
  constructor
  · rintro ⟨⟨hnodup, -⟩, -⟩
    exact hnodup
  · intro hnodup
    exact ⟨⟨hnodup, hinner⟩, hreads⟩

end Blocks

/-- `amoadd.w x5, x6, (x7)` at an address. -/
def amoaddWord (pc : BitVec 64) : DecodedInstr .rv64 :=
  ⟨.a .amoaddW, pc, 4, 0x0063A2AF, .Amo 5 7 6 false false⟩

/-- An emitter without inputs. -/
def plainEmitter : CEmitter .rv64 :=
  CEmitter.new ⟨.off, false, false⟩ ⟨0, 0, ∅, ∅⟩

theorem amoaddWord_decoded (pc : BitVec 64) :
    (standard .rv64).decode [0xAF, 0xA2, 0x63, 0x00] pc = some (amoaddWord pc) := rfl

theorem temps_wellScoped_one_amo :
    let texts := plainEmitter.renderAll 4 false
      ([amoaddWord 0].map (standard .rv64).lift)
    CStmt.UniqueDecls texts.flatten ∧ ∀ text ∈ texts, CStmt.readsVisibleAll [] text := by
  refine (temps_wellScoped_iff (.inl rfl) plainEmitter 4 ?_).2 (by decide)
  intro d hd
  rw [mem_singleton.1 hd]
  exact ⟨_, _, amoaddWord_decoded 0⟩

/-- Two AMOs in one block declare `_t2` twice. -/
theorem temps_wellScoped_two_amos_fails :
    (∀ pc, (standard .rv64).decode [0xAF, 0xA2, 0x63, 0x00] pc =
        some (amoaddWord pc)) ∧
      ¬ CStmt.UniqueDecls (plainEmitter.renderAll 8 false
        ([amoaddWord 0, amoaddWord 4].map (standard .rv64).lift)).flatten := by
  refine ⟨amoaddWord_decoded, fun h => ?_⟩
  have hnodup : [2, 2].Nodup := h.1
  exact absurd hnodup (by decide)

end Rvr
