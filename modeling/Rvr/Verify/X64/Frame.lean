import Rvr.Emit.X64.Rules
import Rvr.Verify.Frame

/-!
# Registers that emitted x86-64 code leaves alone

The code of an instruction without calls names `%rax`, `%rcx`, `%rdx`, `%r10` and `%r11`, the
machine registers of the guest registers that the IR writes, and `%rdi`.  The last is the third
temporary of the emitter and the fifth register that `RegMap::new` hands out: the diff tracer and
shifts whose amount has to be evaluated overwrite it (`usesTemp3`), whatever guest register lives
there.  Without them no guest register changes besides those that the IR writes.
-/

namespace Rvr

open Stmt

variable {X : Xlen}

/-! ## Nodes of the IR -/

namespace Expr

/-- Whether all nodes of an expression satisfy `p`; the arguments of a call are not visited. -/
def all (p : Expr X → Bool) : Expr X → Bool
  | .mem base offset width signed => p (.mem base offset width signed) && base.all p
  | .memAddr addr width signed => p (.memAddr addr width signed) && addr.all p
  | .unary op e => p (.unary op e) && e.all p
  | .binary op l r => p (.binary op l r) && (l.all p && r.all p)
  | .ternary op c t e => p (.ternary op c t e) && (c.all p && (t.all p && e.all p))
  | e => p e

end Expr

def WriteTarget.all (p : Expr X → Bool) : WriteTarget X → Bool
  | .mem base _ _ => base.all p
  | _ => true

mutual

/-- Whether all nodes of all expressions of a statement satisfy `p`, and it calls nothing. -/
def Stmt.all (p : Expr X → Bool) : Stmt X → Bool
  | .write target value => target.all p && value.all p
  | .ite cond thenStmts elseStmts =>
    cond.all p && (allAll p thenStmts && allAll p elseStmts)
  | .externCall _ _ => false

def Stmt.allAll (p : Expr X → Bool) : List (Stmt X) → Bool
  | [] => true
  | s :: ss => s.all p && allAll p ss

end

def Terminator.all (p : Expr X → Bool) : Terminator X → Bool
  | .jumpDyn addr _ => addr.all p
  | .branch cond _ _ _ => cond.all p
  | .exit code => code.all p
  | _ => true

/-- Whether all nodes of all expressions of an instruction satisfy `p`, and no statement is a
call. -/
def InstrIR.all (p : Expr X → Bool) (i : InstrIR X) : Bool :=
  allAll p i.statements && i.terminator.all p

namespace X64

open Asm Asm.Emit

/-- A shift whose amount is evaluated for the third temporary. -/
def usesTemp3 : Expr X → Bool
  | .binary op _ amount =>
    (shiftOp op).isSome &&
      match amount with
      | .imm _ => false
      | .reg r => r = 0
      | _ => true
  | _ => false

/-! ## Footprints -/

/-- What emitted code may change: registers, the scratch registers and the counter among them, and
fields of the state structure, all besides the guest registers among them. -/
structure Footprint where
  regs : Set Reg
  fields : Set Field
  rax : .rax ∈ regs
  rcx : .rcx ∈ regs
  rdx : .rdx ∈ regs
  r10 : .r10 ∈ regs
  r11 : .r11 ∈ regs
  other : ∀ f, (∀ r, f ≠ .reg r) → f ∈ fields

attribute [simp] Footprint.rax Footprint.rcx Footprint.rdx Footprint.r10 Footprint.r11
  Footprint.other

/-- A line that stays inside a footprint. -/
abbrev Footprint.Admits (A : Footprint) : Line Label Instr → Prop := Confined A.regs A.fields

/-- What a run leaves alone. -/
abbrev Footprint.Keeps (A : Footprint) : State → State → Prop := Within A.regs A.fields

variable {emit : Operation} {r : ℕ}

section Lines

variable {A : Footprint} {em : Emitter} {e : St} {dest : Name}

@[simp] theorem lines_emitLabel (l : Label) : Lines A.Admits (emitLabel l) e := lines_line.2 trivial

@[simp] theorem lines_nextLabel (stem : String) : Lines A.Admits (nextLabel stem) e := by
  simp [nextLabel]

@[simp] theorem lines_ins {i : Instr} : Lines A.Admits (ins i) e ↔ A.Admits (.ins i) := lines_line

@[simp] theorem Footprint.admits_ins {i : Instr} :
    A.Admits (.ins i) ↔
      i.isCall = false ∧ (∀ g ∈ i.writes, g ∈ A.regs) ∧ ∀ f, i.stores = some f → f ∈ A.fields :=
  Iff.rfl

attribute [local simp] Instr.isCall Instr.writes Instr.stores storeField clear temp1 temp2 temp3
  rax rcx rdx eax ecx edx al ax regByte regWord regDword regQword statePtr instretReg coldCacheReg

/-! ### Expressions -/

theorem lines_emitExprImm (val : X.Reg) (hd : dest.reg ∈ A.regs) :
    Lines A.Admits (emitExprImm val dest) e := by
  cases X <;> simp [emitExprImm, hd]

theorem lines_emitExprPcConst (val : X.Reg) (hd : dest.reg ∈ A.regs) :
    Lines A.Admits (emitExprPcConst val dest) e := by
  cases X <;> simp [emitExprPcConst, hd]

/-- The load of a guest register writes its destination only to clear it for `x0`. -/
theorem lines_loadRvToTemp (hd : r = 0 → dest.reg ∈ A.regs) :
    Lines A.Admits (loadRvToTemp X em r dest) e := by
  unfold loadRvToTemp
  by_cases hr : r = 0
  · simp [hr, hd hr]
  · rw [if_neg hr]
    cases em.regMap.get X r with
    | some n => exact lines_pure
    | none =>
      by_cases hhit : e.coldCache = some r
      · simp [coldCacheHit, hhit]
      · simp [coldCacheHit, hhit, coldCacheSet]

theorem lines_loadRvAsAddr : Lines A.Admits (loadRvAsAddr X em r rax) e := by
  unfold loadRvAsAddr
  split_ifs
  · simp
  · split <;> simp [tempDword, tempSized]

/-- An operand whose code stays inside a footprint if the destination does. -/
def Footprint.Inside (A : Footprint) (emit : Operation) : Prop :=
  ∀ dest e, dest.reg ∈ A.regs → Lines A.Admits (emit dest) e

theorem lines_emitExprAsAddr {base : Expr X} (hemit : A.Inside emit) :
    Lines A.Admits (emitExprAsAddr em base emit) e := by
  unfold emitExprAsAddr
  split
  · exact lines_loadRvAsAddr
  · simp [lines_emitExprPcConst]
  · split <;> simp [hemit _ _]

variable {offset : BitVec 16}

theorem lines_emitTranslate : Lines A.Admits (emitTranslate X em offset) e := by
  cases X <;>
    simp [emitTranslate, applyAddressMode, emitBoundsCheck, emitMask, tempDword, tempSized]

theorem lines_emitAddress {base : Expr X} (hemit : A.Inside emit) :
    Lines A.Admits (emitAddress em base emit offset) e := by
  simp [emitAddress, lines_emitExprAsAddr hemit, lines_emitTranslate]

theorem lines_emitTraceMemAccess {addrReg valReg : Name} {width : ℕ} {isWrite : Bool}
    (hrdi : em.diffTracer = true → .rdi ∈ A.regs) :
    Lines A.Admits (emitTraceMemAccess X em addrReg valReg width isWrite) e := by
  unfold emitTraceMemAccess
  rw [lines_when]
  intro htracer
  have hrdi := hrdi htracer
  simp only [lines_bind]
  refine ⟨by simp [storeTracer], ?_, ?_⟩
  · split <;> simp [storeTracer, hrdi]
  · simp [storeTracer]

theorem lines_emitLoadFromMem {width : ℕ} {signed : Bool} (hd : dest.reg ∈ A.regs) :
    Lines A.Admits (emitLoadFromMem X dest width signed) e := by
  unfold emitLoadFromMem
  split <;> simp [hd]

theorem inside_emitExprMem {base : Expr X} {width : ℕ}
    {signed : Bool} (hemit : A.Inside emit) (hrdi : em.diffTracer = true → .rdi ∈ A.regs) :
    A.Inside (emitExprMem em base emit offset width signed) := by
  intro dest e hd
  simp [emitExprMem, lines_emitAddress hemit, lines_emitLoadFromMem hd,
    lines_emitTraceMemAccess hrdi]

theorem inside_emitExprSelect {cond thenVal elseVal : Operation} (hc : A.Inside cond)
    (ht : A.Inside thenVal) (he : A.Inside elseVal) :
    A.Inside (emitExprSelect X cond thenVal elseVal) := by
  intro dest e hd
  simp [emitExprSelect, hc _ _, ht _ _, he _ _, hd]

theorem lines_emitMoveLeftToDest (hemit : A.Inside emit) (hd : dest.reg ∈ A.regs) :
    Lines A.Admits (emitMoveLeftToDest X emit dest) e := by
  simp [emitMoveLeftToDest, hemit _ _ hd, hd]

theorem lines_finish (hd : dest.reg ∈ A.regs) : Lines A.Admits (finish X dest) e := by
  simp [finish, hd]

/-! ### Binary operators -/

variable {op : BinaryOp} {m : Em Name} {right : Expr X}

theorem lines_emitBinaryOpImmFast {emitLeft : Operation}
    (hleft : A.Inside emitLeft) (hd : dest.reg ∈ A.regs)
    (hm : emitBinaryOpImmFast op emitLeft right dest = some m) : Lines A.Admits m e := by
  have hmove : Lines A.Admits (emitMoveLeftToDest X emitLeft dest) e :=
    lines_emitMoveLeftToDest hleft hd
  have hclear : Lines A.Admits (do clear X dest; pure dest) e := by simp [hd]
  unfold emitBinaryOpImmFast at hm
  split at hm
  · dsimp only at hm
    split at hm <;> (try split_ifs at hm) <;> cases hm <;> assumption
  · cases hm

variable {emitRight : Operation}

theorem lines_emitBinaryOpInPlace {left : Expr X} (hright : A.Inside emitRight)
    (hd : dest.reg ∈ A.regs)
    (hm : emitBinaryOpInPlace em op left right emitRight dest = some m) : Lines A.Admits m e := by
  have hoperand : ∀ e, Lines A.Admits (inPlaceOperand op right emitRight) e := by
    unfold inPlaceOperand
    split <;> simp [hright _ _]
  unfold emitBinaryOpInPlace at hm
  split at hm
  · split_ifs at hm
    cases hm
    simp [hoperand, hd]
  · cases hm

/-- A shift overwrites the third temporary only if its amount is evaluated for it. -/
theorem lines_emitBinaryShift {left : Expr X}
    (hright : A.Inside (emitExpr em right)) (hd : dest.reg ∈ A.regs)
    (hrdi : usesTemp3 (.binary op left right) = true → .rdi ∈ A.regs)
    (hm : emitBinaryShift op right (emitExpr em right) dest = some m) : Lines A.Admits m e := by
  obtain ⟨⟨x86Op, isWord⟩, hop, rfl⟩ := Option.map_eq_some_iff.1 hm
  have hamount : (∀ v, right ≠ .imm v) → ∀ e, Lines A.Admits (emitExpr em right (temp3 X)) e := by
    intro himm e
    cases right with
    | imm v => exact absurd rfl (himm v)
    | reg r =>
      refine lines_loadRvToTemp fun hr => hrdi ?_
      simp [usesTemp3, hop, hr]
    | _ => exact hright _ _ (hrdi (by simp [usesTemp3, hop]))
  dsimp only
  split
  · simp [hd, lines_finish hd]
  · rename_i himm
    simp only [lines_bind]
    refine ⟨hamount (fun v hv => himm v hv) e, by simp, ?_⟩
    simp [hd, lines_finish hd]

theorem lines_emitBinaryWord (hright : A.Inside emitRight) (hd : dest.reg ∈ A.regs)
    (hm : emitBinaryWord op right emitRight dest = some m) : Lines A.Admits m e := by
  have hoperand : ∀ e, Lines A.Admits (wordOperand right emitRight) e := by
    unfold wordOperand
    split <;> simp [hright _ _]
  unfold emitBinaryWord at hm
  split at hm <;> cases hm <;> simp [hoperand, hd]

variable {rightVal : Operand}

theorem lines_loadRight {sz : Size} :
    Lines A.Admits (loadRight sz rightVal) e := by
  cases rightVal <;> simp [loadRight]

theorem lines_signRdx : Lines A.Admits (signRdx X) e := by
  cases X <;> simp [signRdx]

variable (hd : dest.reg ∈ A.regs)
include hd

theorem lines_emitBinaryArith (hm : emitBinaryArith X op rightVal dest = some m) :
    Lines A.Admits m e := by
  unfold emitBinaryArith at hm
  split at hm <;> cases hm <;> cases rightVal <;> simp [lines_finish hd]

theorem lines_emitBinaryMulSpecial (hm : emitBinaryMulSpecial X op rightVal dest = some m) :
    Lines A.Admits m e := by
  unfold emitBinaryMulSpecial at hm
  split at hm <;> cases hm <;> simp [lines_loadRight, lines_signRdx, hd]

variable {wantRem : Bool}

theorem lines_emitDivSigned :
    Lines A.Admits (emitDivSigned X wantRem rightVal dest) e := by
  cases wantRem <;> cases X <;> simp [emitDivSigned, lines_loadRight, lines_signRdx, hd]

theorem lines_emitDivUnsigned :
    Lines A.Admits (emitDivUnsigned X wantRem rightVal dest) e := by
  cases wantRem <;> simp [emitDivUnsigned, lines_loadRight, hd]

theorem lines_emitDivWSigned :
    Lines A.Admits (emitDivWSigned wantRem rightVal dest) e := by
  cases wantRem <;> simp [emitDivWSigned, lines_loadRight, hd]

theorem lines_emitDivWUnsigned :
    Lines A.Admits (emitDivWUnsigned wantRem rightVal dest) e := by
  cases wantRem <;> simp [emitDivWUnsigned, lines_loadRight, hd]

theorem lines_emitBinaryDivRem (hm : emitBinaryDivRem X op rightVal dest = some m) :
    Lines A.Admits m e := by
  unfold emitBinaryDivRem at hm
  split at hm <;> cases hm
  · exact lines_emitDivSigned hd
  · exact lines_emitDivUnsigned hd
  · exact lines_emitDivSigned hd
  · exact lines_emitDivUnsigned hd
  · exact lines_emitDivWSigned hd
  · exact lines_emitDivWUnsigned hd
  · exact lines_emitDivWSigned hd
  · exact lines_emitDivWUnsigned hd

theorem lines_emitBinaryCompare (hm : emitBinaryCompare X op rightVal dest = some m) :
    Lines A.Admits m e := by
  obtain ⟨c, -, rfl⟩ := Option.map_eq_some_iff.1 hm
  simp [hd]

omit hd

/-- What the first of two alternatives that exists satisfies, if both do. -/
theorem forall_orElse {α : Type} {P : α → Prop} {o : Option α} {o' : Unit → Option α}
    (h : ∀ a, o = some a → P a) (h' : ∀ a, o' () = some a → P a) :
    ∀ a, o.orElse o' = some a → P a := by
  cases o with
  | none => exact h'
  | some a => exact h

theorem forall_getD {α : Type} {P : α → Prop} {o : Option α} {a : α} (h : ∀ a, o = some a → P a)
    (ha : P a) : P (o.getD a) := by
  cases o with
  | none => exact ha
  | some b => exact h b rfl

theorem lines_emitBinaryGeneral (hright : A.Inside emitRight) (hd : dest.reg ∈ A.regs) :
    Lines A.Admits (emitBinaryGeneral op right emitRight dest) e := by
  have hoperand : ∀ e, Lines A.Admits (emitRightOperand right emitRight) e := by
    unfold emitRightOperand
    split <;> simp [hright _ _]
  rw [emitBinaryGeneral, lines_bind]
  refine ⟨hoperand e, forall_getD (P := (Lines A.Admits · _)) ?_ (lines_finish hd)⟩
  refine forall_orElse (forall_orElse (forall_orElse ?_ ?_) ?_) ?_ <;> intro m hm
  · exact lines_emitBinaryArith hd hm
  · exact lines_emitBinaryMulSpecial hd hm
  · exact lines_emitBinaryDivRem hd hm
  · exact lines_emitBinaryCompare hd hm

theorem inside_emitBinaryOp {left : Expr X} {emitLeft : Operation}
    (hleft : A.Inside emitLeft) (hright : A.Inside (emitExpr em right))
    (hrdi : usesTemp3 (.binary op left right) = true → .rdi ∈ A.regs) :
    A.Inside (emitBinaryOp em op left right emitLeft (emitExpr em right)) := by
  intro dest e hd
  refine forall_getD (P := (Lines A.Admits · e)) (forall_orElse ?_ ?_) ?_
  · exact fun m hm => lines_emitBinaryOpImmFast hleft hd hm
  · exact fun m hm => lines_emitBinaryOpInPlace hright hd hm
  · rw [emitBinaryOpViaRax, lines_bind, lines_bind]
    refine ⟨hleft _ _ (by simp), by simp,
      forall_getD (P := (Lines A.Admits · _)) (forall_orElse ?_ ?_) ?_⟩
    · exact fun m hm => lines_emitBinaryShift hright hd hrdi hm
    · exact fun m hm => lines_emitBinaryWord hright hd hm
    · exact lines_emitBinaryGeneral hright hd

/-! ### Unary operators and the other expressions -/

theorem inside_emitUnaryOp {op : UnaryOp} {emitInner : Operation} (hinner : A.Inside emitInner) :
    A.Inside (emitUnaryOp X op emitInner) := by
  intro dest e hd
  rw [emitUnaryOp, lines_bind, lines_bind]
  refine ⟨hinner _ _ (by simp), by simp,
    forall_getD (P := (Lines A.Admits · _)) ?_ (lines_finish hd)⟩
  refine forall_orElse (forall_orElse (forall_orElse ?_ ?_) ?_) ?_ <;> intro m hm
  · unfold emitUnaryNegate at hm
    split at hm <;> cases hm <;> simp [lines_finish hd]
  · unfold emitUnaryExtend at hm
    split at hm <;> cases hm <;> simp [hd]
  · unfold emitUnaryBitcount at hm
    split at hm <;> cases hm <;> simp [lines_finish hd]
  · unfold emitUnaryMisc at hm
    split at hm <;> cases hm <;> simp [lines_finish hd]

theorem lines_emitExprInstret (hd : dest.reg ∈ A.regs) :
    Lines A.Admits (emitExprInstret (X := X) em dest) e := by
  simp [emitExprInstret, hd]

theorem lines_emitExprCsr {csr : ℕ} (hd : dest.reg ∈ A.regs) :
    Lines A.Admits (emitExprCsr (X := X) em csr dest) e := by
  simp [emitExprCsr, lines_emitExprInstret hd, hd]

theorem lines_emitExprTemp {idx : ℕ} (hd : dest.reg ∈ A.regs) :
    Lines A.Admits (emitExprTemp (X := X) idx dest) e := by
  unfold emitExprTemp
  split <;> simp [hd]

/-- Nodes that are no call. -/
abbrev noCall : Expr X → Bool := fun n => !n.isCall

/-- Nodes that do not use the third temporary. -/
abbrev noTemp3 : Expr X → Bool := fun n => !usesTemp3 n

/-- What code needs of a footprint: the third temporary if the tracer or a shift uses it. -/
def Footprint.Temp3 (A : Footprint) (em : Emitter) (unused : Bool) : Prop :=
  em.diffTracer = true ∨ unused = false → .rdi ∈ A.regs

theorem Footprint.Temp3.of_imp {unused unused' : Bool} (h : A.Temp3 em unused)
    (himp : unused = true → unused' = true) : A.Temp3 em unused' := by
  rintro (htracer | huses)
  · exact h (.inl htracer)
  · refine h (.inr ?_)
    rw [← Bool.not_eq_true] at huses ⊢
    exact fun hall => huses (himp hall)

/-- The code of an expression without calls stays inside every footprint with the destination, and
with the third temporary where that is used. -/
theorem inside_emitExpr : ∀ ex : Expr X, ex.all noCall = true → A.Temp3 em (ex.all noTemp3) →
    A.Inside (emitExpr em ex)
  | .imm v, _, _ => by
    exact fun dest e hd => lines_emitExprImm v hd
  | .reg r, _, _ => by
    exact fun dest e hd => lines_loadRvToTemp fun _ => hd
  | .mem base offset width signed, hcall, htemp => by
    simp only [Expr.all, Bool.and_eq_true] at hcall
    exact inside_emitExprMem
      (inside_emitExpr _ hcall.2 (htemp.of_imp (by simp [Expr.all]))) fun h => htemp (.inl h)
  | .memAddr addr width signed, hcall, htemp => by
    simp only [Expr.all, Bool.and_eq_true] at hcall
    exact inside_emitExprMem
      (inside_emitExpr _ hcall.2 (htemp.of_imp (by simp [Expr.all]))) fun h => htemp (.inl h)
  | .unary op inner, hcall, htemp => by
    simp only [Expr.all, Bool.and_eq_true] at hcall
    exact inside_emitUnaryOp (inside_emitExpr _ hcall.2 (htemp.of_imp (by simp [Expr.all])))
  | .binary op left right, hcall, htemp => by
    simp only [Expr.all, Bool.and_eq_true] at hcall
    refine inside_emitBinaryOp (inside_emitExpr _ hcall.2.1 (htemp.of_imp ?_))
      (inside_emitExpr _ hcall.2.2 (htemp.of_imp ?_)) fun huses =>
        htemp (.inr (by simp [Expr.all, huses]))
    all_goals simp +contextual [Expr.all]
  | .ternary .select c t e, hcall, htemp => by
    simp only [Expr.all, Bool.and_eq_true] at hcall
    refine inside_emitExprSelect (inside_emitExpr _ hcall.2.1 (htemp.of_imp ?_))
      (inside_emitExpr _ hcall.2.2.1 (htemp.of_imp ?_))
      (inside_emitExpr _ hcall.2.2.2 (htemp.of_imp ?_))
    all_goals simp +contextual [Expr.all]
  | .externCall name args width, hcall, _ => by simp [Expr.all, Expr.isCall] at hcall
  | .csr _, _, _ | .cycle, _, _ | .instret, _, _ => by
    intro dest e hd
    simp [emitExpr, lines_emitExprCsr hd, lines_emitExprInstret hd, hd]
  | .temp idx, _, _ => by
    exact fun dest e hd => lines_emitExprTemp hd
  | .pcConst v, _, _ => by
    exact fun dest e hd => lines_emitExprPcConst v hd
  | .pc, _, _ | .traceIdx, _, _ | .pcIdx, _, _ | .resAddr, _, _ | .resValid, _, _ | .exited, _, _
  | .exitCode, _, _ | .var _, _, _ => by
    intro dest e hd
    simp [emitExpr, emitExprPc, emitExprReservationAddr, emitExprStateU8, emitExprVar, hd]

/-! ### Statements -/

/-- A footprint in which a guest register may be written. -/
def Footprint.Writable (A : Footprint) (em : Emitter) (r : ℕ) : Prop :=
  match em.regMap.mapping r with
  | some g => g ∈ A.regs
  | none => .reg r ∈ A.fields

theorem lines_emitTraceRegWrite {valReg : Name} :
    Lines A.Admits (emitTraceRegWrite X em r valReg) e := by
  simp [emitTraceRegWrite, storeTracer]

theorem lines_emitWriteReg {value : Expr X} (hvalue : A.Inside (emitExpr em value))
    (hr : A.Writable em r) : Lines A.Admits (emitWriteReg em r value) e := by
  unfold emitWriteReg
  unfold Footprint.Writable at hr
  unfold RegMap.get storeToRv RegMap.get
  split at hr
  case h_1 g hg => simp [hg, coldCacheInvalidate, hvalue _ _, hr, lines_emitTraceRegWrite]
  case h_2 hg =>
    simp [hg, coldCacheInvalidate, hvalue _ _, hr, lines_emitTraceRegWrite]

theorem lines_emitWriteStmt {target : WriteTarget X} {value : Expr X}
    (hcall : (write target value).all noCall = true)
    (htemp : A.Temp3 em ((write target value).all noTemp3))
    (hwrites : ∀ r, (write target value).writesReg r = true → A.Writable em r) :
    Lines A.Admits (emitWriteStmt em target value) e := by
  simp only [Stmt.all, Bool.and_eq_true] at hcall
  have hvalue : A.Inside (emitExpr em value) :=
    inside_emitExpr value hcall.2 (htemp.of_imp (by simp +contextual [Stmt.all]))
  cases target with
  | reg r => exact lines_emitWriteReg hvalue (hwrites r (by simp [writesReg]))
  | mem base offset width =>
    have hbase : A.Inside (emitExpr em base) :=
      inside_emitExpr base hcall.1
        (htemp.of_imp (by simp +contextual [Stmt.all, WriteTarget.all]))
    simp [emitWriteStmt, emitWriteMem, hvalue _ _, lines_emitAddress hbase,
      lines_emitTraceMemAccess fun h => htemp (.inl h)]
  | temp idx =>
    simp only [emitWriteStmt, emitWriteTemp, lines_bind]
    refine ⟨hvalue _ _ (by simp), ?_⟩
    split <;> simp
  | _ => simp [emitWriteStmt, emitWriteByte, hvalue _ _]

mutual

theorem lines_emitStmt : ∀ (st : Stmt X) (e : St), st.all noCall = true →
    A.Temp3 em (st.all noTemp3) → (∀ r, st.writesReg r = true → A.Writable em r) →
    Lines A.Admits (emitStmt em st) e
  | .write target value, e, hcall, htemp, hwrites => by
    exact lines_emitWriteStmt hcall htemp hwrites
  | .ite cond thenStmts elseStmts, e, hcall, htemp, hwrites => by
    simp only [Stmt.all, Bool.and_eq_true] at hcall
    have hcond : A.Inside (emitExpr em cond) :=
      inside_emitExpr cond hcall.1 (htemp.of_imp (by simp +contextual [Stmt.all]))
    have hthen := fun e => lines_emitStmts thenStmts e hcall.2.1
      (htemp.of_imp (by simp +contextual [Stmt.all]))
      (fun r hr => hwrites r (by simp [writesReg, hr]))
    have helse := fun e => lines_emitStmts elseStmts e hcall.2.2
      (htemp.of_imp (by simp +contextual [Stmt.all]))
      (fun r hr => hwrites r (by simp [writesReg, hr]))
    simp [emitStmt, hcond _ _, hthen, helse]
  | .externCall fnName args, _, hcall, _, _ => by simp [Stmt.all] at hcall

theorem lines_emitStmts : ∀ (sts : List (Stmt X)) (e : St), allAll noCall sts = true →
    A.Temp3 em (allAll noTemp3 sts) →
    (∀ r, statementsWriteReg r sts = true → A.Writable em r) →
    Lines A.Admits (emitStmts em sts) e
  | [], e, _, _, _ => by
    exact lines_pure
  | st :: sts, e, hcall, htemp, hwrites => by
    simp only [allAll, Bool.and_eq_true] at hcall
    rw [emitStmts, lines_bind]
    exact ⟨lines_emitStmt st e hcall.1 (htemp.of_imp (by simp +contextual [allAll]))
        (fun r hr => hwrites r (by simp [statementsWriteReg, hr])),
      lines_emitStmts sts _ hcall.2 (htemp.of_imp (by simp +contextual [allAll]))
        (fun r hr => hwrites r (by simp [statementsWriteReg, hr]))⟩

end

/-! ### Terminators and instructions -/

variable {fallPc : U64}

theorem lines_emitFall {fall : Option X.Reg} :
    Lines A.Admits (emitFall em fall fallPc) e := by
  simp [emitFall]

variable {term : Terminator X}

theorem lines_emitTerminator (hcall : term.all noCall = true)
    (htemp : A.Temp3 em (term.all noTemp3)) :
      Lines A.Admits (emitTerminator em fallPc term) e := by
  cases term with
  | jumpDyn addr resolved =>
    simp [emitTerminator, lines_emitExprAsAddr (inside_emitExpr addr hcall htemp)]
  | branch cond target fall hint =>
    simp [emitTerminator, (inside_emitExpr cond hcall htemp) _ _, lines_emitFall]
  | exit code => simp [emitTerminator, (inside_emitExpr code hcall htemp) _ _]
  | _ => simp [emitTerminator, lines_emitFall]

theorem lines_emitStoreNextPcImm {nextPc : U64} :
    Lines A.Admits (emitStoreNextPcImm X nextPc) e := by
  cases X <;> simp [emitStoreNextPcImm]

theorem lines_emitSuspend {currentPc : U64}
    (hcall : term.all noCall = true) (htemp : A.Temp3 em (term.all noTemp3)) :
    Lines A.Admits (emitSuspend em fallPc currentPc term) e := by
  cases term with
  | jumpDyn addr resolved =>
    simp [emitSuspend, lines_emitExprAsAddr (inside_emitExpr addr hcall htemp)]
  | branch cond target fall hint =>
    simp [emitSuspend, (inside_emitExpr cond hcall htemp) _ _,
      lines_emitStoreNextPcImm]
  | _ => simp [emitSuspend, lines_emitStoreNextPcImm]

theorem lines_emitSuspendCheck {currentPc : U64}
    (hcall : term.all noCall = true) (htemp : A.Temp3 em (term.all noTemp3)) :
    Lines A.Admits (emitSuspendCheck em fallPc currentPc term) e := by
  simp [emitSuspendCheck, lines_emitSuspend hcall htemp]

theorem lines_emitTracePc {pc : U64} {opcode : BitVec 32}
    (hrdi : em.diffTracer = true → .rdi ∈ A.regs) :
      Lines A.Admits (emitTracePc X em pc opcode) e := by
  unfold emitTracePc
  rw [lines_when]
  intro htracer
  cases X <;> simp [storeTracer, hrdi htracer]

/-- The code of an instruction without calls stays inside every footprint in which the registers
that the IR writes may be written, and the third temporary where that is used. -/
theorem lines_emitInstruction {instr : InstrIR X} (hcall : instr.all noCall = true)
    (htemp : A.Temp3 em (instr.all noTemp3))
    (hwrites : ∀ r, statementsWriteReg r instr.statements = true → A.Writable em r) :
    Lines A.Admits (emitInstruction em instr fallPc) e := by
  simp only [InstrIR.all, Bool.and_eq_true] at hcall
  have hstmts := fun e => lines_emitStmts instr.statements e hcall.1
    (htemp.of_imp (by simp +contextual [InstrIR.all])) hwrites
  have hterm : A.Temp3 em (instr.terminator.all noTemp3) :=
    htemp.of_imp (by simp +contextual [InstrIR.all])
  simp [emitInstruction, lines_emitTracePc fun h => htemp (.inl h), emitInstretIncrement, hstmts,
    emitInstretPostCheck, lines_emitSuspendCheck hcall.2 hterm, lines_emitTerminator hcall.2 hterm]

end Lines

/-! ## The frame -/

section Frame

variable (em : Emitter) (instr : InstrIR X)

/-- The guest registers that the IR does not write keep their value: the machine register of a hot
one, and the field of the state structure. -/
def GuestKept (σ σ' : State) : Prop :=
  ∀ r, statementsWriteReg r instr.statements = false →
    (∀ g, em.regMap.mapping r = some g → σ'.regs g = σ.regs g) ∧
      σ'.field (.reg r) = σ.field (.reg r)

/-- Neither the tracer nor a shift of the instruction overwrites a guest register in `%rdi`, unless
the IR writes that register. -/
def Temp3Safe : Prop :=
  ∀ r, em.regMap.mapping r = some .rdi →
    statementsWriteReg r instr.statements = true ∨
      (em.diffTracer = false ∧ instr.all noTemp3 = true)

/-- The smallest footprint of an instruction, with or without `%rdi`. -/
def instrFootprint (temp3 : Prop) : Footprint where
  regs := {g | g ∈ [.rax, .rcx, .rdx, .r10, .r11] ∨
    (∃ r, em.regMap.mapping r = some g ∧ statementsWriteReg r instr.statements = true) ∨
    (g = .rdi ∧ temp3)}
  fields := {f | ∀ r, f = .reg r → statementsWriteReg r instr.statements = true}
  rax := by simp
  rcx := by simp
  rdx := by simp
  r10 := by simp
  r11 := by simp
  other := fun f hf r hr => absurd hr (hf r)

variable {em instr}

theorem writable_instrFootprint {temp3 : Prop}
    (hr : statementsWriteReg r instr.statements = true) :
    (instrFootprint em instr temp3).Writable em r := by
  unfold Footprint.Writable
  split
  case h_1 g hg => exact .inr (.inl ⟨r, hg, hr⟩)
  case h_2 hg =>
    intro r' hr'
    cases hr'
    exact hr

/-- What lies outside the footprint of an instruction: the hot registers that the IR does not write,
up to `%rdi`. -/
theorem notMem_instrFootprint {temp3 : Prop} {g : Reg} (hg : em.regMap.mapping r = some g)
    (hr : statementsWriteReg r instr.statements = false) (hrdi : ¬ (g = .rdi ∧ temp3)) :
    g ∉ (instrFootprint em instr temp3).regs := by
  rintro (hscratch | ⟨r', hr', hwritten⟩ | htemp3)
  · have havail := em.regMap.available hg
    revert hscratch havail
    cases g <;> decide
  · cases em.regMap.injective hg hr'
    exact absurd hwritten (by simp [hr])
  · exact hrdi htemp3

theorem guestKept_of_keeps {temp3 : Prop} {σ σ' : State}
    (h : (instrFootprint em instr temp3).Keeps σ σ')
    (hrdi : temp3 → ∀ r, em.regMap.mapping r = some .rdi →
      statementsWriteReg r instr.statements = false → σ'.regs .rdi = σ.regs .rdi) :
    GuestKept em instr σ σ' := by
  intro r hr
  refine ⟨fun g hg => ?_, h.field _ fun hf => absurd (hf r rfl) (by simp [hr])⟩
  by_cases htemp3 : g = .rdi ∧ temp3
  · obtain ⟨rfl, ht⟩ := htemp3
    exact hrdi ht r hg hr
  · exact h.regs g (notMem_instrFootprint hg hr htemp3)

/-- The code of an instruction without calls keeps the guest registers that the IR does not write,
exactly if the run leaves `%rdi` alone when one of them lives there; it does so whenever neither the
tracer nor a shift is in the way. -/
theorem frame_iff (env : Env) (fallPc : U64) (e : St) (σ σ' : State) (l : Option Label)
    (hcall : instr.all noCall = true)
    (hrun : (machine env).exec ((emitInstruction em instr fallPc).code e) (σ, none) =
      some (σ', l)) :
    (Temp3Safe em instr → GuestKept em instr σ σ') ∧
      (GuestKept em instr σ σ' ↔ ∀ r, em.regMap.mapping r = some .rdi →
        statementsWriteReg r instr.statements = false → σ'.regs .rdi = σ.regs .rdi) := by
  have hkeeps := fun temp3 htemp =>
    exec_within (lines_emitInstruction (A := instrFootprint em instr temp3) hcall htemp
      fun r hr => writable_instrFootprint hr) hrun
  have hall : (instrFootprint em instr True).Keeps σ σ' :=
    hkeeps True fun _ => .inr (.inr ⟨rfl, trivial⟩)
  refine ⟨fun hsafe => ?_, fun hkept r hr hw => (hkept r hw).1 _ hr,
    fun hrdi => guestKept_of_keeps hall fun _ => hrdi⟩
  by_cases huses : em.diffTracer = true ∨ instr.all noTemp3 = false
  · -- the third temporary is used: whatever lives there is written by the IR
    refine guestKept_of_keeps hall fun _ r hr hw => ?_
    rcases hsafe r hr with hwritten | ⟨htracer, hshifts⟩
    · rw [hwritten] at hw
      cases hw
    · rw [htracer, hshifts] at huses
      simp at huses
  · exact guestKept_of_keeps (hkeeps False fun h => absurd h huses) False.elim

/-- The premises of `frame_iff` hold at `addi ra, ra, 1` with a guest register in `%rdi`. -/
theorem frame_addi :
    let em := Emitter.plain .wrap 32 [1, 2, 3, 4, 5]
    let instr : InstrIR .rv64 :=
      ⟨0x1000, 4, 0, 0, [.writeReg 1 (.add (.read 1) (.imm 1))], .fall none⟩
    ∃ σ' l, (machine .idle).exec ((emitInstruction em instr 0x1004).code .start) (.zero, none) =
        some (σ', l) ∧ GuestKept em instr .zero σ' :=
  ⟨_, _, rfl, (frame_iff .idle 0x1004 .start .zero _ _ rfl rfl).1 fun _ _ => .inr ⟨rfl, rfl⟩⟩

/-- The state of the counterexample: `t0` is hot in `%rdi` and holds 7. -/
def rdiState : State := { State.zero with regs := Function.update State.zero.regs .rdi 7 }

/-- `sll ra, sp, gp` with `t0` in `%rdi`: the IR does not write `t0`, the code evaluates the shift
amount into `%rdi`. -/
theorem frame_sll_overwrites_t0 :
    let em := Emitter.plain .wrap 32 [1, 2, 3, 4, 5]
    em.regMap.mapping 5 = some .rdi ∧
      ((ExtensionRegistry.standard .rv64).decode [0xB3, 0x10, 0x31, 0x00] 0x1000).map (fun d =>
        let instr := (ExtensionRegistry.standard .rv64).lift d
        (instr.all noCall, statementsWriteReg 5 instr.statements,
          ((machine .idle).exec ((emitInstruction em instr 0x1004).code .start)
            (rdiState, none)).map fun c => c.1.regs .rdi)) = some (true, false, some 0) := by
  decide +kernel

end Frame

end X64

end Rvr
