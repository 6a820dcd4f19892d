import Rvr.Verify.X64.Lowering

/-!
# Nested expressions in x86-64 code

The emitter has three scratch registers and does not spill: a left operand waits in `%rax`, the
condition of a select in `%rdx` and its then-value in `%rax`, while the code of the next operand
runs. `Tree.clobbers` says which of these registers the code of a tree overwrites, and `Tree.Ok`
that no tree overwrites a register in which a value waits.  Under that condition the code computes
`Tree.lowered`, which is the value of the tree but for the immediates that are not loaded as they
are.
-/

namespace Rvr.X64

open Asm Asm.Machine Asm.Emit

/-! ## Trees -/

/-- Trees of arithmetic operators, comparisons, `not` and `select` over registers and immediates. -/
inductive Tree (X : Xlen)
  | leaf (l : Leaf X)
  | binary (op : BinaryOp) (hop : isDirect op = true) (left right : Tree X)
  | not (inner : Tree X)
  | select (cond thenVal elseVal : Tree X)

/-- The code that `emit_binary_op` chooses. -/
inductive Path
  | clear | move | inPlace | viaRax
  deriving DecidableEq

namespace Tree

variable {X : Xlen}

def expr : Tree X → Expr X
  | .leaf l => l.expr
  | .binary op _ left right => .binary op left.expr right.expr
  | .not inner => .unary .not inner.expr
  | .select cond thenVal elseVal => .ternary .select cond.expr thenVal.expr elseVal.expr

/-- A property of the operand that a tree consists of. -/
def leafAnd (p : Leaf X → Bool) : Tree X → Bool
  | .leaf l => p l
  | _ => false

/-- An immediate that absorbs every left operand. -/
def isAbsorbing (op : BinaryOp) : Leaf X → Bool
  | .imm v => op = .and ∧ v = 0
  | .reg _ => false

/-- The path of a binary operator. -/
def path (em : Emitter) (op : BinaryOp) (left right : Tree X) (dest : Name) : Path :=
  if right.leafAnd (isAbsorbing op) then .clear
  else if right.leafAnd (isImmFast op) then .move
  else if left.leafAnd (isInPlace em op dest) then .inPlace
  else .viaRax

/-- The operation in place. -/
def inPlaceCode (em : Emitter) (op : BinaryOp) (right : Tree X) (dest : Name) : Em Name := do
  let rightVal ← inPlaceOperand op right.expr (emitExpr em right.expr)
  ins (.alu ((aluOp op).getD .add) (suffix X) rightVal dest)
  pure dest

variable (em : Emitter)

/-- The code of a binary operator on each path. -/
def pathCode (op : BinaryOp) (left right : Tree X) (dest : Name) : Path → Em Name
  | .clear => do clear X dest; pure dest
  | .move => emitMoveLeftToDest X (emitExpr em left.expr) dest
  | .inPlace => inPlaceCode em op right dest
  | .viaRax =>
    emitBinaryOpViaRax op right.expr (emitExpr em left.expr) (emitExpr em right.expr) dest

variable {em} {op : BinaryOp} {left right : Tree X} {dest : Name}

theorem emitBinaryOpImmFast_of_false {emitLeft : Operation}
    (h : right.leafAnd (isImmFast op) = false) :
    emitBinaryOpImmFast op emitLeft right.expr dest = none := by
  cases right with
  | leaf l => exact emitBinaryOpImmFast_eq_none h
  | _ => rfl

theorem emitBinaryOpInPlace_of_false {emitRight : Operation}
    (h : left.leafAnd (isInPlace em op dest) = false) :
    emitBinaryOpInPlace em op left.expr right.expr emitRight dest = none := by
  cases hop : aluOp op with
  | none => simp [emitBinaryOpInPlace, hop]
  | some alu =>
    cases left with
    | leaf l =>
      cases l with
      | imm v => simp [emitBinaryOpInPlace, expr, Leaf.expr]
      | reg r => simp_all [emitBinaryOpInPlace, expr, Leaf.expr, isInPlace, leafAnd]
    | _ => simp [emitBinaryOpInPlace, expr]

theorem leafAnd_isAbsorbing (h : right.leafAnd (isImmFast op) = false) :
    right.leafAnd (isAbsorbing op) = false := by
  cases right with
  | leaf l =>
    cases l with
    | imm v =>
      refine decide_eq_false ?_
      rintro ⟨rfl, rfl⟩
      simp [leafAnd, isImmFast] at h
    | reg r => rfl
  | _ => rfl

/-- The inversion of `emit_binary_op`: one path, and its code. -/
theorem emitExpr_binary (hop : isDirect op = true) :
    emitExpr em (Tree.binary op hop left right).expr dest =
      pathCode em op left right dest (path em op left right dest) := by
  rw [expr, emitExpr, emitBinaryOp]
  cases hfast : right.leafAnd (isImmFast op) with
  | true =>
    cases right with
    | leaf l =>
      cases l with
      | imm v =>
        by_cases habs : op = .and ∧ v = 0
        · obtain ⟨rfl, rfl⟩ := habs
          simp [path, leafAnd, isAbsorbing, pathCode, emitBinaryOpImmFast, expr, Leaf.expr,
            toNat_toU64_eq_zero]
        · have hpath : path em op left (.leaf (.imm v)) dest = .move := by
            rw [path, if_neg (by simpa [leafAnd, isAbsorbing] using habs), if_pos hfast]
          cases op <;> simp_all [leafAnd, isImmFast, emitBinaryOpImmFast, expr, Leaf.expr, pathCode,
            toNat_toU64_eq_zero, toNat_toU64_eq_allOnes, isDirect]
      | reg r => cases hfast
    | _ => cases hfast
  | false =>
    have hnone : emitBinaryOpImmFast op (emitExpr em left.expr) right.expr dest = none :=
      emitBinaryOpImmFast_of_false hfast
    rw [hnone, path, leafAnd_isAbsorbing hfast, hfast]
    cases hplace : left.leafAnd (isInPlace em op dest) with
    | true =>
      cases left with
      | leaf l =>
        cases l with
        | imm v => cases hplace
        | reg r =>
          obtain ⟨halu, hget⟩ := of_decide_eq_true hplace
          obtain ⟨alu, halu⟩ := Option.isSome_iff_exists.1 halu
          simp [emitBinaryOpInPlace, halu, expr, Leaf.expr, hget, pathCode, inPlaceCode]
      | _ => cases hplace
    | false =>
      rw [emitBinaryOpInPlace_of_false hplace]
      rfl

end Tree

/-! ## Code that writes only given registers -/

section Confined

variable {S : Set Reg} {e : St} {dest : Name} {env : Env} {α : Type} {m : Em α}

@[simp] theorem lines_confined_ins {i : Instr} : Lines (Confined S ∅) (ins i) e ↔
    i.isCall = false ∧ i.stores = none ∧ ∀ g ∈ i.writes, g ∈ S := by
  refine lines_line.trans (and_congr_right fun _ => ?_)
  simp [Option.eq_none_iff_forall_ne_some, and_comm]

/-- A run of confined code. -/
theorem runs_within {c : State × Option Label} {Q : α → St → State × Option Label → Prop}
    (h : (machine env).Runs m e c Q) (hm : Lines (Confined S ∅) m e) :
    (machine env).Runs m e c fun a e' c' => Q a e' c' ∧ Within S ∅ c.1 c'.1 := by
  obtain ⟨c', hexec, hq⟩ := h
  exact ⟨c', hexec, hq, exec_within hm hexec⟩

theorem Within.guestReg {X : Xlen} {em : Emitter} {σ σ' : State} (h : Within S ∅ σ σ')
    (hS : ∀ g ∈ S, g ∉ availableRegs) (r : ℕ) : (em.guestReg σ' r : X.Reg) = em.guestReg σ r := by
  unfold Emitter.guestReg
  split
  case h_1 g hg =>
    rw [State.val, State.val, h.regs g fun hs => hS g hs (em.regMap.available hg)]
  case h_2 => rw [State.fieldVal, State.fieldVal, h.field _ (Set.notMem_empty _)]

theorem lines_finish_confined {X : Xlen} (hrax : .rax ∈ S) :
    Lines (Confined S ∅) (finish X dest) e ↔ dest.reg ∈ S := by
  by_cases hdest : dest = temp1 X
  · simp [finish, hdest, temp1, hrax]
  · simp [finish, hdest, Instr.isCall, Instr.stores, Instr.writes]

/-- The operators of trees write rax and the destination. -/
theorem lines_generalOp {X : Xlen} {op : BinaryOp} {rv : Operand} (hop : isDirect op = true) :
    Lines (Confined S ∅) (generalOp X op rv dest) e ↔ .rax ∈ S ∧ dest.reg ∈ S := by
  have hins : ∀ {i : Instr}, i.isCall = false → i.stores = none → i.writes = [.rax] → ∀ e,
      (Lines (Confined S ∅) (do ins i; finish X dest) e ↔ .rax ∈ S ∧ dest.reg ∈ S) := by
    intro i hcall hstores hwrites e
    rw [lines_bind, lines_confined_ins]
    simp only [hcall, hstores, hwrites, List.mem_singleton, forall_eq, true_and]
    exact and_congr_right fun hrax => lines_finish_confined hrax
  have hcmp : ∀ {c : Cond}, Lines (Confined S ∅) (do
      ins (.cmp (suffix X) rv (temp1 X))
      ins (.setcc c al)
      ins (.movzx .b .l (.reg al) (regDword dest))
      pure dest) e ↔ .rax ∈ S ∧ dest.reg ∈ S := by
    simp [Instr.isCall, Instr.stores, Instr.writes, al, regDword]
  cases op with
  | add =>
    cases rv with
    | imm z =>
      by_cases hz : -2 ^ 31 ≤ z ∧ z < 2 ^ 31
      · simp only [generalOp, emitBinaryArith, if_pos hz]
        exact hins rfl rfl rfl e
      · simp only [generalOp, emitBinaryArith, if_neg hz]
        exact hins rfl rfl rfl e
    | _ => exact hins rfl rfl rfl e
  | sub | and | or | xor => exact hins rfl rfl rfl e
  | eq | ne | lt | ge | ltu | geu => exact hcmp
  | _ => cases hop

end Confined

namespace Tree

variable {X : Xlen} (em : Emitter)

/-- Whether the code of a tree for a destination overwrites `%rax` or `%rdx`, the destination
apart. -/
def clobbers (g : Reg) : Tree X → Name → Bool
  | .leaf _, _ => false
  | .binary op _ left right, dest =>
    match path em op left right dest with
    | .clear => false
    | .move => left.clobbers g dest
    | .inPlace => right.clobbers g (temp2 X)
    | .viaRax => g = .rax ∨ left.clobbers g (temp1 X) ∨ right.clobbers g (temp2 X)
  | .not inner, _ => g = .rax ∨ inner.clobbers g (temp1 X)
  | .select _ _ _, _ => true

variable {em} {S : Set Reg} {e : St}

theorem lines_leaf (hr11 : .r11 ∈ S) (l : Leaf X) {dest : Name} (hdest : dest.reg ∈ S) :
    Lines (Confined S ∅) (emitExpr em l.expr dest) e := by
  cases l with
  | imm v =>
    cases X <;> simp [Leaf.expr, emitExpr, emitExprImm, clear, Instr.isCall, Instr.stores,
      Instr.writes, hdest]
  | reg r =>
    rw [Leaf.expr, emitExpr]
    by_cases hr : r = 0
    · simp [loadRvToTemp, hr, clear, Instr.isCall, Instr.stores, Instr.writes, hdest]
    · rw [loadRvToTemp, if_neg hr]
      cases em.regMap.get X r with
      | some n => exact lines_pure
      | none =>
        by_cases hhit : e.coldCache = some r
        · simp [coldCacheHit, hhit]
        · simp [coldCacheHit, hhit, coldCacheSet, coldCacheReg, Instr.isCall, Instr.stores,
            Instr.writes, hr11]

/-- A value is moved to a register of `S`. -/
theorem lines_moveTo {b : Bool} {o : Operand} {sz : Size} {n : Name} (hn : n.reg ∈ S) :
    Lines (Confined S ∅) (Emit.when b (ins (.mov sz o n))) e := by
  simp [Instr.isCall, Instr.stores, Instr.writes, hn]

theorem lines_forRcx {t : Tree X} {P : Prop}
    (h : ∀ {e}, Lines (Confined S ∅) (emitExpr em t.expr (temp2 X)) e ↔ P) :
    Lines (Confined S ∅) (emitExpr em t.expr (temp2 X) >>= fun r => pure (Operand.reg r)) e ↔
      P := by
  rw [lines_bind, h]
  exact and_iff_left lines_pure

/-- The right operand of an operator is evaluated for rcx, unless it is an immediate. -/
theorem lines_emitRightOperand {t : Tree X} {P : Prop} (hleaf : ∀ l, t = .leaf l → P)
    (h : ∀ {e}, Lines (Confined S ∅) (emitExpr em t.expr (temp2 X)) e ↔ P) :
    Lines (Confined S ∅) (emitRightOperand t.expr (emitExpr em t.expr)) e ↔ P := by
  cases t with
  | leaf l =>
    cases l with
    | imm v => exact iff_of_true lines_pure (hleaf _ rfl)
    | reg r => exact lines_forRcx h
  | _ => exact lines_forRcx h

variable {op : BinaryOp}

theorem lines_inPlaceOperand {t : Tree X} {P : Prop} (hleaf : ∀ l, t = .leaf l → P)
    (h : ∀ {e}, Lines (Confined S ∅) (emitExpr em t.expr (temp2 X)) e ↔ P) :
    Lines (Confined S ∅) (inPlaceOperand op t.expr (emitExpr em t.expr)) e ↔ P := by
  cases t with
  | leaf l =>
    cases l with
    | imm v =>
      rw [expr, Leaf.expr, inPlaceOperand]
      split
      · exact iff_of_true lines_pure (hleaf _ rfl)
      · exact lines_forRcx h
    | reg r => exact lines_forRcx h
  | _ => exact lines_forRcx h

theorem general_of_direct (hop : isDirect op = true) :
    shiftOp op = none ∧ ¬ (op = .addW ∨ op = .subW) := by
  cases op <;> simp_all [isDirect, shiftOp]

/-- The path through rax is the left operand, a move to rax, the right operand and the operator. -/
theorem emitBinaryOpViaRax_eq (hop : isDirect op = true) {right : Expr X}
    {emitLeft emitRight : Operation} {dest : Name} :
    emitBinaryOpViaRax op right emitLeft emitRight dest = (do
      let leftReg ← emitLeft (temp1 X)
      Emit.when (leftReg ≠ temp1 X) (ins (.mov (suffix X) (.reg leftReg) (temp1 X)))
      let rightVal ← emitRightOperand right emitRight
      generalOp X op rightVal dest) := by
  rw [← afterLeft_general (general_of_direct hop).1 (general_of_direct hop).2]
  rfl

/-- Which registers the code of a tree writes. -/
theorem lines_tree (hrcx : .rcx ∈ S) (hr11 : .r11 ∈ S) (t : Tree X) : ∀ {dest : Name} {e : St},
    dest.reg ∈ S → (Lines (Confined S ∅) (emitExpr em t.expr dest) e ↔
      (t.clobbers em .rax dest = true → .rax ∈ S) ∧
        (t.clobbers em .rdx dest = true → .rdx ∈ S)) := by
  have htemp2 : (temp2 X).reg ∈ S := hrcx
  have hleaf (l : Leaf X) (d : Name) : ((leaf l).clobbers em .rax d = true → .rax ∈ S) ∧
      ((leaf l).clobbers em .rdx d = true → .rdx ∈ S) :=
    ⟨fun h => absurd h Bool.false_ne_true, fun h => absurd h Bool.false_ne_true⟩
  induction t with
  | leaf l =>
    intro dest e hdest
    exact iff_of_true (lines_leaf hr11 l hdest) (hleaf l dest)
  | not inner ih =>
    intro dest e hdest
    rw [expr, emitExpr, emitUnaryOp, lines_bind, lines_bind]
    by_cases hrax : .rax ∈ S
    · have htemp1 : (temp1 X).reg ∈ S := hrax
      rw [ih htemp1, and_iff_left]
      · simp [clobbers, hrax]
      · simp [emitUnaryNegate, lines_finish_confined hrax, Instr.isCall, Instr.stores, Instr.writes,
          htemp1, hdest]
    · refine iff_of_false ?_ fun h => hrax (h.1 (by simp [clobbers]))
      rintro ⟨-, -, hend⟩
      simp [emitUnaryNegate, Instr.writes, temp1, hrax] at hend
  | select cond thenVal elseVal ihc iht ihe =>
    intro dest e hdest
    rw [expr, emitExpr, emitExprSelect]
    simp only [lines_bind, clobbers, true_imp_iff]
    constructor
    · rintro ⟨-, hrdx, -, -, -, -, hrax, -⟩
      simp only [lines_confined_ins, Instr.writes, List.mem_singleton, forall_eq] at hrdx hrax
      exact ⟨by simpa [temp1] using hrax.2.2, hrdx.2.2⟩
    · rintro ⟨hrax, hrdx⟩
      have htemp1 : (temp1 X).reg ∈ S := hrax
      have hsub : ∀ t : Tree X, ∀ d, (t.clobbers em .rax d = true → .rax ∈ S) ∧
          (t.clobbers em .rdx d = true → .rdx ∈ S) := fun _ _ => ⟨fun _ => hrax, fun _ => hrdx⟩
      refine ⟨(ihc htemp1).2 (hsub _ _), ?_, (iht htemp1).2 (hsub _ _), lines_moveTo htemp1,
        (ihe htemp2).2 (hsub _ _), ?_, ?_, lines_moveTo hdest, lines_pure⟩
      all_goals simp [Instr.isCall, Instr.stores, Instr.writes, rdx, hrdx, htemp1]
  | binary op hop left right ihl ihr =>
    intro dest e hdest
    rw [emitExpr_binary]
    simp only [clobbers]
    cases path em op left right dest with
    | clear =>
      simp [pathCode, clear, Instr.isCall, Instr.stores, Instr.writes, hdest]
    | move =>
      rw [pathCode, emitMoveLeftToDest, lines_bind, ihl hdest, and_iff_left]
      rw [lines_bind]
      exact ⟨lines_moveTo (by simpa using hdest), lines_pure⟩
    | inPlace =>
      have hright : ∀ {e}, Lines (Confined S ∅) (emitExpr em right.expr (temp2 X)) e ↔ _ :=
        ihr htemp2
      rw [pathCode, inPlaceCode, lines_bind, lines_inPlaceOperand ?_ hright]
      · simp [Instr.isCall, Instr.stores, Instr.writes, hdest]
      · rintro l rfl
        exact hleaf l _
    | viaRax =>
      have hright : ∀ {e}, Lines (Confined S ∅) (emitExpr em right.expr (temp2 X)) e ↔ _ :=
        ihr htemp2
      rw [pathCode, emitBinaryOpViaRax_eq hop, lines_bind, lines_bind, lines_bind,
        lines_emitRightOperand ?_ hright, lines_generalOp hop]
      · by_cases hrax : .rax ∈ S
        · have htemp1 : (temp1 X).reg ∈ S := hrax
          rw [ihl htemp1]
          simp [hrax, hdest, lines_moveTo htemp1, or_imp]
        · refine iff_of_false ?_ fun h => hrax (h.1 (by simp))
          exact fun h => hrax h.2.2.2.1
      · rintro l rfl
        exact hleaf l _

/-! ## What the code computes -/

/-- The immediate that a tree consists of. -/
def immediate : Tree X → Option X.Reg
  | .leaf (.imm v) => some v
  | _ => none

variable (em)

/-- No code overwrites a register in which a value waits: a left operand in rax, the condition of a
select in rdx, its then-value in rax. -/
def Ok : Tree X → Name → Bool
  | .leaf _, _ => true
  | .binary op _ left right, dest =>
    match path em op left right dest with
    | .clear => true
    | .move => left.Ok dest
    | .inPlace => right.Ok (temp2 X)
    | .viaRax => left.Ok (temp1 X) ∧ right.Ok (temp2 X) ∧ right.clobbers em .rax (temp2 X) = false
  | .not inner, _ => inner.Ok (temp1 X)
  | .select cond thenVal elseVal, _ =>
    cond.Ok (temp1 X) ∧ thenVal.Ok (temp1 X) ∧ elseVal.Ok (temp2 X) ∧
      thenVal.clobbers em .rdx (temp1 X) = false ∧ elseVal.clobbers em .rdx (temp2 X) = false ∧
      elseVal.clobbers em .rax (temp2 X) = false

/-- The text of a tree can be assembled: the immediates of operators fit, and a select is for
RV64. -/
def Encodable : Tree X → Name → Bool
  | .leaf _, _ => true
  | .binary op _ left right, dest =>
    match path em op left right dest with
    | .clear => true
    | .move => left.Encodable dest
    | .inPlace => right.Encodable (temp2 X)
    | .viaRax => left.Encodable (temp1 X) ∧ right.Encodable (temp2 X) ∧
        right.immediate.all fun v => immFits (suffix X) (Xlen.toU64 v).toInt
  | .not inner, _ => inner.Encodable (temp1 X)
  | .select cond thenVal elseVal, _ =>
    X = .rv64 ∧ cond.Encodable (temp1 X) ∧ thenVal.Encodable (temp1 X) ∧ elseVal.Encodable (temp2 X)

/-- The value that the code of a tree computes if nothing is overwritten. -/
def lowered (σ : State) : Tree X → Name → X.Reg
  | .leaf l, _ => l.loaded em σ
  | .binary op _ left right, dest =>
    match path em op left right dest with
    | .clear => 0
    | .move => left.lowered σ dest
    | .inPlace => op.val (left.lowered σ dest) (right.lowered σ (temp2 X))
    | .viaRax =>
      op.val (left.lowered σ (temp1 X)) (right.immediate.getD (right.lowered σ (temp2 X)))
  | .not inner, _ => UnaryOp.val (inner.lowered σ (temp1 X)) .not
  | .select cond thenVal elseVal, _ =>
    TernaryOp.val (cond.lowered σ (temp1 X)) (thenVal.lowered σ (temp1 X))
      (elseVal.lowered σ (temp2 X)) .select

/-- The code of an operation keeps a register, from whatever state it is emitted. -/
def Spares (g : Reg) (t : Tree X) (dest : Name) : Prop :=
  ∀ e, Lines (Confined {g}ᶜ ∅) (emitExpr em t.expr dest) e

/-- Nothing that waits is overwritten before its use, read off the emitted code. -/
def Kept : Tree X → Name → Prop
  | .leaf _, _ => True
  | .binary op _ left right, dest =>
    match path em op left right dest with
    | .clear => True
    | .move => left.Kept dest
    | .inPlace => right.Kept (temp2 X)
    | .viaRax => left.Kept (temp1 X) ∧ right.Kept (temp2 X) ∧ Spares em .rax right (temp2 X)
  | .not inner, _ => inner.Kept (temp1 X)
  | .select cond thenVal elseVal, _ =>
    cond.Kept (temp1 X) ∧ thenVal.Kept (temp1 X) ∧ elseVal.Kept (temp2 X) ∧
      Spares em .rdx thenVal (temp1 X) ∧ Spares em .rdx elseVal (temp2 X) ∧
      Spares em .rax elseVal (temp2 X)

variable {em}

variable (t : Tree X)

theorem spares_rax_iff :
    Spares em .rax t (temp2 X) ↔ t.clobbers em .rax (temp2 X) = false := by
  have hlines : ∀ e, Lines (Confined {.rax}ᶜ ∅) (emitExpr em t.expr (temp2 X)) e ↔ _ := fun e =>
    lines_tree (by simp) (by simp) t (by simp [temp2])
  exact ⟨fun h => by simpa using (hlines .start).1 (h .start),
    fun h e => (hlines e).2 (by simp [h])⟩

theorem spares_rdx_iff {dest : Name} (hdest : dest.reg ≠ .rdx) :
    Spares em .rdx t dest ↔ t.clobbers em .rdx dest = false := by
  have hlines : ∀ e, Lines (Confined {.rdx}ᶜ ∅) (emitExpr em t.expr dest) e ↔ _ := fun e =>
    lines_tree (by simp) (by simp) t (by simpa using hdest)
  exact ⟨fun h => by simpa using (hlines .start).1 (h .start),
    fun h e => (hlines e).2 (by simp [h])⟩

/-- The emitted code overwrites nothing that waits exactly if the tree says so. -/
theorem kept_iff : ∀ dest, t.Kept em dest ↔ t.Ok em dest = true := by
  induction t with
  | leaf l => exact fun _ => iff_of_true trivial rfl
  | not inner ih => exact fun _ => ih _
  | select cond thenVal elseVal ihc iht ihe =>
    intro dest
    rw [Kept, Ok, decide_eq_true_iff, ihc, iht, ihe, spares_rdx_iff _ (by simp [temp1]),
      spares_rdx_iff _ (by simp [temp2]),
      spares_rax_iff]
  | binary op hop left right ihl ihr =>
    intro dest
    rw [Kept, Ok]
    cases path em op left right dest with
    | clear => exact iff_of_true trivial rfl
    | move => exact ihl _
    | inPlace => exact ihr _
    | viaRax =>
      rw [decide_eq_true_iff]
      exact and_congr (ihl _) (and_congr (ihr _) (spares_rax_iff _))

/-! ## Running the code of a tree -/

/-- A name that holds no guest value and is neither the counter nor the cache. -/
def IsTemp (n : Name) : Prop := n.reg ∉ availableRegs ∧ n.reg ≠ .r10 ∧ n.reg ≠ .r11

theorem isTemp_temp1 : IsTemp (temp1 X) := ⟨rax_notMem_availableRegs, nofun, nofun⟩

theorem isTemp_temp2 : IsTemp (temp2 X) :=
  ⟨show Reg.rcx ∉ availableRegs by decide, nofun, nofun⟩

/-- What the code of a tree guarantees. -/
structure Evaluated (X : Xlen) (em : Emitter) (dest : Name) (v : X.Reg) (n : Name) (e : St)
    (c : State × Option Label) : Prop where
  done : c.2 = none
  size : n.size = suffix X
  val : c.1.val X n.reg = v
  cached : IsTemp dest → Cached X em e c.1

variable {env : Env} {σ : State} {dest : Name}

/-- The scratch registers of trees. -/
def scratch : Set Reg := {.rax, .rcx, .rdx, .r11}

theorem lines_scratch (dest : Name) (e : St) :
    Lines (Confined (insert dest.reg scratch) ∅) (emitExpr em t.expr dest) e :=
  (lines_tree (by simp [scratch]) (by simp [scratch]) t (by simp)).2
    ⟨fun _ => by simp [scratch], fun _ => by simp [scratch]⟩

/-- What the code computes depends on the guest registers only. -/
theorem lowered_congr {σ' : State} (h : ∀ r, (em.guestReg σ' r : X.Reg) = em.guestReg σ r)
    (t : Tree X) :
    ∀ dest, t.lowered em σ' dest = t.lowered em σ dest := by
  induction t with
  | leaf l =>
    intro dest
    cases l with
    | imm v => rfl
    | reg r =>
      by_cases hr : r = 0
      · simp [lowered, Leaf.loaded, GuestState.readReg, hr]
      · rw [lowered, lowered, Leaf.loaded, Leaf.loaded, readReg_of_ne hr, readReg_of_ne hr, h]
  | not inner ih => exact fun dest => by rw [lowered, lowered, ih]
  | select cond thenVal elseVal ihc iht ihe =>
    exact fun dest => by rw [lowered, lowered, ihc, iht, ihe]
  | binary op hop left right ihl ihr =>
    intro dest
    simp only [lowered, ihl, ihr]

variable {right : Tree X}

/-- The right operand of an operator, while the left one waits in rax. -/
theorem runs_emitRightOperand (hcached : Cached X em e σ)
    (hspares : right.clobbers em .rax (temp2 X) = false)
    (hfits : ∀ v ∈ right.immediate, immFits (suffix X) (Xlen.toU64 v).toInt = true)
    (hrun : (machine env).Runs (emitExpr em right.expr (temp2 X)) e (σ, none)
      (Evaluated X em (temp2 X) (right.lowered em σ (temp2 X)))) :
    (machine env).Runs (emitRightOperand right.expr (emitExpr em right.expr)) e (σ, none)
      fun o e' c => c.2 = none ∧ o.fits (suffix X) = true ∧
        c.1.operand X o = right.immediate.getD (right.lowered em σ (temp2 X)) ∧
        c.1.val X .rax = σ.val X .rax ∧ Cached X em e' c.1 := by
  have heval : (machine env).Runs (emitExpr em right.expr (temp2 X) >>= fun r => pure
      (Operand.reg r)) e
      (σ, none) fun o e' c => c.2 = none ∧ o.fits (suffix X) = true ∧
        c.1.operand X o = right.lowered em σ (temp2 X) ∧ c.1.val X .rax = σ.val X .rax ∧
        Cached X em e' c.1 := by
    rw [runs_bind]
    refine (runs_within hrun ((spares_rax_iff right).2 hspares e)).mono ?_
    rintro n e' c ⟨hev, hwithin⟩
    refine runs_pure.2 ⟨hev.done, decide_eq_true hev.size, hev.val, ?_, hev.cached isTemp_temp2⟩
    rw [State.val, State.val, hwithin.regs .rax (by simp)]
  cases right with
  | leaf l =>
    cases l with
    | imm v =>
      refine runs_pure.2 ⟨rfl, hfits v rfl, ?_, rfl, hcached⟩
      exact ofInt_toInt_toU64 v
    | reg r => exact heval
  | _ => exact heval

/-- Code that leaves a value in the destination and writes only rax besides evaluates it. -/
theorem runs_evaluated {m : Em Name} {v : X.Reg}
    (hrun : (machine env).Runs m e (σ, none) (Leaves dest v))
    (hm : Lines (Confined {.rax, dest.reg} ∅) m e) (hst : (m e).st = e) (hcached : Cached X em e σ)
    (hdest : dest.size = suffix X) :
    (machine env).Runs m e (σ, none) (Evaluated X em dest v) := by
  obtain ⟨⟨τ, _⟩, hexec, ⟨hn, hdone, hval⟩, hwithin⟩ := runs_within hrun hm
  refine ⟨_, hexec, hdone, hn ▸ hdest, hn ▸ hval, ?_⟩
  rw [hst]
  rintro ⟨havail, -, hr11⟩ r hr
  rw [hwithin.guestReg, State.val, hwithin.regs .r11]
  · exact hcached r hr
  · simpa using hr11.symm
  · rintro g (rfl | rfl)
    · exact rax_notMem_availableRegs
    · exact havail

theorem val_generalOp {rv : Operand} : (generalOp X op rv dest e).val = dest := by
  cases op <;> rfl

theorem st_generalOp {rv : Operand} (hop : isDirect op = true) :
    (generalOp X op rv dest e).st = e := by
  have hfinish : (finish X dest e).st = e := by
    by_cases hd : dest = temp1 X <;> simp [finish, hd, ins]
  cases op with
  | add =>
    cases rv with
    | imm z =>
      by_cases hz : -2 ^ 31 ≤ z ∧ z < 2 ^ 31
      · simp only [generalOp, emitBinaryArith, if_pos hz]
        exact hfinish
      · simp only [generalOp, emitBinaryArith, if_neg hz]
        exact hfinish
    | _ => exact hfinish
  | sub | and | or | xor => exact hfinish
  | eq | ne | lt | ge | ltu | geu => rfl
  | _ => cases hop

/-- An operand goes to rax, where it waits; other registers than those of `S` are kept. -/
theorem runs_toRax {t : Tree X} {Q : Unit → St → State × Option Label → Prop} (hrax : .rax ∈ S)
    (hlines : Lines (Confined S ∅) (emitExpr em t.expr (temp1 X)) e)
    (hrun : (machine env).Runs (emitExpr em t.expr (temp1 X)) e (σ, none)
      (Evaluated X em (temp1 X) (t.lowered em σ (temp1 X))))
    (hQ : ∀ e' τ, Cached X em e' τ → τ.val X .rax = t.lowered em σ (temp1 X) →
      Within S ∅ σ τ → Q () e' (τ, none)) :
    (machine env).Runs (emitExpr em t.expr (temp1 X)) e (σ, none) fun n e₁ c₁ =>
      (machine env).Runs (Emit.when (n ≠ temp1 X) (ins (.mov (suffix X) (.reg n) (temp1 X)))) e₁ c₁
        Q := by
  refine (runs_within hrun hlines).mono ?_
  rintro n e₁ ⟨τ, _⟩ ⟨hev, hwithin⟩
  obtain rfl : _ = none := hev.done
  refine (runs_moveUnless hev.size rfl).mono ?_
  rintro _ e₂ ⟨ρ, _⟩ ⟨rfl, hmove, hval⟩
  obtain rfl : _ = none := hmove.done
  have htemp : IsTemp (temp1 X) := isTemp_temp1
  refine hQ e₂ ρ (hmove.cached (hev.cached htemp) htemp.1 htemp.2.1 htemp.2.2)
    (hval.trans hev.val) ⟨?_, fun f hf =>
      (congrFun hmove.field f).trans (hwithin.field f hf)⟩
  intro g hg
  have hne : g ≠ .rax := fun h => hg (h ▸ hrax)
  exact (hmove.regs g (by simpa [temp1] using hne)).trans (hwithin.regs g hg)

/-- The code of a tree for rax stays inside the scratch registers. -/
theorem lines_temp1 (e : St) :
    Lines (Confined scratch ∅) (emitExpr em t.expr (temp1 X)) e :=
  (lines_tree (by simp [scratch]) (by simp [scratch]) t (by simp [scratch, temp1])).2
    ⟨fun _ => by simp [scratch], fun _ => by simp [scratch]⟩

theorem scratch_notMem {g : Reg} (hg : g ∈ scratch) : g ∉ availableRegs := by
  rcases hg with rfl | rfl | rfl | rfl <;> decide

/-- The end of a select: the condition waits in rdx, the then-value in rax. -/
theorem runs_selectEnd {n : Name} {c v w : Xlen.rv64.Reg} (hn : n.size = .q)
    (hdest : dest.size = .q)
    (hcond : σ.val .rv64 .rdx = c) (hthen : σ.val .rv64 .rax = v) (helse : σ.val .rv64 n.reg = w) :
    (machine env).Runs (do
        ins (.test .q rdx rdx)
        ins (.cmov .e .q n (temp1 .rv64))
        finish .rv64 dest) e (σ, none) (Leaves dest (TernaryOp.val c v w .select)) := by
  subst hcond hthen helse
  rw [runs_bind, runs_ins]
  refine ⟨rfl, _, rfl, ?_⟩
  rw [runs_bind, runs_ins]
  refine ⟨decide_eq_true ⟨hn, rfl⟩, _, rfl, ?_⟩
  refine runs_finish (X := .rv64) hdest ?_
  simp only [holds_ofAnd_self_e, decide_eq_true_eq]
  rfl

theorem runs_inPlaceOperand_tree (hcached : Cached X em e σ)
    (hrun : (machine env).Runs (emitExpr em right.expr (temp2 X)) e (σ, none)
      (Evaluated X em (temp2 X) (right.lowered em σ (temp2 X)))) :
    (machine env).Runs (inPlaceOperand op right.expr (emitExpr em right.expr)) e (σ, none)
      fun o _ c => c.2 = none ∧ o.fits (suffix X) = true ∧
        c.1.operand X o = right.lowered em σ (temp2 X) ∧ ∀ g ∈ availableRegs, c.1.regs g =
          σ.regs g := by
  have heval : (machine env).Runs (emitExpr em right.expr (temp2 X) >>= fun r => pure
      (Operand.reg r)) e
      (σ, none) fun o _ c => c.2 = none ∧ o.fits (suffix X) = true ∧
        c.1.operand X o = right.lowered em σ (temp2 X) ∧
        ∀ g ∈ availableRegs, c.1.regs g = σ.regs g := by
    rw [runs_bind]
    refine (runs_within hrun (lines_scratch right _ e)).mono ?_
    rintro n e' c ⟨hev, hwithin⟩
    refine runs_pure.2 ⟨hev.done, decide_eq_true hev.size, hev.val, fun g hg => hwithin.regs g ?_⟩
    have hrcx : (temp2 X).reg ∈ scratch := by simp [temp2, scratch]
    rw [Set.insert_eq_of_mem hrcx]
    exact fun h => scratch_notMem h hg
  cases right with
  | leaf l => exact runs_inPlaceOperand hcached l
  | _ => exact heval

/-- The operation in place: the destination is the hot register of the left operand. -/
theorem runs_inPlaceCode {left : Tree X} (hcached : Cached X em e σ)
    (hplace : left.leafAnd (isInPlace em op dest) = true)
    (hrun : (machine env).Runs (emitExpr em right.expr (temp2 X)) e (σ, none)
      (Evaluated X em (temp2 X) (right.lowered em σ (temp2 X)))) :
    (machine env).Runs (inPlaceCode em op right dest) e (σ, none)
      (Evaluated X em dest (op.val (left.lowered em σ dest) (right.lowered em σ (temp2 X)))) := by
  obtain ⟨r, rfl⟩ : ∃ r, left = .leaf (.reg r) := by
    cases left with
    | leaf l =>
      cases l with
      | reg r => exact ⟨r, rfl⟩
      | imm v => cases hplace
    | _ => cases hplace
  obtain ⟨halu, hget⟩ := of_decide_eq_true hplace
  obtain ⟨alu, hop⟩ := Option.isSome_iff_exists.1 halu
  obtain ⟨g, hmap, rfl⟩ := Option.map_eq_some_iff.1 hget
  have hr : r ≠ 0 := by
    rintro rfl
    rw [em.regMap.zero] at hmap
    cases hmap
  have hleft : (Tree.leaf (.reg r) : Tree X).lowered em σ ⟨g, suffix X⟩ = σ.val X g := by
    rw [lowered, Leaf.loaded, readReg_of_ne hr, Emitter.guestReg, hmap]
  have hval : ∀ a b : X.Reg, op.val a b = alu.val a b := by
    cases op <;> cases hop <;> exact fun _ _ => rfl
  rw [inPlaceCode, hop, Option.getD_some, runs_bind, hleft, hval]
  refine (runs_inPlaceOperand_tree hcached hrun).mono ?_
  rintro o e₁ ⟨τ, _⟩ ⟨rfl, hfits, hright, hregs⟩
  rw [runs_bind, runs_ins]
  refine ⟨decide_eq_true ⟨hfits, rfl⟩, _, rfl, runs_pure.2 ⟨rfl, rfl, ?_, ?_⟩⟩
  · refine (State.val_put_self τ X ⟨g, suffix X⟩ _).trans ?_
    rw [AluOp.setWidth_val (bits_suffix X), State.get_suffix, State.read_suffix, hright, State.val,
      State.val, hregs g (em.regMap.available hmap)]
  · exact fun h => absurd (em.regMap.available hmap) h.1

theorem leafAnd_of_inPlace {left : Tree X} (h : path em op left right dest = .inPlace) :
    left.leafAnd (isInPlace em op dest) = true := by
  unfold path at h
  split_ifs at h with _ _ hplace
  exact hplace

/-- A select, once its condition waits in rdx. -/
theorem runs_selectRest {thenVal elseVal : Tree .rv64}
    (hdest : dest.size = .q) (hsparest : thenVal.clobbers em .rdx (temp1 .rv64) = false)
    (hsparesd : elseVal.clobbers em .rdx (temp2 .rv64) = false)
    (hsparesa : elseVal.clobbers em .rax (temp2 .rv64) = false)
    (hthen : (machine env).Runs (emitExpr em thenVal.expr (temp1 .rv64)) e (σ, none)
      (Evaluated .rv64 em (temp1 .rv64) (thenVal.lowered em σ (temp1 .rv64))))
    (helse : ∀ {e σ}, Cached .rv64 em e σ →
      (machine env).Runs (emitExpr em elseVal.expr (temp2 .rv64)) e
      (σ, none) (Evaluated .rv64 em (temp2 .rv64) (elseVal.lowered em σ (temp2 .rv64)))) :
    (machine env).Runs (do
        let thenReg ← emitExpr em thenVal.expr (temp1 .rv64)
        Emit.when (thenReg ≠ temp1 .rv64) (ins (.mov (suffix .rv64) (.reg thenReg) (temp1 .rv64)))
        let elseReg ← emitExpr em elseVal.expr (temp2 .rv64)
        ins (.test .q rdx rdx)
        ins (.cmov .e (suffix .rv64) (narrowed .rv64 elseReg) (narrowed .rv64 (temp1 .rv64)))
        Emit.when (dest ≠ temp1 .rv64) (ins (.mov (suffix .rv64) (.reg (temp1 .rv64)) dest))
        pure dest) e (σ, none)
      (Evaluated .rv64 em dest (TernaryOp.val (σ.val .rv64 .rdx)
        (thenVal.lowered em σ (temp1 .rv64)) (elseVal.lowered em σ (temp2 .rv64)) .select)) := by
  rw [runs_bind]
  simp only [runs_bind (m := Emit.when _ _)]
  have hlines : Lines (Confined {.rax, .rcx, .r11} ∅) (emitExpr em thenVal.expr (temp1 .rv64)) e :=
    (lines_tree (by simp) (by simp) thenVal (by simp [temp1])).2 ⟨by simp, by simp [hsparest]⟩
  refine runs_toRax (by simp) hlines hthen ?_
  intro e₁ τ hcached₁ hrax hwithin
  have hguest : ∀ r, (em.guestReg τ r : Xlen.rv64.Reg) = em.guestReg σ r := by
    refine hwithin.guestReg ?_
    rintro g (rfl | rfl | rfl) <;> decide
  have hrdx : τ.val .rv64 .rdx = σ.val .rv64 .rdx := by
    rw [State.val, State.val, hwithin.regs .rdx (by simp)]
  -- while the else-value is computed, both wait
  have hlines' : Lines (Confined {.rcx, .r11} ∅) (emitExpr em elseVal.expr (temp2 .rv64)) e₁ :=
    (lines_tree (by simp) (by simp) elseVal (by simp [temp2])).2
      ⟨by simp [hsparesa], by simp [hsparesd]⟩
  rw [runs_bind]
  refine (runs_within (helse hcached₁) hlines').mono ?_
  rintro n e₂ ⟨ρ, _⟩ ⟨hev, hwithin'⟩
  obtain rfl : _ = none := hev.done
  have hrax' : ρ.val .rv64 .rax = τ.val .rv64 .rax := by
    rw [State.val, State.val, hwithin'.regs .rax (by simp)]
  have hrdx' : ρ.val .rv64 .rdx = τ.val .rv64 .rdx := by
    rw [State.val, State.val, hwithin'.regs .rdx (by simp)]
  rw [← hrdx, ← hrax, ← lowered_congr hguest elseVal]
  refine runs_evaluated (runs_selectEnd hev.size hdest hrdx' hrax' hev.val) ?_ ?_
    (hev.cached isTemp_temp2) hdest
  · simp [Instr.isCall, Instr.stores, Instr.writes, temp1]
  · by_cases hd : dest = temp1 .rv64 <;> simp [hd, ins]

/-- A select, if its parts keep out of each other's way. -/
theorem runs_select {cond thenVal elseVal : Tree .rv64} (hcached : Cached .rv64 em e σ)
    (hdest : dest.size = .q) (hsparest : thenVal.clobbers em .rdx (temp1 .rv64) = false)
    (hsparesd : elseVal.clobbers em .rdx (temp2 .rv64) = false)
    (hsparesa : elseVal.clobbers em .rax (temp2 .rv64) = false)
    (hcond : ∀ {e σ}, Cached .rv64 em e σ →
      (machine env).Runs (emitExpr em cond.expr (temp1 .rv64)) e
      (σ, none) (Evaluated .rv64 em (temp1 .rv64) (cond.lowered em σ (temp1 .rv64))))
    (hthen : ∀ {e σ}, Cached .rv64 em e σ →
      (machine env).Runs (emitExpr em thenVal.expr (temp1 .rv64)) e
      (σ, none) (Evaluated .rv64 em (temp1 .rv64) (thenVal.lowered em σ (temp1 .rv64))))
    (helse : ∀ {e σ}, Cached .rv64 em e σ →
      (machine env).Runs (emitExpr em elseVal.expr (temp2 .rv64)) e
      (σ, none) (Evaluated .rv64 em (temp2 .rv64) (elseVal.lowered em σ (temp2 .rv64)))) :
    (machine env).Runs (emitExpr em (Tree.select cond thenVal elseVal).expr dest) e (σ, none)
      (Evaluated .rv64 em dest ((Tree.select cond thenVal elseVal).lowered em σ dest)) := by
  rw [expr, emitExpr, emitExprSelect, runs_bind]
  -- the condition goes to rdx
  refine (runs_within (hcond hcached) (lines_temp1 cond e)).mono ?_
  rintro n e₁ ⟨τ, _⟩ ⟨hev, hwithin⟩
  obtain rfl : _ = none := hev.done
  rw [runs_bind, runs_ins]
  refine ⟨decide_eq_true ⟨decide_eq_true hev.size, rfl⟩, _, rfl, ?_⟩
  have hmove : Evaluates .rv64 [.rdx] τ rdx (τ.put rdx (τ.get n .q), none) := .put (n := rdx) rfl _
  have hcached₁ : Cached .rv64 em e₁ (τ.put rdx (τ.get n .q)) :=
    hmove.cached (t := rdx) (hev.cached isTemp_temp1) (by decide) (by decide) (by decide)
  have hrdx : (τ.put rdx (τ.get n .q)).val .rv64 .rdx = cond.lowered em σ (temp1 .rv64) :=
    (State.val_put_self τ .rv64 rdx _).trans ((τ.get_suffix .rv64 n).trans hev.val)
  have hguest : ∀ r, (em.guestReg (τ.put rdx (τ.get n .q)) r : Xlen.rv64.Reg) =
      em.guestReg σ r := by
    intro r
    rw [(hmove.sameGuest (by decide) (by decide)).guestReg]
    exact hwithin.guestReg (fun _ => scratch_notMem) r
  rw [lowered, ← lowered_congr hguest thenVal, ← lowered_congr hguest elseVal, ← hrdx]
  exact runs_selectRest hdest hsparest hsparesd hsparesa (hthen hcached₁) helse

/-- The code of a tree that overwrites nothing computes its value. -/
theorem runs_tree (env : Env) : ∀ {dest : Name} {e : St} {σ : State}, Cached X em e σ →
    dest.size = suffix X → t.Ok em dest = true → t.Encodable em dest = true →
    (machine env).Runs (emitExpr em t.expr dest) e (σ, none)
      (Evaluated X em dest (t.lowered em σ dest)) := by
  induction t with
  | leaf l =>
    intro dest e σ hcached hdest _ _
    refine (runs_leaf hcached hdest l).mono ?_
    rintro n e' c ⟨hev, hval, hcached'⟩
    exact ⟨hev.done, hev.size, hval, fun h => hcached' h.1 h.2.1 h.2.2⟩
  | not inner ih =>
    intro dest e σ hcached hdest hok henc
    rw [expr, emitExpr, emitUnaryOp]
    simp only [runs_bind]
    refine runs_toRax (by simp [scratch]) (lines_temp1 inner e) (ih hcached rfl hok henc) ?_
    intro e₁ τ hcached₁ hval _
    rw [lowered, ← hval]
    refine runs_evaluated (runs_unaryEnd (by simp [unaryEncodable]) hdest) ?_ ?_ hcached₁ hdest
    · have hrax : .rax ∈ ({.rax, dest.reg} : Set Reg) := by simp
      simp [emitUnaryNegate, lines_finish_confined hrax, Instr.isCall, Instr.stores, Instr.writes,
        temp1]
    · by_cases hd : dest = temp1 X <;> simp [emitUnaryNegate, finish, hd, ins]
  | select cond thenVal elseVal ihc iht ihe =>
    intro dest e σ hcached hdest hok henc
    obtain ⟨hokc, hokt, hoke, hsparest, hsparesd, hsparesa⟩ := of_decide_eq_true hok
    obtain ⟨rfl, hencc, henct, hence⟩ := of_decide_eq_true henc
    exact runs_select hcached hdest hsparest hsparesd hsparesa (fun h => ihc h rfl hokc hencc)
      (fun h => iht h rfl hokt henct) (fun h => ihe h rfl hoke hence)
  | binary op hop left right ihl ihr =>
    intro dest e σ hcached hdest hok henc
    rw [emitExpr_binary]
    rw [Ok] at hok
    rw [Encodable] at henc
    rw [lowered]
    cases hpath : path em op left right dest with
    | clear =>
      refine runs_evaluated (runs_clearDest hdest) ?_ rfl hcached hdest
      simp [pathCode, clear, Instr.isCall, Instr.stores, Instr.writes]
    | move =>
      rw [hpath] at hok henc
      rw [pathCode, emitMoveLeftToDest, runs_bind]
      refine (ihl hcached hdest hok henc).mono ?_
      rintro n e₁ ⟨τ, _⟩ hev
      obtain rfl : _ = none := hev.done
      rw [runs_bind, narrowed_of_size hev.size, narrowed_of_size hdest]
      refine (runs_moveUnless hev.size hdest).mono ?_
      rintro _ e₂ ⟨ρ, _⟩ ⟨rfl, hmove, hval⟩
      refine runs_pure.2 ⟨hmove.done, hdest, hval.trans hev.val, ?_⟩
      exact fun h => hmove.cached (hev.cached h) h.1 h.2.1 h.2.2
    | inPlace =>
      rw [hpath] at hok henc
      exact runs_inPlaceCode hcached (leafAnd_of_inPlace hpath) (ihr hcached rfl hok henc)
    | viaRax =>
      rw [hpath] at hok henc
      obtain ⟨hokl, hokr, hspares⟩ := of_decide_eq_true hok
      obtain ⟨hencl, hencr, hfits⟩ := of_decide_eq_true henc
      rw [pathCode, emitBinaryOpViaRax_eq hop]
      simp only [runs_bind]
      refine runs_toRax (by simp [scratch]) (lines_temp1 left e) (ihl hcached rfl hokl hencl) ?_
      intro e₁ τ hcached₁ hleft hwithin
      have hguest : ∀ r, (em.guestReg τ r : X.Reg) = em.guestReg σ r :=
        hwithin.guestReg fun _ => scratch_notMem
      refine (runs_emitRightOperand hcached₁ hspares (Option.all_eq_true _ _ |>.1 hfits)
        (ihr hcached₁ rfl hokr hencr)).mono ?_
      rintro o e₂ ⟨ρ, _⟩ ⟨rfl, hofits, hright, hrax, hcached₂⟩
      rw [← lowered_congr hguest right, ← hright, ← hleft, ← hrax]
      refine runs_evaluated (runs_generalOp_direct hdest hop hofits) ?_
        (st_generalOp hop) hcached₂ hdest
      rw [lines_generalOp hop]
      simp

/-! ## Texts that cannot be assembled -/

/-- An emission with an instruction that cannot be encoded, from whatever state it starts. -/
def Unencodable {α : Type} (m : Em α) : Prop := ∀ e, ∃ i, Emits i m e ∧ encodable i = false

section Unencodable

variable {α β : Type} {m : Em α} {f : α → Em β}

theorem Unencodable.bind_left (h : Unencodable m) : Unencodable (m >>= f) := by
  intro e
  obtain ⟨i, hi, henc⟩ := h e
  exact ⟨i, emits_bind.2 (.inl hi), henc⟩

theorem Unencodable.bind_right (h : ∀ a, Unencodable (f a)) : Unencodable (m >>= f) := by
  intro e
  obtain ⟨i, hi, henc⟩ := h (m e).val (m e).st
  exact ⟨i, emits_bind.2 (.inr hi), henc⟩

end Unencodable

/-- Every name that an expression returns has the guest width. -/
theorem size_val {dest : Name} {e : St} (hdest : dest.size = suffix X) :
    (emitExpr em t.expr dest e).val.size = suffix X := by
  cases t with
  | leaf l =>
    cases l with
    | imm v => exact hdest
    | reg r =>
      rw [expr, Leaf.expr, emitExpr, loadRvToTemp]
      by_cases hr : r = 0
      · rw [if_pos hr]
        exact hdest
      · rw [if_neg hr]
        cases hget : em.regMap.get X r with
        | some n =>
          obtain ⟨g, -, rfl⟩ := Option.map_eq_some_iff.1 hget
          rfl
        | none =>
          by_cases hhit : e.coldCache = some r <;>
            simp [coldCacheHit, coldCacheSet, hhit, coldCacheReg]
  | not inner => exact hdest
  | select cond thenVal elseVal => exact hdest
  | binary op hop left right =>
    rw [emitExpr_binary]
    cases path em op left right dest with
    | viaRax =>
      rw [pathCode, emitBinaryOpViaRax_eq hop]
      simp only [bind_val, val_generalOp, hdest]
    | _ => exact hdest

/-- A tree that is no operand evaluates for rcx as the right operand of an operator. -/
theorem unencodable_right (h : Unencodable (emitExpr em right.expr (temp2 X)))
    (hleaf : ∀ l, right ≠ .leaf l) :
    Unencodable (emitRightOperand right.expr (emitExpr em right.expr)) ∧
      ∀ op, Unencodable (inPlaceOperand op right.expr (emitExpr em right.expr)) := by
  cases right with
  | leaf l => exact absurd rfl (hleaf l)
  | _ => exact ⟨h.bind_left, fun _ => h.bind_left⟩

theorem unencodable_tree : ∀ {dest : Name}, dest.size = suffix X →
    t.Encodable em dest = false → Unencodable (emitExpr em t.expr dest) := by
  induction t with
  | leaf l => exact fun _ h => nomatch h
  | not inner ih =>
    intro dest _ henc
    exact (ih rfl henc).bind_left
  | select cond thenVal elseVal ihc iht ihe =>
    intro dest _ henc
    cases hc : cond.Encodable em (temp1 X) with
    | false => exact (ihc rfl hc).bind_left
    | true =>
    cases ht : thenVal.Encodable em (temp1 X) with
    | false => exact .bind_right fun _ => .bind_right fun _ => (iht rfl ht).bind_left
    | true =>
    cases he : elseVal.Encodable em (temp2 X) with
    | false =>
      exact .bind_right fun _ => .bind_right fun _ => .bind_right fun _ => .bind_right fun _ =>
        (ihe rfl he).bind_left
    | true =>
      -- on RV32 the condition has a 32-bit name
      have hX : X = .rv32 := by
        cases X with
        | rv32 => rfl
        | rv64 => exact absurd ⟨rfl, hc, ht, he⟩ (of_decide_eq_false henc)
      subst hX
      intro e
      refine ⟨.mov .q (.reg (emitExpr em cond.expr (temp1 .rv32) e).val) rdx, ?_, ?_⟩
      · exact emits_bind.2 (.inr (emits_bind.2 (.inl (by simp))))
      · refine decide_eq_false fun h => ?_
        have hsize := of_decide_eq_true h.1
        rw [size_val cond rfl] at hsize
        cases hsize
  | binary op hop left right ihl ihr =>
    intro dest hdest henc
    have hright : right.Encodable em (temp2 X) = false →
        Unencodable (emitExpr em right.expr (temp2 X)) ∧ ∀ l, right ≠ .leaf l := by
      intro h
      refine ⟨ihr rfl h, ?_⟩
      rintro l rfl
      cases h
    rw [Encodable] at henc
    rw [emitExpr_binary]
    cases hpath : path em op left right dest with
    | clear => rw [hpath] at henc; cases henc
    | move =>
      rw [hpath] at henc
      exact (ihl hdest henc).bind_left
    | inPlace =>
      rw [hpath] at henc
      exact ((unencodable_right (hright henc).1 (hright henc).2).2 op).bind_left
    | viaRax =>
      rw [hpath] at henc
      rw [pathCode, emitBinaryOpViaRax_eq hop]
      cases hl : left.Encodable em (temp1 X) with
      | false => exact (ihl rfl hl).bind_left
      | true =>
      refine .bind_right fun n => .bind_right fun _ => ?_
      cases hr : right.Encodable em (temp2 X) with
      | false => exact (unencodable_right (hright hr).1 (hright hr).2).1.bind_left
      | true =>
        -- both operands can be assembled, the immediate cannot
        obtain ⟨v, himm, hfits⟩ : ∃ v, right.immediate = some v ∧
            immFits (suffix X) (Xlen.toU64 v).toInt = false := by
          cases himm : right.immediate with
          | none => exact absurd ⟨hl, hr, by rw [himm]; rfl⟩ (of_decide_eq_false henc)
          | some v =>
            refine ⟨v, rfl, Bool.eq_false_of_not_eq_true fun h => ?_⟩
            exact of_decide_eq_false henc ⟨hl, hr, by rw [himm]; exact h⟩
        obtain rfl : right = .leaf (.imm v) := by
          cases right with
          | leaf l => cases l <;> cases himm; rfl
          | _ => cases himm
        intro e
        obtain ⟨i, hi, hno⟩ : ∃ i, Emits i (generalOp X op (.imm (Xlen.toU64 v).toInt) dest) e ∧
            encodable i = false := emits_generalOp_direct hop hfits
        exact ⟨i, emits_bind.2 (.inr hi), hno⟩

end Tree

/-- A tree overwrites nothing that waits and returns the value of the IR exactly if no operand's
code writes a register in which another waits, the text can be assembled, and the immediates give
the value of the tree. -/
theorem trees_iff {X : Xlen} (rt : Runtime X) (env : Env) (em : Emitter) (e : St) (σ : State)
    (dest : Name) (t : Tree X) (hcached : Cached X em e σ) (hdest : dest.size = suffix X) :
    (t.Kept em dest ∧ (machine env).Runs (emitExpr em t.expr dest) e (σ, none)
        (Returns (t.expr.eval rt (em.guest σ)))) ↔
      t.Ok em dest = true ∧ t.Encodable em dest = true ∧
        t.lowered em σ dest = t.expr.eval rt (em.guest σ) := by
  rw [Tree.kept_iff]
  refine and_congr_right fun hok => ?_
  cases henc : t.Encodable em dest with
  | true =>
    obtain ⟨c, hexec, hev⟩ := t.runs_tree env hcached hdest hok henc
    rw [and_iff_right rfl]
    constructor
    · rintro ⟨c', hexec', -, hval⟩
      cases hexec.symm.trans hexec'
      exact hev.val.symm.trans hval
    · intro hval
      exact ⟨c, hexec, hev.done, hev.val.trans hval⟩
  | false =>
    refine iff_of_false ?_ fun h => nomatch h.1
    obtain ⟨i, hi, hno⟩ := t.unencodable_tree hdest henc e
    exact not_runs_of_emits hi hno

/-- The state of the examples: `t0`, `t1`, `t2` and `t3` are hot and hold 1, 2, 3 and 4. -/
def treeState : State :=
  { State.zero with regs := fun g => match g with
    | .r14 => 1
    | .r13 => 2
    | .r12 => 3
    | .rbp => 4
    | _ => 0 }

/-- `(t0 + t1) + t2`. -/
def leftTree : Tree .rv64 :=
  .binary .add rfl (.binary .add rfl (.leaf (.reg 5)) (.leaf (.reg 6))) (.leaf (.reg 7))

/-- `(t0 + t1) + (t2 + t3)`. -/
def bothTree : Tree .rv64 :=
  .binary .add rfl (.binary .add rfl (.leaf (.reg 5)) (.leaf (.reg 6)))
    (.binary .add rfl (.leaf (.reg 7)) (.leaf (.reg 28)))

/-- A sum whose left operand is a sum meets the condition. -/
theorem trees_left_sum :
    (machine .idle).Runs (emitExpr (.plain .wrap 32 [5, 6, 7, 28]) leftTree.expr rax) .start
      (treeState, none) (Returns (6 : Xlen.rv64.Reg)) :=
  ((trees_iff (.idle .rv64) .idle (.plain .wrap 32 [5, 6, 7, 28]) .start treeState rax leftTree
    (by intro r hr; cases hr) rfl).2
    ⟨by decide +kernel, by decide +kernel, by decide +kernel⟩).2

/-- A sum of two sums: the code of the right one overwrites the left one in rax. -/
theorem trees_both_sums :
    ((machine .idle).exec ((emitExpr (.plain .wrap 32 [5, 6, 7, 28]) bothTree.expr rax).code .start)
        (treeState, none)).map (fun c => c.1.regs .rax) = some 14 ∧
      (bothTree.expr.eval (.idle .rv64) ((Emitter.plain .wrap 32 [5, 6, 7, 28]).guest
        treeState)).toNat =
        10 := by
  decide +kernel

end Rvr.X64
