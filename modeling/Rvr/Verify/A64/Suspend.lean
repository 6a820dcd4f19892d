import Rvr.Emit.A64.Rules
import Rvr.Verify.X64.Suspend

/-!
# Suspension of emitted arm64 code

`emit_instret_post_check` and `emit_instret_suspend_check` of `rvr-emit/src/arm64/ir/expr/mod.rs`.
As on x86-64 the code that suspends has its own copy of the terminator's condition or target, which
may leave a cold register in the cache (`x17`) that the terminator's copy then reads unloaded.  It
checks no addresses, and it stores the target of a jump to the instruction itself, which the
terminator leaves out.
-/

namespace Rvr.A64

open Asm Asm.Emit Machine
open X64 (Label Field nextPc Onward followingPc forall_getD forall_orElse isWarm_of_branch)

variable {X : Xlen}

/-! ## Code without jumps -/

/-- Instructions that may jump. -/
@[grind] def Instr.jumps : Instr → Bool
  | .b _ | .bcond .. | .cbz .. | .cbnz .. | .dispatchJump _ => true
  | _ => false

/-- All others do not. -/
theorem straight_of_jumps {env : Env} {i : Instr} (hi : ¬ i.jumps) :
    (machine env).Straight (.ins i) := by
  rintro σ ⟨σ', w⟩ hstep
  change step env i σ = some (σ', w) at hstep
  cases i with
  | b l => exact absurd rfl hi
  | bcond c l => exact absurd rfl hi
  | cbz n l => exact absurd rfl hi
  | cbnz n l => exact absurd rfl hi
  | dispatchJump wd => exact absurd rfl hi
  | cset dst c =>
    obtain ⟨f, -, hf⟩ := Option.bind_eq_some_iff.1 hstep
    cases hf
    rfl
  | csel dst a b c =>
    obtain ⟨f, -, hf⟩ := Option.bind_eq_some_iff.1 hstep
    cases hf
    rfl
  | cselZr dst a c =>
    obtain ⟨f, -, hf⟩ := Option.bind_eq_some_iff.1 hstep
    cases hf
    rfl
  | _ =>
    cases hstep
    try rfl

section Operands

variable {env : Env} {em : Emitter} {dest : Name}

/-- Emissions of one text without jumps. -/
abbrev Steady {α : Type} (env : Env) (m : Em α) : Prop := Fixed (machine env).Straight m

@[grind .] theorem steady_ins {i : Instr} (hi : ¬ i.jumps) : Steady env (ins i) :=
  fixed_line (straight_of_jumps hi)

/-- The hot registers. -/
def Emitter.isHot (em : Emitter) (r : ℕ) : Bool := (em.regMap.mapping r).isSome

theorem steady_loadChunks {value : U64} (shifts : List ℕ) (emitted : Bool) :
    Steady env (loadChunks dest value emitted shifts) := by
  induction shifts generalizing emitted with
  | nil => exact fixed_pure _
  | cons shift shifts ih =>
    simp only [loadChunks]
    split
    · exact ih _
    · refine fixed_bind (steady_ins ?_) fun _ => ih _
      split <;> simp [Instr.jumps]

@[grind .] theorem steady_loadImm (value : U64) : Steady env (loadImm dest value) := by
  have hchunks := @steady_loadChunks env dest value [0, 16, 32, 48] false
  unfold loadImm
  grind

theorem steady_leaf {ex : Expr X} (h : ex.isWarmLeaf em.isHot = true) :
    Steady env (emitExpr em ex dest) := by
  cases ex with
  | imm val =>
    rw [emitExpr]
    grind [emitExprImm]
  | pcConst val =>
    rw [emitExpr]
    grind [emitExprImm]
  | temp idx =>
    rw [emitExpr]
    grind [emitExprTemp, loadSlot]
  | reg r =>
    rw [emitExpr, loadRvToTemp]
    split
    case isTrue => grind
    case isFalse hr =>
      obtain ⟨g, hg⟩ : ∃ g, em.regMap.mapping r = some g := by
        simpa [Expr.isWarmLeaf, hr, Emitter.isHot, Option.isSome_iff_exists] using h
      simp [RegMap.get, hg]
  | _ => cases h

section Binary

variable {op : BinaryOp} {left right : Expr X} {emitLeft emitRight : Operation} {m : Em Name}

theorem steady_emitBinaryImmEarly (hleft : ∀ dest, Steady env (emitLeft dest))
    (hm : emitBinaryImmEarly op emitLeft right dest = some m) : Steady env m := by
  have hmove : Steady env (emitMove emitLeft dest) := by grind [emitMove]
  unfold emitBinaryImmEarly at hm
  split at hm
  · dsimp only at hm
    split at hm <;> grind
  · cases hm

theorem steady_emitImmForm {imm : X.Reg} {src : Name} {m : Em Unit}
    (hm : emitImmForm op imm src dest = some m) : Steady env m := by
  unfold emitImmForm at hm
  split at hm
  iterate 2
    obtain ⟨parts, -, rfl⟩ := Option.map_eq_some_iff.1 hm
    grind
  iterate 3
    obtain ⟨alu, -, halu⟩ := Option.bind_eq_some_iff.1 hm
    grind
  cases hm

theorem steady_emitBinaryInplaceHot (hright : ∀ dest, Steady env (emitRight dest))
    (hm : emitBinaryInplaceHot em op left right emitRight dest = some m) : Steady env m := by
  unfold emitBinaryInplaceHot at hm
  split at hm
  case h_1 alu r _ =>
    split at hm
    case h_1 mapped _ =>
      split at hm
      · cases hm
      · split at hm
        · split at hm
          case h_1 m' hform =>
            cases hm
            exact fixed_bind (steady_emitImmForm hform) fun _ => fixed_pure _
          case h_2 =>
            cases hm
            grind
        · cases hm
          grind
    case h_2 => cases hm
  case h_2 => cases hm

theorem steady_emitBinaryHotRegs (hm : emitBinaryHotRegs em op left right dest = some m) :
    Steady env m := by
  unfold emitBinaryHotRegs at hm
  split at hm
  case h_1 alu r _ =>
    split at hm
    case h_1 mapped _ =>
      split at hm
      · obtain ⟨n, -, rfl⟩ := Option.map_eq_some_iff.1 hm
        grind
      · obtain ⟨m', hform, rfl⟩ := Option.map_eq_some_iff.1 hm
        exact fixed_bind (steady_emitImmForm hform) fun _ => fixed_pure _
      · cases hm
    case h_2 => cases hm
  case h_2 => cases hm

theorem steady_emitAddsubImm (hleft : ∀ dest, Steady env (emitLeft dest))
    (hm : emitAddsubImm op emitLeft right dest = some m) : Steady env m := by
  unfold emitAddsubImm at hm
  split at hm
  iterate 2
    obtain ⟨parts, -, rfl⟩ := Option.map_eq_some_iff.1 hm
    grind
  cases hm

theorem exprNeedsTemp1_of_isWarmLeaf {hot : ℕ → Bool} {ex : Expr X}
    (h : ex.isWarmLeaf hot = true) : exprNeedsTemp1 ex = false := by
  cases ex <;> first | rfl | cases h

theorem steady_emitBinaryGeneral (hop : op.isPlain = true) {hot : ℕ → Bool}
    (hleaf : right.isWarmLeaf hot = true) (hleft : ∀ dest, Steady env (emitLeft dest))
    (hright : ∀ dest, Steady env (emitRight dest)) :
    Steady env (emitBinaryGeneral op right emitLeft emitRight dest) := by
  have hval : Steady env (emitRightVal right emitRight) := by
    unfold emitRightVal
    split
    · split <;> grind
    · grind
  have hbasic : ∀ isImm rightVal,
      Steady env (emitBinaryBasic op right emitRight isImm rightVal dest) := by
    intro isImm rightVal
    refine fixed_bind ?_ fun _ => fixed_pure _
    cases op <;> first
      | exact absurd hop (by decide)
      | simp only [aluOp, condOf, Option.elim_some]
        grind
  have hspecial : emitBinarySpecial op right emitRight dest = none := by
    cases op <;> first | exact absurd hop (by decide) | rfl
  have hspill : ∀ n, maybeSpillLeft right n = (pure none : Em (Option ℕ)) := by
    intro n
    simp [maybeSpillLeft, exprNeedsTemp1_of_isWarmLeaf hleaf]
  have hrestore : ∀ spill n, Steady env (restoreSpilledLeft X spill n) := by
    intro spill n
    unfold restoreSpilledLeft
    split <;> grind [loadSlot, releaseSpillSlot]
  simp only [emitBinaryGeneral, hspecial, hspill]
  grind [emitLeftToTemp1]

theorem steady_emitBinaryOp (hop : op.isPlain = true) {hot : ℕ → Bool}
    (hleaf : right.isWarmLeaf hot = true) (hleft : ∀ dest, Steady env (emitLeft dest))
    (hright : ∀ dest, Steady env (emitRight dest)) :
    Steady env (emitBinaryOp em op left right emitLeft emitRight dest) := by
  refine forall_getD (forall_orElse (forall_orElse (forall_orElse ?_ ?_) ?_) ?_) ?_
  · exact fun m hm => steady_emitBinaryImmEarly hleft hm
  · exact fun m hm => steady_emitBinaryInplaceHot hright hm
  · exact fun m hm => steady_emitBinaryHotRegs hm
  · exact fun m hm => steady_emitAddsubImm hleft hm
  · exact steady_emitBinaryGeneral hop hleaf hleft hright

end Binary

theorem steady_emitExpr : ∀ {ex : Expr X}, ex.isWarm em.isHot = true → ∀ dest,
    Steady env (emitExpr em ex dest)
  | .binary op left right, h, dest => by
    simp only [Expr.isWarm, Bool.and_eq_true] at h
    rw [emitExpr]
    exact steady_emitBinaryOp h.1.1 h.2 (fun _ => steady_emitExpr h.1.2 _) fun _ =>
      steady_leaf h.2
  | .imm _, h, _ | .reg _, h, _ | .pcConst _, h, _ | .temp _, h, _ => steady_leaf h

theorem steady_emitDynTarget {addr : Expr X} (h : addr.isWarm em.isHot = true) :
    Steady env (emitDynTarget em addr) := by
  have hemit : ∀ dest, Steady env (emitExpr em addr dest) := steady_emitExpr h
  have haddr : Steady env (emitExprAsAddr em addr (emitExpr em addr)) := by
    unfold emitExprAsAddr
    split
    · unfold loadRvAsAddr
      split
      · grind
      · split <;> grind [loadField]
    · grind
    · grind
  grind [emitDynTarget]

/-! ## Tests of conditions -/

/-- The code that tests a condition: it gives the jump to a label. -/
def emitTest (em : Emitter) (op : BinaryOp) (left right : Expr X) : Em (Label → Instr) :=
  match condOf op with
  | some c => do
    let leftReg ← emitExpr em left (temp1 X)
    if (op = .eq ∨ op = .ne) ∧ isZeroExpr right then
      pure fun l => if c = .eq then .cbz (narrowed X leftReg) l else .cbnz (narrowed X leftReg) l
    else do
      emitCompareRight em (narrowed X leftReg) right
      pure (.bcond c)
  | none => do
    let condReg ← emitExpr em (.binary op left right) (temp1 X)
    pure (.cbnz condReg)

section Tests

variable {op : BinaryOp} {left right : Expr X}
  (h : (Expr.binary op left right).isWarm em.isHot = true)

include h

theorem steady_emitTest : Steady env (emitTest em op left right) := by
  have hcond : Steady env (emitExpr em (.binary op left right) (temp1 X)) := steady_emitExpr h _
  simp only [Expr.isWarm, Bool.and_eq_true] at h
  have hleft : Steady env (emitExpr em left (temp1 X)) := steady_emitExpr h.1.2 _
  have hcompare : ∀ n imm, Steady env (emitCmpWithImm X n imm) := by
    intro n imm
    unfold emitCmpWithImm
    grind
  have hright : ∀ n, Steady env (emitCompareRight em n right) := by
    intro n
    have hleaf : Steady env (emitExpr em right (temp2 X)) := steady_leaf h.2
    unfold emitCompareRight
    split
    · exact hcompare _ _
    · split
      · exact hcompare _ _
      · grind
  unfold emitTest
  split <;> grind

/-- With warm operands a conditional branch is its test and the jump. -/
theorem emitCondBranch_eq (l : Label) : emitCondBranch em (.binary op left right) l false =
    emitTest em op left right >>= fun jump => ins (jump l) := by
  simp only [Expr.isWarm, Bool.and_eq_true] at h
  have hcmp : isCmpExpr right = false := by
    cases right <;> first | rfl | cases h.2
  have hspill : ∀ n, maybeSpillLeft right n = (pure none : Em (Option ℕ)) := by
    intro n
    simp [maybeSpillLeft, exprNeedsTemp1_of_isWarmLeaf h.2]
  simp only [emitCondBranch, tryEmitCompareBranch, hcmp, tryEmitCompare, condCode, emitTest]
  cases condOf op with
  | none =>
    simp [bind_bind]
    rfl
  | some c =>
    simp only [Option.map_some, Bool.false_eq_true, and_false, if_false, Option.getD_some,
      emitCompareBranch, bind_bind, hspill]
    refine congrArg _ (funext fun leftReg => ?_)
    split
    · rfl
    · rw [bind_bind]
      rfl

omit h

/-- A jump that is made or not as the state has it, whatever the label. -/
def IsTest (jump : Label → Instr) : Prop :=
  ∀ env l σ c, step env (jump l) σ = some c → ∃ taken : Bool,
    c = (σ, if taken then some l else none) ∧ ∀ l', encodable (jump l') = true ∧
      step env (jump l') σ = some (σ, if taken then some l' else none)

theorem isTest_emitTest (e : St) : IsTest ((emitTest em op left right) e).val := by
  have hcbz : ∀ n, IsTest (.cbz n) := by
    rintro n env l σ c ⟨⟩
    exact ⟨decide (σ.get n n.width = 0), by simp, fun l' => ⟨rfl, by simp [step]⟩⟩
  have hcbnz : ∀ n, IsTest (.cbnz n) := by
    rintro n env l σ c ⟨⟩
    exact ⟨!decide (σ.get n n.width = 0), by simp, fun l' => ⟨rfl, by simp [step]⟩⟩
  have hbcond : ∀ cc, IsTest (.bcond cc) := by
    intro cc env l σ c h
    obtain ⟨f, hf, hc⟩ := Option.bind_eq_some_iff.1 h
    cases hc
    exact ⟨cc.holds f, rfl, fun l' => ⟨rfl, by simp [step, hf]⟩⟩
  unfold emitTest
  cases condOf op with
  | none => exact hcbnz _
  | some cc =>
    simp only [bind_val]
    split
    · rw [pure_val]
      by_cases hc : cc = .eq
      · simp only [hc, if_true]
        exact hcbz _
      · simp only [if_neg hc]
        exact hcbnz _
    · exact hbcond cc

end Tests

end Operands

/-! ## The text of an instruction's end -/

section Text

variable (em : Emitter) (fallPc : U64) (e : St)

/-- The label behind the code that suspends. -/
def continueLabel : Label := .loc "instret_ok" (e.labelCounter + 1)

/-- The state of the emitter behind that label's number. -/
def suspendSt : St := (nextLabel "instret_ok" e).st

theorem code_nextLabel (stem : String) : (nextLabel stem).code e = [] := rfl

theorem nextLabel_val (stem : String) :
    (nextLabel stem e).val = .loc stem (e.labelCounter + 1) := rfl

/-- The part of `emit_instruction` before the check. -/
def emitBody (instr : InstrIR X) : Em Unit := do
  emitTracePc X em (Xlen.toU64 instr.pc) instr.raw
  when (!em.instretMode.isPerInstruction) (emitInstretIncrement em)
  emitStmts em (keptStatements em instr)
  when (X64.stmtsWriteToExited instr.statements) do
    loadByte w0 .hasExited
    ins (.cbnz w0 .exit)
  when em.instretMode.isPerInstruction (ins (.alu .add instretReg instretReg (.imm 1)))

/-- With suspension an instruction is its body, the check and the terminator. -/
theorem code_emitInstruction (hmode : em.instretMode.suspends = true) (instr : InstrIR X) :
    (emitInstruction em instr fallPc).code e = (do
      emitBody em instr
      emitSuspendCheck em fallPc (Xlen.toU64 instr.pc) instr.terminator
      emitTerminator em fallPc (Xlen.toU64 instr.pc) (keptTerminator em instr)).code e := by
  have hcases : em.instretMode = .suspend ∨ em.instretMode = .perInstruction := by
    simpa [InstretMode.suspends] using hmode
  rcases hcases with h | h
  · simp [emitInstruction, emitBody, code_bind, h, InstretMode.suspends,
      InstretMode.isPerInstruction]
  · simp [emitInstruction, emitBody, emitInstretPostCheck, code_bind, code_pure, h,
      InstretMode.suspends, InstretMode.isPerInstruction, InstretMode.counts]

/-- The machine state behind the comparison with the limit. -/
def checked (σ : State) : State :=
  { σ with
    regs := Function.update σ.regs 2 (σ.field .targetInstret)
    flags := some (.ofSub (σ.regs 18) (σ.field .targetInstret)) }

/-- An instruction in a list: its body with all that is emitted before, and its end.  The terminator
that is emitted may have a folded comparison. -/
def guarded (before : Em Unit) (instr : InstrIR X) (fallPc : U64) :
    Guarded Label Instr State :=
  let body : Em Unit := do before; emitBody em instr
  let pc := Xlen.toU64 instr.pc
  { body := body.code e
    check := checked
    leave := (emitSuspend em fallPc pc instr.terminator).code (suspendSt (body e).st)
    onward := continueLabel (body e).st
    rest := (emitTerminator em fallPc pc (keptTerminator em instr)).code
      ((emitSuspend em fallPc pc instr.terminator) (suspendSt (body e).st)).st }

/-- The check enters the text behind it at its start, or looks for the label in it. -/
theorem exec_guarded (hmode : em.instretMode.suspends = true) (env : Env) (before : Em Unit)
    (instr : InstrIR X) {c : State × Option Label} {σ : State}
    (hbody : (machine env).exec (guarded em e before instr fallPc).body c = some (σ, none)) :
    (machine env).exec ((do before; emitInstruction em instr fallPc).code e) c =
      (machine env).exec (guarded em e before instr fallPc).tail
        (checked σ, if σ.regs 18 < σ.field .targetInstret then
          some (guarded em e before instr fallPc).onward else none) := by
  have hcode : (do before; emitInstruction em instr fallPc : Em Unit).code e =
      (guarded em e before instr fallPc).body ++
        .ins (.ldr .x false x2 (.state .targetInstret 0)) :: .ins (.cmp instretReg (.reg x2)) ::
        .ins (.bcond .lo (guarded em e before instr fallPc).onward) ::
        (guarded em e before instr fallPc).tail := by
    rw [code_bind, code_emitInstruction _ _ _ hmode]
    simp [guarded, Guarded.tail, emitSuspendCheck, code_bind, ins, emitLabel, code_line,
      code_nextLabel, nextLabel_val, continueLabel, suspendSt, loadField, Name.access, x2]
  have hload : step env (.ldr .x false x2 (.state .targetInstret 0)) σ =
      some ({ σ with regs := Function.update σ.regs 2 (σ.field .targetInstret) }, none) := by
    simp [step, next, State.touch, State.put, State.load, extend, x2]
  have hcmp : step env (.cmp instretReg (.reg x2))
      { σ with regs := Function.update σ.regs 2 (σ.field .targetInstret) } =
        some (checked σ, none) := by
    simp [step, next, State.get, State.operand, instretReg, x2, checked]
  have hjump : ∀ l, step env (.bcond .lo l) (checked σ) = some (checked σ,
      if σ.regs 18 < σ.field .targetInstret then some l else none) := by
    simp [step, checked, Cond.holds, Flags.ofSub, BitVec.ule_eq_not_ult, BitVec.ult_iff_lt]
  rw [hcode, exec_append, hbody, Option.bind_some, exec_ins rfl hload, exec_ins rfl hcmp,
    exec_ins rfl (hjump _)]

end Text

/-! ## What suspending and going on have in common -/

/-- What a run that stops with a next pc has to share with the run that goes on there. -/
structure StoppedAt (X : Xlen) (em : Emitter) (next : U64) (σ' τ : State) : Prop where
  pc : τ.fieldVal X .pc = X.fromU64 next
  regs : ∀ r, (em.guestReg τ r : X.Reg) = em.guestReg σ' r
  instret : em.guestInstret τ = em.guestInstret σ'
  mem : τ.mem = σ'.mem

/-- Two states that differ in nothing but the pc, `x1` and the flags. -/
structure OffPc (σ τ : State) : Prop where
  regs : ∀ g, g ≠ 1 → τ.regs g = σ.regs g
  field : ∀ f, f ≠ .pc → τ.field f = σ.field f
  mem : τ.mem = σ.mem

/-- A state that differs by the pc it holds. -/
structure Stored (X : Xlen) (nextPc : U64) (σ τ : State) : Prop where
  pc : τ.fieldVal X .pc = X.fromU64 nextPc
  off : OffPc σ τ

/-- Such a difference is none for the guest, besides the pc. -/
theorem Stored.stoppedAt_iff {em : Emitter} {nextPc next : U64} {σ τ : State}
    (h : Stored X nextPc σ τ) :
    StoppedAt X em next σ τ ↔ X.fromU64 nextPc = X.fromU64 next := by
  have havail : (1 : Reg) ∉ availableRegs := by decide
  refine ⟨fun hs => h.pc.symm.trans hs.pc, fun hpc => ⟨h.pc.trans hpc, ?_, ?_, h.off.mem⟩⟩
  · intro r
    unfold Emitter.guestReg
    split
    case h_1 g hg =>
      have hne : g ≠ 1 := by
        rintro rfl
        exact havail (em.regMap.available hg)
      rw [State.val, State.val, h.off.regs g hne]
    case h_2 => rw [State.fieldVal, State.fieldVal, h.off.field _ (by simp)]
  · unfold Emitter.guestInstret
    split
    · exact h.off.regs 18 (by decide)
    · exact h.off.field .instret (by simp)

section Stores

variable {env : Env} {e : St} {σ : State}

theorem Access.setWidth_insert (sz : Access) (old : U64) (v : BitVec sz.bits) :
    (sz.insert old v).setWidth sz.bits = v := by
  have hbits : sz.bits ≤ 64 := by cases sz <;> decide
  ext i hi
  have hlt : i < 64 := by omega
  simp [Access.insert, hi, hlt]

/-- The pc that is stored from a register. -/
theorem runs_storePc (g : Reg) :
    (machine env).Runs (storeField ⟨g, suffix X⟩ .pc) e (σ, none) fun _ _ c =>
      c.2 = none ∧ Stored X (σ.regs g) σ c.1 := by
  have hoff : ∀ (sz : Access) (v : BitVec sz.bits), OffPc σ (σ.store sz v (.state .pc 0)) :=
    fun _ _ => ⟨fun _ _ => rfl, fun _ hf => Function.update_of_ne hf .., rfl⟩
  have hfield : ∀ (sz : Access) (v : BitVec sz.bits),
      (σ.store sz v (.state .pc 0)).field .pc = sz.insert (σ.field .pc) v := by
    simp [State.store]
  rw [storeField, runs_ins]
  cases X with
  | rv32 =>
    refine ⟨rfl, _, rfl, rfl, ?_, hoff .w _⟩
    exact (congrArg (BitVec.setWidth 32) (hfield .w _)).trans (Access.setWidth_insert .w _ _)
  | rv64 =>
    refine ⟨rfl, _, rfl, rfl, ?_, hoff .x _⟩
    exact (congrArg (BitVec.setWidth 64) (hfield .x _)).trans (Access.setWidth_insert .x _ _)

theorem runs_emitStoreNextPcImm (nextPc : U64) (hfit : X = .rv32 → nextPc.toNat < 2 ^ 32) :
    (machine env).Runs (emitStoreNextPcImm X nextPc) e (σ, none) fun _ _ c =>
      c.2 = none ∧ Stored X nextPc σ c.1 := by
  have hwidth : (temp2 X).width = .w → nextPc.toNat < 2 ^ 32 := by
    intro hw
    cases X with
    | rv32 => exact hfit rfl
    | rv64 => cases hw
  rw [emitStoreNextPcImm, runs_bind]
  refine (runs_loadImm (temp2 X) hwidth).mono ?_
  rintro - e' - ⟨rfl, rfl⟩
  refine (runs_storePc 1).mono ?_
  rintro - - ⟨τ, w⟩ ⟨rfl, hpc, hoff⟩
  have hreg : Function.update σ.regs (temp2 X).reg nextPc 1 = nextPc := Function.update_self ..
  refine ⟨rfl, hpc.trans (congrArg _ hreg), ?_⟩
  exact ⟨fun g hg => (hoff.regs g hg).trans (Function.update_of_ne hg ..), hoff.field, hoff.mem⟩

end Stores

/-! ## Labels of the two parts -/

section Labels

variable {em : Emitter} {fallPc currentPc : U64} {e : St} {P : Label → Prop}

@[simp] theorem defines_ins {i : Instr} : Lines (Line.Defines P) (ins i) e := lines_line.2 trivial

@[simp] theorem defines_emitLabel {l : Label} : Lines (Line.Defines P) (emitLabel l) e ↔ P l :=
  lines_line

@[simp] theorem defines_nextLabel (stem : String) : Lines (Line.Defines P) (nextLabel stem) e := by
  simp [nextLabel]

theorem steady_emitStoreNextPcImm (env : Env) (nextPc : U64) :
    Steady env (emitStoreNextPcImm X nextPc) := by
  grind [emitStoreNextPcImm, storeField]

theorem defines_emitStoreNextPcImm (nextPc : U64) :
    Lines (Line.Defines P) (emitStoreNextPcImm X nextPc) e :=
  Straight.defines (steady_emitStoreNextPcImm .idle nextPc) e

theorem defines_emitCondBranch {cond : Expr X} {l : Label} {target : X.Reg} {fall : Option X.Reg}
    {hint : BranchHint}
    (hwarm : (Terminator.branch cond target fall hint).isWarm em.isHot = true) :
    Lines (Line.Defines P) (emitCondBranch em cond l false) e := by
  cases cond with
  | binary op left right =>
    rw [emitCondBranch_eq hwarm]
    simp [Straight.defines (@steady_emitTest X .idle em op left right hwarm)]
  | _ => cases hwarm

variable {term : Terminator X} (hwarm : term.isWarm em.isHot = true)

include hwarm

/-- The code of a terminator defines no labels. -/
theorem defines_emitTerminator :
    Lines (Line.Defines fun _ => False) (emitTerminator em fallPc currentPc term) e := by
  cases term with
  | fall target => simp [emitTerminator]
  | jump target => simp [emitTerminator]
  | jumpDyn addr targets =>
    simp [emitTerminator, Straight.defines (@steady_emitDynTarget X .idle em addr hwarm)]
  | branch cond target fall hint =>
    simp [emitTerminator, emitBranch, emitFall, defines_emitCondBranch hwarm]
  | exit code =>
    simp [emitTerminator, storeByte, Straight.defines (@steady_emitExpr X .idle em _ hwarm _)]
  | trap msg => simp [emitTerminator]

/-- The code that suspends does not define the label behind it. -/
theorem defines_emitSuspend (e' : St) :
    Lines (Line.Defines fun l => ¬ l = continueLabel e)
      (emitSuspend em fallPc currentPc term) e' := by
  have htarget : ∀ n, ¬ Label.loc "instret_target" n = continueLabel e := by simp [continueLabel]
  have hdone : ∀ n, ¬ Label.loc "instret_done" n = continueLabel e := by simp [continueLabel]
  cases term with
  | fall target => simp [emitSuspend, defines_emitStoreNextPcImm]
  | jump target => simp [emitSuspend, defines_emitStoreNextPcImm]
  | jumpDyn addr targets =>
    simp [emitSuspend, storeField, Straight.defines (@steady_emitDynTarget X .idle em addr hwarm)]
  | branch cond target fall hint =>
    simp [emitSuspend, defines_emitCondBranch hwarm, defines_emitStoreNextPcImm, nextLabel_val,
      htarget, hdone]
  | exit code => simp [emitSuspend]
  | trap msg => simp [emitSuspend]

end Labels

/-! ## Suspending and going on -/

section Suspension

variable (em : Emitter) (fallPc currentPc : U64) (term : Terminator X)

/-- Where the code that suspends does what the terminator does: a jump to the instruction itself is
not made. -/
def Agrees : Prop :=
  match term with
  | .jump target => resolved em target = currentPc → X.fromU64 currentPc = X.fromU64 fallPc
  | _ => True

/-- A run has left for the epilogue, and it has done so with the state of a run that goes on exactly
where the code that suspends agrees with the terminator. -/
def Stopped (next : U64) (σ' : State) (c : State × Option Label) : Prop :=
  c.2 = some .exit ∧ (StoppedAt X em next σ' c.1 ↔ Agrees em fallPc currentPc term)

variable {env : Env} {em fallPc currentPc term} {e e' : St} {σ σ' : State} {next : U64}
  {fall : Option X.Reg}

/-- A jump that is left out under a condition, and goes on. -/
theorem jump_of_runs {made : Bool} {target : U64}
    (h : (machine env).Runs (when made (ins (.b (.pc target)))) e (σ, none) fun _ _ =>
      Onward fallPc next σ') : σ' = σ ∧ next = if made then target else fallPc := by
  cases made with
  | true =>
    obtain ⟨rfl, rfl⟩ : σ = σ' ∧ target = next := by
      simpa [step, nextPc, encodable, Onward] using h
    exact ⟨rfl, rfl⟩
  | false =>
    obtain ⟨rfl, rfl⟩ : σ = σ' ∧ fallPc = next := by simpa [nextPc, Onward] using h
    exact ⟨rfl, rfl⟩

theorem not_runs_trap : ¬ (machine env).Runs (ins (.b .trap)) e (σ, none) fun _ _ =>
    Onward fallPc next σ' := by
  simp [step, nextPc, Onward]

theorem stops_fall (hfit : PcsFit X em.inputs fallPc)
    (h : (machine env).Runs (emitTerminator em fallPc currentPc (.fall fall)) e (σ, none)
      fun _ _ => Onward fallPc next σ') :
    (machine env).Runs (emitSuspend em fallPc currentPc (.fall fall)) e' (σ, none) fun _ _ =>
      Stopped em fallPc currentPc (.fall fall) next σ' := by
  have hstored : X = .rv32 → (if fallTarget em fall fallPc = currentPc then fallPc
      else fallTarget em fall fallPc).toNat < 2 ^ 32 := by
    split
    · exact hfit.following
    · exact hfit.fallTarget fall
  have hnext : σ' = σ ∧ next = if fallTarget em fall fallPc = currentPc then fallPc
      else fallTarget em fall fallPc := by
    simp only [emitTerminator] at h
    split at h
    · exact absurd h not_runs_trap
    · obtain ⟨hσ, hnext⟩ := jump_of_runs h
      refine ⟨hσ, hnext.trans ?_⟩
      by_cases hself : fallTarget em fall fallPc = currentPc
      · simp [hself]
      · by_cases hfall : fallTarget em fall fallPc = fallPc
        · simp [hfall]
        · simp [hfall]
  obtain ⟨rfl, rfl⟩ := hnext
  rw [emitSuspend, runs_bind]
  refine (runs_emitStoreNextPcImm _ hstored).mono ?_
  rintro - - ⟨τ, w⟩ ⟨rfl, hstored⟩
  simp [Stopped, hstored.stoppedAt_iff, Agrees, step, encodable]

theorem stops_jump {target : X.Reg} (hfit : PcsFit X em.inputs fallPc)
    (h : (machine env).Runs (emitTerminator em fallPc currentPc (.jump target)) e (σ, none)
      fun _ _ => Onward fallPc next σ') :
    (machine env).Runs (emitSuspend em fallPc currentPc (.jump target)) e' (σ, none) fun _ _ =>
      Stopped em fallPc currentPc (.jump target) next σ' := by
  have hnext : σ' = σ ∧ next = if resolved em target = currentPc then fallPc
      else resolved em target := by
    simp only [emitTerminator] at h
    split at h
    · obtain ⟨hσ, hnext⟩ := jump_of_runs h
      refine ⟨hσ, hnext.trans ?_⟩
      by_cases hself : resolved em target = currentPc
      · simp
      · simp
    · exact absurd h not_runs_trap
  obtain ⟨rfl, rfl⟩ := hnext
  rw [emitSuspend, runs_bind]
  refine (runs_emitStoreNextPcImm (resolved em target) (hfit.resolved target)).mono ?_
  rintro - - ⟨τ, w⟩ ⟨rfl, hstored⟩
  by_cases hself : resolved em target = currentPc
  · simp [Stopped, hstored.stoppedAt_iff, hself, Agrees, step, encodable]
  · simp [Stopped, hstored.stoppedAt_iff, hself, Agrees, step, encodable]

theorem stops_jumpDyn {addr : Expr X} {targets : Option (List X.Reg)}
    (hwarm : addr.isWarm em.isHot = true)
    (h : (machine env).Runs (emitTerminator em fallPc currentPc (.jumpDyn addr targets)) e
      (σ, none) fun _ _ => Onward fallPc next σ') :
    (machine env).Runs (emitSuspend em fallPc currentPc (.jumpDyn addr targets)) e' (σ, none)
      fun _ _ => Stopped em fallPc currentPc (.jumpDyn addr targets) next σ' := by
  obtain ⟨base, run, -, hruns⟩ := Straight.runs_bind (@steady_emitDynTarget X env em addr hwarm)
  obtain ⟨σ₁, hrun, hrest⟩ := (hruns _ _ _ _).1 h
  obtain ⟨rfl, rfl⟩ : σ₁ = σ' ∧ ((σ₁.get ⟨0, suffix X⟩ (suffix X)).setWidth 64 : U64) = next := by
    simpa [step, nextPc, encodable, Onward] using hrest
  refine (hruns _ _ _ _).2 ⟨σ₁, hrun, runs_bind.2 ((runs_storePc 0).mono ?_)⟩
  rintro - - ⟨τ, w⟩ ⟨rfl, hstored⟩
  refine runs_ins.2 ⟨rfl, _, rfl, rfl, ?_⟩
  have hlow : X.fromU64 (σ₁.regs 0) =
      X.fromU64 ((σ₁.get ⟨0, suffix X⟩ (suffix X)).setWidth 64) := by
    cases X with
    | rv32 =>
      change (σ₁.regs 0).setWidth 32 = (((σ₁.regs 0).setWidth 32).setWidth 64).setWidth 32
      rw [BitVec.setWidth_setWidth_of_le _ (by decide), BitVec.setWidth_eq]
    | rv64 => simp [State.get, suffix]
  rw [hstored.stoppedAt_iff, hlow]
  simp [Agrees]

/-- A branch that goes on does so at its target or its fall-through. -/
theorem branch_of_runs (taken : Bool) {targetPc : U64}
    (h : (machine env).Runs (emitFall em fall fallPc) e
      (σ, if taken then some (jumpLabel em targetPc) else none) fun _ _ =>
        Onward fallPc next σ') :
    σ' = σ ∧ next = if taken then targetPc else fallTarget em fall fallPc := by
  cases taken with
  | false =>
    unfold emitFall at h
    split at h
    · exact absurd h not_runs_trap
    · obtain ⟨hσ, hnext⟩ := jump_of_runs h
      refine ⟨hσ, hnext.trans ?_⟩
      by_cases hfall : fallTarget em fall fallPc = fallPc
      · simp [hfall]
      · simp [hfall]
  | true =>
    -- control passes over the fall-through
    have hlast : σ = σ' ∧ nextPc fallPc (some (jumpLabel em targetPc)) = some next := by
      unfold emitFall at h
      split at h
      · exact (runs_ins_wanted.1 h).2
      · cases hb : decide (fallTarget em fall fallPc ≠ fallPc) with
        | true =>
          rw [hb] at h
          exact (runs_ins_wanted.1 h).2
        | false =>
          rw [hb] at h
          exact runs_pure.1 h
    obtain ⟨rfl, hnext⟩ := hlast
    unfold jumpLabel at hnext
    split at hnext
    · cases hnext
      exact ⟨rfl, rfl⟩
    · cases hnext

theorem stops_branch {cond : Expr X} {target : X.Reg} {hint : BranchHint}
    (hwarm : (Terminator.branch cond target fall hint).isWarm em.isHot = true)
    (hfit : PcsFit X em.inputs fallPc)
    (h : (machine env).Runs (emitTerminator em fallPc currentPc (.branch cond target fall hint)) e
      (σ, none) fun _ _ => Onward fallPc next σ') :
    (machine env).Runs (emitSuspend em fallPc currentPc (.branch cond target fall hint)) e'
      (σ, none) fun _ _ =>
        Stopped em fallPc currentPc (.branch cond target fall hint) next σ' := by
  cases cond with
  | binary op left right =>
    obtain ⟨jump, run, hjump, hruns⟩ :=
      Straight.runs_bind (@steady_emitTest X env em op left right hwarm)
    rw [emitTerminator, emitBranch, emitCondBranch_eq hwarm, bind_bind] at h
    obtain ⟨σ₁, hrun, hrest⟩ := (hruns _ _ _ _).1 h
    obtain ⟨-, c, hstep, hfall⟩ := runs_ins.1 (runs_bind.1 hrest)
    obtain ⟨taken, rfl, htest⟩ := (hjump e ▸ isTest_emitTest e : IsTest jump) _ _ _ _ hstep
    obtain ⟨rfl, rfl⟩ := branch_of_runs taken hfall
    rw [emitSuspend, runs_bind, runs_nextLabel, runs_bind, runs_nextLabel,
      emitCondBranch_eq hwarm, bind_bind]
    refine (hruns _ _ _ _).2 ⟨σ', hrun, runs_bind.2 (runs_ins.2 ⟨(htest _).1, _, (htest _).2, ?_⟩)⟩
    refine (Straight.runs_either (steady_emitStoreNextPcImm env _) (steady_emitStoreNextPcImm env _)
      (fun _ => rfl) (fun _ _ => rfl)
      (fun _ => runs_emitStoreNextPcImm (fallTarget em fall fallPc) (hfit.fallTarget fall))
      (fun _ => runs_emitStoreNextPcImm (resolved em target) (hfit.resolved target)) (by simp)
      taken).mono ?_
    rintro - - ⟨τ, w⟩ ⟨rfl, hstores⟩
    have hstored : Stored X (if taken then resolved em target else fallTarget em fall fallPc)
        σ' τ := by
      split_ifs at hstores ⊢ <;> exact hstores
    simp [Stopped, hstored.stoppedAt_iff, Agrees]
  | _ => cases hwarm

/-- The code that suspends, next to a terminator that goes on. -/
theorem stops_of_runs (hwarm : term.isWarm em.isHot = true) (hfit : PcsFit X em.inputs fallPc)
    (h : (machine env).Runs (emitTerminator em fallPc currentPc term) e (σ, none) fun _ _ =>
      Onward fallPc next σ') :
    (machine env).Runs (emitSuspend em fallPc currentPc term) e' (σ, none) fun _ _ =>
      Stopped em fallPc currentPc term next σ' := by
  cases term with
  | fall target => exact stops_fall hfit h
  | jump target => exact stops_jump hfit h
  | jumpDyn addr targets => exact stops_jumpDyn hwarm h
  | branch cond target fall hint => exact stops_branch hwarm hfit h
  | exit code =>
    -- the terminator leaves for the epilogue itself
    obtain ⟨codeReg, run, -, hruns⟩ :=
      Straight.runs_bind (@steady_emitExpr X env em code hwarm (temp1 X))
    obtain ⟨σ₁, -, hrest⟩ := (hruns _ _ _ _).1 h
    simp [storeByte, step, A64.next, nextPc, Onward] at hrest
  | trap msg => exact absurd h not_runs_trap

end Suspension

/-! ## Lists of instructions -/

section Instructions

variable (env : Env) (em : Emitter) (before : List (InstrIR X)) (instr : InstrIR X)
  (rest : List (InstrIR X)) (e : St)

/-- The part of `emit_instructions` in front of an instruction of the list. -/
def emitBefore : List (InstrIR X) → Em Unit
  | [] => when (Xlen.toU64 instr.pc ∈ em.labelPcs) (emitPcLabel (Xlen.toU64 instr.pc))
  | i :: is => do
    when (Xlen.toU64 i.pc ∈ em.labelPcs) (emitPcLabel (Xlen.toU64 i.pc))
    emitInstruction em i (followingPc i (is ++ [instr]))
    emitBefore is

/-- The part of `emit_instructions` up to the end of an instruction of the list. -/
def emitThrough : Em Unit := do
  emitBefore em instr before
  emitInstruction em instr (followingPc instr rest)

/-- The text of a list is that part and the text of what follows. -/
theorem code_emitInstructions :
    (emitInstructions em (before ++ instr :: rest)).code e =
      (emitThrough em before instr rest).code e ++
        (emitInstructions em rest).code (emitThrough em before instr rest e).st := by
  induction before generalizing e with
  | nil => simp [emitInstructions, emitThrough, emitBefore, code_bind]
  | cons i is ih =>
    have hfollow := X64.followingPc_append instr rest i is
    simp [emitInstructions, emitThrough, emitBefore, code_bind, hfollow, ih]

/-- A pass over a list of instructions that comes to the check of one of them in `σ` and, where the
check does not suspend, goes on at `next` in `σ'`. -/
def Continues (c : State × Option Label) (σ σ' : State) (next : U64) : Prop :=
  ∃ wanted, (guarded em e (emitBefore em instr before) instr (followingPc instr rest)).GoesOn
    (machine env) c σ σ' wanted ∧ nextPc (followingPc instr rest) wanted = some next

/-- The pass leaves that instruction for the epilogue with the next pc in the state and all else as
in `σ'`. -/
def Suspended (c : State × Option Label) (σ' : State) (next : U64) : Prop :=
  ∃ τ, (machine env).exec ((emitThrough em before instr rest).code e) c = some (τ, some .exit) ∧
    StoppedAt X em next σ' τ

/-- A warm branch tests no temporary, so nothing is folded into it. -/
theorem keptTerminator_of_isWarm {em : Emitter} {instr : InstrIR X}
    (h : instr.terminator.isWarm em.isHot = true) :
    keptTerminator em instr = instr.terminator := by
  have hfolded : foldedCmp em instr = none := by
    unfold foldedCmp
    split
    · rfl
    · split
      case h_1 cond _ _ _ heq =>
        rw [heq] at h
        cases cond <;> first | rfl | cases h
      case h_2 => rfl
  simp [keptTerminator, hfolded]

/-- A pass is suspended with the state of the pass that goes on exactly where the code that suspends
agrees with the terminator. -/
theorem suspended_iff (hmode : em.instretMode.suspends = true) {c : State × Option Label}
    {σ σ' : State} {next : U64} (hwarm : instr.terminator.isWarm em.isHot = true)
    (hfit : PcsFit X em.inputs (followingPc instr rest))
    (hcont : Continues env em before instr rest e c σ σ' next)
    (hlimit : σ.field .targetInstret ≤ σ.regs 18) :
    Suspended env em before instr rest e c σ' next ↔
      Agrees em (followingPc instr rest) (Xlen.toU64 instr.pc) instr.terminator := by
  have hkept := keptTerminator_of_isWarm hwarm
  obtain ⟨wanted, hgoes, hnext⟩ := hcont
  have hterm := hgoes.rest fun hl => defines_emitSuspend hwarm _ _ hl rfl
  have hrest : (guarded em e (emitBefore em instr before) instr (followingPc instr rest)).rest =
      (emitTerminator em (followingPc instr rest) (Xlen.toU64 instr.pc) instr.terminator).code _ :=
    congrArg (fun t => (emitTerminator em _ _ t).code _) hkept
  rw [hrest] at hterm
  obtain ⟨⟨τ, w⟩, hsuspend, rfl, hiff⟩ := stops_of_runs hwarm hfit ⟨_, hterm, rfl, hnext⟩
  have hcheck := exec_guarded em _ e hmode env _ instr hgoes.body
  rw [if_neg (not_lt.2 hlimit)] at hcheck
  have hout : .label .exit ∉
      (guarded em e (emitBefore em instr before) instr (followingPc instr rest)).rest := by
    rw [hrest]
    exact fun hl => defines_emitTerminator hwarm _ hl
  have hrun := hcheck.trans (hgoes.leave hsuspend (by simp [guarded, continueLabel]) hout)
  rw [Suspended, emitThrough, hrun, ← hiff]
  constructor
  · rintro ⟨τ', hτ', hstop⟩
    cases hτ'
    exact hstop
  · exact fun hstop => ⟨τ, rfl, hstop⟩

end Instructions

end Rvr.A64
