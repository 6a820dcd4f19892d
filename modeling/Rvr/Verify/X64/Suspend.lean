import Rvr.Verify.X64.Frame
import Rvr.Lib.Jumps

/-!
# Suspension of emitted x86-64 code

`emit_instret_post_check` and `emit_instret_suspend_check` of `rvr-emit/src/x86/ir/expr/mod.rs`.
The text behind the comparison with the limit has two parts: the code that stores the next pc and
leaves, and the terminator.  Control enters at the first part to suspend, and looks for the label
between the two to go on; both evaluate the terminator's condition or target with code of their own.

The two copies can differ.  Emitting the first one may leave a cold register in the emitter's cache,
from which the second one is emitted; for a machine that goes on, `%r11` was never loaded.  The
copies are one text where the operands are constants, temporaries, `x0` and hot registers
(`Terminator.isWarm`).  There the first copy still has validity checks of its own, leaves out a
fall-through to the instruction itself, and stores 0 for a pc that is no 32-bit word.
-/

namespace Rvr

variable {X : Xlen}

/-! ## Terminators without cold registers -/

/-- Operators whose code has no labels: sums, bitwise operators and comparisons. -/
def BinaryOp.isPlain : BinaryOp → Bool
  | .add | .sub | .and | .or | .xor | .eq | .ne | .lt | .ge | .ltu | .geu => true
  | _ => false

/-- An operand whose code leaves nothing in the emitter's cache: a constant, a temporary, `x0` or a
hot register. -/
def Expr.isWarmLeaf (hot : ℕ → Bool) : Expr X → Bool
  | .imm _ | .pcConst _ | .temp _ => true
  | .reg r => r = 0 || hot r
  | _ => false

/-- An expression that is made of such operands by plain operators. -/
def Expr.isWarm (hot : ℕ → Bool) : Expr X → Bool
  | .binary op left right => op.isPlain && left.isWarm hot && right.isWarmLeaf hot
  | ex => ex.isWarmLeaf hot

/-- A terminator over such expressions; a branch tests an operator's result, not a temporary. -/
def Terminator.isWarm (hot : ℕ → Bool) : Terminator X → Bool
  | .jumpDyn addr _ => addr.isWarm hot
  | .branch (.binary op left right) _ _ _ => (Expr.binary op left right).isWarm hot
  | .branch .. => false
  | .exit code => code.isWarm hot
  | _ => true

/-- On RV32 the pc behind an instruction and all resolved targets are 32-bit words. -/
structure PcsFit (X : Xlen) (inputs : EmitInputs) (fallPc : U64) : Prop where
  following : X = .rv32 → fallPc.toNat < 2 ^ 32
  resolved : ∀ target : X.Reg, X = .rv32 →
    (inputs.resolveAddress (Xlen.toU64 target)).toNat < 2 ^ 32

theorem PcsFit.fallTarget {inputs : EmitInputs} {fallPc : U64} (h : PcsFit X inputs fallPc)
    (fall : Option X.Reg) (hX : X = .rv32) :
    ((fall.map fun t => inputs.resolveAddress (Xlen.toU64 t)).getD fallPc).toNat < 2 ^ 32 := by
  cases fall with
  | none => exact h.following hX
  | some t => exact h.resolved t hX

namespace X64

open Asm Asm.Emit Machine

/-- The guest pc at which execution goes on, once the code of a terminator has been left for a label
or has run to its end, behind which the code of `fallPc` follows. -/
def nextPc (fallPc : U64) : Option Label → Option U64
  | none => some fallPc
  | some (.pc addr) => some addr
  | some (.dispatch target) => some target
  | some _ => none

/-- A run has come to `σ'` and goes on at `next`. -/
def Onward {S : Type} (fallPc next : U64) (σ' : S) (c : S × Option Label) : Prop :=
  c.1 = σ' ∧ nextPc fallPc c.2 = some next

/-! ## Code without jumps -/

/-- Instructions that may jump. -/
@[grind] def Instr.jumps : Instr → Bool
  | .jcc .. | .jmp _ | .dispatchJump => true
  | _ => false

/-- All others do not. -/
theorem straight_of_jumps {env : Env} {i : Instr} (hi : ¬ i.jumps) :
    (machine env).Straight (.ins i) := by
  rintro σ ⟨σ', w⟩ hstep
  change step env i σ = some (σ', w) at hstep
  cases i with
  | jcc c l => exact absurd rfl hi
  | jmp l => exact absurd rfl hi
  | dispatchJump => exact absurd rfl hi
  | div signed sz src =>
    simp only [step, stepDiv] at hstep
    split at hstep <;> split at hstep <;> cases hstep <;> rfl
  | bsr sz src dst =>
    simp only [step] at hstep
    split at hstep <;> cases hstep
    rfl
  | bsf sz src dst =>
    simp only [step] at hstep
    split at hstep <;> cases hstep
    rfl
  | setcc c dst =>
    obtain ⟨f, -, hf⟩ := Option.bind_eq_some_iff.1 hstep
    cases hf
    rfl
  | cmov c sz src dst =>
    obtain ⟨f, -, hf⟩ := Option.bind_eq_some_iff.1 hstep
    cases hf
    rfl
  | _ =>
    cases hstep
    try rfl

section Operands

variable {env : Env} {em : Emitter} {dest : Name}

/-- Emissions of one text without jumps. -/
abbrev Steady {α : Type} (env : Env) (m : Em α) : Prop := Fixed (machine env).Straight m

@[grind .] theorem steady_ins {i : Instr} (hi : ¬ i.jumps) : Steady env (ins i) :=
  fixed_line (straight_of_jumps hi)

/-- The hot registers. -/
def Emitter.isHot (em : Emitter) (r : ℕ) : Bool := (em.regMap.mapping r).isSome

theorem steady_leaf {ex : Expr X} (h : ex.isWarmLeaf em.isHot = true) :
    Steady env (emitExpr em ex dest) := by
  cases ex with
  | imm val =>
    rw [emitExpr]
    cases X <;> grind [emitExprImm, clear]
  | pcConst val =>
    rw [emitExpr]
    cases X <;> grind [emitExprPcConst]
  | temp idx =>
    rw [emitExpr]
    grind [emitExprTemp, clear]
  | reg r =>
    rw [emitExpr, loadRvToTemp]
    split
    case isTrue => grind [clear]
    case isFalse hr =>
      obtain ⟨g, hg⟩ : ∃ g, em.regMap.mapping r = some g := by
        simpa [Expr.isWarmLeaf, hr, Emitter.isHot, Option.isSome_iff_exists] using h
      simp [RegMap.get, hg]
  | _ => cases h

theorem steady_emitBinaryOp {op : BinaryOp} (hop : op.isPlain = true) {left right : Expr X}
    {emitLeft emitRight : Operation} (hleft : ∀ dest, Steady env (emitLeft dest))
    (hright : ∀ dest, Steady env (emitRight dest)) :
    Steady env (emitBinaryOp em op left right emitLeft emitRight dest) := by
  have hmove : Steady env (emitMoveLeftToDest X emitLeft dest) := by grind [emitMoveLeftToDest]
  have hrightVal : Steady env (emitRightOperand right emitRight) := by
    unfold emitRightOperand
    split <;> simp [hright]
  have hinPlace : Steady env (inPlaceOperand op right emitRight) := by
    unfold inPlaceOperand
    split <;> simp [hright]
  have hfinish : Steady env (finish X dest) := by grind [finish]
  rw [emitBinaryOp]
  refine forall_getD (forall_orElse ?_ ?_) ?_
  · intro m hm
    unfold emitBinaryOpImmFast at hm
    split at hm
    · dsimp only at hm
      split at hm <;> grind [clear]
    · cases hm
  · intro m hm
    simp only [emitBinaryOpInPlace] at hm
    split at hm
    · grind
    · cases hm
  · have hgeneral : Steady env (emitBinaryGeneral op right emitRight dest) := by
      cases op <;> first
        | exact absurd hop (by decide)
        | simp only [emitBinaryGeneral, emitBinaryArith, emitBinaryMulSpecial, emitBinaryDivRem,
            emitBinaryCompare, setCond, Option.orElse_some, Option.orElse_none, Option.map_some,
            Option.getD_some]
          grind
    have hop' : emitBinaryShift op right emitRight dest = none ∧
        emitBinaryWord op right emitRight dest = none := by
      cases op <;> first | exact absurd hop (by decide) | exact ⟨rfl, rfl⟩
    simp only [emitBinaryOpViaRax, hop'.1, hop'.2, Option.orElse_none, Option.getD_none]
    grind

theorem steady_emitExpr : ∀ {ex : Expr X}, ex.isWarm em.isHot = true → ∀ dest,
    Steady env (emitExpr em ex dest)
  | .binary op left right, h, dest => by
    simp only [Expr.isWarm, Bool.and_eq_true] at h
    rw [emitExpr]
    exact steady_emitBinaryOp h.1.1 (fun _ => steady_emitExpr h.1.2 _) fun _ => steady_leaf h.2
  | .imm _, h, _ | .reg _, h, _ | .pcConst _, h, _ | .temp _, h, _ => steady_leaf h

theorem steady_emitExprAsAddr {ex : Expr X} (h : ex.isWarm em.isHot = true) :
    Steady env (emitExprAsAddr em ex (emitExpr em ex)) := by
  have hemit : ∀ dest, Steady env (emitExpr em ex dest) := steady_emitExpr h
  unfold emitExprAsAddr
  split
  case h_1 r =>
    unfold loadRvAsAddr
    split
    · grind
    · split <;> grind
  case h_2 val =>
    have hconst := @steady_leaf X env em (temp1 X) (.pcConst val) rfl
    rw [emitExpr] at hconst
    exact fixed_bind hconst fun _ => fixed_pure _
  case h_3 => split <;> grind

end Operands

/-! ## The text of an instruction's end -/

section Text

variable (em : Emitter) (fallPc : U64) (e : St)

/-- The label behind the code that suspends. -/
def continueLabel : Label := .loc "instret_ok" (e.labelCounter + 1)

/-- The state of the emitter behind that label's number. -/
def suspendSt : St := (nextLabel "instret_ok" e).st

theorem code_nextLabel (stem : String) : (nextLabel stem).code e = [] := rfl

theorem nextLabel_val (stem : String) :
    (nextLabel stem e).val = .loc stem (e.labelCounter + 1) := rfl

/-- The part of `emit_instruction` before the check. -/
def emitBody (instr : InstrIR X) : Em Unit := do
  emitTracePc X em (Xlen.toU64 instr.pc) instr.raw
  when (!em.instretMode.isPerInstruction) (emitInstretIncrement em)
  emitStmts em instr.statements
  when (stmtsWriteToExited instr.statements) do
    ins (.malformed "cmpb $0, has_exited(rbx)")
    ins (.malformed "jne{suffix} asm_exit")
  when em.instretMode.isPerInstruction (ins (.alu .add .q (.imm 1) instretReg))

/-- With suspension an instruction is its body, the check and the terminator. -/
theorem code_emitInstruction (hmode : em.instretMode.suspends = true) (instr : InstrIR X) :
    (emitInstruction em instr fallPc).code e = (do
      emitBody em instr
      emitSuspendCheck em fallPc (Xlen.toU64 instr.pc) instr.terminator
      emitTerminator em fallPc instr.terminator).code e := by
  have hcases : em.instretMode = .suspend ∨ em.instretMode = .perInstruction := by
    simpa [InstretMode.suspends] using hmode
  rcases hcases with h | h
  · simp [emitInstruction, emitBody, code_bind, h, InstretMode.suspends,
      InstretMode.isPerInstruction]
  · simp [emitInstruction, emitBody, emitInstretPostCheck, code_bind, code_pure, h,
      InstretMode.suspends, InstretMode.isPerInstruction, InstretMode.counts]

/-- The machine state behind the comparison with the limit. -/
def checked (σ : State) : State :=
  { σ with
    regs := Function.update σ.regs .rdx (σ.field .targetInstret)
    flags := some (.ofSub (σ.regs .r10) (σ.field .targetInstret)) }

/-- An instruction in a list: its body with all that is emitted before, and its end. -/
def guarded (before : Em Unit) (instr : InstrIR X) (fallPc : U64) :
    Guarded Label Instr State :=
  let body : Em Unit := do before; emitBody em instr
  let pc := Xlen.toU64 instr.pc
  { body := body.code e
    check := checked
    leave := (emitSuspend em fallPc pc instr.terminator).code (suspendSt (body e).st)
    onward := continueLabel (body e).st
    rest := (emitTerminator em fallPc instr.terminator).code
      ((emitSuspend em fallPc pc instr.terminator) (suspendSt (body e).st)).st }

/-- The check enters the text behind it at its start, or looks for the label in it. -/
theorem exec_guarded (hmode : em.instretMode.suspends = true) (env : Env) (before : Em Unit)
    (instr : InstrIR X) {c : State × Option Label} {σ : State}
    (hbody : (machine env).exec (guarded em e before instr fallPc).body c = some (σ, none)) :
    (machine env).exec ((do before; emitInstruction em instr fallPc).code e) c =
      (machine env).exec (guarded em e before instr fallPc).tail
        (checked σ, if σ.regs .r10 < σ.field .targetInstret then
          some (guarded em e before instr fallPc).onward else none) := by
  have hcode : (do before; emitInstruction em instr fallPc : Em Unit).code e =
      (guarded em e before instr fallPc).body ++
        .ins (.mov .q (fieldOperand .targetInstret) rdx) :: .ins (.cmp .q (.reg rdx) instretReg) ::
        .ins (.jcc .b (guarded em e before instr fallPc).onward) ::
        (guarded em e before instr fallPc).tail := by
    rw [code_bind, code_emitInstruction _ _ _ hmode]
    simp [guarded, Guarded.tail, emitSuspendCheck, code_bind, ins, emitLabel, code_line,
      code_nextLabel, nextLabel_val, continueLabel, suspendSt]
  rw [hcode, exec_append, hbody]
  simp [exec, execLine, machine, fieldOperand, rdx, instretReg, checked, BitVec.ult_iff_lt]

end Text

/-! ## What suspending and going on have in common -/

/-- What a run that stops with a next pc has to share with the run that goes on there. -/
structure StoppedAt (X : Xlen) (em : Emitter) (next : U64) (σ' τ : State) : Prop where
  pc : τ.fieldVal X .pc = X.fromU64 next
  regs : ∀ r, (em.guestReg τ r : X.Reg) = em.guestReg σ' r
  instret : em.guestInstret τ = em.guestInstret σ'
  mem : τ.mem = σ'.mem

/-- Two states that differ in nothing but the pc, `%rdx` and the flags. -/
structure OffPc (σ τ : State) : Prop where
  regs : ∀ g, g ≠ .rdx → τ.regs g = σ.regs g
  field : ∀ f, f ≠ .pc → τ.field f = σ.field f
  mem : τ.mem = σ.mem

theorem OffPc.trans {σ τ ρ : State} (h : OffPc σ τ) (h' : OffPc τ ρ) : OffPc σ ρ :=
  ⟨fun g hg => (h'.regs g hg).trans (h.regs g hg), fun f hf => (h'.field f hf).trans (h.field f hf),
    h'.mem.trans h.mem⟩

theorem rdx_notMem_availableRegs : Reg.rdx ∉ availableRegs := by decide

/-- A state that differs by the pc it holds. -/
structure Stored (X : Xlen) (nextPc : U64) (σ τ : State) : Prop where
  pc : τ.fieldVal X .pc = X.fromU64 nextPc
  off : OffPc σ τ

/-- Such a difference is none for the guest, besides the pc. -/
theorem Stored.stoppedAt_iff {em : Emitter} {nextPc next : U64} {σ τ : State}
    (h : Stored X nextPc σ τ) :
    StoppedAt X em next σ τ ↔ X.fromU64 nextPc = X.fromU64 next := by
  refine ⟨fun hs => h.pc.symm.trans hs.pc, fun hpc => ⟨h.pc.trans hpc, ?_, ?_, h.off.mem⟩⟩
  · intro r
    unfold Emitter.guestReg
    split
    case h_1 g hg =>
      have hne : g ≠ .rdx := by
        rintro rfl
        exact rdx_notMem_availableRegs (em.regMap.available hg)
      rw [State.val, State.val, h.off.regs g hne]
    case h_2 => rw [State.fieldVal, State.fieldVal, h.off.field _ (by simp)]
  · unfold Emitter.guestInstret
    split
    · exact h.off.regs .r10 (by simp)
    · exact h.off.field .instret (by simp)

/-- The low part of a cell after it was written. -/
theorem Size.setWidth_insert (sz : Size) (old : U64) (v : BitVec sz.bits) :
    (sz.insert old v).setWidth sz.bits = v := by
  have hbits : sz.bits ≤ 64 := by cases sz <;> decide
  ext i hi
  have hlt : i < 64 := by omega
  simp [Size.insert, hi, hlt]

theorem OffPc.write (σ : State) (sz : Size) (v : BitVec sz.bits) :
    OffPc σ (σ.write sz v (.state .pc 0)) :=
  ⟨fun _ _ => rfl, fun _ hf => Function.update_of_ne hf .., rfl⟩

theorem OffPc.put_rdx (σ : State) (v : U64) :
    OffPc σ (σ.put rdx (show BitVec Size.q.bits from v)) :=
  ⟨fun _ hg => State.put_regs_of_ne _ _ hg, fun _ _ => rfl, rfl⟩

theorem State.fieldVal_write_l (σ : State) (v : BitVec Size.l.bits) (f : Field) :
    (σ.write .l v (.state f 0)).fieldVal .rv32 f = v := by
  have hfield : (σ.write .l v (.state f 0)).field f = Size.l.insert (σ.field f) v :=
    Function.update_self ..
  exact (congrArg (BitVec.setWidth 32) hfield).trans (Size.setWidth_insert .l _ v)

theorem State.fieldVal_write_q (σ : State) (v : BitVec Size.q.bits) (f : Field) :
    (σ.write .q v (.state f 0)).fieldVal .rv64 f = v := by
  have hfield : (σ.write .q v (.state f 0)).field f = Size.q.insert (σ.field f) v :=
    Function.update_self ..
  exact (congrArg (BitVec.setWidth 64) hfield).trans (Size.setWidth_insert .q _ v)

section Stores

variable {env : Env} {e : St} {σ : State}

theorem runs_emitStoreNextPcImm (nextPc : U64) (hfit : X = .rv32 → nextPc.toNat < 2 ^ 32) :
    (machine env).Runs (emitStoreNextPcImm X nextPc) e (σ, none) fun _ _ c =>
      c.2 = none ∧ Stored X nextPc σ c.1 := by
  cases X with
  | rv32 =>
    have hlt : nextPc.toNat < 2 ^ 32 := hfit rfl
    simp only [emitStoreNextPcImm, storeField, runs_ins, step, next, State.touch, if_pos hlt,
      Option.some.injEq, exists_eq_left', true_and]
    refine ⟨by simp; omega, (State.fieldVal_write_l ..).trans ?_, OffPc.write ..⟩
    exact (BitVec.ofInt_natCast 32 _).trans (BitVec.ofNat_toNat 32 nextPc)
  | rv64 =>
    simp only [emitStoreNextPcImm, storeField]
    split
    · simp only [runs_bind, runs_ins, step, next, Option.some.injEq, exists_eq_left', true_and]
      refine ⟨rfl, rfl, (State.fieldVal_write_q ..).trans ?_, (OffPc.put_rdx ..).trans
        (OffPc.write ..)⟩
      exact (BitVec.setWidth_eq nextPc).trans (BitVec.setWidth_eq nextPc).symm
    · simp only [runs_ins, step, next, State.touch, Option.some.injEq, exists_eq_left', true_and]
      refine ⟨by simp; omega, (State.fieldVal_write_q ..).trans ?_, OffPc.write ..⟩
      exact (BitVec.ofInt_natCast 64 _).trans (BitVec.ofNat_toNat 64 nextPc)

/-- The pc that is stored from `%rax` or `%eax`. -/
theorem runs_storePc :
    (machine env).Runs (storeField (suffix X) (.reg (temp1 X)) .pc) e (σ, none) fun _ _ c =>
      c.2 = none ∧ Stored X (σ.regs .rax) σ c.1 := by
  rw [storeField, runs_ins]
  cases X with
  | rv32 => exact ⟨rfl, _, rfl, rfl, State.fieldVal_write_l _ _ _, OffPc.write _ _ _⟩
  | rv64 => exact ⟨rfl, _, rfl, rfl, State.fieldVal_write_q _ _ _, OffPc.write _ _ _⟩

end Stores

/-! ## Labels of the two parts -/

section Labels

variable {em : Emitter} {fallPc currentPc : U64} {e : St} {P : Label → Prop}

@[simp] theorem defines_ins {i : Instr} : Lines (Line.Defines P) (ins i) e := lines_line.2 trivial

@[simp] theorem defines_emitLabel {l : Label} : Lines (Line.Defines P) (emitLabel l) e ↔ P l :=
  lines_line

@[simp] theorem defines_nextLabel (stem : String) : Lines (Line.Defines P) (nextLabel stem) e := by
  simp [nextLabel]

theorem steady_emitStoreNextPcImm (env : Env) (nextPc : U64) :
    Steady env (emitStoreNextPcImm X nextPc) := by
  cases X <;> grind [emitStoreNextPcImm, storeField]

theorem defines_emitStoreNextPcImm (nextPc : U64) :
    Lines (Line.Defines P) (emitStoreNextPcImm X nextPc) e :=
  Straight.defines (steady_emitStoreNextPcImm .idle nextPc) e

theorem isWarm_of_branch {hot : ℕ → Bool} {cond : Expr X} {target : X.Reg} {fall : Option X.Reg}
    {hint : BranchHint} (h : (Terminator.branch cond target fall hint).isWarm hot = true) :
    cond.isWarm hot = true := by
  cases cond <;> first | exact h | cases h

variable {term : Terminator X} (hwarm : term.isWarm em.isHot = true)

include hwarm

/-- The code of a terminator defines no labels. -/
theorem defines_emitTerminator :
    Lines (Line.Defines fun _ => False) (emitTerminator em fallPc term) e := by
  have hexpr : ∀ {ex : Expr X} {dest e}, ex.isWarm em.isHot = true →
      Lines (Line.Defines fun _ => False) (emitExpr em ex dest) e :=
    fun h => Straight.defines (@steady_emitExpr X .idle em _ h _) _
  cases term with
  | fall target => simp [emitTerminator, emitFall]
  | jump target => simp [emitTerminator]
  | jumpDyn addr hint =>
    simp [emitTerminator, Straight.defines (@steady_emitExprAsAddr X .idle em addr hwarm)]
  | branch cond target fall hint =>
    simp [emitTerminator, emitFall, hexpr (isWarm_of_branch hwarm)]
  | exit code => simp [emitTerminator, storeField, hexpr hwarm]
  | trap msg => simp [emitTerminator]

/-- The code that suspends does not define the label behind it. -/
theorem defines_emitSuspend (e' : St) :
    Lines (Line.Defines fun l => ¬ l = continueLabel e)
      (emitSuspend em fallPc currentPc term) e' := by
  have htarget : ∀ n, ¬ Label.loc "instret_target" n = continueLabel e := by simp [continueLabel]
  have hdone : ∀ n, ¬ Label.loc "instret_done" n = continueLabel e := by simp [continueLabel]
  cases term with
  | fall target => simp [emitSuspend, defines_emitStoreNextPcImm]
  | jump target => simp [emitSuspend, defines_emitStoreNextPcImm]
  | jumpDyn addr hint =>
    simp [emitSuspend, storeField,
      Straight.defines (@steady_emitExprAsAddr X .idle em addr hwarm)]
  | branch cond target fall hint =>
    simp [emitSuspend, defines_emitStoreNextPcImm, nextLabel_val, htarget, hdone,
      Straight.defines (@steady_emitExpr X .idle em _ (isWarm_of_branch hwarm) _)]
  | exit code => simp [emitSuspend]
  | trap msg => simp [emitSuspend]

end Labels

/-! ## Suspending and going on -/

section Suspension

variable (em : Emitter) (fallPc currentPc : U64) (term : Terminator X)

/-- Where the code that suspends does what the terminator does: a fall-through to the instruction
itself is left out, and a branch is refused unless both of its targets have code. -/
def Agrees : Prop :=
  match term with
  | .fall target => fallTarget em target fallPc = currentPc →
      X.fromU64 fallPc = X.fromU64 currentPc
  | .branch _ target fall _ =>
    fallInvalid em fall = false ∧ em.inputs.isValidAddress (resolved em target) = true
  | .jump _ | .jumpDyn .. | .exit _ | .trap _ => True

/-- A run has left for the epilogue or the trap handler, and it has done the former with the state
of a run that goes on exactly where the code that suspends agrees with the terminator. -/
def Stopped (next : U64) (σ' : State) (c : State × Option Label) : Prop :=
  (c.2 = some .exit ∨ c.2 = some .trap) ∧
    (c.2 = some .exit ∧ StoppedAt X em next σ' c.1 ↔ Agrees em fallPc currentPc term)

variable {env : Env} {em fallPc currentPc term} {e e' : St} {σ σ' : State} {next : U64}
  {fall : Option X.Reg}

/-- A fall-through that goes on does so at its target. -/
theorem fall_of_runs
    (h : (machine env).Runs (emitFall em fall fallPc) e (σ, none) fun _ _ =>
      Onward fallPc next σ') :
    σ' = σ ∧ fallInvalid em fall = false ∧ next = fallTarget em fall fallPc := by
  unfold emitFall Onward at h
  split at h
  case isTrue => simp [nextPc] at h
  case isFalse hvalid =>
    rw [Bool.not_eq_true] at hvalid
    split at h
    · obtain ⟨rfl, rfl⟩ : σ = σ' ∧ fallTarget em fall fallPc = next := by simpa [nextPc] using h
      exact ⟨rfl, hvalid, rfl⟩
    · rename_i heq
      obtain ⟨rfl, rfl⟩ : σ = σ' ∧ fallPc = next := by simpa [nextPc] using h
      exact ⟨rfl, hvalid, (not_not.1 heq).symm⟩

theorem stops_fall (hfit : PcsFit X em.inputs fallPc)
    (h : (machine env).Runs (emitTerminator em fallPc (.fall fall)) e (σ, none) fun _ _ =>
      Onward fallPc next σ') :
    (machine env).Runs (emitSuspend em fallPc currentPc (.fall fall)) e' (σ, none) fun _ _ =>
      Stopped em fallPc currentPc (.fall fall) next σ' := by
  obtain ⟨rfl, hvalid, rfl⟩ := fall_of_runs h
  rw [emitSuspend, if_neg (by simp [hvalid]), runs_bind]
  by_cases hself : fallTarget em fall fallPc = currentPc
  · rw [if_pos hself]
    refine (runs_emitStoreNextPcImm _ hfit.following).mono ?_
    rintro - - ⟨τ, w⟩ ⟨rfl, hstored⟩
    simp [Stopped, hstored.stoppedAt_iff, Agrees, hself]
  · rw [if_neg hself]
    refine (runs_emitStoreNextPcImm (fallTarget em fall fallPc) (hfit.fallTarget fall)).mono ?_
    rintro - - ⟨τ, w⟩ ⟨rfl, hstored⟩
    simp [Stopped, hstored.stoppedAt_iff, Agrees, hself]

theorem stops_jump {target : X.Reg} (hfit : PcsFit X em.inputs fallPc)
    (h : (machine env).Runs (emitTerminator em fallPc (.jump target)) e (σ, none) fun _ _ =>
      Onward fallPc next σ') :
    (machine env).Runs (emitSuspend em fallPc currentPc (.jump target)) e' (σ, none) fun _ _ =>
      Stopped em fallPc currentPc (.jump target) next σ' := by
  simp only [emitTerminator, jumpLabel] at h
  split at h
  case isFalse => simp [nextPc, Onward] at h
  case isTrue hvalid =>
    obtain ⟨rfl, rfl⟩ : σ = σ' ∧ resolved em target = next := by simpa [nextPc, Onward] using h
    rw [emitSuspend, if_pos hvalid, runs_bind]
    refine (runs_emitStoreNextPcImm (resolved em target) (hfit.resolved target)).mono ?_
    rintro - - ⟨τ, w⟩ ⟨rfl, hstored⟩
    simp [Stopped, hstored.stoppedAt_iff, Agrees]

theorem stops_jumpDyn {addr : Expr X} {targets : Option (List X.Reg)}
    (hwarm : addr.isWarm em.isHot = true)
    (h : (machine env).Runs (emitTerminator em fallPc (.jumpDyn addr targets)) e (σ, none)
      fun _ _ => Onward fallPc next σ') :
    (machine env).Runs (emitSuspend em fallPc currentPc (.jumpDyn addr targets)) e' (σ, none)
      fun _ _ => Stopped em fallPc currentPc (.jumpDyn addr targets) next σ' := by
  obtain ⟨base, run, -, hruns⟩ := Straight.runs_bind (@steady_emitExprAsAddr X env em addr hwarm)
  obtain ⟨σ₁, hrun, hrest⟩ := (hruns _ _ _ _).1 h
  obtain ⟨henc, ⟨σ₂, w⟩, hstep, hjump⟩ := runs_ins.1 (runs_bind.1 hrest)
  obtain rfl : none = w := by cases hstep; rfl
  obtain ⟨rfl, rfl⟩ : σ₂ = σ' ∧ σ₂.regs .rax = next := by simpa [nextPc, Onward] using hjump
  refine (hruns _ _ _ _).2 ⟨σ₁, hrun, runs_bind.2 (runs_ins.2 ⟨henc, _, hstep, runs_bind.2 ?_⟩)⟩
  refine runs_storePc.mono ?_
  rintro - - ⟨τ, w⟩ ⟨rfl, hstored⟩
  simp [Stopped, hstored.stoppedAt_iff, Agrees]

/-- A branch that goes on does so at its target or its fall-through. -/
theorem branch_of_runs (taken : Bool) {targetPc : U64}
    (h : (machine env).Runs (emitFall em fall fallPc) e
      (σ, if taken then some (jumpLabel em targetPc) else none) fun _ _ =>
        Onward fallPc next σ') :
    σ' = σ ∧ next = if taken then targetPc else fallTarget em fall fallPc := by
  cases taken with
  | false =>
    obtain ⟨hσ, -, hnext⟩ := fall_of_runs h
    exact ⟨hσ, hnext⟩
  | true =>
    -- control passes over the fall-through
    have hlast : σ = σ' ∧ nextPc fallPc (some (jumpLabel em targetPc)) = some next := by
      unfold emitFall Onward at h
      split at h
      · simpa using h
      · split at h
        · simpa using h
        · simpa using h
    obtain ⟨rfl, hnext⟩ := hlast
    unfold jumpLabel at hnext
    split at hnext
    · cases hnext
      exact ⟨rfl, rfl⟩
    · cases hnext

theorem stops_branch {cond : Expr X} {target : X.Reg} {hint : BranchHint}
    (hwarm : cond.isWarm em.isHot = true) (hfit : PcsFit X em.inputs fallPc)
    (h : (machine env).Runs (emitTerminator em fallPc (.branch cond target fall hint)) e (σ, none)
      fun _ _ => Onward fallPc next σ') :
    (machine env).Runs (emitSuspend em fallPc currentPc (.branch cond target fall hint)) e'
      (σ, none) fun _ _ =>
        Stopped em fallPc currentPc (.branch cond target fall hint) next σ' := by
  obtain ⟨condReg, run, -, hruns⟩ :=
    Straight.runs_bind (@steady_emitExpr X env em cond hwarm (temp1 X))
  obtain ⟨σ₁, hrun, hrest⟩ := (hruns _ _ _ _).1 h
  obtain ⟨henc, ⟨σ₂, w⟩, htest, hjump⟩ := runs_ins.1 (runs_bind.1 hrest)
  obtain rfl : none = w := by cases htest; rfl
  obtain ⟨-, ⟨σ₃, w⟩, hjcc, hfall⟩ := runs_ins.1 (runs_bind.1 hjump)
  obtain ⟨flags, hflags, hw⟩ := Option.bind_eq_some_iff.1 hjcc
  cases hw
  obtain ⟨rfl, hnext⟩ := branch_of_runs _ hfall
  rw [emitSuspend]
  by_cases hinvalid : fallInvalid em fall = true
  · simp [Stopped, hinvalid, Agrees]
  by_cases hvalid : em.inputs.isValidAddress (resolved em target) = true
  · rw [if_neg hinvalid, if_pos hvalid, runs_bind, runs_nextLabel, runs_bind, runs_nextLabel]
    -- this copy of the condition leaves the same flags
    refine (hruns _ _ _ _).2 ⟨σ₁, hrun, runs_bind.2 (runs_ins.2 ⟨henc, _, htest, ?_⟩)⟩
    refine runs_bind.2 (runs_ins.2 ⟨rfl, (σ', _), by rw [step, hflags]; rfl, ?_⟩)
    refine (Straight.runs_either (steady_emitStoreNextPcImm env _) (steady_emitStoreNextPcImm env _)
      (fun _ => rfl) (fun _ _ => rfl)
      (fun _ => runs_emitStoreNextPcImm (fallTarget em fall fallPc) (hfit.fallTarget fall))
      (fun _ => runs_emitStoreNextPcImm (resolved em target) (hfit.resolved target)) (by simp)
      _).mono ?_
    rintro - - ⟨τ, w⟩ ⟨rfl, hstores⟩
    have hstored : Stored X next σ' τ := by
      rw [hnext]
      split_ifs at hstores ⊢ <;> exact hstores
    simp [Stopped, hstored.stoppedAt_iff, Agrees, hinvalid, hvalid]
  · simp [Stopped, hvalid, hinvalid, Agrees]

/-- The code that suspends, next to a terminator that goes on. -/
theorem stops_of_runs (hwarm : term.isWarm em.isHot = true) (hfit : PcsFit X em.inputs fallPc)
    (h : (machine env).Runs (emitTerminator em fallPc term) e (σ, none) fun _ _ =>
      Onward fallPc next σ') :
    (machine env).Runs (emitSuspend em fallPc currentPc term) e' (σ, none) fun _ _ =>
      Stopped em fallPc currentPc term next σ' := by
  cases term with
  | fall target => exact stops_fall hfit h
  | jump target => exact stops_jump hfit h
  | jumpDyn addr targets => exact stops_jumpDyn hwarm h
  | branch cond target fall hint => exact stops_branch (isWarm_of_branch hwarm) hfit h
  | exit code =>
    -- the terminator leaves for the epilogue itself
    obtain ⟨codeReg, run, -, hruns⟩ :=
      Straight.runs_bind (@steady_emitExpr X env em code hwarm (temp1 X))
    obtain ⟨σ₁, -, hrest⟩ := (hruns _ _ _ _).1 h
    simp [storeField, nextPc, Onward] at hrest
  | trap msg => simp [emitTerminator, nextPc, Onward] at h

end Suspension

/-! ## Lists of instructions -/

section Instructions

variable (env : Env) (em : Emitter) (before : List (InstrIR X)) (instr : InstrIR X)
  (rest : List (InstrIR X)) (e : St)

/-- The part of `emit_instructions` in front of an instruction of the list. -/
def emitBefore : List (InstrIR X) → Em Unit
  | [] => when (Xlen.toU64 instr.pc ∈ em.labelPcs) (emitPcLabel (Xlen.toU64 instr.pc))
  | i :: is => do
    when (Xlen.toU64 i.pc ∈ em.labelPcs) (emitPcLabel (Xlen.toU64 i.pc))
    emitInstruction em i (followingPc i (is ++ [instr]))
    emitBefore is

/-- The part of `emit_instructions` up to the end of an instruction of the list. -/
def emitThrough : Em Unit := do
  emitBefore em instr before
  emitInstruction em instr (followingPc instr rest)

theorem followingPc_append (i : InstrIR X) (is : List (InstrIR X)) :
    followingPc i (is ++ instr :: rest) = followingPc i (is ++ [instr]) := by
  cases is <;> rfl

/-- The text of a list is that part and the text of what follows. -/
theorem code_emitInstructions :
    (emitInstructions em (before ++ instr :: rest)).code e =
      (emitThrough em before instr rest).code e ++
        (emitInstructions em rest).code (emitThrough em before instr rest e).st := by
  induction before generalizing e with
  | nil => simp [emitInstructions, emitThrough, emitBefore, code_bind]
  | cons i is ih =>
    have hfollow := followingPc_append instr rest i is
    simp [emitInstructions, emitThrough, emitBefore, code_bind, hfollow, ih]

/-- A pass over a list of instructions that comes to the check of one of them in `σ` and, where the
check does not suspend, goes on at `next` in `σ'`. -/
def Continues (c : State × Option Label) (σ σ' : State) (next : U64) : Prop :=
  ∃ wanted, (guarded em e (emitBefore em instr before) instr (followingPc instr rest)).GoesOn
    (machine env) c σ σ' wanted ∧ nextPc (followingPc instr rest) wanted = some next

/-- The pass leaves that instruction for the epilogue with the next pc in the state and all else as
in `σ'`. -/
def Suspended (c : State × Option Label) (σ' : State) (next : U64) : Prop :=
  ∃ τ, (machine env).exec ((emitThrough em before instr rest).code e) c = some (τ, some .exit) ∧
    StoppedAt X em next σ' τ

/-- A pass is suspended with the state of the pass that goes on exactly where the code that suspends
agrees with the terminator. -/
theorem suspended_iff (hmode : em.instretMode.suspends = true) {c : State × Option Label}
    {σ σ' : State} {next : U64} (hwarm : instr.terminator.isWarm em.isHot = true)
    (hfit : PcsFit X em.inputs (followingPc instr rest))
    (hcont : Continues env em before instr rest e c σ σ' next)
    (hlimit : σ.field .targetInstret ≤ σ.regs .r10) :
    Suspended env em before instr rest e c σ' next ↔
      Agrees em (followingPc instr rest) (Xlen.toU64 instr.pc) instr.terminator := by
  obtain ⟨wanted, hgoes, hnext⟩ := hcont
  have hterm := hgoes.rest fun hl => defines_emitSuspend hwarm _ _ hl rfl
  obtain ⟨⟨τ, w⟩, hsuspend, hleaves, hiff⟩ :=
    stops_of_runs hwarm hfit ⟨_, hterm, rfl, hnext⟩
  -- control leaves for the epilogue or the trap handler
  obtain ⟨x, rfl, hx⟩ : ∃ x, w = some x ∧ (x = .exit ∨ x = .trap) := by
    rcases hleaves with h | h
    · exact ⟨_, h, .inl rfl⟩
    · exact ⟨_, h, .inr rfl⟩
  have hne : x ≠
      (guarded em e (emitBefore em instr before) instr (followingPc instr rest)).onward := by
    rcases hx with rfl | rfl <;> simp [guarded, continueLabel]
  have hcheck := exec_guarded em _ e hmode env _ instr hgoes.body
  rw [if_neg (not_lt.2 hlimit)] at hcheck
  have hrun := hcheck.trans
    (hgoes.leave hsuspend hne fun hl => defines_emitTerminator hwarm _ hl)
  rw [Suspended, emitThrough, hrun, ← hiff]
  constructor
  · rintro ⟨τ', hτ', hstop⟩
    cases hτ'
    exact ⟨rfl, hstop⟩
  · rintro ⟨hx, hstop⟩
    cases hx
    exact ⟨τ, rfl, hstop⟩

end Instructions

end X64

end Rvr
