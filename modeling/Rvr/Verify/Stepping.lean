import Rvr.Verify.Retire
import Rvr.Verify.Tables

/-!
# Stepping one instruction at a time

With `InstretMode::PerInstruction` every instruction is a function of its own that suspends as soon
as the limit is reached, so the host can step the guest.  The blocks are rebuilt for this mode, but
the map of absorbed addresses and the inlined branches are still those of the optimised block table.
A run that meets neither executes the instructions of the architecture, as many as were asked for
(`stepping_of_runOk`); a static jump to an absorbed address goes somewhere else
(`stepping_absorbed_jump`).
-/

namespace Rvr

open BlockTable Xlen CStmt InstructionTable

variable {X : Xlen} {rt : Runtime X}

/-! ## One function for each instruction -/

section SingleBlocks

variable {handler : DecodedInstr X → InstrIR X} {table : BlockTable X}

variable {d : DecodedInstr X}

theorem lift_pc (hhandler : IsHandler handler) (hstd : d.opid.isStandard = true) :
    ((ExtensionRegistry.standardWith X handler).lift d).pc = d.pc := by
  by_cases hecall : d.opid = .i .ecall
  · rw [standard_lift_ecall handler hecall]
    obtain rfl | ⟨t, rfl⟩ := hhandler <;> rfl
  · rw [standard_lift handler hstd hecall]
    rfl

/-- The instruction in a slot is lifted for the address of the slot. -/
theorem toU64_lift_pc (hhandler : IsHandler handler) {t : InstructionTable X}
    (htable : t.DecodedBy (.standardWith X handler)) {index : ℕ} (h : t.get index = some d) :
    toU64 ((ExtensionRegistry.standardWith X handler).lift d).pc = t.slotAddr index := by
  obtain ⟨bytes, pc, hdecode, haddr⟩ := htable index d h
  have hpc : d.pc = pc := by
    rcases standard_decode_at hdecode with hat | hat <;> exact hat.1
  rw [lift_pc hhandler (isStandard_of_decode hdecode), hpc, haddr]

/-- Every instruction has a block under its address. -/
theorem lookup_liftToIrAsSingleBlocks (hhandler : IsHandler handler)
    (htable : table.instructionTable.DecodedBy (.standardWith X handler)) {pc : U64}
    (h : table.instructionTable.getAtPc pc = some d) :
    (table.liftToIrAsSingleBlocks (.standardWith X handler)).lookup pc
      = some (singleBlock ((ExtensionRegistry.standardWith X handler).lift d)) := by
  obtain ⟨index, hget, rfl⟩ := exists_slot_of_getAtPc h
  let registry := ExtensionRegistry.standardWith X handler
  rw [← toU64_lift_pc hhandler htable hget]
  refine AssocMap.lookup_foldl_insert (fun e => toU64 (registry.lift e).pc)
    (fun e => singleBlock (registry.lift e)) ∅
    (mem_filterMap_slots.2 ⟨index, hget⟩) fun e he hkey => ?_
  obtain ⟨index', hget'⟩ := mem_filterMap_slots.1 he
  rw [toU64_lift_pc hhandler htable hget, toU64_lift_pc hhandler htable hget'] at hkey
  have hindex := slotAddr_inj (get_lt hget')
    (get_lt hget) hkey
  rw [hindex, hget] at hget'
  cases hget'
  rfl

/-- The functions are found by their names. -/
theorem blockMap_liftToIrAsSingleBlocks (registry : ExtensionRegistry X) (pc : U64) :
    blockMap (table.liftToIrAsSingleBlocks registry) pc
      = (table.liftToIrAsSingleBlocks registry).lookup pc := by
  refine AssocMap.find?_values (fun k block hblock => ?_) pc
  obtain hempty | ⟨d, -, hkey, rfl⟩ := AssocMap.exists_of_lookup_foldl_insert _ _ hblock
  · cases hempty
  · exact hkey

end SingleBlocks

/-! ## Terminators -/

/-- Whether a terminator looks its target up at run time. -/
def Terminator.isDynamic : Terminator X → Bool
  | .jumpDyn _ _ => true
  | _ => false

def Terminator.isBranch : Terminator X → Bool
  | .branch _ _ _ _ => true
  | _ => false

/-- How the emitted text of a terminator goes to an address. -/
def Terminator.leaveTo (term : Terminator X) (pc : X.Reg) : CLeave X :=
  if term.isDynamic then .dispatch pc else .call (toU64 pc)

/-- The address that a terminator goes to is called as it is: a branch goes to an address with code,
and a static transfer below the limit also to one that has not been absorbed. -/
structure LinkOk (inputs : EmitInputs) (term : Terminator X) (below : Prop) (pc : X.Reg) :
    Prop where
  branch : term.isBranch → inputs.isValidAddress (toU64 pc)
  valid : below → term.isDynamic = false → inputs.isValidAddress (toU64 pc)
  resolved : below → term.isDynamic = false →
    inputs.resolveAddress (toU64 pc) = toU64 pc

theorem CTarget.eval_const_toU64 (st : CState X) (pc : X.Reg) :
    (CTarget.const (toU64 pc)).eval rt st = pc := fromU64_toU64 pc

variable {leave : CLeave X}

namespace CEmitter

variable {em : CEmitter X} (hmode : em.config.instretMode = .perInstruction) {st : CState X}

include hmode

theorem execAll_check (target : CTarget X) (st : CState X) :
    execAll rt (em.renderInstretCheck target) st
      = if st.targetInstret ≤ st.guest.instret
        then (st.leaveAt st.guest (target.eval rt st), some .ret) else (st, none) := by
  have hsuspends : em.config.instretMode.suspends = true := by rw [hmode]; rfl
  rw [execAll_renderInstretCheck]
  simp only [hsuspends, true_and]

/-- What text does that returns at the limit and goes on to an address below it. -/
def GoesTo (rt : Runtime X) (st : CState X) (pc : X.Reg) (leave : CLeave X)
    (body : List (CStmt X)) : Prop :=
  execAll rt body st
    = if st.targetInstret ≤ st.guest.instret then (st.leaveAt st.guest pc, some .ret)
      else (st, some leave)

theorem goesTo_check {target : CTarget X} {pc : X.Reg} (htarget : target.eval rt st = pc)
    {rest : List (CStmt X)}
    (hrest : ¬ st.targetInstret ≤ st.guest.instret → execAll rt rest st = (st, some leave)) :
    GoesTo rt st pc leave (em.renderInstretCheck target ++ rest) := by
  have hcheck : execAll rt (em.renderInstretCheck target) st = _ :=
    execAll_check hmode target st
  rw [htarget] at hcheck
  unfold GoesTo
  by_cases hlimit : st.targetInstret ≤ st.guest.instret
  · rw [if_pos hlimit] at hcheck ⊢
    exact execAll_append_of_some hcheck
  · rw [if_neg hlimit] at hcheck ⊢
    rw [execAll_append_of_none hcheck, hrest hlimit]

theorem goesTo_renderJumpStatic {pc : X.Reg}
    (hvalid : ¬ st.targetInstret ≤ st.guest.instret → em.inputs.isValidAddress (toU64 pc))
    (hresolved : ¬ st.targetInstret ≤ st.guest.instret →
      em.inputs.resolveAddress (toU64 pc) = toU64 pc) :
    GoesTo rt st pc (.call (toU64 pc)) (em.renderJumpStatic (toU64 pc)) := by
  refine goesTo_check hmode (CTarget.eval_const_toU64 st pc) fun hlimit => ?_
  rw [if_pos (hvalid hlimit), hresolved hlimit]
  rfl

theorem goesTo_renderBranchTarget {pc : X.Reg} (hvalid : em.inputs.isValidAddress (toU64 pc))
    (hresolved : ¬ st.targetInstret ≤ st.guest.instret →
      em.inputs.resolveAddress (toU64 pc) = toU64 pc) :
    GoesTo rt st pc (.call (toU64 pc)) (em.renderBranchTarget (toU64 pc)) := by
  unfold renderBranchTarget
  rw [if_pos hvalid]
  refine goesTo_check hmode (CTarget.eval_const_toU64 st pc) fun hlimit => ?_
  rw [hresolved hlimit]
  rfl

omit hmode in
theorem execAll_renderTraceBranch (em : CEmitter X) (hook : String) (target : U64) (st : CState X) :
    execAll rt (em.renderTraceBranch hook target) st = (st, none) := by
  unfold renderTraceBranch
  split_ifs <;> rfl

/-- A branch goes to the side that its condition selects. -/
theorem goesTo_renderBranch {cond : Expr X} {target fallPc pc : X.Reg}
    (hpc : pc = if cond.eval rt st.guest = 0 then fallPc else target)
    (hvalid : em.inputs.isValidAddress (toU64 pc))
    (hresolved : ¬ st.targetInstret ≤ st.guest.instret →
      em.inputs.resolveAddress (toU64 pc) = toU64 pc) :
    GoesTo rt st pc (.call (toU64 pc))
      (em.renderBranch cond (toU64 target) (toU64 fallPc)) := by
  have hgoes : GoesTo rt st pc (.call (toU64 pc)) (em.renderBranchTarget (toU64 pc)) :=
    goesTo_renderBranchTarget hmode hvalid hresolved
  unfold renderBranch GoesTo
  rw [List.append_assoc]
  by_cases hcond : cond.eval rt st.guest = 0
  · rw [if_pos hcond] at hpc
    subst hpc
    have hskip : execAll rt [.ite (.expr cond)
        (em.renderTraceBranch "trace_branch_taken" (toU64 target) ++
          em.renderBranchTarget (toU64 target)) []] st = (st, none) := by
      rw [execAll_ite, if_neg (by simp [CCond.holds, hcond]), execAll_nil]
    rw [execAll_append_of_none hskip,
      execAll_append_of_none (execAll_renderTraceBranch em _ _ st)]
    exact hgoes
  · rw [if_neg hcond] at hpc
    subst hpc
    have hholds : (CCond.expr cond).holds rt st = true := decide_eq_true hcond
    have htaken : execAll rt [.ite (.expr cond)
        (em.renderTraceBranch "trace_branch_taken" (toU64 pc) ++
          em.renderBranchTarget (toU64 pc)) []] st
        = execAll rt (em.renderBranchTarget (toU64 pc)) st := by
      rw [execAll_ite, if_pos hholds,
        execAll_append_of_none (execAll_renderTraceBranch em _ _ st)]
    rw [hgoes] at htaken
    split_ifs at htaken ⊢
    · exact execAll_append_of_some htaken
    · exact execAll_append_of_some htaken

/-- The text of a terminator does what the terminator says. -/
theorem execAll_renderTerminator {nextPc : X.Reg} {term : Terminator X}
    (hterm : term.Within Expr.Plain) (hlink : ∀ pc, term.control rt st.guest nextPc = .goto pc →
      LinkOk em.inputs term (¬ st.targetInstret ≤ st.guest.instret) pc) :
    (∀ pc, term.control rt st.guest nextPc = .goto pc →
      GoesTo rt st pc (term.leaveTo pc) (em.renderTerminator false (toU64 nextPc) term)) ∧
    ∀ code, term.control rt st.guest nextPc = .exit code →
      execAll rt (em.renderTerminator false (toU64 nextPc) term) st
        = (st.leaveAt { st.guest with hasExited := 1, exitCode := code } em.current.pc,
            some .ret) := by
  have hcounts : em.config.instretMode.counts = true := by rw [hmode]; rfl
  have hcurrent : X.fromU64 em.currentPc = em.current.pc := fromU64_toU64 _
  cases term with
  | fall target =>
    refine ⟨fun pc hpc => ?_, fun code hcode => by cases hcode⟩
    cases hpc
    have haddr : (target.map toU64).getD (toU64 nextPc)
        = toU64 (target.getD nextPc) := by cases target <;> rfl
    rw [renderTerminator, haddr]
    exact goesTo_renderJumpStatic hmode (fun h => (hlink _ rfl).valid h rfl)
      fun h => (hlink _ rfl).resolved h rfl
  | jump target =>
    refine ⟨fun pc hpc => ?_, fun code hcode => by cases hcode⟩
    cases hpc
    exact goesTo_renderJumpStatic hmode (fun h => (hlink _ rfl).valid h rfl)
      fun h => (hlink _ rfl).resolved h rfl
  | jumpDyn addr resolved =>
    refine ⟨fun pc hpc => ?_, fun code hcode => by cases hcode⟩
    cases hpc
    obtain ⟨-, rfl⟩ := hterm
    exact goesTo_check hmode rfl fun _ => rfl
  | branch cond target fall hint =>
    have hcontrol : (Terminator.branch cond target fall hint).control rt st.guest nextPc
        = .goto (if cond.eval rt st.guest = 0 then fall.getD nextPc else target) := by
      rw [Terminator.control]
      split_ifs <;> rfl
    refine ⟨fun pc hpc => ?_, fun code hcode => by rw [hcontrol] at hcode; cases hcode⟩
    have hok := hlink pc hpc
    rw [hcontrol] at hpc
    have haddr : (fall.map toU64).getD (toU64 nextPc)
        = toU64 (fall.getD nextPc) := by cases fall <;> rfl
    rw [renderTerminator, haddr]
    exact goesTo_renderBranch hmode (Control.goto.inj hpc).symm (hok.branch rfl)
      fun h => hok.resolved h rfl
  | exit code =>
    refine ⟨fun pc hpc => (by cases hpc), fun value hvalue => ?_⟩
    cases hvalue
    have hcode : code.eval rt { st.guest with hasExited := 1 } = code.eval rt st.guest := by
      obtain ⟨v, rfl⟩ | ⟨idx, rfl⟩ := hterm.2 <;> rfl
    refine (execAll_renderExitAt hcounts hcode em.currentPc).trans ?_
    rw [hcurrent]
  | trap message =>
    refine ⟨fun pc hpc => (by cases hpc), fun value hvalue => ?_⟩
    cases hvalue
    have hcode : (trapCode : Expr X).eval rt { st.guest with hasExited := 1 } = X.fromU64 1 := rfl
    have hvalue : (X.fromU64 1).setWidth 8 = 1 := by cases X <;> rfl
    refine (execAll_renderExitAt hcounts hcode em.currentPc).trans ?_
    rw [hcurrent, hvalue]

end CEmitter

/-! ## Functions of one instruction -/

/-- What the function of an instruction leaves behind, by how the instruction ends. -/
def Retired.outcome (st : CState X) (ir : InstrIR X) : Retired X → CState X × Option (CLeave X)
  | .exited s => (st.enter.leaveAt s ir.pc, some .ret)
  | .goto s pc =>
    if st.targetInstret ≤ s.instret then (st.enter.leaveAt s pc, some .ret)
    else ({ st.enter with guest := s }, some (ir.terminator.leaveTo pc))

/-- The emitted text of an instruction retires it. -/
theorem CEmitter.execAll_renderInstruction {em : CEmitter X}
    (hmode : em.config.instretMode = .perInstruction) {ir : InstrIR X} {st : CState X}
    (hstmts : Stmt.AllPlain ir.statements) (hterm : ir.terminator.Within Expr.Plain)
    (havoid : em.config.htifEnabled → Stmt.AllAvoidTohost rt ir.statements st.guest)
    (hlink : ∀ s pc, ir.retire rt st.guest = .goto s pc →
      LinkOk em.inputs ir.terminator (¬ st.targetInstret ≤ s.instret) pc) :
    execAll rt (em.renderInstruction ir true (toU64 ir.nextPc) none false) st
      = (ir.retire rt st.guest).outcome st ir := by
  let em' : CEmitter X := { em with current := ir }
  have hcounts : em'.config.instretMode.counts = true := by
    rw [hmode]
    rfl
  let st₁ : CState X := st.enter.update (Stmt.execAll rt ir.statements)
  have hbody : execAll rt (em'.renderStmts ir.statements) st.enter = (st₁, none) :=
    em'.execAll_renderStmts hstmts havoid
  rw [renderInstruction_eq]
  by_cases hexit : ir.exits rt st.guest
  · -- the exit check returns
    rw [InstrIR.retire_of_exits hexit]
    refine execAll_append_of_some ?_
    rw [execAll_head, execAll_append_of_none hbody, if_pos hexit.1]
    exact (execAll_renderExitCheck hcounts st₁).trans (if_pos hexit.2)
  · -- the instruction is counted and its terminator runs
    have hhead : execAll rt (em'.head ir) st = (st₁, none) := by
      rw [execAll_head, execAll_append_of_none hbody]
      split_ifs with hwrites
      · exact (execAll_renderExitCheck hcounts st₁).trans (if_neg fun h => hexit ⟨hwrites, h⟩)
      · rfl
    let st₂ : CState X := { st₁ with guest := st₁.guest.count }
    have hper : (em.next ir).config.instretMode = .perInstruction := hmode
    have hend : execAll rt ((em.next ir).renderInstructionEnd true (toU64 ir.nextPc) none
        false) st₁
        = execAll rt ((em.next ir).renderTerminator false (toU64 ir.nextPc) ir.terminator)
          st₂ := by
      unfold renderInstructionEnd
      rw [hper]
      rfl
    rw [execAll_append_of_none hhead, hend]
    have hretire : ir.retire rt st.guest
        = .ofControl st₂.guest (ir.terminator.control rt st₂.guest ir.nextPc) :=
      InstrIR.retire_of_not_exits hexit
    rw [hretire] at hlink ⊢
    obtain ⟨hgoto, hexited⟩ := execAll_renderTerminator hper hterm
      fun pc (hpc : ir.terminator.control rt st₂.guest ir.nextPc = .goto pc) =>
        hlink _ pc (by rw [hpc]; rfl)
    cases hcontrol : ir.terminator.control rt st₂.guest ir.nextPc with
    | goto pc => exact hgoto pc hcontrol
    | exit code => exact hexited code hcontrol

/-! ## The architecture and the host -/

section Runs

variable (rt : Runtime X) (registry : ExtensionRegistry X) (table : BlockTable X)

/-- The instruction at an address. -/
def BlockTable.fetch (pc : X.Reg) : Option (InstrIR X) :=
  (table.instructionTable.getAtPc (toU64 pc)).map registry.lift

/-- The architectural execution of at most `n` instructions: the state that it reaches and the
number of instructions executed, fewer than `n` only if the guest exits. -/
def archRun : ℕ → GuestState X → Option (GuestState X × ℕ)
  | 0, s => some (s, 0)
  | n + 1, s =>
    (table.fetch registry s.pc).bind fun ir =>
      match ir.retire rt s with
      | .exited s' => some (s', 1)
      | .goto s' pc => (archRun n (s'.setPc pc)).map fun (out, k) => (out, k + 1)

/-- A host that calls `rv_execute_from` for one instruction at a time, at most `n` times. -/
def CProgram.singleSteps (program : CProgram X) (fuel : ℕ) : ℕ → GuestState X →
    Option (GuestState X × ℕ)
  | 0, s => some (s, 0)
  | n + 1, s =>
    (program.executeFrom rt fuel s (s.instret + 1) s.pc).bind fun r =>
      if r.state.hasExited ≠ 0 then some (r.state, r.retired)
      else (singleSteps program fuel n r.state).map fun (out, k) => (out, k + r.retired)

/-- What the emitter gets for the single-instruction blocks of a table. -/
def BlockTable.stepProject (config : EmitConfig) (entryPoint : U64) : CProject where
  config := config
  inputs := emitInputs entryPoint (table.liftToIrAsSingleBlocks registry) table.absorbedToMerged
  takenInlines := table.takenInlines

/-! ## Runs that keep clear of the optimised table -/

variable (project : CProject)

/-- The dispatch table sends a pc to the function of the instruction there. -/
def CProject.Dispatches (pc : X.Reg) : Prop :=
  dispatchC project.inputs pc = .reached (.block (toU64 pc))

/-- An instruction whose text does in a state what the instruction does: it is not a branch with an
inlined target, its stores are not calls of the host, and if it branches there is code where it
goes. -/
structure CProject.StepOk (ir : InstrIR X) (s : GuestState X) : Prop where
  dispatches : project.Dispatches s.pc
  notInlined : project.takenInline ir = none
  avoidsTohost : project.config.htifEnabled → Stmt.AllAvoidTohost rt ir.statements s
  branch : ∀ s' pc, ir.retire rt s = .goto s' pc → ir.terminator.isBranch →
    project.inputs.isValidAddress (toU64 pc)

/-- A run of `n` instructions whose steps are all right, and whose static transfers go to addresses
that have not been absorbed. -/
def CProject.RunOk : ℕ → GuestState X → Prop
  | 0, s => ∃ ir, table.fetch registry s.pc = some ir ∧ project.Dispatches s.pc
  | 1, s => ∃ ir, table.fetch registry s.pc = some ir ∧ project.StepOk rt ir s
  | n + 2, s => ∃ ir, table.fetch registry s.pc = some ir ∧ project.StepOk rt ir s ∧
    ∀ s' pc, ir.retire rt s = .goto s' pc →
      (ir.terminator.isDynamic = false →
        project.inputs.resolveAddress (toU64 pc) = toU64 pc) ∧
      RunOk (n + 1) (s'.setPc pc)

end Runs

/-! ## Running functions of one instruction -/

section Stepping

variable {config : EmitConfig} {entryPoint : U64} {handler : DecodedInstr X → InstrIR X}
  {table : BlockTable X} {n : ℕ} {s : GuestState X} {ir : InstrIR X}

variable {registry : ExtensionRegistry X}

theorem BlockTable.fetch_eq_some {pc : X.Reg} (h : table.fetch registry pc = some ir) :
    ∃ d, table.instructionTable.getAtPc (toU64 pc) = some d ∧ registry.lift d = ir :=
  Option.map_eq_some_iff.1 h

section Fetched

variable (hhandler : IsHandler handler)
  (htable : table.instructionTable.DecodedBy (.standardWith X handler)) {pc : X.Reg}
  (hfetch : table.fetch (.standardWith X handler) pc = some ir)

include hhandler htable hfetch

/-- An instruction that is fetched is at its address and plain. -/
theorem fetched : ir.pc = pc ∧ Stmt.AllPlain ir.statements ∧ ir.terminator.Within Expr.Plain := by
  obtain ⟨d, hget, rfl⟩ := BlockTable.fetch_eq_some hfetch
  obtain ⟨index, hindex, haddr⟩ := exists_slot_of_getAtPc hget
  obtain ⟨bytes, pc', hdecode, -⟩ := htable index d hindex
  refine ⟨toU64_inj.1 ?_, plain_lift hhandler (isStandard_of_decode hdecode)⟩
  rw [toU64_lift_pc hhandler htable hindex, haddr]

theorem lookup_of_fetched :
    (table.liftToIrAsSingleBlocks (.standardWith X handler)).lookup (toU64 pc)
      = some (singleBlock ir) := by
  obtain ⟨d, hget, rfl⟩ := BlockTable.fetch_eq_some hfetch
  exact lookup_liftToIrAsSingleBlocks hhandler htable hget

theorem isValidAddress_of_fetched (config : EmitConfig) (entryPoint : U64) :
    (table.stepProject (.standardWith X handler) config entryPoint).inputs.isValidAddress
      (toU64 pc) = true := by
  have hmem : toU64 pc ∈ table.liftToIrAsSingleBlocks (.standardWith X handler) :=
    AList.lookup_isSome.1 (by rw [lookup_of_fetched hhandler htable hfetch]; rfl)
  exact decide_eq_true (.inl (List.mem_toFinset.2 hmem))

theorem functions_of_fetched (entryPoint : U64) (hmode : config.instretMode = .perInstruction) :
    ∃ blocks, (compileC config entryPoint (.standardWith X handler) table).functions (toU64 pc)
      = some ((table.stepProject (.standardWith X handler) config entryPoint).blockFunction blocks
          (singleBlock ir)) := by
  have hper : config.instretMode.isPerInstruction = true := by rw [hmode]; rfl
  refine ⟨blockMap (table.liftToIrAsSingleBlocks (.standardWith X handler)), ?_⟩
  unfold compileC
  rw [if_pos hper]
  change (blockMap _ _).map _ = _
  rw [blockMap_liftToIrAsSingleBlocks, lookup_of_fetched hhandler htable hfetch]
  rfl

end Fetched

section Run

variable (hmode : config.instretMode = .perInstruction) (hhandler : IsHandler handler)
  (htable : table.instructionTable.DecodedBy (.standardWith X handler)) (hrt : rt.IgnoresPc)

/-- A state of the emitted code that stands for a state of the architecture: everything but the pc
agrees, and the next function is that of the instruction at the pc. -/
structure StandsFor (program : CProgram X) (leave : CLeave X) (st : CState X) (s : GuestState X) :
    Prop where
  guest : st.guest.setPc s.pc = s
  target : program.target leave = program.functions (toU64 s.pc)
  calls : leave ≠ .ret

variable {program : CProgram X} {st : CState X}

variable (h : StandsFor program leave st s)
include h

theorem StandsFor.instret : st.guest.instret = s.instret := by
  have hguest : (st.guest.setPc s.pc).instret = s.instret := congrArg GuestState.instret h.guest
  exact hguest

theorem StandsFor.hasExited : st.guest.hasExited = s.hasExited := by
  have hguest : (st.guest.setPc s.pc).hasExited = s.hasExited :=
    congrArg GuestState.hasExited h.guest
  exact hguest

/-- A step that goes on counts one instruction, and below a limit the counter does not wrap. -/
theorem StandsFor.toNat_instret_goto {g : GuestState X} {pc : X.Reg}
    (hretire : ir.retire rt st.guest = .goto g pc)
    (hlimit : st.targetInstret.toNat = s.instret.toNat + (n + 1)) :
    g.instret.toNat = s.instret.toNat + 1 ∧ (s.hasExited = 0 → g.hasExited = 0) := by
  obtain ⟨hcount, hgoes⟩ := InstrIR.retire_goto hretire
  refine ⟨?_, fun hs => hgoes (h.hasExited.trans hs)⟩
  rw [hcount, h.instret, BitVec.toNat_add, show (1 : BitVec 64).toNat = 1 from rfl,
    Nat.mod_eq_of_lt (by omega)]

omit h

theorem compileC_inputs (hmode : config.instretMode = .perInstruction) :
    (compileC config entryPoint registry table).inputs
      = (table.stepProject registry config entryPoint).inputs := by
  have hper : config.instretMode.isPerInstruction = true := by rw [hmode]; rfl
  unfold compileC
  rw [if_pos hper]
  rfl

theorem CProgram.run_succ (hcalls : leave ≠ .ret)
    {body : List (CStmt X)} (hbody : program.target leave = some body) (fuel : ℕ) (st : CState X) :
    program.run rt (fuel + 1) leave st
      = program.run rt fuel (runFunction rt body st).2 (runFunction rt body st).1 := by
  cases leave with
  | ret => exact absurd rfl hcalls
  | call start | dispatch target =>
    rw [CProgram.run, hbody]
    · rfl
    · exact hcalls

variable (fuel : ℕ)

theorem CProgram.run_ret (st : CState X) :
    program.run rt fuel .ret st = some st := by
  cases fuel <;> rfl

theorem CProgram.target_dispatch {pc : X.Reg} {start : U64}
    (h : dispatchC program.inputs pc = .reached (.block start)) :
    program.target (.dispatch pc) = program.functions start := by
  rw [CProgram.target, h]

/-- Control goes on to the function of the next instruction. -/
theorem StandsFor.next {program : CProgram X} {term : Terminator X} {st : CState X}
    {pc : X.Reg} (hdispatch : dispatchC program.inputs pc = .reached (.block (toU64 pc))) :
    StandsFor program (term.leaveTo pc) st (st.guest.setPc pc) where
  guest := rfl
  target := by
    unfold Terminator.leaveTo
    split_ifs
    · exact CProgram.target_dispatch hdispatch
    · rfl
  calls := by
    unfold Terminator.leaveTo
    split_ifs <;> nofun

include hmode hhandler htable hrt

/-- The function of an instruction retires the instruction at the pc, if the limit has not been
reached. -/
theorem runFunction_step {blocks : U64 → Option (BlockIR X)}
    (hfetch : table.fetch (.standardWith X handler) s.pc = some ir)
    (hguest : st.guest.setPc s.pc = s)
    (hok : (table.stepProject (.standardWith X handler) config entryPoint).StepOk rt ir s)
    (hlimit : ¬ st.targetInstret ≤ st.guest.instret)
    (hlink : ∀ s' pc, ir.retire rt s = .goto s' pc → ¬ st.targetInstret ≤ s'.instret →
      (table.fetch (.standardWith X handler) pc).isSome ∧ (ir.terminator.isDynamic = false →
        (table.stepProject (.standardWith X handler) config entryPoint).inputs.resolveAddress
          (toU64 pc) = toU64 pc)) :
    execAll rt ((table.stepProject (.standardWith X handler) config entryPoint).blockFunction
      blocks (singleBlock ir)) st = (ir.retire rt st.guest).outcome st ir := by
  let project := table.stepProject (.standardWith X handler) config entryPoint
  obtain ⟨-, hstmts, hterm⟩ := fetched hhandler htable hfetch
  have hretire : ir.retire rt s = (ir.retire rt st.guest).setPc s.pc := by
    rw [← InstrIR.retire_setPc hrt hstmts hterm, hguest]
  rw [project.execAll_blockFunction fun h => hlimit h.2]
  change execAll rt (List.flatten [project.renderLast blocks (toU64 ir.nextPc)
    (.new config project.inputs) ir]) st = _
  rw [List.flatten_singleton, CProject.renderLast, hok.notInlined]
  refine CEmitter.execAll_renderInstruction hmode hstmts hterm (fun hhtif => ?_) fun g pc hg => ?_
  · have havoid := hok.avoidsTohost hhtif
    rw [← hguest] at havoid
    exact Stmt.allAvoidTohost_setPc hrt hstmts havoid
  · rw [hg] at hretire
    refine ⟨hok.branch _ pc hretire, fun hbelow _ => ?_, fun hbelow hstatic => ?_⟩
    · obtain ⟨next, hnext⟩ := Option.isSome_iff_exists.1 (hlink _ pc hretire hbelow).1
      exact isValidAddress_of_fetched hhandler htable hnext config entryPoint
    · exact (hlink _ pc hretire hbelow).2 hstatic

omit hmode hhandler htable hrt in
/-- Every state of a run that goes on has an instruction and is dispatched to it. -/
theorem CProject.RunOk.entry {project : CProject} (h : project.RunOk rt registry table n s) :
    ∃ ir, table.fetch registry s.pc = some ir ∧ project.Dispatches s.pc := by
  match n with
  | 0 => exact h
  | 1 =>
    obtain ⟨ir, hfetch, hok⟩ := h
    exact ⟨ir, hfetch, hok.dispatches⟩
  | n + 2 =>
    obtain ⟨ir, hfetch, hok, -⟩ := h
    exact ⟨ir, hfetch, hok.dispatches⟩

/-- How a run of `n` instructions ends: the guest exits early, or `n` instructions are counted. -/
def Finished (n : ℕ) (s out : GuestState X) (k : ℕ) : Prop :=
  out.hasExited ≠ 0 ∧ k ≤ n ∨
    out.hasExited = 0 ∧ k = n ∧ out.instret.toNat = s.instret.toNat + n

/-- The state with which a run of the emitted code ends. -/
def CState.finish (st : CState X) (out : GuestState X) (k : ℕ) : CState X :=
  { st with guest := out, stateInstret := out.instret, retired := st.retired + k }

omit hmode hhandler htable hrt in
theorem CProject.RunOk.step {project : CProject} (h : project.RunOk rt registry table (n + 1) s) :
    ∃ ir, table.fetch registry s.pc = some ir ∧ project.StepOk rt ir s ∧
      ∀ m, n = m + 1 → ∀ s' pc, ir.retire rt s = .goto s' pc →
        (ir.terminator.isDynamic = false →
          project.inputs.resolveAddress (toU64 pc) = toU64 pc) ∧
        project.RunOk rt registry table n (s'.setPc pc) := by
  cases n with
  | zero =>
    obtain ⟨ir, hfetch, hok⟩ := h
    exact ⟨ir, hfetch, hok, nofun⟩
  | succ m =>
    obtain ⟨ir, hfetch, hok, hnext⟩ := h
    exact ⟨ir, hfetch, hok, fun _ _ => hnext⟩

/-- One function runs and passes control on. -/
theorem run_step (hok : (table.stepProject (.standardWith X handler) config entryPoint).RunOk rt
      (.standardWith X handler) table (n + 1) s)
    (hst : StandsFor (compileC config entryPoint (.standardWith X handler) table) leave st s)
    (hlimit : st.targetInstret.toNat = s.instret.toNat + (n + 1)) :
    ∃ ir, table.fetch (.standardWith X handler) s.pc = some ir ∧ ir.pc = s.pc ∧
      ir.retire rt s = (ir.retire rt st.guest).setPc s.pc ∧
      (compileC config entryPoint (.standardWith X handler) table).run rt (fuel + 1) leave st
        = (compileC config entryPoint (.standardWith X handler) table).run rt fuel
            (((ir.retire rt st.guest).outcome st ir).2.getD .ret)
            ((ir.retire rt st.guest).outcome st ir).1 := by
  obtain ⟨ir, hfetch, hstep, hnext⟩ := hok.step
  obtain ⟨hpc, hstmts, hterm⟩ := fetched hhandler htable hfetch
  obtain ⟨blocks, hbody⟩ := functions_of_fetched hhandler htable hfetch entryPoint hmode
  have hinstret := hst.instret
  refine ⟨ir, hfetch, hpc, ?_, ?_⟩
  · rw [← InstrIR.retire_setPc hrt hstmts hterm, hst.guest]
  · rw [CProgram.run_succ hst.calls (hst.target.trans hbody), runFunction,
      runFunction_step hmode hhandler htable hrt hfetch hst.guest hstep]
    · rw [hinstret, BitVec.le_def]
      omega
    · -- below the limit there is a next instruction
      intro s' pc hgoto hbelow
      have hcount := (InstrIR.retire_goto hgoto).1
      have hsucc : ∃ m, n = m + 1 := by
        refine Nat.exists_eq_succ_of_ne_zero fun hn => hbelow ?_
        rw [hcount, BitVec.le_def, BitVec.toNat_add, show (1 : BitVec 64).toNat = 1 from rfl]
        omega
      obtain ⟨m, hm⟩ := hsucc
      obtain ⟨hresolved, hrest⟩ := hnext m hm s' pc hgoto
      obtain ⟨next, hfetched, -⟩ := hrest.entry
      have hpc' : (s'.setPc pc).pc = pc := rfl
      rw [hpc'] at hfetched
      exact ⟨by rw [hfetched]; rfl, hresolved⟩

omit hmode hhandler htable hrt in
theorem archRun_exited {g : GuestState X}
    (hfetch : table.fetch registry s.pc = some ir) (hretire : ir.retire rt s = .exited g) :
    archRun rt registry table (n + 1) s = some (g, 1) := by
  rw [archRun, hfetch, Option.bind_some, hretire]

omit hmode hhandler htable hrt in
theorem archRun_goto {g : GuestState X} {pc : X.Reg}
    (hfetch : table.fetch registry s.pc = some ir) (hretire : ir.retire rt s = .goto g pc) :
    archRun rt registry table (n + 1) s
      = (archRun rt registry table n (g.setPc pc)).map fun (out, k) => (out, k + 1) := by
  rw [archRun, hfetch, Option.bind_some, hretire]

/-- Functions that run until the limit execute the instructions of the architecture.  Induction on
the number of instructions that are left. -/
theorem run_of_runOk (hok : (table.stepProject (.standardWith X handler) config entryPoint).RunOk rt
      (.standardWith X handler) table (n + 1) s)
    (hst : StandsFor (compileC config entryPoint (.standardWith X handler) table) leave st s)
    (hlimit : st.targetInstret.toNat = s.instret.toNat + (n + 1)) (hexited : s.hasExited = 0) :
    ∃ out k, archRun rt (.standardWith X handler) table (n + 1) s = some (out, k) ∧
      (compileC config entryPoint (.standardWith X handler) table).run rt (n + fuel + 1) leave st
        = some (st.finish out k) ∧
      Finished (n + 1) s out k := by
  induction n generalizing s st leave with
  | zero =>
    obtain ⟨ir, hfetch, hpc, hretire, hrun⟩ :=
      run_step hmode hhandler htable hrt (0 + fuel) hok hst hlimit
    cases hr : ir.retire rt st.guest with
    | exited g =>
      rw [hr] at hretire hrun
      refine ⟨g.setPc s.pc, 1, archRun_exited hfetch hretire, ?_,
        .inl ⟨InstrIR.retire_exited hretire, Nat.le_refl 1⟩⟩
      rw [hrun, ← hpc]
      exact CProgram.run_ret _ _
    | goto g pc =>
      -- the limit has been reached
      obtain ⟨hcount, hgoes⟩ := hst.toNat_instret_goto hr hlimit
      have hle : st.targetInstret ≤ g.instret := by
        rw [BitVec.le_def]
        omega
      rw [hr] at hretire hrun
      have hgoto : ir.retire rt s = .goto (g.setPc s.pc) pc := hretire
      refine ⟨g.setPc pc, 1, (archRun_goto hfetch hgoto).trans rfl, ?_,
        .inr ⟨hgoes hexited, rfl, hcount⟩⟩
      rw [hrun, Retired.outcome, if_pos hle]
      exact CProgram.run_ret _ _
  | succ n ih =>
    obtain ⟨ir, hfetch, hpc, hretire, hrun⟩ :=
      run_step hmode hhandler htable hrt (n + 1 + fuel) hok hst hlimit
    cases hr : ir.retire rt st.guest with
    | exited g =>
      rw [hr] at hretire hrun
      refine ⟨g.setPc s.pc, 1, archRun_exited hfetch hretire, ?_,
        .inl ⟨InstrIR.retire_exited hretire, by omega⟩⟩
      rw [hrun, ← hpc]
      exact CProgram.run_ret _ _
    | goto g pc =>
      -- control goes on to the function of the next instruction
      obtain ⟨hcount, hgoes⟩ := hst.toNat_instret_goto hr hlimit
      have hbelow : ¬ st.targetInstret ≤ g.instret := by
        rw [BitVec.le_def]
        omega
      rw [hr] at hretire hrun
      obtain ⟨ir', hfetch', -, hnext⟩ := hok
      obtain rfl : ir' = ir := Option.some.inj (hfetch'.symm.trans hfetch)
      have hrest := (hnext _ pc hretire).2
      obtain ⟨-, -, hdispatch⟩ := hrest.entry
      have hst' : StandsFor (compileC config entryPoint (.standardWith X handler) table)
          (ir'.terminator.leaveTo pc) { st.enter with guest := g } (g.setPc pc) :=
        StandsFor.next (by rw [compileC_inputs hmode]; exact hdispatch)
      have hlimit' : st.targetInstret.toNat = (g.setPc pc).instret.toNat + (n + 1) := by
        change _ = g.instret.toNat + (n + 1)
        omega
      obtain ⟨out, k, harch, hruns, hfinished⟩ := ih hrest hst' hlimit' (hgoes hexited)
      refine ⟨out, k + 1, ?_, ?_, ?_⟩
      · have hgoto : ir'.retire rt s = .goto (g.setPc s.pc) pc := hretire
        rw [archRun_goto hfetch hgoto, harch]
        rfl
      · rw [hrun, Retired.outcome, if_neg hbelow]
        change CProgram.run rt _ (n + 1 + fuel) (ir'.terminator.leaveTo pc) _ = _
        rw [Nat.add_right_comm, hruns]
        simp only [CState.finish, CState.enter, Nat.add_assoc, Nat.add_comm 1 k]
      · rcases hfinished with ⟨hne, hk⟩ | ⟨hzero, hk, hinstret⟩
        · exact .inl ⟨hne, by omega⟩
        · refine .inr ⟨hzero, by omega, ?_⟩
          rw [hinstret]
          change g.instret.toNat + (n + 1) = _
          omega

/-! ## Calls of the host -/

/-- The return code of `rv_execute_from` for a guest that has exited or been suspended. -/
def returnCode (out : GuestState X) : ℕ := if out.hasExited ≠ 0 then 1 else 2

/-- The state with which `rv_execute_from` enters the first function. -/
def CState.start (s : GuestState X) (targetInstret : U64) : CState X :=
  ⟨s, s.instret, targetInstret, 0, 0⟩

omit hmode hhandler htable hrt in
theorem CProgram.executeFrom_of_run {fuel k : ℕ} {targetInstret : U64} {out : GuestState X}
    (hrun : program.run rt fuel (.dispatch s.pc) (.start s targetInstret)
      = some (CState.finish (.start s targetInstret) out k))
    (hlimit : out.hasExited = 0 → targetInstret ≤ out.instret) :
    program.executeFrom rt fuel s targetInstret s.pc = some ⟨out, k, returnCode out⟩ := by
  change (program.run rt fuel (.dispatch s.pc) (.start s targetInstret)).map _ = _
  rw [hrun, Option.map_some]
  simp only [CState.finish, CState.start, Nat.zero_add, returnCode]
  split_ifs with hne hle
  · rfl
  · rfl
  · exact absurd (hlimit (not_not.1 hne)) hle

/-- One call of `rv_execute_from` executes the instructions of the architecture. -/
theorem executeFrom_of_runOk
    (hok : (table.stepProject (.standardWith X handler) config entryPoint).RunOk rt
      (.standardWith X handler) table n s)
    (hexited : s.hasExited = 0) (hlt : s.instret.toNat + n < 2 ^ 64) :
    ∃ out k, archRun rt (.standardWith X handler) table n s = some (out, k) ∧
      (compileC config entryPoint (.standardWith X handler) table).executeFrom rt (n + fuel + 1) s
        (s.instret + BitVec.ofNat 64 n) s.pc = some ⟨out, k, returnCode out⟩ ∧
      Finished n s out k := by
  let program := compileC config entryPoint (.standardWith X handler) table
  let entry : CState X := .start s (s.instret + BitVec.ofNat 64 n)
  obtain ⟨ir, hfetch, hdispatch⟩ := hok.entry
  rw [CProject.Dispatches, ← compileC_inputs hmode] at hdispatch
  have htarget : program.target (.dispatch s.pc) = program.functions (toU64 s.pc) :=
    CProgram.target_dispatch hdispatch
  have hcalls : CLeave.dispatch s.pc ≠ .ret := nofun
  have hlimit : (s.instret + BitVec.ofNat 64 n).toNat = s.instret.toNat + n := by
    rw [BitVec.toNat_add, BitVec.toNat_ofNat, Nat.add_mod_mod, Nat.mod_eq_of_lt hlt]
  have hcode {out : GuestState X} {k : ℕ} (hfinished : Finished n s out k)
      (hzero : out.hasExited = 0) : s.instret + BitVec.ofNat 64 n ≤ out.instret := by
    rcases hfinished with ⟨hne, -⟩ | ⟨-, -, hinstret⟩
    · exact absurd hzero hne
    · rw [BitVec.le_def]
      omega
  cases n with
  | zero =>
    -- the function returns at once
    obtain ⟨blocks, hbody⟩ := functions_of_fetched hhandler htable hfetch entryPoint hmode
    have hsuspends : config.instretMode.suspends = true := by rw [hmode]; rfl
    have hle : entry.targetInstret ≤ s.instret := by
      exact hlimit.le
    have hfinished : Finished 0 s s 0 := .inr ⟨hexited, rfl, rfl⟩
    refine ⟨s, 0, rfl, CProgram.executeFrom_of_run ?_ (hcode hfinished), hfinished⟩
    rw [CProgram.run_succ hcalls (htarget.trans hbody), runFunction,
      CProject.execAll_blockFunction_limit _ ⟨hsuspends, hle⟩]
    refine (CProgram.run_ret _ _).trans ?_
    change some (entry.leaveAt s ir.pc) = _
    rw [(fetched hhandler htable hfetch).1]
    rfl
  | succ n =>
    have hst : StandsFor program (.dispatch s.pc) entry s := ⟨rfl, htarget, hcalls⟩
    obtain ⟨out, k, harch, hrun, hfinished⟩ :=
      run_of_runOk hmode hhandler htable hrt (fuel + 1) hok hst hlimit hexited
    rw [show n + (fuel + 1) + 1 = n + 1 + fuel + 1 by omega] at hrun
    exact ⟨out, k, harch, CProgram.executeFrom_of_run hrun (hcode hfinished), hfinished⟩

/-- Calls for one instruction at a time do the same. -/
theorem singleSteps_of_runOk
    (hok : (table.stepProject (.standardWith X handler) config entryPoint).RunOk rt
      (.standardWith X handler) table n s)
    (hexited : s.hasExited = 0) (hlt : s.instret.toNat + n < 2 ^ 64) :
    (compileC config entryPoint (.standardWith X handler) table).singleSteps rt (fuel + 2) n s
      = archRun rt (.standardWith X handler) table n s := by
  induction n generalizing s with
  | zero => rfl
  | succ n ih =>
    obtain ⟨ir, hfetch, hstep, hnext⟩ := hok.step
    obtain ⟨out, k, harch, hexec, hfinished⟩ :=
      executeFrom_of_runOk (n := 1) hmode hhandler htable hrt fuel ⟨ir, hfetch, hstep⟩ hexited
        (by omega)
    rw [show 1 + fuel + 1 = fuel + 2 by omega] at hexec
    have hcall : (compileC config entryPoint (.standardWith X handler) table).executeFrom rt
        (fuel + 2) s (s.instret + 1) s.pc = some ⟨out, k, returnCode out⟩ := hexec
    rw [CProgram.singleSteps, hcall]
    cases hretire : ir.retire rt s with
    | exited g =>
      rw [archRun_exited hfetch hretire] at harch ⊢
      cases harch
      exact if_pos (InstrIR.retire_exited hretire)
    | goto g pc =>
      obtain ⟨hcount, hgoes⟩ := InstrIR.retire_goto hretire
      rw [archRun_goto hfetch hretire] at harch ⊢
      cases harch
      have hzero : (g.setPc pc).hasExited = 0 := hgoes hexited
      refine (if_neg (not_not.2 hzero)).trans ?_
      cases n with
      | zero => rfl
      | succ m =>
        have hinstret : (g.setPc pc).instret.toNat = s.instret.toNat + 1 := by
          change g.instret.toNat = _
          rw [hcount, BitVec.toNat_add, show (1 : BitVec 64).toNat = 1 from rfl,
            Nat.mod_eq_of_lt (by omega)]
        rw [ih (hnext m rfl g pc hretire).2 hzero (by omega)]

end Run

/-- A run of `n` instructions that keeps clear of the absorbed addresses and inlined branches of the
optimised table: one call of `rv_execute_from` with the limit `n` executes the `n` instructions of
the architecture, or fewer if the guest exits, and stores the architectural pc, and so do `n` calls
with the limit one. -/
theorem stepping_of_runOk (rt : Runtime X) (config : EmitConfig) (entryPoint : U64)
    (handler : DecodedInstr X → InstrIR X) (table : BlockTable X) (n : ℕ) (s : GuestState X)
    (hmode : config.instretMode = .perInstruction) (hhandler : IsHandler handler)
    (htable : table.instructionTable.DecodedBy (.standardWith X handler)) (hrt : rt.IgnoresPc)
    (hexited : s.hasExited = 0) (hlt : s.instret.toNat + n < 2 ^ 64)
    (hok : (table.stepProject (.standardWith X handler) config entryPoint).RunOk rt
      (.standardWith X handler) table n s) :
    ∃ out k, archRun rt (.standardWith X handler) table n s = some (out, k) ∧ Finished n s out k ∧
      ∀ fuel,
        (compileC config entryPoint (.standardWith X handler) table).executeFrom rt (n + fuel + 1) s
          (s.instret + BitVec.ofNat 64 n) s.pc = some ⟨out, k, returnCode out⟩ ∧
        (compileC config entryPoint (.standardWith X handler) table).singleSteps rt (fuel + 2) n s
          = some (out, k) := by
  obtain ⟨out, k, harch, -, hfinished⟩ :=
    executeFrom_of_runOk hmode hhandler htable hrt 0 hok hexited hlt
  refine ⟨out, k, harch, hfinished, fun fuel => ⟨?_, ?_⟩⟩
  · obtain ⟨out', k', harch', hexec, -⟩ :=
      executeFrom_of_runOk hmode hhandler htable hrt fuel hok hexited hlt
    rw [harch] at harch'
    cases harch'
    exact hexec
  · rw [singleSteps_of_runOk hmode hhandler htable hrt fuel hok hexited hlt, harch]

end Stepping

/-! ## Two programs -/

/-- A table decoded at `0x1000` and optimised. -/
def optimisedTable (words : List (BitVec 32))
    (h : ((codeBytes words).length + 1) / 2 < 2 ^ 60) : BlockTable .rv64 :=
  buildCfgForC true (.fromBytes (codeBytes words) 0x1000 (.standard .rv64) h)
    (.standard .rv64) .ascending

def steppingConfig : EmitConfig := ⟨.perInstruction, false, false⟩

/-- `addi x5, x0, 1`, `addi x6, x0, 2`, `ebreak`. -/
def straightTable : BlockTable .rv64 :=
  optimisedTable [0x00100293, 0x00200313, 0x00100073] (by decide)

/-- The state at the entry of a program. -/
def entryState : GuestState .rv64 := (GuestState.zero .rv64).setPc 0x1000

theorem straightTable_decodedBy : straightTable.instructionTable.DecodedBy
    (.standardWith .rv64 bareMetalHandler) := by
  unfold straightTable optimisedTable
  rw [instructionTable_buildCfgForC]
  exact decodedBy_fromBytes _ (by decide)

theorem straightTable_runOk :
    (straightTable.stepProject (.standardWith .rv64 bareMetalHandler) steppingConfig 0x1000).RunOk
      (.idle .rv64) (.standardWith .rv64 bareMetalHandler) straightTable 2 entryState := by
  have hstatic {term : Terminator .rv64} {p : Prop} (h : term.isBranch = false)
      (hbranch : term.isBranch = true) : p := by
    rw [h] at hbranch
    cases hbranch
  refine ⟨_, rfl, ⟨?_, rfl, fun h => (by cases h), fun _ _ _ => hstatic rfl⟩, fun s pc h => ?_⟩
  · unfold CProject.Dispatches
    decide +kernel
  · cases h
    refine ⟨fun _ => (by decide +kernel), _, rfl, ?_, rfl, fun h => (by cases h),
      fun _ _ _ => hstatic rfl⟩
    unfold CProject.Dispatches
    decide +kernel

/-- Two steps of a program without jumps. -/
theorem stepping_straight_line :
    ∃ out k, archRun (.idle .rv64) (.standardWith .rv64 bareMetalHandler) straightTable 2 entryState
        = some (out, k) ∧ Finished 2 entryState out k ∧
      ∀ fuel, (compileC steppingConfig 0x1000 (.standardWith .rv64 bareMetalHandler)
          straightTable).executeFrom (.idle .rv64) (2 + fuel + 1) entryState
            (entryState.instret + BitVec.ofNat 64 2) entryState.pc = some ⟨out, k, returnCode out⟩ ∧
        (compileC steppingConfig 0x1000 (.standardWith .rv64 bareMetalHandler)
          straightTable).singleSteps (.idle .rv64) (fuel + 2) 2 entryState = some (out, k) :=
  stepping_of_runOk (.idle .rv64) steppingConfig 0x1000 bareMetalHandler straightTable 2 entryState
    rfl (.inl rfl) straightTable_decodedBy (fun _ _ _ _ => ⟨rfl, rfl⟩) rfl (by decide)
    straightTable_runOk

/-- `addi x5, x0, 1`, `j 0x100C`, `ebreak`, `addi x6, x0, 2`, `ebreak`. -/
def jumpTable : BlockTable .rv64 :=
  optimisedTable [0x00100293, 0x0080006F, 0x00100073, 0x00200313, 0x00100073] (by decide)

/-- The jump to `0x100C`, which the block at `0x1000` has absorbed, goes to `0x1000` again: after
three instructions the pc is `0x1004` instead of `0x1010`.  Stepping three times is right. -/
theorem stepping_absorbed_jump :
    let program := compileC steppingConfig 0x1000 (.standard .rv64) jumpTable
    let s := (GuestState.zero .rv64).setPc 0x1000
    (program.executeFrom (.idle .rv64) 10 s 3 0x1000).map (fun r => (r.state.pc, r.retired, r.code))
        = some (0x1004, 3, 2) ∧
      (archRun (.idle .rv64) (.standard .rv64) jumpTable 3 s).map (fun r => (r.1.pc, r.2))
        = some (0x1010, 3) ∧
      (program.singleSteps (.idle .rv64) 10 3 s).map (fun r => (r.1.pc, r.2)) =
        some (0x1010, 3) := by
  decide +kernel

end Rvr
