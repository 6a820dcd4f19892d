import Rvr.Cfg.Targets
import Rvr.Lib.Trace

/-!
# The constants of the linear scan

`scan_instruction_targets` keeps a constant for every register, `x0` among them, and the handlers
write to the register that an instruction names.  The constant of `x0` is zero at every step exactly
if no instruction that is visited writes another one to it.
-/

namespace Rvr

open TargetScan

variable {X : Xlen}

/-! ## The instructions that a scan visits -/

/-- An instruction with its address and size. -/
structure Visit (X : Xlen) where
  pc : U64
  size : ℕ
  instr : DecodedInstr X

/-- The instructions that `linearScan` visits. -/
def linearVisits (t : InstructionTable X) : ℕ → U64 → List (Visit X)
  | 0, _ => []
  | fuel + 1, pc =>
    if pc < t.endAddress then
      if !t.isValidPc pc then linearVisits t fuel (nextAddr pc InstructionTable.slotSize)
      else
        let size := t.instructionSizeAtPc pc
        if size = 0 then linearVisits t fuel (nextAddr pc InstructionTable.slotSize)
        else
          match t.getAtPc pc with
          | none => linearVisits t fuel (nextAddr pc size)
          | some instr => ⟨pc, size, instr⟩ :: linearVisits t fuel (nextAddr pc size)
    else []

theorem linearScan_eq_run {σ : Type} (t : InstructionTable X)
    (visit : σ → U64 → ℕ → DecodedInstr X → σ) (fuel : ℕ) (pc : U64) (acc : σ) :
    linearScan t visit fuel pc acc =
      Trace.run (fun acc v => visit acc v.pc v.size v.instr) acc (linearVisits t fuel pc) := by
  induction fuel generalizing pc acc with
  | zero => rfl
  | succ fuel ih =>
    unfold linearScan linearVisits
    by_cases hend : pc < t.endAddress
    · rw [if_pos hend, if_pos hend]
      by_cases hvalid : (!t.isValidPc pc) = true
      · rw [if_pos hvalid, if_pos hvalid]
        exact ih _ _
      rw [if_neg hvalid, if_neg hvalid]
      by_cases hsize : t.instructionSizeAtPc pc = 0
      · rw [if_pos hsize, if_pos hsize]
        exact ih _ _
      rw [if_neg hsize, if_neg hsize]
      cases t.getAtPc pc with
      | none => exact ih _ _
      | some instr => exact ih _ _
    · rw [if_neg hend, if_neg hend]
      rfl

/-- The instructions that a scan of the whole table visits. -/
def InstructionTable.visits (t : InstructionTable X) : List (Visit X) :=
  linearVisits t ((t.endAddress - t.baseAddress).toNat + 1) t.baseAddress

/-- The state in which `collect_potential_targets` starts the scan. -/
def TargetScan.init (t : InstructionTable X) : TargetScan where
  functionEntries := t.entryPoints.toFinset
  internalTargets := scanRoSegmentsForCodePointers t ∅
  returnSites := ∅
  regs := Function.update (fun _ => none) 0 (some 0)

/-- One round of the scan. -/
def TargetScan.round (t : InstructionTable X) (c : TargetScan) (v : Visit X) : TargetScan :=
  c.update t v.pc v.size v.instr

/-- The targets are those of the state that the rounds of the scan lead to. -/
theorem collectPotentialTargets_eq_run (t : InstructionTable X) :
    collectPotentialTargets t =
      (Trace.run (round t) (init t) t.visits).toTargets :=
  congrArg toTargets (linearScan_eq_run t _ _ _ _)

/-! ## The constant of `x0` -/

/-- An instruction does not write a constant other than zero to `x0`: it names another register, or
what its handler computes from the constants before it is zero. -/
def KeepsZero (t : InstructionTable X) (c : TargetScan) (v : Visit X) : Prop :=
  let d := DecodedInstruction.fromInstr v.instr
  match d.kind with
  | .lui => d.rd = some 0 → signExtendI32 d.imm = 0
  | .auipc => d.rd = some 0 → addSigned v.pc d.imm = 0
  | .addi => d.rd = some 0 → ∀ rs1 ∈ d.rs1, (c.regs rs1).map (addSigned · d.imm) = some 0
  | .add =>
    d.rd = some 0 → ∀ rs1 ∈ d.rs1, ∀ rs2 ∈ d.rs2,
      ((c.regs rs1).bind fun lhs => (c.regs rs2).map (lhs + ·)) = some 0
  | .move => d.rd = some 0 → ∀ rs1 ∈ d.rs1, c.regs rs1 = some 0
  | .load =>
    d.rd = some 0 → ∀ rs1 ∈ d.rs1, ((c.regs rs1).bind fun base =>
      (t.readReadonly (addSigned base d.imm) d.loadWidthBytes).map
        (extendLoadedValue · d.loadWidthBytes d.isUnsigned)) = some 0
  | .jal | .jalr => d.rd = some 0 → nextAddr v.pc v.size = 0
  | .branch => True
  | .unknown => extractWrittenReg v.instr.args ≠ some 0

/-- Writing a register leaves zero in `x0` unless it is `x0` that is written. -/
theorem regs_setReg_zero {c : TargetScan} (hc : c.regs 0 = some 0#64) (rd : ℕ)
    (value : Option U64) :
    (c.setReg rd value).regs 0 = some 0#64 ↔ (rd = 0 → value = some 0#64) := by
  by_cases hrd : rd = 0
  · subst hrd
    simp [setReg]
  · simp [setReg, Function.update_of_ne (Ne.symm hrd), hc, hrd]

section Handlers

variable {t : InstructionTable X} {c : TargetScan} (hc : c.regs 0 = some 0) (d : DecodedInstruction)
  (pc : U64) (size : ℕ)
include hc

/-- The register of an instruction that names one is written. -/
theorem regs_write_zero (rd : Option ℕ) (value : Option U64) :
    (match rd with
      | some rd => c.setReg rd value
      | none => c).regs 0 = some 0 ↔ (rd = some 0 → value = some 0) := by
  cases rd with
  | none => simp [hc]
  | some rd => simpa using regs_setReg_zero hc rd value

theorem regs_handleAddi_zero :
    (c.handleAddi t d).regs 0 = some 0 ↔
      (d.rd = some 0 → ∀ rs1 ∈ d.rs1, (c.regs rs1).map (addSigned · d.imm) = some 0) := by
  unfold handleAddi
  cases d.rd with
  | none => simp [hc]
  | some rd =>
    cases d.rs1 with
    | none => simp [hc]
    | some rs1 => cases hbase : c.regs rs1 <;> simp [regs_setReg_zero hc, hbase]

theorem regs_handleAdd_zero :
    (c.handleAdd t d).regs 0 = some 0 ↔
      (d.rd = some 0 → ∀ rs1 ∈ d.rs1, ∀ rs2 ∈ d.rs2,
        ((c.regs rs1).bind fun lhs => (c.regs rs2).map (lhs + ·)) = some 0) := by
  unfold handleAdd
  cases d.rd with
  | none => simp [hc]
  | some rd =>
    cases d.rs1 with
    | none => simp [hc]
    | some rs1 =>
      cases d.rs2 with
      | none => simp [hc]
      | some rs2 =>
        cases hl : c.regs rs1 <;> cases hr : c.regs rs2 <;> simp [regs_setReg_zero hc, hl, hr]

theorem regs_handleMove_zero :
    (c.handleMove d).regs 0 = some 0 ↔ (d.rd = some 0 → ∀ rs1 ∈ d.rs1, c.regs rs1 = some 0) := by
  unfold handleMove
  cases d.rd with
  | none => simp [hc]
  | some rd =>
    cases d.rs1 with
    | none => simp [hc]
    | some rs1 => simp [regs_setReg_zero hc]

theorem regs_handleLoad_zero :
    (c.handleLoad t d).regs 0 = some 0 ↔
      (d.rd = some 0 → ∀ rs1 ∈ d.rs1, ((c.regs rs1).bind fun base =>
        (t.readReadonly (addSigned base d.imm) d.loadWidthBytes).map
          (extendLoadedValue · d.loadWidthBytes d.isUnsigned)) = some 0) := by
  unfold handleLoad
  cases d.rd with
  | none => simp [hc]
  | some rd =>
    cases d.rs1 with
    | none => simp [hc]
    | some rs1 =>
      cases hbase : c.regs rs1 with
      | none => simp [regs_setReg_zero hc, hbase]
      | some base =>
        cases hread : t.readReadonly (addSigned base d.imm) d.loadWidthBytes <;>
          simp [regs_setReg_zero hc, hbase, hread]

end Handlers

/-- Both jumps collect targets and then write the address behind them. -/
theorem regs_handleJal_zero {t : InstructionTable X} {c : TargetScan} (hc : c.regs 0 = some 0)
    (d : DecodedInstruction) (pc : U64) (size : ℕ) :
    (c.handleJal t d pc size).regs 0 = some 0 ↔ (d.rd = some 0 → nextAddr pc size = 0) := by
  refine (regs_write_zero ?_ d.rd (some (nextAddr pc size))).trans (by simp)
  split_ifs <;> exact hc

theorem regs_handleJalr_zero {t : InstructionTable X} {c : TargetScan} (hc : c.regs 0 = some 0)
    (d : DecodedInstruction) (pc : U64) (size : ℕ) :
    (c.handleJalr t d pc size).regs 0 = some 0 ↔ (d.rd = some 0 → nextAddr pc size = 0) := by
  refine (regs_write_zero ?_ d.rd (some (nextAddr pc size))).trans (by simp)
  cases d.rs1.bind c.regs <;> split_ifs <;> exact hc

/-- A round keeps the zero exactly under the condition. -/
theorem regs_round_zero {t : InstructionTable X} {c : TargetScan} (hc : c.regs 0 = some 0)
    (v : Visit X) : (c.round t v).regs 0 = some 0 ↔ KeepsZero t c v := by
  unfold TargetScan.round update KeepsZero
  generalize DecodedInstruction.fromInstr v.instr = d
  obtain ⟨kind, rd, rs1, rs2, imm, width, unsigned⟩ := d
  cases kind with
  | lui => exact (regs_write_zero hc rd (some (signExtendI32 imm))).trans (by simp)
  | auipc => exact (regs_write_zero hc rd (some (addSigned v.pc imm))).trans (by simp)
  | addi => exact regs_handleAddi_zero hc _
  | add => exact regs_handleAdd_zero hc _
  | move => exact regs_handleMove_zero hc _
  | load => exact regs_handleLoad_zero hc _
  | jal => exact regs_handleJal_zero hc _ _ _
  | jalr => exact regs_handleJalr_zero hc _ _ _
  | branch => exact iff_of_true hc trivial
  | unknown => exact (regs_write_zero hc (extractWrittenReg v.instr.args) none).trans (by simp)

/-- The constant of `x0` is zero at every step of the scan exactly if every instruction that is
visited keeps it. -/
theorem scan_zero_iff (t : InstructionTable X) :
    (∀ pre, pre <+: t.visits →
      (Trace.run (round t) (init t) pre).regs 0 = some 0) ↔
      Trace.Each (round t) (KeepsZero t) (init t) t.visits := by
  have hstep : ∀ (c : TargetScan) (v : Visit X), c.regs 0 = some 0 →
      ((c.round t v).regs 0 = some 0 ↔ KeepsZero t c v) := fun _ v hc => regs_round_zero hc v
  have hinit : (init t).regs 0 = some 0 := by simp [init]
  exact Trace.forall_run_iff_each hstep hinit

/-- `j .` at `0x1000`, as the only instruction of a table. -/
def selfJumpTable : InstructionTable .rv64 :=
  .fromBytes [0x6F, 0x00, 0x00, 0x00] 0x1000 (ExtensionRegistry.standard .rv64) (by decide)

/-- A jump that links to nothing leaves the address behind it in `x0`. -/
theorem scan_zero_jump :
    ¬ ∀ pre, pre <+: selfJumpTable.visits →
      (Trace.run (round selfJumpTable) (init selfJumpTable) pre).regs 0 = some 0 := by
  intro h
  have hzero := h _ (List.prefix_refl _)
  exact absurd hzero (by decide)

end Rvr
