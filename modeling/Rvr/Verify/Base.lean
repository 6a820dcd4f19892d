import Rvr.Verify.BaseDecode
import Rvr.Verify.Values

/-!
# The I and M extensions implement the RISC-V specification

Executing the lift of a legal I or M instruction is one step of the specification on the
architectural part of the guest state (`base_implements_spec`).
-/

namespace Rvr

open Spec BitVec ExtensionRegistry Rvr.Expr Stmt

variable {X : Xlen} {rt : Runtime X}

/-! ## The architectural part of the guest state -/

/-- The registers and the memory of a guest state, at a pc. -/
def GuestState.arch (s : GuestState X) (pc : X.Reg) : Spec.State X where
  regs r := s.readReg r.toNat
  x0 := rfl
  mem := s.mem
  pc := pc

namespace GuestState

variable (s : GuestState X) (pc : X.Reg)

@[simp] theorem arch_pc : (s.arch pc).pc = pc := rfl
@[simp] theorem arch_mem : (s.arch pc).mem = s.mem := rfl
@[simp] theorem arch_regs (r : RegId) : (s.arch pc).regs r = s.readReg r.toNat := rfl

theorem arch_writeReg (rd : RegId) (v : X.Reg) :
    (s.writeReg rd.toNat v).arch pc = (s.arch pc).setReg rd v := by
  apply Spec.State.ext
  · funext r
    change (s.writeReg rd.toNat v).readReg r.toNat = if r = rd ∧ r ≠ 0 then v else s.readReg r.toNat
    rw [readReg_writeReg]
    refine if_congr (and_congr toNat_inj (not_congr ?_)) rfl rfl
    rw [← toNat_inj]
    rfl
  · rfl
  · rfl

end GuestState

/-- The instruction takes the guest state to the given architectural state. -/
def Steps (rt : Runtime X) (i : InstrIR X) (s : GuestState X) (t : Spec.State X) : Prop :=
  (i.exec rt s).2 = .goto t.pc ∧ (i.exec rt s).1.arch t.pc = t

theorem steps_of_exec {i : InstrIR X} {s : GuestState X} {t : Spec.State X} (s' : GuestState X)
    (hexec : i.exec rt s = (s', .goto t.pc)) (harch : s'.arch t.pc = t) : Steps rt i s t := by
  unfold Steps
  rw [hexec]
  exact ⟨rfl, harch⟩

/-! ## Computational instructions -/

theorem toNat_and_shiftMask (b : X.Reg) :
    (b &&& BitVec.ofNat _ (X.value - 1)).toNat = b.toNat % X.value := by
  cases X
  · exact Nat.and_two_pow_sub_one_eq_mod _ 5
  · exact Nat.and_two_pow_sub_one_eq_mod _ 6

theorem toNat_and_wordShiftMask (b : X.Reg) :
    (b &&& BitVec.ofNat _ 0x1f).toNat = (b.setWidth 32).toNat % 32 := by
  have hmask : (BitVec.ofNat X.value 0x1f).toNat = 2 ^ 5 - 1 := by cases X <;> rfl
  rw [toNat_and, hmask, Nat.and_two_pow_sub_one_eq_mod, toNat_setWidth]
  omega

section Values

variable (pc : X.Reg) (rd rs1 rs2 : RegId)

theorem writesRd_reg (op : RegOp) :
    WritesRd rt (standardBody ((Instr.reg op rd rs1 rs2).decoded pc)) rd.toNat fun s =>
      op.val (s.readReg rs1.toNat) (s.readReg rs2.toNat) := by
  cases op with
  | add => exact .liftR _ _ denotes_add _
  | sub => exact .liftR _ _ denotes_sub _
  | xor => exact .liftR _ _ denotes_xor _
  | or => exact .liftR _ _ denotes_or _
  | and => exact .liftR _ _ denotes_and _
  | mul => exact .liftR _ _ (Expr.denotes_binary .mul) _
  | sll =>
    refine (WritesRd.liftShift _ _ Expr.denotes_sll _).congr fun s => ?_
    rw [toNat_and_shiftMask]
    rfl
  | srl =>
    refine (WritesRd.liftShift _ _ Expr.denotes_srl _).congr fun s => ?_
    rw [toNat_and_shiftMask]
    rfl
  | sra =>
    refine (WritesRd.liftShift _ _ Expr.denotes_sra _).congr fun s => ?_
    rw [toNat_and_shiftMask]
    rfl
  | slt => exact (WritesRd.liftR _ _ (Expr.denotes_binary .lt) _).congr fun s => ofBool_slt _ _
  | sltu => exact (WritesRd.liftR _ _ Expr.denotes_ltu _).congr fun s => ofBool_ult _ _
  | mulh =>
    exact (WritesRd.liftR _ _ (Expr.denotes_binary .mulH) _).congr fun s => mulHigh_signed _ _
  | mulhsu =>
    exact (WritesRd.liftR _ _ (Expr.denotes_binary .mulHSU) _).congr fun s =>
      mulHigh_signed_unsigned _ _
  | mulhu =>
    exact (WritesRd.liftR _ _ (Expr.denotes_binary .mulHU) _).congr fun s => mulHigh_unsigned _ _
  | div =>
    exact (WritesRd.liftR _ _ (Expr.denotes_binary .div) _).congr fun s => div_eq_divSigned _ _
  | divu =>
    exact (WritesRd.liftR _ _ (Expr.denotes_binary .divU) _).congr fun s => divU_eq_divUnsigned _ _
  | rem =>
    exact (WritesRd.liftR _ _ (Expr.denotes_binary .rem) _).congr fun s => rem_eq_remSigned _ _
  | remu =>
    exact (WritesRd.liftR _ _ (Expr.denotes_binary .remU) _).congr fun s => remU_eq_remUnsigned _ _

theorem writesRd_regW (op : WordOp) :
    WritesRd rt (standardBody ((Instr.regW op rd rs1 rs2).decoded pc)) rd.toNat fun s =>
      ofWord (op.regOp.val ((s.readReg rs1.toNat).setWidth 32)
        ((s.readReg rs2.toNat).setWidth 32)) := by
  cases op with
  | addw => exact .liftR _ _ Expr.denotes_addw _
  | subw => exact .liftR _ _ denotes_subw _
  | mulw => exact .liftR _ _ (Expr.denotes_binary .mulW) _
  | sllw =>
    refine (WritesRd.liftShiftw _ _ Expr.denotes_sllw _).congr fun s => ?_
    rw [toNat_and_wordShiftMask]
    rfl
  | srlw =>
    refine (WritesRd.liftShiftw _ _ Expr.denotes_srlw _).congr fun s => ?_
    rw [toNat_and_wordShiftMask]
    rfl
  | sraw =>
    refine (WritesRd.liftShiftw _ _ Expr.denotes_sraw _).congr fun s => ?_
    rw [toNat_and_wordShiftMask]
    rfl
  | divw =>
    exact (WritesRd.liftR _ _ (Expr.denotes_binary .divW) _).congr fun s =>
      congrArg ofWord (div_eq_divSigned _ _)
  | divuw =>
    exact (WritesRd.liftR _ _ (Expr.denotes_binary .divUW) _).congr fun s =>
      congrArg ofWord (divU_eq_divUnsigned _ _)
  | remw =>
    exact (WritesRd.liftR _ _ (Expr.denotes_binary .remW) _).congr fun s =>
      congrArg ofWord (rem_eq_remSigned _ _)
  | remuw =>
    exact (WritesRd.liftR _ _ (Expr.denotes_binary .remUW) _).congr fun s =>
      congrArg ofWord (remU_eq_remUnsigned _ _)

/-- A 12-bit immediate reaches the register width through 32 bits. -/
theorem signExtend_imm {w : ℕ} (hw : w ≤ 32) (imm : BitVec w) :
    (imm.signExtend 32).signExtend X.value = imm.signExtend X.value := by
  apply eq_of_toInt_eq
  have h := X.thirtyTwo_le_value
  rw [toInt_signExtend_of_le h, toInt_signExtend_of_le hw,
    toInt_signExtend_of_le (hw.trans h)]

theorem writesRd_opImm (op : ImmOp) (imm : BitVec 12) :
    WritesRd rt (standardBody ((Instr.opImm op rd rs1 imm).decoded pc)) rd.toNat fun s =>
      op.regOp.val (s.readReg rs1.toNat) (imm.signExtend X.value) := by
  rw [← signExtend_imm (by decide)]
  cases op with
  | addi => exact .liftI _ _ denotes_add _
  | xori => exact .liftI _ _ denotes_xor _
  | ori => exact .liftI _ _ denotes_or _
  | andi => exact .liftI _ _ denotes_and _
  | slti => exact (WritesRd.liftI _ _ (Expr.denotes_binary .lt) _).congr fun s => ofBool_slt _ _
  | sltiu => exact (WritesRd.liftI _ _ Expr.denotes_ltu _).congr fun s => ofBool_ult _ _

theorem writesRd_addiw (imm : BitVec 12) :
    WritesRd rt (standardBody ((Instr.addiw rd rs1 imm).decoded pc)) rd.toNat fun s =>
      ofWord ((s.readReg rs1.toNat).setWidth 32 + imm.signExtend 32) := by
  refine (WritesRd.liftI _ _ Expr.denotes_addw _).congr fun s => ?_
  rw [Word.setWidth_signExtend X.thirtyTwo_le_value]
  rfl

/-- A shift amount in the operand of a shift. -/
theorem toNat_shamt {n : ℕ} (hn : n ≤ 6) (shamt : BitVec n) :
    (BitVec.ofNat X.value ((shamt.setWidth 32).toNat % 64)).toNat = shamt.toNat := by
  have hlt : shamt.toNat < 2 ^ 6 :=
    Nat.lt_of_lt_of_le shamt.isLt (Nat.pow_le_pow_right (by decide) hn)
  have hlt' : shamt.toNat < 2 ^ X.value := Nat.lt_trans hlt
    (Nat.pow_lt_pow_right (by decide) (by cases X <;> decide))
  have hmod : shamt.toNat % 64 = shamt.toNat := Nat.mod_eq_of_lt hlt
  rw [toNat_setWidth_of_le (by omega), hmod, toNat_ofNat, Nat.mod_eq_of_lt hlt']

theorem writesRd_shiftImm (op : ShiftOp) (shamt : BitVec 6) :
    WritesRd rt (standardBody ((Instr.shiftImm op rd rs1 shamt).decoded pc)) rd.toNat fun s =>
      op.val (s.readReg rs1.toNat) shamt.toNat := by
  rw [← toNat_shamt (X := X) le_rfl shamt]
  cases op with
  | sll => exact .liftShamt _ _ Expr.denotes_sll _
  | srl => exact .liftShamt _ _ Expr.denotes_srl _
  | sra => exact .liftShamt _ _ Expr.denotes_sra _

theorem writesRd_shiftImmW (op : ShiftOp) (shamt : BitVec 5) :
    WritesRd rt (standardBody ((Instr.shiftImmW op rd rs1 shamt).decoded pc)) rd.toNat fun s =>
      ofWord (op.val ((s.readReg rs1.toNat).setWidth 32) shamt.toNat) := by
  rw [← toNat_shamt (X := X) (by decide) shamt]
  cases op with
  | sll => exact .liftShamt _ _ Expr.denotes_sllw _
  | srl => exact .liftShamt _ _ Expr.denotes_srlw _
  | sra => exact .liftShamt _ _ Expr.denotes_sraw _

theorem writesRd_lui (imm : BitVec 20) :
    WritesRd rt (standardBody ((Instr.lui rd imm).decoded pc)) rd.toNat fun _ =>
      ofWord (imm ++ 0#12) :=
  (WritesRd.of_writeRd _ rfl).congr fun _ => Xlen.fromU64_signExtend (imm ++ 0#12)

theorem writesRd_auipc (imm : BitVec 20) :
    WritesRd rt (standardBody ((Instr.auipc rd imm).decoded pc)) rd.toNat fun _ =>
      pc + ofWord (imm ++ 0#12) := by
  refine (WritesRd.of_writeRd _ rfl).congr fun _ => ?_
  rw [Xlen.fromU64_add, Xlen.fromU64_toU64]
  exact congrArg (pc + ·) (Xlen.fromU64_signExtend (imm ++ 0#12))

end Values

/-! ## Memory -/

/-- The offset of a load or store, narrowed by the lift and extended by the access. -/
theorem signExtend_toI16 (imm : BitVec 12) :
    (toI16 (imm.signExtend 32)).signExtend X.value = imm.signExtend X.value := by
  have hnarrow : toI16 (imm.signExtend 32) = imm.signExtend 16 := by
    apply eq_of_getLsbD_eq
    intro i hi
    have hi32 : i < 32 := by omega
    simp only [toI16, getLsbD_setWidth, getLsbD_signExtend, hi32, decide_true, Bool.true_and]
  have h := X.thirtyTwo_le_value
  apply eq_of_toInt_eq
  rw [hnarrow, toInt_signExtend_of_le (by omega), toInt_signExtend_of_le (by decide),
    toInt_signExtend_of_le (by omega)]

/-- A load of the IR gives the bytes at the address, extended as the instruction says. -/
theorem loadMem_eq (s : GuestState X) (pc addr : X.Reg) (op : LoadOp)
    (hlegal : op = .ld → X = .rv64) :
    s.loadMem addr op.bytes (op.signed && op != .ld) =
      if op.signed then ((s.arch pc).bytesAt addr op.bytes).signExtend X.value
      else ((s.arch pc).bytesAt addr op.bytes).setWidth X.value := by
  have hzero (n : ℕ) : BitVec.ofNat X.value (ByteMemory.readLE s.mem addr n) =
      ((s.arch pc).bytesAt addr n).setWidth X.value := by
    rw [State.bytesAt, ← ofNat_toNat, toNat_ofNat,
      Nat.mod_eq_of_lt (ByteMemory.readLE_lt _ _ n)]
    rfl
  cases op with
  | lb => rfl
  | lh => rfl
  | lw => rfl
  | lbu => exact hzero 1
  | lhu => exact hzero 2
  | lwu => exact hzero 4
  | ld =>
    cases hlegal rfl
    exact (signExtend_eq _).symm

theorem writesRd_load (pc : X.Reg) (op : LoadOp) (rd rs1 : RegId) (imm : BitVec 12)
    (hlegal : op = .ld → X = .rv64) :
    WritesRd rt (standardBody ((Instr.load op rd rs1 imm).decoded pc)) rd.toNat fun s =>
      let value := (s.arch pc).bytesAt (s.readReg rs1.toNat + imm.signExtend X.value) op.bytes
      if op.signed then value.signExtend X.value else value.setWidth X.value := by
  have hbody : standardBody ((Instr.load op rd rs1 imm).decoded pc) =
      liftLoad (.I rd.toNat rs1.toNat (imm.signExtend 32)) op.bytes (op.signed && op != .ld) := by
    cases op <;> rfl
  rw [hbody]
  refine (WritesRd.of_writeRd _ rfl).congr fun s => ?_
  rw [eval_mem, signExtend_toI16]
  exact loadMem_eq s pc _ op hlegal

theorem steps_store (pc : X.Reg) (op : StoreOp) (rs1 rs2 : RegId) (imm : BitVec 12)
    (s : GuestState X) :
    let d := (Instr.store op rs1 rs2 imm).decoded pc
    Steps rt (d.ir (standardBody d).1 (standardBody d).2) s
      ((Instr.store op rs1 rs2 imm).step (s.arch pc)) := by
  intro d
  have hbody : standardBody d = liftStore
      (.S rs1.toNat rs2.toNat (imm.signExtend 32)) op.bytes := by
    cases op <;> rfl
  have hbytes : GuestState.storeBytes op.bytes = op.bytes := by cases op <;> rfl
  rw [hbody, liftStore]
  refine steps_of_exec
    { s.storeMem (s.readReg rs1.toNat + imm.signExtend X.value) op.bytes (s.readReg rs2.toNat) with
      resValid := 0 } ?_ ?_
  · rw [exec_fall d s rfl, execAll_cons, execAll_cons, exec_writeMem s rfl, exec_clearReservation,
      signExtend_toI16]
    rfl
  · rw [GuestState.storeMem, hbytes]
    rfl

/-! ## Control transfer -/

theorem pcRelative_eq (pc : X.Reg) {w : ℕ} (hw : w ≤ 32) (offset : BitVec w) :
    pcRelative pc (offset.signExtend 32) = pc + offset.signExtend X.value := by
  unfold pcRelative
  rw [Xlen.fromU64_add, Xlen.fromU64_toU64, Xlen.fromU64_toU64, Xlen.signExtend32,
    signExtend_imm hw]

theorem steps_jal (pc : X.Reg) (rd : RegId) (offset : BitVec 20) (s : GuestState X) :
    let d := (Instr.jal rd offset).decoded pc
    Steps rt (d.ir (standardBody d).1 (standardBody d).2) s
      ((Instr.jal rd offset).step (s.arch pc)) := by
  intro d
  have hbody : standardBody d = liftJal (.J rd.toNat ((offset ++ 0#1).signExtend 32)) pc 4 := rfl
  rw [hbody, liftJal]
  refine steps_of_exec (s.writeReg rd.toNat (pc + BitVec.ofNat _ 4)) ?_
    (GuestState.arch_writeReg s _ rd _)
  rw [exec_jump d s _ (statementsWriteExit_writeRd _ _), execAll_writeRd s rfl, linkValue_eq,
    pcRelative_eq pc (by decide)]
  rfl

/-- The target of a jump through a register, from any expression for the base. -/
theorem eval_jalrTarget (s : GuestState X) (base : Expr X) (imm : BitVec 12) :
    (Expr.and (Expr.add base (.imm (X.fromU64 ((imm.signExtend 32).signExtend 64))))
      (.imm (X.fromU64 (~~~1)))).eval rt s =
        (base.eval rt s + imm.signExtend X.value) &&& ~~~1 := by
  have hmask : X.fromU64 (~~~1) = ~~~1 := by cases X <;> rfl
  rw [eval_and, eval_add, eval_imm, eval_imm, Xlen.fromU64_signExtend,
    signExtend_imm (by decide), hmask]

/-- The statements of a jump through a register: the base is saved when the link overwrites it. -/
def jalrStmts (rd rs1 : ℕ) (link : X.Reg) : List (Stmt X) :=
  (if rd = rs1 then [.writeTemp 0 (.read rs1)] else []) ++ writeRd rd (.imm link)

/-- Where the target of such a jump is read from. -/
def jalrBase (rd rs1 : ℕ) : Expr X := if rd = rs1 then .temp 0 else .read rs1

theorem statementsWriteExit_jalrStmts (rd rs1 : ℕ) (link : X.Reg) :
    statementsWriteExit (jalrStmts rd rs1 link) = false := by
  unfold jalrStmts
  rw [statementsWriteExit_append, statementsWriteExit_writeRd]
  split_ifs <;> rfl

/-- The target is computed from the value that the base register had before the link was written. -/
theorem eval_jalrBase (s : GuestState X) (rd rs1 : ℕ) (link : X.Reg) :
    (jalrBase rd rs1).eval rt (execAll rt (jalrStmts rd rs1 link) s) = s.readReg rs1 := by
  unfold jalrBase jalrStmts
  rw [execAll_append]
  split_ifs with hrd
  · rw [execAll_writeRd _ rfl]
    rfl
  · rw [execAll_nil, execAll_writeRd s rfl, eval_read,
      GuestState.readReg_writeReg_ne s (fun h => hrd h.symm)]

theorem arch_jalrStmts (s : GuestState X) (rd : RegId) (rs1 : ℕ) (link pc : X.Reg) :
    (execAll rt (jalrStmts rd.toNat rs1 link) s).arch pc = (s.arch pc).setReg rd link := by
  unfold jalrStmts
  rw [execAll_append, execAll_writeRd _ rfl, GuestState.arch_writeReg]
  split_ifs
  · rfl
  · rfl

theorem steps_jalr (pc : X.Reg) (rd rs1 : RegId) (imm : BitVec 12) (s : GuestState X) :
    let d := (Instr.jalr rd rs1 imm).decoded pc
    Steps rt (d.ir (standardBody d).1 (standardBody d).2) s
      ((Instr.jalr rd rs1 imm).step (s.arch pc)) := by
  intro d
  have hbody : standardBody d =
      (jalrStmts rd.toNat rs1.toNat (linkValue pc 4),
        .jumpDyn (Expr.and (Expr.add (jalrBase rd.toNat rs1.toNat)
          (.imm (X.fromU64 ((imm.signExtend 32).signExtend 64)))) (.imm (X.fromU64 (~~~1))))
            none) :=
    rfl
  refine steps_of_exec (execAll rt (jalrStmts rd.toNat rs1.toNat (linkValue pc 4)) s) ?_ ?_
  · rw [hbody, exec_jumpDyn d s _ (statementsWriteExit_jalrStmts _ _ _), eval_jalrTarget,
      eval_jalrBase]
    rfl
  · rw [arch_jalrStmts, linkValue_eq]
    rfl

/-- A branch tests the specified comparison. -/
theorem branch_body (rt : Runtime X) (pc : X.Reg) (op : BranchOp) (rs1 rs2 : RegId)
    (offset : BitVec 12) :
    ∃ cond : Expr X, standardBody ((Instr.branch op rs1 rs2 offset).decoded pc) =
        ([], .branch cond (pcRelative pc ((offset ++ 0#1).signExtend 32)) none .none) ∧
      ∀ s, cond.eval rt s =
        Ops.ofBool _ (op.taken (s.readReg rs1.toNat) (s.readReg rs2.toNat)) := by
  cases op with
  | beq => exact ⟨_, rfl, fun s => rfl⟩
  | bne =>
    refine ⟨_, rfl, fun s => (eval_ne _ _).trans (congrArg _ (Bool.eq_iff_iff.2 ?_))⟩
    simp [BranchOp.taken]
  | blt => exact ⟨_, rfl, fun s => rfl⟩
  | bge =>
    exact ⟨_, rfl, fun s => (eval_ge _ _).trans
      (congrArg _ sle_eq_not_slt.symm)⟩
  | bltu => exact ⟨_, rfl, fun s => eval_ltu _ _⟩
  | bgeu =>
    exact ⟨_, rfl, fun s => (eval_geu _ _).trans
      (congrArg _ (ule_eq_not_ult _ _).symm)⟩

theorem steps_branch (pc : X.Reg) (op : BranchOp) (rs1 rs2 : RegId) (offset : BitVec 12)
    (s : GuestState X) :
    let d := (Instr.branch op rs1 rs2 offset).decoded pc
    Steps rt (d.ir (standardBody d).1 (standardBody d).2) s
      ((Instr.branch op rs1 rs2 offset).step (s.arch pc)) := by
  intro d
  obtain ⟨cond, hbody, hcond⟩ := branch_body rt pc op rs1 rs2 offset
  have hstep : (Instr.branch op rs1 rs2 offset).step (s.arch pc) =
      s.arch (if op.taken (s.readReg rs1.toNat) (s.readReg rs2.toNat) then
        pc + (offset ++ 0#1).signExtend X.value else pc + BitVec.ofNat _ 4) := by
    change (if op.taken (s.readReg rs1.toNat) (s.readReg rs2.toNat) = true then _ else _) = _
    split_ifs <;> rfl
  rw [hbody, hstep]
  refine steps_of_exec s ?_ rfl
  rw [exec_branch d s (hcond s), pcRelative_eq pc (by decide)]
  rfl

/-! ## All instructions -/

theorem WritesRd.steps {i : Instr} {pc : X.Reg} {rd : RegId} {v : GuestState X → X.Reg}
    (h : WritesRd rt (standardBody (i.decoded pc)) rd.toNat v) (s : GuestState X) :
    Steps rt ((i.decoded pc).ir (standardBody (i.decoded pc)).1 (standardBody (i.decoded pc)).2) s
      ((s.arch pc).setReg rd (v s)).advance :=
  steps_of_exec _ (h _ s) (GuestState.arch_writeReg s _ rd _)

/-- Executing the standard body of a legal instruction is one step of the specification. -/
theorem steps_body (i : Instr) (hlegal : i.Legal X) (pc : X.Reg) (s : GuestState X) :
    Steps rt ((i.decoded pc).ir (standardBody (i.decoded pc)).1 (standardBody (i.decoded pc)).2) s
      (i.step (s.arch pc)) := by
  cases i with
  | lui rd imm => exact (writesRd_lui pc rd imm).steps s
  | auipc rd imm => exact (writesRd_auipc pc rd imm).steps s
  | jal rd offset => exact steps_jal pc rd offset s
  | jalr rd rs1 imm => exact steps_jalr pc rd rs1 imm s
  | branch op rs1 rs2 offset => exact steps_branch pc op rs1 rs2 offset s
  | load op rd rs1 imm =>
    have hld : op = .ld → X = .rv64 := by
      rintro rfl
      exact hlegal
    exact (writesRd_load pc op rd rs1 imm hld).steps s
  | store op rs1 rs2 imm => exact steps_store pc op rs1 rs2 imm s
  | opImm op rd rs1 imm => exact (writesRd_opImm pc rd rs1 op imm).steps s
  | shiftImm op rd rs1 shamt => exact (writesRd_shiftImm pc rd rs1 op shamt).steps s
  | addiw rd rs1 imm => exact (writesRd_addiw pc rd rs1 imm).steps s
  | shiftImmW op rd rs1 shamt => exact (writesRd_shiftImmW pc rd rs1 op shamt).steps s
  | reg op rd rs1 rs2 => exact (writesRd_reg pc rd rs1 rs2 op).steps s
  | regW op rd rs1 rs2 => exact (writesRd_regW pc rd rs1 rs2 op).steps s

theorem opid_ne_ecall (i : Instr) : i.opid ≠ .i .ecall := by
  cases i with
  | branch op => cases op <;> exact nofun
  | load op => cases op <;> exact nofun
  | store op => cases op <;> exact nofun
  | opImm op => cases op <;> exact nofun
  | shiftImm op => cases op <;> exact nofun
  | shiftImmW op => cases op <;> exact nofun
  | reg op => cases op <;> exact nofun
  | regW op => cases op <;> exact nofun
  | _ => exact nofun

theorem opid_isStandard (i : Instr) : i.opid.isStandard = true := by
  cases i with
  | branch op => cases op <;> rfl
  | load op => cases op <;> rfl
  | store op => cases op <;> rfl
  | opImm op => cases op <;> rfl
  | shiftImm op => cases op <;> rfl
  | shiftImmW op => cases op <;> rfl
  | reg op => cases op <;> rfl
  | regW op => cases op <;> rfl
  | _ => rfl

/-- Decoding a legal I or M word with the standard registry and executing its lift gives the
registers, the memory and the next pc of the RISC-V specification. -/
theorem base_implements_spec (handler : DecodedInstr X → InstrIR X) (rt : Runtime X) (i : Instr)
    (hlegal : i.Legal X) (rest : List (BitVec 8)) (pc : X.Reg) (s : GuestState X) :
    ∃ d, (standardWith X handler).decode (wordBytes i.encode ++ rest) pc = some d ∧
      (((standardWith X handler).lift d).exec rt s).2 =
        .goto (i.step (s.arch pc)).pc ∧
      (((standardWith X handler).lift d).exec rt s).1.arch
        (i.step (s.arch pc)).pc = i.step (s.arch pc) := by
  refine ⟨i.decoded pc, decode_encode rest i hlegal, ?_⟩
  rw [standard_lift handler (opid_isStandard i) (opid_ne_ecall i)]
  exact steps_body i hlegal pc s

/-- `jalr x1, 0(x1)` on RV64 jumps to the old value of `x1` and leaves the link there. -/
theorem base_implements_spec_jalr :
    let s : GuestState .rv64 := (GuestState.zero .rv64).writeReg 1 0x2001
    let next := (Instr.jalr 1 1 0).step (s.arch 0x1000)
    (Instr.jalr 1 1 0).Legal .rv64 ∧ (Instr.jalr 1 1 0).encode = 0x000080e7 ∧
      next.pc = 0x2000 ∧ next.regs 1 = 0x1004 ∧
      ∃ d, (standard .rv64).decode (wordBytes 0x000080e7) 0x1000 = some d ∧
        (((standard .rv64).lift d).exec (Runtime.idle .rv64) s).2 =
          .goto next.pc ∧
        (((standard .rv64).lift d).exec (Runtime.idle .rv64) s).1.arch next.pc =
          next :=
  ⟨trivial, rfl, rfl, rfl,
    base_implements_spec bareMetalHandler (Runtime.idle .rv64) (.jalr 1 1 0) trivial [] 0x1000 _⟩

end Rvr
