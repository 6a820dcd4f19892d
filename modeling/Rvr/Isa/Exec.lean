import Rvr.Ir.Exec
import Rvr.Isa.Format

/-!
# Executing the lift of a standard instruction

The standard registry sends an instruction to the lift of its own extension (`standard_lift`), and
the bodies that those lifts share have one execution rule each: a guarded register write, a body
that only writes rd and falls through, a jump.
-/

namespace Rvr

variable {X : Xlen} {rt : Runtime X}

/-! ## Which lift the standard registry uses -/

/-- The body that the standard extensions give an instruction that is not ECALL. -/
def standardBody (d : DecodedInstr X) : Lifted X :=
  match d.opid with
  | .i _ => liftBase d.args d.opid d.pc d.size
  | .m _ => liftM d.args d.opid
  | .a _ => liftA d.args d.opid
  | .c _ => liftC d.args d.opid d.pc d.size
  | .zicsr _ => liftZicsr d.args d.opid
  | .zifencei _ => ([], .fall none)
  | .zba _ => liftZba d.args d.opid
  | .zbb _ => liftZbb d.args d.opid
  | .zbs _ => liftZbs d.args d.opid
  | .zbkb _ => liftZbkb d.args d.opid
  | .zicond _ => liftZicond d.args d.opid
  | .custom _ _ => ([], .trap "unhandled extension")

/-- The identifiers that standard decoders produce. -/
def OpId.isStandard : OpId → Bool
  | .custom _ _ => false
  | _ => true

variable {d : DecodedInstr X}

/-- The operation of a decoded instruction belongs to a standard extension. -/
theorem isStandard_of_decode {handler : DecodedInstr X → InstrIR X} {bytes : List (BitVec 8)}
    {pc : X.Reg} (h : (ExtensionRegistry.standardWith X handler).decode bytes pc = some d) :
    d.opid.isStandard = true := by
  have hformat := standard_decode_format h
  cases hop : d.opid with
  | custom ext idx =>
    rw [hop] at hformat
    cases hformat
  | _ => rfl

/-- Anything but ECALL is lifted by the extension it belongs to, whatever handles ECALL. -/
theorem standard_lift (handler : DecodedInstr X → InstrIR X)
    (hstd : d.opid.isStandard = true) (hecall : d.opid ≠ .i .ecall) :
    (ExtensionRegistry.standardWith X handler).lift d
      = d.ir (standardBody d).1 (standardBody d).2 := by
  obtain ⟨opid, pc, size, raw, args⟩ := d
  have hw : (ExtensionRegistry.standardWith X handler).lift ⟨opid, pc, size, raw, args⟩
      = (ExtensionRegistry.standardWith X handler).liftDefault ⟨opid, pc, size, raw, args⟩ :=
    if_neg hecall
  rw [hw]
  cases opid with
  | custom ext idx => exact absurd hstd (by simp [OpId.isStandard])
  | _ => rfl

/-- ECALL is lifted by the handler. -/
theorem standard_lift_ecall (handler : DecodedInstr X → InstrIR X) (h : d.opid = .i .ecall) :
    (ExtensionRegistry.standardWith X handler).lift d = handler d :=
  if_pos h

/-! ## Shared bodies -/

/-- The pc after an instruction, modulo `2 ^ XLEN`. -/
theorem InstrIR.nextPc_eq (i : InstrIR X) : i.nextPc = i.pc + BitVec.ofNat X.value i.size := by
  unfold InstrIR.nextPc
  rw [Xlen.fromU64_add, Xlen.fromU64_toU64, Xlen.fromU64, BitVec.setWidth_ofNat_of_le X.value_le]

theorem linkValue_eq (pc : X.Reg) (size : ℕ) : linkValue pc size = pc + BitVec.ofNat _ size := by
  unfold linkValue
  rw [Xlen.fromU64, BitVec.setWidth_ofNat_of_le X.value_le]

variable {e : Expr X}

theorem execAll_writeRd (s : GuestState X) {rd : ℕ} (h : e.isCall = false) :
    Stmt.execAll rt (writeRd rd e) s = s.writeReg rd (e.eval rt s) := by
  unfold writeRd
  split_ifs with hrd
  · rw [Stmt.execAll_cons]
    exact Stmt.exec_write s h
  · rw [not_not.1 hrd, Stmt.execAll_nil, GuestState.writeReg_zero]

@[simp] theorem statementsWriteExit_writeRd (rd : ℕ) (e : Expr X) :
    Stmt.statementsWriteExit (writeRd rd e) = false := by
  unfold writeRd
  split_ifs <;> rfl

variable {stmts : List (Stmt X)}

/-- A body that cannot exit and falls through. -/
theorem exec_fall (d : DecodedInstr X) (s : GuestState X)
    (h : Stmt.statementsWriteExit stmts = false) :
    (d.ir stmts (.fall none)).exec rt s =
      (Stmt.execAll rt stmts s, .goto (d.pc + BitVec.ofNat _ d.size)) := by
  rw [InstrIR.exec_of_not_writesExit s h]
  simp only [DecodedInstr.ir, Terminator.control, Option.getD_none, InstrIR.nextPc_eq]

/-- A body that cannot exit and jumps. -/
theorem exec_jump (d : DecodedInstr X) (s : GuestState X) (target : X.Reg)
    (h : Stmt.statementsWriteExit stmts = false) :
    (d.ir stmts (.jump target)).exec rt s = (Stmt.execAll rt stmts s, .goto target) :=
  InstrIR.exec_of_not_writesExit s h

/-- A body that cannot exit and jumps to a computed address. -/
theorem exec_jumpDyn (d : DecodedInstr X) (s : GuestState X) (addr : Expr X)
    (h : Stmt.statementsWriteExit stmts = false) :
    (d.ir stmts (.jumpDyn addr none)).exec rt s =
      (Stmt.execAll rt stmts s, .goto (addr.eval rt (Stmt.execAll rt stmts s))) :=
  InstrIR.exec_of_not_writesExit s h

/-- A conditional branch on a comparison. -/
theorem exec_branch (d : DecodedInstr X) (s : GuestState X) {cond : Expr X} {target : X.Reg}
    {hint : BranchHint} {b : Bool} (h : cond.eval rt s = Ops.ofBool _ b) :
    (d.ir [] (.branch cond target none hint)).exec rt s =
      (s, .goto (if b then target else d.pc + BitVec.ofNat _ d.size)) := by
  have hzero := Ops.ofBool_eq_zero X.value_pos b
  change (s, if cond.eval rt s = 0 then Control.goto ((d.ir [] _).nextPc) else .goto target) = _
  rw [h, InstrIR.nextPc_eq]
  cases b
  · exact congrArg (Prod.mk s) (if_pos (hzero.2 rfl))
  · exact congrArg (Prod.mk s) (if_neg fun h => absurd (hzero.1 h) Bool.noConfusion)

/-- A body that writes rd, unless it is `x0`, and falls through. -/
theorem exec_writeRd_fall (d : DecodedInstr X) (s : GuestState X) {rd : ℕ} (h : e.isCall = false) :
    (d.ir (writeRd rd e) (.fall none)).exec rt s
      = (s.writeReg rd (e.eval rt s), .goto (d.pc + BitVec.ofNat _ d.size)) := by
  rw [exec_fall d s (statementsWriteExit_writeRd rd e), execAll_writeRd s h]

/-- The same for the extensions that write rd without the test for `x0`. -/
theorem exec_writeReg_fall (d : DecodedInstr X) (s : GuestState X) {rd : ℕ} (h : e.isCall = false) :
    (d.ir [.writeReg rd e] (.fall none)).exec rt s
      = (s.writeReg rd (e.eval rt s), .goto (d.pc + BitVec.ofNat _ d.size)) := by
  rw [exec_fall d s rfl, Stmt.execAll_cons, Stmt.execAll_nil, Stmt.exec_writeReg s h]

/-! ## Bodies that write rd -/

/-- The body writes a value, computed from the state before the instruction, to rd and goes on with
the next instruction; nothing else changes. -/
def WritesRd (rt : Runtime X) (body : Lifted X) (rd : ℕ) (v : GuestState X → X.Reg) : Prop :=
  ∀ (d : DecodedInstr X) (s : GuestState X),
    (d.ir body.1 body.2).exec rt s = (s.writeReg rd (v s), .goto (d.pc + BitVec.ofNat _ d.size))

namespace WritesRd

theorem of_writeRd (rd : ℕ) (h : e.isCall = false) :
    WritesRd rt (writeRd rd e, .fall none) rd fun s => e.eval rt s :=
  fun d s => exec_writeRd_fall d s h

theorem of_writeReg (rd : ℕ) (h : e.isCall = false) :
    WritesRd rt ([.writeReg rd e], .fall none) rd fun s => e.eval rt s :=
  fun d s => exec_writeReg_fall d s h

theorem congr {body : Lifted X} {rd : ℕ} {v w : GuestState X → X.Reg} (h : WritesRd rt body rd v)
    (hvw : ∀ s, v s = w s) : WritesRd rt body rd w := by
  intro d s
  rw [h d s, hvw s]

variable {op : Expr X → Expr X → Expr X} {f : X.Reg → X.Reg → X.Reg} (rd rs1 : ℕ)

variable (h : Expr.Denotes op f)
include h

theorem liftR (rs2 : ℕ) :
    WritesRd rt (Rvr.liftR (.R rd rs1 rs2) op) rd fun s => f (s.readReg rs1) (s.readReg rs2) :=
  (of_writeRd rd (h.isCall rfl rfl)).congr fun s => h.eval rt s _ _

theorem liftI (imm : BitVec 32) :
    WritesRd rt (Rvr.liftI (.I rd rs1 imm) op) rd fun s =>
      f (s.readReg rs1) (imm.signExtend X.value) := by
  refine (of_writeRd rd (h.isCall rfl rfl)).congr fun s => ?_
  rw [h.eval, Xlen.fromU64_signExtend]
  rfl

theorem liftShift (rs2 : ℕ) :
    WritesRd rt (Rvr.liftShift (.R rd rs1 rs2) op) rd fun s =>
      f (s.readReg rs1) (s.readReg rs2 &&& BitVec.ofNat _ (X.value - 1)) := by
  refine (of_writeRd rd (h.isCall rfl (Expr.isCall_and _ _))).congr fun s => ?_
  rw [h.eval, Xlen.fromU64, BitVec.setWidth_ofNat_of_le X.value_le]
  rfl

theorem liftShiftw (rs2 : ℕ) :
    WritesRd rt (Rvr.liftShiftw (.R rd rs1 rs2) op) rd fun s =>
      f (s.readReg rs1) (s.readReg rs2 &&& BitVec.ofNat _ 0x1f) := by
  refine (of_writeRd rd (h.isCall rfl (Expr.isCall_and _ _))).congr fun s => ?_
  rw [h.eval]
  exact congrArg (fun m => f (s.readReg rs1) (s.readReg rs2 &&& m))
    (BitVec.setWidth_ofNat_of_le X.value_le 0x1f)

theorem liftShamt (imm : BitVec 32) :
    WritesRd rt (Rvr.liftShamt (.I rd rs1 imm) op) rd fun s =>
      f (s.readReg rs1) (BitVec.ofNat _ (imm.toNat % 64)) := by
  refine (of_writeRd rd (h.isCall rfl rfl)).congr fun s => ?_
  have hshamt : X.fromU64 ((imm &&& 0x3F).setWidth 64) = BitVec.ofNat _ (imm.toNat % 64) := by
    have hmask : (imm &&& 0x3F).toNat = imm.toNat % 64 := by
      exact Nat.and_two_pow_sub_one_eq_mod _ 6
    rw [Xlen.fromU64, BitVec.setWidth_setWidth_of_le _ X.value_le, ← BitVec.ofNat_toNat, hmask]
  rw [h.eval, hshamt]
  rfl

theorem liftBinary (rs2 : ℕ) :
    WritesRd rt (Rvr.liftBinary (.R rd rs1 rs2) op) rd fun s =>
      f (s.readReg rs1) (s.readReg rs2) :=
  (of_writeReg rd (h.isCall rfl rfl)).congr fun s => h.eval rt s _ _

end WritesRd

end Rvr
