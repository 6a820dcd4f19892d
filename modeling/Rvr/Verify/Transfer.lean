import Rvr.Verify.Reservation
import Rvr.Verify.Syscalls
import Rvr.Verify.ValueSets

/-!
# When the abstract transfer function is sound

A register state describes a guest state when it admits the value of every register.  The transfer
function changes at most the abstract value of rd; executing the lifted instruction changes at most
the register rd, except for ECALL, which writes `a0` without showing it in its operands.  So the
description survives an instruction exactly when the new abstract value admits the value that was
written, and this is spelled out for each kind of instruction in `TransferSound`.
-/

namespace Rvr

open Xlen

variable {X : Xlen}

/-- Every register is unknown or its value is in the set. -/
def RegisterState.Describes (state : RegisterState) (s : GuestState X) : Prop :=
  ∀ r : Fin numRegs, (state.regs r).Admits (toU64 (s.readReg r))

instance (r : RegisterValue) (v : U64) : Decidable (r.Admits v) :=
  inferInstanceAs (Decidable (_ ∨ _))

instance (state : RegisterState) (s : GuestState X) : Decidable (state.Describes s) :=
  inferInstanceAs (Decidable (∀ _ : Fin numRegs, _))

/-- The value survives truncation to a register. -/
def Xlen.Fits (X : Xlen) (v : U64) : Prop := toU64 (X.fromU64 v) = v

theorem RegisterState.Describes.get {state : RegisterState} {s : GuestState X}
    (h : state.Describes s) (r : ℕ) : (state.get r).Admits (toU64 (s.readReg r)) := by
  unfold RegisterState.get
  split_ifs with hr hzero
  · subst hzero
    exact RegisterValue.admits_constant.2 (toU64_eq_zero.2 rfl)
  · exact h ⟨r, hr⟩
  · exact RegisterValue.admits_unknown _

theorem RegisterState.get_eq (state : RegisterState) {r : ℕ} (hr : r < numRegs) :
    state.get r = state.regs ⟨r, hr⟩ := by
  unfold RegisterState.get
  split_ifs with hzero
  · subst hzero
    exact state.zero.symm
  · rfl

/-- After an instruction that writes at most one register, only that register has to be looked
at. -/
theorem describes_iff {state : RegisterState} {s s' : GuestState X} {rd : ℕ} (value : RegisterValue)
    (h : state.Describes s) (hframe : ∀ r, r ≠ 0 → r ≠ rd → s'.readReg r = s.readReg r) :
    (state.set rd value).Describes s' ↔
      (rd ≠ 0 → rd < numRegs → value.Admits (toU64 (s'.readReg rd))) := by
  constructor
  · intro hset hrd hlt
    have hne : (⟨rd, hlt⟩ : Fin numRegs) ≠ 0 := fun h => hrd (congrArg Fin.val h)
    have hreg := hset ⟨rd, hlt⟩
    dsimp only [RegisterState.set] at hreg
    rwa [if_neg hne, if_pos rfl] at hreg
  · intro hvalue r
    unfold RegisterState.set
    dsimp only
    split_ifs with hzero hrd
    · subst hzero
      rw [state.zero]
      exact RegisterValue.admits_constant.2 (toU64_eq_zero.2 rfl)
    · have hne : rd ≠ 0 := fun h => hzero (Fin.ext (hrd.trans h))
      rw [hrd]
      exact hvalue hne (hrd ▸ r.isLt)
    · rw [hframe r (fun h => hzero (Fin.ext h)) hrd]
      exact h r

/-- If nothing but `x0` changes, nothing has to be looked at. -/
theorem Describes.congr {state : RegisterState} {s s' : GuestState X} (h : state.Describes s)
    (hframe : ∀ r, r ≠ 0 → s'.readReg r = s.readReg r) : state.Describes s' := by
  intro r
  by_cases hzero : r = 0
  · subst hzero
    exact h 0
  · rw [hframe r fun h => hzero (Fin.ext h)]
    exact h r

/-! ## The abstract value that rd gets -/

/-- The abstract value that `transfer` gives to rd. -/
def transferValue (t : InstructionTable X) (pc : U64) (size : ℕ) (d : DecodedInstruction)
    (state : RegisterState) : RegisterValue :=
  let lhs := state.get (d.rs1.getD 0)
  let rhs := state.get (d.rs2.getD 0)
  match d.kind with
  | .lui => .constant (signExtendI32 d.imm)
  | .auipc => .constant (addSigned pc d.imm)
  | .addi => if lhs.isConstant then addImmediate lhs d.imm else .unknown
  | .add => if lhs.isConstant ∧ rhs.isConstant then addPairs lhs rhs else .unknown
  | .move => lhs
  | .load => ((loadReadonly t d (d.rs1.getD 0) lhs).map .constant).getD .unknown
  | .jal | .jalr => .constant (nextAddr pc size)
  | .branch | .unknown => .unknown

/-- The operands that a kind needs are there. -/
def DecodedInstruction.HasSources (d : DecodedInstruction) : Prop :=
  match d.kind with
  | .addi | .move | .load => d.rs1.isSome
  | .add => d.rs1.isSome ∧ d.rs2.isSome
  | _ => True

theorem hasSources_fromInstr (i : DecodedInstr X) :
    (DecodedInstruction.fromInstr i).HasSources := by
  obtain ⟨opid, pc, size, raw, args⟩ := i
  unfold DecodedInstruction.fromInstr
  split <;> first | trivial | (cases args <;> trivial)

variable {d : DecodedInstruction}

theorem transfer_of_rd_none (t : InstructionTable X) (pc : U64) (size : ℕ) (state : RegisterState)
    (hrd : d.rd = none) :
    transfer t pc size d state = state := by
  unfold transfer
  rw [hrd]
  cases d.kind <;> rfl

theorem transfer_of_rd (t : InstructionTable X) (pc : U64) (size : ℕ)
    (state : RegisterState) (hsources : d.HasSources) {rd : ℕ} (hrd : d.rd = some rd) :
    transfer t pc size d state = state.set rd (transferValue t pc size d state) := by
  obtain ⟨kind, _, rs1, rs2, imm, width, isUnsigned⟩ := d
  cases hrd
  cases kind with
  | addi =>
    obtain ⟨rs1, rfl⟩ := Option.isSome_iff_exists.1 hsources
    simp only [transfer, transferValue, Option.getD_some]
    split_ifs <;> rfl
  | add =>
    obtain ⟨rs1, rfl⟩ := Option.isSome_iff_exists.1 hsources.1
    obtain ⟨rs2, rfl⟩ := Option.isSome_iff_exists.1 hsources.2
    simp only [transfer, transferValue, Option.getD_some]
    split_ifs <;> rfl
  | move =>
    obtain ⟨rs1, rfl⟩ := Option.isSome_iff_exists.1 hsources
    rfl
  | load =>
    obtain ⟨rs1, rfl⟩ := Option.isSome_iff_exists.1 hsources
    simp only [transfer, transferValue, Option.getD_some]
    split <;> next h => rw [h]; rfl
  | lui | auipc | jal | jalr | branch | unknown => rfl

/-! ## The value that the guest writes to rd -/

/-- The value that the lifted instruction writes to rd, for the kinds that the analysis follows. -/
def writtenValue (pc : X.Reg) (size : ℕ) (d : DecodedInstruction) (s : GuestState X) : X.Reg :=
  let lhs := toU64 (s.readReg (d.rs1.getD 0))
  let rhs := toU64 (s.readReg (d.rs2.getD 0))
  match d.kind with
  | .lui => X.fromU64 (signExtendI32 d.imm)
  | .auipc => X.fromU64 (addSigned (toU64 pc) d.imm)
  | .addi => X.fromU64 (addSigned lhs d.imm)
  | .add => X.fromU64 (lhs + rhs)
  | .move => s.readReg (d.rs1.getD 0)
  | .load => s.loadMem (X.fromU64 (addSigned lhs d.imm)) d.loadWidthBytes (!d.isUnsigned)
  | .jal | .jalr => X.fromU64 (nextAddr (toU64 pc) size)
  | .branch | .unknown => 0

section Written

variable {rt : Runtime X} {s : GuestState X}

/-- The last statement writes rd. -/
theorem readReg_writeRd {rd : ℕ} (hrd : rd ≠ 0) {e : Expr X} (he : e.isCall = false) :
    (Stmt.execAll rt (writeRd rd e) s).readReg rd = e.eval rt s := by
  rw [execAll_writeRd s he, GuestState.readReg_writeReg_self _ hrd]

theorem fromU64_addSigned (v : X.Reg) (imm : BitVec 32) :
    X.fromU64 (addSigned (toU64 v) imm) = v + imm.signExtend X.value := by
  rw [addSigned, fromU64_add, fromU64_toU64, fromU64_signExtend]

theorem linkValue_eq_nextAddr (pc : X.Reg) (size : ℕ) :
    linkValue pc size = X.fromU64 (nextAddr (toU64 pc) size) := by
  rw [nextAddr, fromU64_add, fromU64_toU64]
  rfl

/-- The saved base of an indirect jump does not matter for the link. -/
theorem readReg_link {rd rs1 : ℕ} (hrd : rd ≠ 0) (pc : X.Reg) (size : ℕ) :
    (Stmt.execAll rt ((if rd = rs1 then [.writeTemp 0 (.read rs1)] else []) ++
      writeRd rd (.imm (linkValue pc size))) s).readReg rd
      = X.fromU64 (nextAddr (toU64 pc) size) := by
  rw [Stmt.execAll_append, readReg_writeRd hrd rfl, Expr.eval_imm, linkValue_eq_nextAddr]

theorem readReg_liftAddi {rd rs1 : ℕ} (hrd : rd ≠ 0) (imm : BitVec 32) :
    (Stmt.execAll rt (liftI (.I rd rs1 imm) Expr.add).1 s).readReg rd
      = X.fromU64 (addSigned (toU64 (s.readReg rs1)) imm) := by
  rw [liftI, readReg_writeRd hrd (Expr.isCall_add rfl rfl), Expr.eval_add, Expr.eval_imm,
    Expr.eval_read, fromU64_signExtend, fromU64_addSigned]

theorem readReg_liftAdd {rd rs1 rs2 : ℕ} (hrd : rd ≠ 0) :
    (Stmt.execAll rt (liftR (.R rd rs1 rs2) Expr.add).1 s).readReg rd
      = X.fromU64 (toU64 (s.readReg rs1) + toU64 (s.readReg rs2)) := by
  rw [liftR, readReg_writeRd hrd (Expr.isCall_add rfl rfl), Expr.eval_add, Expr.eval_read,
    Expr.eval_read, fromU64_add, fromU64_toU64, fromU64_toU64]

theorem readReg_liftLoad {rd rs1 : ℕ} (hrd : rd ≠ 0) {imm : BitVec 32}
    (hfits : (InstrArgs.I rd rs1 imm).OffsetFits) (width : ℕ) (signed : Bool) :
    (Stmt.execAll rt (liftLoad (.I rd rs1 imm) width signed).1 s).readReg rd
      = s.loadMem (X.fromU64 (addSigned (toU64 (s.readReg rs1)) imm)) width signed := by
  have hoffset : (toI16 imm).signExtend X.value = imm.signExtend X.value := by
    conv_rhs => rw [← show (toI16 imm).signExtend 32 = imm from hfits]
    have hwide : 16 ≤ X.value := (by decide : 16 ≤ 32).trans X.thirtyTwo_le_value
    apply BitVec.eq_of_toInt_eq
    rw [BitVec.toInt_signExtend_of_le hwide, BitVec.toInt_signExtend_of_le X.thirtyTwo_le_value,
      BitVec.toInt_signExtend_of_le (by decide)]
  rw [liftLoad, readReg_writeRd hrd rfl, fromU64_addSigned, ← hoffset]
  rfl

end Written

/-! ## The kinds that the analysis follows -/

/-- The analysis knows which register the instruction writes and what is written there. -/
def Followed (d : DecodedInstr X) : Prop :=
  ∃ rd, (DecodedInstruction.fromInstr d).rd = some rd ∧
    extractWrittenReg d.args = (if rd = 0 then none else some rd) ∧
    ∀ (rt : Runtime X) (s : GuestState X), rd ≠ 0 →
      (Stmt.execAll rt (standardBody d).1 s).readReg rd
        = writtenValue d.pc d.size (DecodedInstruction.fromInstr d) s

/-- The analysis only knows which register the instruction writes. -/
def Unfollowed (d : DecodedInstr X) : Prop :=
  (DecodedInstruction.fromInstr d).rd = extractWrittenReg d.args ∧
    ((DecodedInstruction.fromInstr d).kind = .unknown ∨
      (DecodedInstruction.fromInstr d).kind = .branch)

section Formats

variable {args : InstrArgs}

theorem InstrArgs.exists_of_format_r (h : some Format.r = some args.format) :
    ∃ rd rs1 rs2, args = .R rd rs1 rs2 := by
  cases args <;> first | exact ⟨_, _, _, rfl⟩ | cases h

theorem InstrArgs.exists_of_format_i (h : some Format.i = some args.format) :
    ∃ rd rs1 imm, args = .I rd rs1 imm := by
  cases args <;> first | exact ⟨_, _, _, rfl⟩ | cases h

theorem InstrArgs.exists_of_format_b (h : some Format.b = some args.format) :
    ∃ rs1 rs2 imm, args = .B rs1 rs2 imm := by
  cases args <;> first | exact ⟨_, _, _, rfl⟩ | cases h

theorem InstrArgs.exists_of_format_u (h : some Format.u = some args.format) :
    ∃ rd imm, args = .U rd imm := by
  cases args <;> first | exact ⟨_, _, rfl⟩ | cases h

theorem InstrArgs.exists_of_format_j (h : some Format.j = some args.format) :
    ∃ rd imm, args = .J rd imm := by
  cases args <;> first | exact ⟨_, _, rfl⟩ | cases h

end Formats

theorem followed_baseOp {op : BaseOp} {pc : X.Reg} {size : ℕ} {raw : BitVec 32} {args : InstrArgs}
    (hacc : (OpId.i op).Accepts args) :
    Followed ⟨.i op, pc, size, raw, args⟩ ∨ Unfollowed ⟨.i op, pc, size, raw, args⟩ := by
  obtain ⟨hformat, hoperands⟩ := hacc
  cases op
  case lui | auipc =>
    obtain ⟨rd, imm, rfl⟩ := InstrArgs.exists_of_format_u hformat
    exact .inl ⟨rd, rfl, rfl, fun rt s hrd => readReg_writeRd hrd rfl⟩
  case addi =>
    obtain ⟨rd, rs1, imm, rfl⟩ := InstrArgs.exists_of_format_i hformat
    exact .inl ⟨rd, rfl, rfl, fun rt s hrd => readReg_liftAddi hrd imm⟩
  case add =>
    obtain ⟨rd, rs1, rs2, rfl⟩ := InstrArgs.exists_of_format_r hformat
    exact .inl ⟨rd, rfl, rfl, fun rt s hrd => readReg_liftAdd hrd⟩
  case jal =>
    obtain ⟨rd, imm, rfl⟩ := InstrArgs.exists_of_format_j hformat
    exact .inl ⟨rd, rfl, rfl, fun rt s hrd =>
      (readReg_writeRd hrd rfl).trans (linkValue_eq_nextAddr pc size)⟩
  case jalr =>
    obtain ⟨rd, rs1, imm, rfl⟩ := InstrArgs.exists_of_format_i hformat
    exact .inl ⟨rd, rfl, rfl, fun rt s hrd => readReg_link hrd pc size⟩
  case lb | lbu | lh | lhu | lw | lwu | ld =>
    obtain ⟨rd, rs1, imm, rfl⟩ := InstrArgs.exists_of_format_i hformat
    exact .inl ⟨rd, rfl, rfl, fun rt s hrd => readReg_liftLoad hrd hoperands _ _⟩
  case beq | bne | blt | bge | bltu | bgeu =>
    obtain ⟨rs1, rs2, imm, rfl⟩ := InstrArgs.exists_of_format_b hformat
    exact .inr ⟨rfl, .inr rfl⟩
  all_goals exact .inr ⟨rfl, .inl rfl⟩

theorem followed_cOp {op : COp} {pc : X.Reg} {size : ℕ} {raw : BitVec 32} {args : InstrArgs}
    (hacc : (OpId.c op).Accepts args) :
    Followed ⟨.c op, pc, size, raw, args⟩ ∨ Unfollowed ⟨.c op, pc, size, raw, args⟩ := by
  obtain ⟨hformat, hoperands⟩ := hacc
  cases op
  case lui =>
    obtain ⟨rd, imm, rfl⟩ := InstrArgs.exists_of_format_u hformat
    exact .inl ⟨rd, rfl, rfl, fun rt s hrd => readReg_writeRd hrd rfl⟩
  case addi | addi16sp | addi4spn =>
    obtain ⟨rd, rs1, imm, rfl⟩ := InstrArgs.exists_of_format_i hformat
    exact .inl ⟨rd, rfl, rfl, fun rt s hrd => readReg_liftAddi hrd imm⟩
  case li =>
    -- the lift drops rs1, which the decoder has set to `x0`
    obtain ⟨rd, rs1, imm, rfl⟩ := InstrArgs.exists_of_format_i hformat
    obtain rfl : rs1 = 0 := hoperands
    refine .inl ⟨rd, rfl, rfl, fun rt s hrd => (readReg_writeRd hrd rfl).trans ?_⟩
    have hzero : toU64 (s.readReg 0) = 0 := toU64_eq_zero.2 rfl
    change X.fromU64 (imm.signExtend 64) = X.fromU64 (addSigned (toU64 (s.readReg 0)) imm)
    rw [hzero]
    exact congrArg X.fromU64 (BitVec.zero_add _).symm
  case add =>
    obtain ⟨rd, rs1, rs2, rfl⟩ := InstrArgs.exists_of_format_r hformat
    exact .inl ⟨rd, rfl, rfl, fun rt s hrd => readReg_liftAdd hrd⟩
  case mv =>
    obtain ⟨rd, rs1, rs2, rfl⟩ := InstrArgs.exists_of_format_r hformat
    exact .inl ⟨rd, rfl, rfl, fun rt s hrd => readReg_writeRd hrd rfl⟩
  case j =>
    obtain ⟨rd, imm, rfl⟩ := InstrArgs.exists_of_format_j hformat
    exact .inl ⟨rd, rfl, rfl, fun rt s hrd => absurd hoperands hrd⟩
  case jal =>
    obtain ⟨rd, imm, rfl⟩ := InstrArgs.exists_of_format_j hformat
    exact .inl ⟨rd, rfl, rfl, fun rt s hrd =>
      (readReg_writeRd hrd rfl).trans (linkValue_eq_nextAddr pc size)⟩
  case jr =>
    obtain ⟨rd, rs1, imm, rfl⟩ := InstrArgs.exists_of_format_i hformat
    exact .inl ⟨rd, rfl, rfl, fun rt s hrd => absurd hoperands hrd⟩
  case jalr =>
    obtain ⟨rd, rs1, imm, rfl⟩ := InstrArgs.exists_of_format_i hformat
    exact .inl ⟨rd, rfl, rfl, fun rt s hrd => readReg_link hrd pc size⟩
  case lw | lwsp | ld | ldsp =>
    obtain ⟨rd, rs1, imm, rfl⟩ := InstrArgs.exists_of_format_i hformat
    exact .inl ⟨rd, rfl, rfl, fun rt s hrd => readReg_liftLoad hrd hoperands _ _⟩
  case beqz | bnez =>
    obtain ⟨rs1, rs2, imm, rfl⟩ := InstrArgs.exists_of_format_b hformat
    exact .inr ⟨rfl, .inr rfl⟩
  all_goals exact .inr ⟨rfl, .inl rfl⟩

/-- Every instruction of a standard extension is followed or its destination is forgotten. -/
theorem followed_or_unfollowed {d : DecodedInstr X} (hacc : d.opid.Accepts d.args) :
    Followed d ∨ Unfollowed d := by
  obtain ⟨opid, pc, size, raw, args⟩ := d
  cases opid with
  | i op => exact followed_baseOp hacc
  | c op => exact followed_cOp hacc
  | _ => exact .inr ⟨rfl, .inl rfl⟩

/-! ## The condition for each kind -/

open ByteMemory in
/-- What has to hold before the instruction for the new abstract value of rd to be right.  Constants
have to survive truncation to a register, sums have to be taken from a set that has the truncated
sum, and a load from a read-only segment has to find the same value at the first base of the set as
the guest does at its own base.  On RV64 only the last can fail. -/
def DecodedInstruction.Sound (t : InstructionTable X) (pc : U64) (size : ℕ)
    (d : DecodedInstruction) (state : RegisterState) (s : GuestState X) : Prop :=
  let lhs := state.get (d.rs1.getD 0)
  let rhs := state.get (d.rs2.getD 0)
  let x := toU64 (s.readReg (d.rs1.getD 0))
  let y := toU64 (s.readReg (d.rs2.getD 0))
  match d.kind with
  | .lui => X.Fits (signExtendI32 d.imm)
  | .auipc => X.Fits (addSigned pc d.imm)
  | .addi => lhs.kind = .unknown ∨
      ∃ v ∈ lhs.values, addSigned v d.imm = toU64 (X.fromU64 (addSigned x d.imm))
  | .add => lhs.kind = .unknown ∨ rhs.kind = .unknown ∨ maxValues < (pairSums lhs rhs).card ∨
      toU64 (X.fromU64 (x + y)) ∈ pairSums lhs rhs
  | .load => d.rs1.getD 0 = 2 ∨ ∀ first ∈ lhs.values.head?,
      (t.readReadonly (addSigned first d.imm) d.loadWidthBytes).isSome →
      toU64 (s.loadMem (X.fromU64 (addSigned x d.imm)) d.loadWidthBytes (!d.isUnsigned)) =
        extendLoadedValue
          (BitVec.ofNat 64 (readLE s.mem (X.fromU64 (addSigned first d.imm)) d.loadWidthBytes))
          d.loadWidthBytes d.isUnsigned
  | .jal | .jalr => X.Fits (nextAddr pc size)
  | .move | .branch | .unknown => True

section Sound

variable {t : InstructionTable X} {state : RegisterState} {s : GuestState X}

theorem RegisterValue.kind_eq_unknown_iff {r : RegisterValue} :
    r.kind = .unknown ↔ ¬ r.kind = .constant := by
  cases r.kind <;> decide

theorem admits_addImmediate_iff (base : RegisterValue) (imm : BitVec 32) (v : U64) :
    (if base.isConstant then addImmediate base imm else .unknown).Admits v ↔
      base.kind = .unknown ∨ ∃ w ∈ base.values, addSigned w imm = v := by
  rw [RegisterValue.kind_eq_unknown_iff]
  by_cases hbase : base.kind = .constant
  · have hcard : ¬ maxValues < (base.values.toFinset.image (addSigned · imm)).card := by
      have hle := Finset.card_image_le (s := base.values.toFinset) (f := (addSigned · imm))
      have hlen := (List.toFinset_card_le base.values).trans base.length_le
      omega
    rw [if_pos (RegisterValue.isConstant_iff.2 hbase), (collects_addImmediate hbase imm).admits_iff]
    simp [hbase, hcard]
  · rw [if_neg (mt RegisterValue.isConstant_iff.1 hbase)]
    simp [hbase]

theorem admits_addPairs_iff (lhs rhs : RegisterValue) (v : U64) :
    (if lhs.isConstant ∧ rhs.isConstant then addPairs lhs rhs else .unknown).Admits v ↔
      lhs.kind = .unknown ∨ rhs.kind = .unknown ∨ maxValues < (pairSums lhs rhs).card ∨
        v ∈ pairSums lhs rhs := by
  simp only [RegisterValue.kind_eq_unknown_iff, RegisterValue.isConstant_iff]
  by_cases hboth : lhs.kind = .constant ∧ rhs.kind = .constant
  · rw [if_pos hboth, (collects_addPairs hboth.1 hboth.2).admits_iff]
    simp [hboth.1, hboth.2]
  · rw [if_neg hboth]
    simp only [RegisterValue.admits_unknown, true_iff]
    rcases not_and_or.1 hboth with h | h
    · exact .inl h
    · exact .inr (.inl h)

open ByteMemory in
theorem admits_loadReadonly_iff (hro : t.HeldBy s)
    (hwidth : d.loadWidthBytes ≤ 8) (rs1 : ℕ) (base : RegisterValue) (v : U64) :
    (((loadReadonly t d rs1 base).map RegisterValue.constant).getD .unknown).Admits v ↔
      rs1 = 2 ∨ ∀ first ∈ base.values.head?,
        (t.readReadonly (addSigned first d.imm) d.loadWidthBytes).isSome → v = extendLoadedValue
          (BitVec.ofNat 64 (readLE s.mem (X.fromU64 (addSigned first d.imm)) d.loadWidthBytes))
          d.loadWidthBytes d.isUnsigned := by
  unfold loadReadonly
  by_cases hsp : rs1 = 2
  · simp [hsp]
  cases hvals : base.values with
  | nil => simp
  | cons first rest =>
    have hconst : base.isConstant = true :=
      RegisterValue.isConstant_iff.2 (base.constant_of_values_ne_nil (by simp [hvals]))
    rw [if_pos ⟨hsp, hconst⟩]
    cases hread : t.readReadonly (addSigned first d.imm) d.loadWidthBytes with
    | none => simp [hread]
    | some raw =>
      have hraw := hro.readReadonly hwidth hread
      simp [hread, hsp, hraw]

/-- The new abstract value admits what the guest writes exactly under the condition of its kind. -/
theorem admits_transferValue_iff (hstate : state.Describes s) (hro : t.HeldBy s) (pc : U64)
    (size : ℕ) (hwidth : d.loadWidthBytes ≤ 8) :
    (transferValue t pc size d state).Admits
        (toU64 (writtenValue (X.fromU64 pc) size d s)) ↔ d.Sound t pc size state s := by
  have hpc (v : U64) : X.fromU64 (toU64 (X.fromU64 pc) + v) = X.fromU64 (pc + v) := by
    rw [fromU64_add, fromU64_toU64, fromU64_add]
  unfold transferValue writtenValue DecodedInstruction.Sound
  cases d.kind with
  | lui => exact RegisterValue.admits_constant
  | auipc =>
    dsimp only [addSigned]
    rw [hpc]
    exact RegisterValue.admits_constant
  | jal | jalr =>
    dsimp only [nextAddr]
    rw [hpc]
    exact RegisterValue.admits_constant
  | addi => exact admits_addImmediate_iff _ _ _
  | add => exact admits_addPairs_iff _ _ _
  | move => exact iff_of_true (hstate.get _) trivial
  | load => exact admits_loadReadonly_iff hro hwidth _ _ _
  | branch | unknown => exact iff_of_true (RegisterValue.admits_unknown _) trivial

end Sound

/-! ## Soundness -/

section Main

variable {t : InstructionTable X} {abi : SyscallAbi} {rt : Runtime X} {state : RegisterState}
  {s : GuestState X}

/-- What has to hold before an instruction for the transfer function to be right about it: for
ECALL, that `a0` already admits the result of the call, and otherwise the condition of its kind,
unless rd is `x0`. -/
def TransferSound (t : InstructionTable X) (abi : SyscallAbi) (rt : Runtime X) (pc : U64)
    (d : DecodedInstr X) (state : RegisterState) (s : GuestState X) : Prop :=
  if d.opid = .i .ecall then
    (state.get REG_A0).Admits (toU64 ((linuxTable abi).result rt s))
  else
    ∀ rd, (DecodedInstruction.fromInstr d).rd = some rd → rd ≠ 0 → rd < numRegs →
      (DecodedInstruction.fromInstr d).Sound t pc d.size state s

/-- The transfer function leaves the registers of an ECALL alone. -/
theorem transfer_ecall {pc : U64} {d : DecodedInstr X} (hacc : d.opid.Accepts d.args)
    (hecall : d.opid = .i .ecall) :
    transfer t pc d.size (.fromInstr d) state = state := by
  obtain ⟨opid, ipc, size, raw, args⟩ := d
  cases hecall
  have hformat := hacc.format_eq
  cases args with
  | none => rfl
  | _ => cases hformat

theorem describes_ecall_iff (hstate : state.Describes s) (d : DecodedInstr X) :
    state.Describes (((linuxHandler abi d).exec rt s).1) ↔
      (state.get REG_A0).Admits (toU64 ((linuxTable abi).result rt s)) := by
  rw [← readReg_a0_linuxHandler abi d s]
  refine ⟨fun h => h.get REG_A0, fun h r => ?_⟩
  by_cases hr : r.val = REG_A0
  · rw [← state.get_eq r.isLt, hr]
    exact h
  · rw [linuxHandler, SyscallTable.readReg_buildIr _ d s hr]
    exact hstate r

theorem loadShape_le (opid : OpId) : (DecodedInstruction.loadShape opid).1 ≤ 8 := by
  unfold DecodedInstruction.loadShape
  split <;> decide

theorem loadWidthBytes_fromInstr_le (d : DecodedInstr X) :
    (DecodedInstruction.fromInstr d).loadWidthBytes ≤ 8 := by
  obtain ⟨opid, pc, size, raw, args⟩ := d
  unfold DecodedInstruction.fromInstr
  split <;> cases args <;> first | exact Nat.zero_le _ | exact loadShape_le _

/-- An instruction whose destination is forgotten is always described. -/
theorem describes_unfollowed (hstate : state.Describes s) {pc : U64} {d : DecodedInstr X}
    (hd : Unfollowed d) {s' : GuestState X}
    (hframe : ∀ r, r ≠ 0 → extractWrittenReg d.args ≠ some r → s'.readReg r = s.readReg r) :
    (transfer t pc d.size (.fromInstr d) state).Describes s' := by
  obtain ⟨hrd, hkind⟩ := hd
  cases hwritten : extractWrittenReg d.args with
  | none =>
    rw [transfer_of_rd_none t pc d.size state (hrd.trans hwritten)]
    exact Describes.congr hstate fun r hr => hframe r hr (by simp [hwritten])
  | some rd =>
    rw [transfer_of_rd t pc d.size state (hasSources_fromInstr d) (hrd.trans hwritten),
      describes_iff _ hstate fun r hr hne => hframe r hr (by simpa [hwritten] using Ne.symm hne)]
    intro _ _
    unfold transferValue
    rcases hkind with hkind | hkind <;> rw [hkind] <;> exact RegisterValue.admits_unknown _

/-- The transfer function is right about an instruction exactly under the condition of its kind. -/
theorem transfer_describes_iff {pc : U64} {d : DecodedInstr X} (hpc : d.pc = X.fromU64 pc)
    (hd : Decoded (linuxHandler abi) d) (hstate : state.Describes s) (hro : t.HeldBy s) :
    (transfer t pc d.size (.fromInstr d) state).Describes (execInstr (linuxHandler abi) rt s d) ↔
      TransferSound t abi rt pc d state s := by
  have hacc : d.opid.Accepts d.args := by
    obtain ⟨bytes, ipc, hdecode⟩ := hd
    exact standard_decode_accepts hdecode
  have hstd := isStandard_of_decoded hd
  unfold TransferSound
  split_ifs with hecall
  · rw [transfer_ecall hacc hecall, execInstr, standard_lift_ecall _ hecall]
    exact describes_ecall_iff hstate d
  · have hframe : ∀ r, r ≠ 0 → extractWrittenReg d.args ≠ some r →
        (execInstr (linuxHandler abi) rt s d).readReg r = s.readReg r := fun r hr hne => by
      rw [execInstr_eq s hstd hecall]
      exact Stmt.readReg_execAll rt s r _ (standardBody_writesOnly _ r hr hne)
    rcases followed_or_unfollowed hacc with ⟨rd, hrd, hwritten, hvalue⟩ | hunf
    · have hframe' : ∀ r, r ≠ 0 → r ≠ rd →
          (execInstr (linuxHandler abi) rt s d).readReg r = s.readReg r := fun r hr hne =>
        hframe r hr (by rw [hwritten]; split_ifs <;> simp [Ne.symm hne])
      have hadmits := admits_transferValue_iff hstate hro pc d.size (loadWidthBytes_fromInstr_le d)
      rw [transfer_of_rd t pc d.size state (hasSources_fromInstr d) hrd,
        describes_iff _ hstate hframe', execInstr_eq s hstd hecall, hrd]
      constructor
      · rintro h rd' ⟨⟩ hne hlt
        rw [← hadmits, ← hpc, ← hvalue rt s hne]
        exact h hne hlt
      · intro h hne hlt
        rw [hvalue rt s hne, hpc, hadmits]
        exact h rd rfl hne hlt
    · refine iff_of_true (describes_unfollowed hstate hunf hframe) fun rd _ _ _ => ?_
      unfold DecodedInstruction.Sound
      rcases hunf.2 with hkind | hkind <;> rw [hkind] <;> trivial

end Main

/-- No code, and one read-only word at `0x2000`. -/
def wordTable : InstructionTable .rv64 where
  slots := []
  baseAddress := 0
  endAddress := 0
  entryPoints := []
  roSegments := [⟨0x2000, 0x2004, [0x78, 0x56, 0x34, 0x12]⟩]
  length_slots := rfl
  length_slots_lt := by decide

/-- Memory with the word in place. -/
def wordState : GuestState .rv64 :=
  { GuestState.zero .rv64 with
    mem := fun addr => ([0x78, 0x56, 0x34, 0x12] : List (BitVec 8))[(addr - 0x2000).toNat]?.getD 0 }

theorem heldBy_wordState {s : GuestState .rv64} (h : s.mem = wordState.mem) :
    wordTable.HeldBy s := by
  intro seg hseg i byte hbyte
  obtain rfl := List.mem_singleton.1 hseg
  rw [h]
  match i, hbyte with
  | 0, rfl | 1, rfl | 2, rfl | 3, rfl => rfl

/-- `lw a0, 0(a1)`. -/
def loadWord : DecodedInstr .rv64 := ⟨.i .lw, 0x1000, 4, 0x0005A503, .I 10 11 0⟩

/-- Loads from read-only memory are followed when the base is known. -/
theorem transfer_describes_loadWord :
    let s := wordState.writeReg 11 0x2000
    let state := RegisterState.new.setConstant 11 0x2000
    let rt : Runtime .rv64 := ⟨fun _ => 0, fun _ _ _ => 0, fun _ _ s => s.mem⟩
    (transfer wordTable 0x1000 4 (.fromInstr loadWord) state).get 10 = .constant 0x12345678 ∧
      (transfer wordTable 0x1000 4 (.fromInstr loadWord) state).Describes
        (execInstr (linuxHandler .standard) rt s loadWord) := by
  have hd : Decoded (linuxHandler .standard) loadWord :=
    ⟨[0x03, 0xA5, 0x05, 0x00], 0x1000, by decide +kernel⟩
  have hstate : (RegisterState.new.setConstant 11 0x2000).Describes
      (wordState.writeReg 11 0x2000) := by decide +kernel
  refine ⟨by decide +kernel,
    (transfer_describes_iff rfl hd hstate (heldBy_wordState rfl)).2 ?_⟩
  rintro rd ⟨⟩ _ _
  refine .inr fun first hfirst _ => ?_
  obtain rfl : (0x2000 : U64) = first := Option.some.inj hfirst
  decide +kernel

/-- `getpid` returns 1 in `a0`, and the analysis keeps the old value of `a0`. -/
theorem transfer_ecall_misses_a0 :
    let s := (wordState.writeReg 10 5).writeReg 17 172
    let d : DecodedInstr .rv64 := ⟨.i .ecall, 0x1000, 4, 0x73, .none⟩
    let state := RegisterState.new.setConstant 10 5
    let rt : Runtime .rv64 := ⟨fun _ => 0, fun _ _ _ => 0, fun _ _ s => s.mem⟩
    Decoded (linuxHandler .standard) d ∧ state.Describes s ∧ wordTable.HeldBy s ∧
      ¬ (transfer wordTable 0x1000 4 (.fromInstr d) state).Describes
        (execInstr (linuxHandler .standard) rt s d) :=
  ⟨⟨[0x73, 0x00, 0x00, 0x00], 0x1000, by decide +kernel⟩, by decide +kernel, heldBy_wordState rfl,
    by decide +kernel⟩

end Rvr
