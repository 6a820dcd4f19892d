import Rvr.Cfg.Decoded
import Rvr.Isa.Exec

/-!
# What lifted instructions are made of

The lifts of the standard extensions build their expressions from registers, immediates, CSRs,
memory and the operators of the IR, and they write the register that the operands name, CSRs and
memory.  A property of expressions that these have and that the operators keep is a property of
every expression of a lifted instruction (`within_standardBody`).  Only the indirect jumps and the
AMOs use temporaries, and only atomics and stores write the reservation.  A class may ask that the
amount of every shift is in range; it then contains the lifted instructions whose operands are
(`OpId.ShamtsOk`).
-/

namespace Rvr

variable {X : Xlen}

/-! ## Shift amounts -/

/-- The amount of a shift node is smaller than the width that is shifted. -/
def BinaryOp.AmountInRange (amount : X.Reg) : BinaryOp → Prop
  | .sll | .srl | .sra => amount.toNat < X.value
  | .sllW | .srlW | .sraW => amount.toNat < 32
  | _ => True

/-- The value of an expression is below a bound in every guest state. -/
def Expr.Below (e : Expr X) (bound : ℕ) : Prop :=
  ∀ (rt : Runtime X) (s : GuestState X), (e.eval rt s).toNat < bound

theorem toNat_and_lt {w k : ℕ} {mask : BitVec w} (hmask : mask.toNat < k) (x : BitVec w) :
    (x &&& mask).toNat < k := by
  exact Nat.lt_of_le_of_lt Nat.and_le_right hmask

variable {bound : ℕ}

theorem Expr.Below.and {mask : X.Reg} (hmask : mask.toNat < bound) (e : Expr X) :
    (Expr.and e (.imm mask)).Below bound := by
  intro rt s
  rw [Expr.eval_and]
  exact toNat_and_lt hmask _

theorem Expr.Below.imm {v : U64} (hv : v.toNat < bound) (hbound : bound ≤ X.value) :
    (Expr.imm (X.fromU64 v)).Below bound := by
  have hX : bound < 2 ^ X.value := Nat.lt_of_le_of_lt hbound X.value.lt_two_pow_self
  intro rt s
  rwa [Expr.eval_imm, Xlen.toNat_fromU64_of_lt (Nat.lt_trans hv hX)]

/-- Register amounts under the masks of the lifts. -/
theorem Expr.Below.xlenMask (e : Expr X) : (Expr.and e xlenMask).Below X.value :=
  .and (by cases X <;> decide) e

theorem Expr.Below.wordMask (e : Expr X) : (Expr.and e (.imm (X.fromU64 0x1f))).Below 32 :=
  .and (by cases X <;> decide) e

/-- The shift amount is below a bound. -/
def InstrArgs.ShamtBelow (args : InstrArgs) (bound : ℕ) : Prop :=
  match args with
  | .I _ _ imm => imm.toNat < bound
  | _ => True

/-- The bounds that the decoders check or mask with.  The shifts of the base extension and of the C
extension are not here. -/
def OpId.ShamtFits (X : Xlen) (args : InstrArgs) : OpId → Prop
  | .i .slliw | .i .srliw | .i .sraiw | .zbb .roriw => args.ShamtBelow 32
  | .zba .slliUw | .zbb .rori | .zbs .bclri | .zbs .bexti | .zbs .binvi | .zbs .bseti =>
    args.ShamtBelow X.value
  | _ => True

/-- The amount of an immediate shift, of which the lift keeps six bits, is below a bound, or there
is nothing to write. -/
def InstrArgs.LowShamtBelow (args : InstrArgs) (bound : ℕ) : Prop :=
  match args with
  | .I rd _ imm => rd = 0 ∨ imm.toNat % 64 < bound
  | _ => True

theorem InstrArgs.ShamtBelow.low {args : InstrArgs} (h : args.ShamtBelow bound) :
    args.LowShamtBelow bound := by
  cases args with
  | I rd rs1 imm => exact .inr (Nat.lt_of_le_of_lt (Nat.mod_le _ _) h)
  | _ => trivial

/-- The shift amount of an immediate shift of the base and C extensions is smaller than the register
width, or the shift writes no register. -/
def OpId.ShamtInRange (X : Xlen) (args : InstrArgs) : OpId → Prop
  | .i .slli | .i .srli | .i .srai | .c .slli | .c .srli | .c .srai => args.LowShamtBelow X.value
  | _ => True

/-- All immediate shift amounts are in range. -/
def OpId.ShamtsOk (X : Xlen) (args : InstrArgs) (o : OpId) : Prop :=
  o.ShamtFits X args ∧ o.ShamtInRange X args

/-! ## Classes of expressions -/

/-- A class of expressions that contains what the lifts read and that the operators keep; with `R`,
only the shifts by amounts in range. -/
structure ExprClass (R : Prop) (P : Expr X → Prop) : Prop where
  imm : ∀ v, P (.imm v)
  reg : ∀ idx, P (.reg idx)
  csr : ∀ csr, P (.csr csr)
  resAddr : P .resAddr
  resValid : P .resValid
  mem : ∀ {base} (offset : BitVec 16) (width : ℕ) (signed : Bool), P base →
    P (.mem base offset width signed)
  memAddr : ∀ {addr} (width : ℕ) (signed : Bool), P addr → P (.memAddr addr width signed)
  unary : ∀ (op : UnaryOp) {e}, P e → P (.unary op e)
  binary : ∀ (op : BinaryOp) {l r : Expr X},
    (R → ∀ rt s, op.AmountInRange (r.eval rt s)) → P l → P r → P (.binary op l r)
  select : ∀ {c t e}, P c → P t → P e → P (.select c t e)

namespace ExprClass

theorem univ : ExprClass False fun _ : Expr X => True :=
  ⟨fun _ => trivial, fun _ => trivial, fun _ => trivial, trivial, trivial, fun _ _ _ _ => trivial,
    fun _ _ _ => trivial, fun _ _ _ => trivial, fun _ _ _ _ _ _ => trivial, fun _ _ _ => trivial⟩

variable {R : Prop} {P : Expr X → Prop} (h : ExprClass R P) {l r e : Expr X}
include h

/-- An operator that is no shift. -/
theorem plain (op : BinaryOp) (hop : ∀ v : X.Reg, op.AmountInRange v) (hl : P l) (hr : P r) :
    P (.binary op l r) :=
  h.binary op (fun _ _ _ => hop _) hl hr

/-! The constructors that fold return an immediate, an operand or the operator itself. -/

theorem dropZero {op : BinaryOp} {l' r' : Expr X} (hl : P l) (hr : P r) (hl' : P l') (hr' : P r')
    (hop : ∀ v : X.Reg, op.AmountInRange v) :
    P (if r.isZero then l' else if l.isZero then r' else .binary op l r) := by
  split_ifs
  · exact hl'
  · exact hr'
  · exact h.plain op hop hl hr

theorem dropShift {op : BinaryOp} {l' : Expr X} (hop : R → ∀ rt s, op.AmountInRange (r.eval rt s))
    (hl : P l) (hr : P r) (hl' : P l') : P (if r.isZero then l' else .binary op l r) := by
  split_ifs
  · exact hl'
  · exact h.binary op hop hl hr

variable (he : P e)
include he

theorem sext32 : P (.sext32 e) := by
  unfold Expr.sext32
  split
  · exact h.imm _
  · exact h.unary _ he

theorem zext32 : P (.zext32 e) := by
  unfold Expr.zext32
  split
  · exact h.imm _
  · exact h.unary _ he

theorem sext8 : P (.sext8 e) := by
  unfold Expr.sext8
  split
  · exact h.imm _
  · exact h.unary _ he

theorem sext16 : P (.sext16 e) := by
  unfold Expr.sext16
  split
  · exact h.imm _
  · exact h.unary _ he

theorem zext16 : P (.zext16 e) := by
  unfold Expr.zext16
  split
  · exact h.imm _
  · exact h.unary _ he

theorem not : P (.not e) := h.unary _ he

variable (hl : P l) (hr : P r)
include hl hr

omit he

theorem add : P (.add l r) := by
  unfold Expr.add
  split
  · exact h.imm _
  · exact h.dropZero hl hr hl hr fun _ => trivial

theorem sub : P (.sub l r) := by
  unfold Expr.sub
  split
  · exact h.imm _
  · exact h.dropZero hl hr hl (h.unary _ hr) fun _ => trivial

theorem and : P (.and l r) := by
  unfold Expr.and
  split
  · exact h.imm _
  · exact h.plain _ (fun _ => trivial) hl hr

theorem or : P (.or l r) := by
  unfold Expr.or
  split
  · exact h.imm _
  · exact h.dropZero hl hr hl hr fun _ => trivial

theorem xor : P (.xor l r) := by
  unfold Expr.xor
  split
  · exact h.imm _
  · exact h.dropZero hl hr hl hr fun _ => trivial

theorem ltu : P (.ltu l r) := by
  unfold Expr.ltu
  split_ifs
  · exact h.plain _ (fun _ => trivial) hr (h.imm _)
  · exact h.plain _ (fun _ => trivial) hl hr

variable (hlt : R → r.Below X.value)
include hlt

theorem sll : P (.sll l r) :=
  h.dropShift hlt hl hr hl

theorem srl : P (.srl l r) :=
  h.dropShift hlt hl hr hl

theorem sra : P (.sra l r) :=
  h.dropShift hlt hl hr hl

omit hlt

theorem addw : P (.addw l r) :=
  h.dropZero hl hr (h.sext32 hl) (h.sext32 hr) fun _ => trivial

theorem subw : P (.subw l r) :=
  h.dropZero hl hr (h.sext32 hl) (h.sext32 (h.unary _ hr)) fun _ => trivial

theorem sllw (hlt : R → r.Below 32) : P (.sllw l r) :=
  h.dropShift hlt hl hr (h.sext32 hl)

theorem srlw (hlt : R → r.Below 32) : P (.srlw l r) :=
  h.dropShift hlt hl hr (h.sext32 hl)

theorem sraw (hlt : R → r.Below 32) : P (.sraw l r) :=
  h.dropShift hlt hl hr (h.sext32 hl)

theorem lt : P (.lt l r) := h.plain _ (fun _ => trivial) hl hr

theorem min : P (.min l r) := h.select (h.lt hl hr) hl hr

theorem max : P (.max l r) := h.select (h.lt hl hr) hr hl

theorem minu : P (.minu l r) := h.select (h.ltu hl hr) hl hr

theorem maxu : P (.maxu l r) := h.select (h.ltu hl hr) hr hl

theorem min32 : P (.min32 l r) :=
  h.select (h.lt (h.sext32 hl) (h.sext32 hr)) hl hr

theorem max32 : P (.max32 l r) :=
  h.select (h.lt (h.sext32 hl) (h.sext32 hr)) hr hl

theorem minu32 : P (.minu32 l r) :=
  h.select (h.ltu (h.zext32 hl) (h.zext32 hr)) hl hr

theorem maxu32 : P (.maxu32 l r) :=
  h.select (h.ltu (h.zext32 hl) (h.zext32 hr)) hr hl

end ExprClass

/-! ## Classes of statements -/

/-- LR, SC, AMO and store instructions. -/
def OpId.touchesReservation : OpId → Bool
  | .a _ => true
  | .i .sb | .i .sh | .i .sw | .i .sd => true
  | .c .sw | .c .sd | .c .swsp | .c .sdsp => true
  | _ => false

/-- The indirect jumps with a link and the AMO instructions. -/
def OpId.usesTemps : OpId → Bool
  | .i .jalr | .c .jalr => true
  | .a .lrW | .a .lrD | .a .scW | .a .scD => false
  | .a _ => true
  | _ => false

section Classes

variable (R : Prop) (P : Expr X → Prop) (W : WriteTarget X → Expr X → Prop)

mutual

/-- A statement made of expressions of a class and of writes of a class. -/
def Stmt.Within : Stmt X → Prop
  | .write target value => W target value
  | .ite cond thenStmts elseStmts =>
    P cond ∧ Stmt.AllWithin thenStmts ∧ Stmt.AllWithin elseStmts
  | .externCall _ args => ∀ e ∈ args, P e

def Stmt.AllWithin : List (Stmt X) → Prop
  | [] => True
  | st :: sts => st.Within ∧ Stmt.AllWithin sts

end

/-- A terminator made of expressions of a class, without known targets of indirect jumps and with a
constant or a register as exit code. -/
def Terminator.Within : Terminator X → Prop
  | .jumpDyn addr resolved => P addr ∧ resolved = none
  | .branch cond _ _ _ => P cond
  | .exit code => P code ∧ ((∃ v, code = .imm v) ∨ ∃ idx, code = .read idx)
  | _ => True

def Lifted.Within (body : Lifted X) : Prop := Stmt.AllWithin P W body.1 ∧ body.2.Within P

/-- The operands name a destination. -/
abbrev InstrArgs.Dest (args : InstrArgs) (rd : ℕ) : Prop :=
  extractWrittenReg args = if rd = 0 then Option.none else some rd

/-- Classes of expressions and writes that contain what the lifts of instructions with some operands
use. -/
structure LiftClass (args : InstrArgs) : Prop extends ExprClass R P where
  writeReg : ∀ {idx e}, args.Dest idx → P e → W (.reg idx) e
  writeCsr : ∀ csr {e}, P e → W (.csr csr) e
  writeMem : ∀ {base} (offset : BitVec 16) (width : ℕ) {e}, P base → P e →
    W (.mem base offset width) e

/-- The classes contain the reservation, too. -/
structure HasReservation : Prop where
  addr : ∀ {e}, P e → W .resAddr e
  valid : ∀ {e}, P e → W .resValid e

/-- The classes contain temporaries, too. -/
def HasTemps : Prop := ∀ idx, P (.temp idx) ∧ ∀ {e}, P e → W (.temp idx) e

/-- An operator that keeps a class. -/
def Keeps (op : Expr X → Expr X → Expr X) : Prop := ∀ {l r}, P l → P r → P (op l r)

/-- A shift that keeps a class if its amount is below a bound. -/
def KeepsBelow (bound : ℕ) (op : Expr X → Expr X → Expr X) : Prop :=
  ∀ {l r}, P l → P r → (R → r.Below bound) → P (op l r)

end Classes

section Bodies

variable {R : Prop} {P : Expr X → Prop} {W : WriteTarget X → Expr X → Prop} {args : InstrArgs}
  (h : LiftClass R P W args) {op : Expr X → Expr X → Expr X}

theorem toNat_lowShamt (imm : BitVec 32) :
    ((imm &&& 0x3F).setWidth 64 : U64).toNat = imm.toNat % 64 := by
  exact Nat.and_two_pow_sub_one_eq_mod _ 6

theorem within_trap (message : String) : Lifted.Within P W ([], .trap message) := ⟨trivial, trivial⟩

theorem allWithin_append {as bs : List (Stmt X)} (has : Stmt.AllWithin P W as)
    (hbs : Stmt.AllWithin P W bs) : Stmt.AllWithin P W (as ++ bs) := by
  induction as with
  | nil => exact hbs
  | cons a as ih => exact ⟨has.1, ih has.2⟩

theorem allWithin_ite {c : Prop} [Decidable c] {as : List (Stmt X)} (has : Stmt.AllWithin P W as) :
    Stmt.AllWithin P W (if c then as else []) := by
  split_ifs
  · exact has
  · trivial

include h

variable {e : Expr X}

theorem allWithin_writeRd {rd : ℕ} (hrd : args.Dest rd) (he : P e) :
    Stmt.AllWithin P W (writeRd rd e) := allWithin_ite ⟨h.writeReg hrd he, trivial⟩

theorem within_writeRd {rd : ℕ} (hrd : args.Dest rd) (he : P e) :
    Lifted.Within P W (writeRd rd e, .fall none) := ⟨allWithin_writeRd h hrd he, trivial⟩

theorem within_writeReg {rd : ℕ} (hrd : args.Dest rd) (he : P e) :
    Lifted.Within P W ([.writeReg rd e], .fall none) := ⟨⟨h.writeReg hrd he, trivial⟩, trivial⟩

theorem within_liftR (hop : Keeps P op) : Lifted.Within P W (liftR args op) := by
  cases args with
  | R rd rs1 rs2 => exact within_writeRd h rfl (hop (h.reg _) (h.reg _))
  | _ => exact within_trap _

theorem within_liftShift (hop : KeepsBelow R P X.value op) :
    Lifted.Within P W (liftShift args op) := by
  cases args with
  | R rd rs1 rs2 =>
    exact within_writeRd h rfl (hop (h.reg _) (h.and (h.reg _) (h.imm _)) fun _ => .xlenMask _)
  | _ => exact within_trap _

theorem within_liftShiftw (hop : KeepsBelow R P 32 op) :
    Lifted.Within P W (liftShiftw args op) := by
  cases args with
  | R rd rs1 rs2 =>
    exact within_writeRd h rfl (hop (h.reg _) (h.and (h.reg _) (h.imm _)) fun _ => .wordMask _)
  | _ => exact within_trap _

theorem within_liftI (hop : Keeps P op) : Lifted.Within P W (liftI args op) := by
  cases args with
  | I rd rs1 imm => exact within_writeRd h rfl (hop (h.reg _) (h.imm _))
  | _ => exact within_trap _

theorem within_liftShamt (hop : KeepsBelow R P bound op) (hbound : bound ≤ X.value)
    (hshamt : R → args.LowShamtBelow bound) : Lifted.Within P W (liftShamt args op) := by
  cases args with
  | I rd rs1 imm =>
    by_cases hrd : rd = 0
    · subst hrd
      exact ⟨trivial, trivial⟩
    · refine within_writeRd h rfl (hop (h.reg _) (h.imm _) fun hR => .imm ?_ hbound)
      rw [toNat_lowShamt]
      exact (hshamt hR).resolve_left hrd
  | _ => exact within_trap _

theorem within_liftLoad {width : ℕ} {signed : Bool} :
    Lifted.Within P W (liftLoad args width signed) := by
  cases args with
  | I rd rs1 imm => exact within_writeRd h rfl (h.mem _ _ _ (h.reg _))
  | _ => exact within_trap _

theorem within_liftStore {width : ℕ} (hres : HasReservation P W) :
    Lifted.Within P W (liftStore args width) := by
  cases args with
  | S rs1 rs2 imm =>
    exact ⟨⟨h.writeMem _ _ (h.reg _) (h.reg _), hres.valid (h.imm _), trivial⟩, trivial⟩
  | _ => exact within_trap _

theorem within_liftLui : Lifted.Within P W (liftLui args) := by
  cases args with
  | U rd imm => exact within_writeRd h rfl (h.imm _)
  | _ => exact within_trap _

variable {pc : X.Reg}

theorem within_liftAuipc : Lifted.Within P W (liftAuipc args pc) := by
  cases args with
  | U rd imm => exact within_writeRd h rfl (h.imm _)
  | _ => exact within_trap _

variable {size : ℕ}

theorem within_liftJal : Lifted.Within P W (liftJal args pc size) := by
  cases args with
  | J rd imm => exact ⟨allWithin_writeRd h rfl (h.imm _), trivial⟩
  | _ => exact within_trap _

theorem within_liftBranch (hop : Keeps P op) :
    Lifted.Within P W (liftBranch args pc op) := by
  cases args with
  | B rs1 rs2 imm => exact ⟨trivial, hop (h.reg _) (h.reg _)⟩
  | _ => exact within_trap _

theorem within_liftBranchZero (hop : Keeps P op) :
    Lifted.Within P W (liftBranchZero args pc op) := by
  cases args with
  | B rs1 rs2 imm => exact ⟨trivial, hop (h.reg _) (h.imm _)⟩
  | _ => exact within_trap _

/-! ## Operations -/

theorem within_liftJalr (htemps : HasTemps P W) :
    Lifted.Within P W (liftJalr args pc size) := by
  cases args with
  | I rd rs1 imm =>
    have hbase : P (if rd = rs1 then .temp 0 else .read rs1) := by
      split_ifs
      · exact (htemps 0).1
      · exact h.reg _
    refine ⟨allWithin_append (allWithin_ite ⟨(htemps 0).2 (h.reg _), trivial⟩)
      (allWithin_writeRd h rfl (h.imm _)), ?_⟩
    exact ⟨h.and (h.add hbase (h.imm _)) (h.imm _), rfl⟩
  | _ => exact within_trap _

theorem within_liftBaseOp {o : BaseOp}
    (hshamt : R → (OpId.i o).ShamtsOk X args) (htemps : (OpId.i o).usesTemps = true → HasTemps P W)
    (hres : (OpId.i o).touchesReservation = true → HasReservation P W) :
    Lifted.Within P W (liftBaseOp args o pc size) := by
  cases o with
  | add => exact within_liftR h h.add
  | sub => exact within_liftR h h.sub
  | slt => exact within_liftR h h.lt
  | sltu => exact within_liftR h h.ltu
  | xor => exact within_liftR h h.xor
  | or => exact within_liftR h h.or
  | and => exact within_liftR h h.and
  | addw => exact within_liftR h h.addw
  | subw => exact within_liftR h h.subw
  | sll => exact within_liftShift h h.sll
  | srl => exact within_liftShift h h.srl
  | sra => exact within_liftShift h h.sra
  | sllw => exact within_liftShiftw h h.sllw
  | srlw => exact within_liftShiftw h h.srlw
  | sraw => exact within_liftShiftw h h.sraw
  | addi => exact within_liftI h h.add
  | slti => exact within_liftI h h.lt
  | sltiu => exact within_liftI h h.ltu
  | xori => exact within_liftI h h.xor
  | ori => exact within_liftI h h.or
  | andi => exact within_liftI h h.and
  | addiw => exact within_liftI h h.addw
  | slli => exact within_liftShamt h h.sll le_rfl fun hR => (hshamt hR).2
  | srli => exact within_liftShamt h h.srl le_rfl fun hR => (hshamt hR).2
  | srai => exact within_liftShamt h h.sra le_rfl fun hR => (hshamt hR).2
  | slliw => exact within_liftShamt h h.sllw X.thirtyTwo_le_value fun hR =>
      InstrArgs.ShamtBelow.low (hshamt hR).1
  | srliw => exact within_liftShamt h h.srlw X.thirtyTwo_le_value fun hR =>
      InstrArgs.ShamtBelow.low (hshamt hR).1
  | sraiw => exact within_liftShamt h h.sraw X.thirtyTwo_le_value fun hR =>
      InstrArgs.ShamtBelow.low (hshamt hR).1
  | lb | lh | lw | ld | lbu | lhu | lwu => exact within_liftLoad h
  | sb | sh | sw | sd => exact within_liftStore h (hres rfl)
  | beq | bne | blt | bge | bgeu => exact within_liftBranch h (h.plain _ fun _ => trivial)
  | bltu => exact within_liftBranch h h.ltu
  | lui => exact within_liftLui h
  | auipc => exact within_liftAuipc h
  | jal => exact within_liftJal h
  | jalr => exact within_liftJalr h (htemps rfl)
  | fence | mret => exact ⟨trivial, trivial⟩
  | ebreak => exact ⟨trivial, h.imm _, .inl ⟨_, rfl⟩⟩
  | ecall => exact within_trap _

theorem within_liftCJalr (htemps : HasTemps P W) :
    Lifted.Within P W (liftCJalr args pc size) := by
  cases args with
  | I rd rs1 imm =>
    refine ⟨allWithin_append (allWithin_ite ⟨(htemps 0).2 (h.reg _), trivial⟩)
      (allWithin_writeRd h rfl (h.imm _)), ?_, rfl⟩
    split_ifs
    · exact (htemps 0).1
    · exact h.reg _
  | _ => exact within_trap _

theorem within_liftCOp {o : COp}
    (hshamt : R → (OpId.c o).ShamtsOk X args) (htemps : (OpId.c o).usesTemps = true → HasTemps P W)
    (hres : (OpId.c o).touchesReservation = true → HasReservation P W) :
    Lifted.Within P W (liftCOp args o pc size) := by
  cases o with
  | add => exact within_liftR h h.add
  | sub => exact within_liftR h h.sub
  | xor => exact within_liftR h h.xor
  | or => exact within_liftR h h.or
  | and => exact within_liftR h h.and
  | addw => exact within_liftR h h.addw
  | subw => exact within_liftR h h.subw
  | addi | addi4spn | addi16sp => exact within_liftI h h.add
  | addiw => exact within_liftI h h.addw
  | andi => exact within_liftI h h.and
  | li => exact within_liftI h fun _ hr => hr
  | slli => exact within_liftShamt h h.sll le_rfl fun hR => (hshamt hR).2
  | srli => exact within_liftShamt h h.srl le_rfl fun hR => (hshamt hR).2
  | srai => exact within_liftShamt h h.sra le_rfl fun hR => (hshamt hR).2
  | lw | lwsp | ld | ldsp => exact within_liftLoad h
  | sw | swsp | sd | sdsp => exact within_liftStore h (hres rfl)
  | beqz | bnez => exact within_liftBranchZero h (h.plain _ fun _ => trivial)
  | lui => exact within_liftLui h
  | jal => exact within_liftJal h
  | jalr => exact within_liftCJalr h (htemps rfl)
  | mv =>
    cases args with
    | R rd rs1 rs2 => exact within_writeRd h rfl (h.reg _)
    | _ => exact within_trap _
  | j => cases args <;> exact ⟨trivial, trivial⟩
  | jr =>
    cases args with
    | I rd rs1 imm => exact ⟨trivial, h.reg _, rfl⟩
    | _ => exact within_trap _
  | nop => exact ⟨trivial, trivial⟩
  | ebreak => exact ⟨trivial, h.imm _, .inl ⟨_, rfl⟩⟩
  | invalid => exact within_trap _

theorem within_liftMOp {o : MOp} : Lifted.Within P W (liftMOp args o) := by
  cases o <;> exact within_liftR h (h.plain _ fun _ => trivial)

theorem within_liftAmo {rd rs1 rs2 width : ℕ} {signed : Bool} (hrd : args.Dest rd)
    (htemps : HasTemps P W) (hres : HasReservation P W) (hop : Keeps P op) :
      Lifted.Within P W (liftAmo rd rs1 rs2 width signed op) := by
  have hsaved (c : Prop) [Decidable c] (idx reg : ℕ) :
      P (if c then .temp idx else .read reg) := by
    split_ifs
    · exact (htemps idx).1
    · exact h.reg _
  have hload : P (if signed then .memS (if rd = rs1 then .temp 1 else .read rs1) width
      else .memU (if rd = rs1 then .temp 1 else .read rs1) width) := by
    split_ifs <;> first | exact h.memAddr _ _ (htemps 1).1 | exact h.memAddr _ _ (h.reg _)
  refine ⟨allWithin_append (allWithin_append
    (allWithin_ite ⟨(htemps 1).2 (h.reg _), trivial⟩)
    (allWithin_ite ⟨(htemps 3).2 (h.reg _), trivial⟩)) ?_, trivial⟩
  exact ⟨(htemps 2).2 hload, h.writeReg hrd (htemps 2).1,
    h.writeMem _ _ (hsaved _ 1 rs1) (hop (htemps 2).1 (hsaved _ 3 rs2)), hres.valid (h.imm _),
      trivial⟩

theorem within_liftAOp {rd rs1 rs2 : ℕ} {o : AOp} (hrd : args.Dest rd)
    (htemps : (OpId.a o).usesTemps = true → HasTemps P W) (hres : HasReservation P W) :
    Lifted.Within P W (liftAOp rd rs1 rs2 o) := by
  cases o with
  | lrW | lrD =>
    exact ⟨⟨hres.addr (h.reg _), hres.valid (h.imm _), h.writeReg hrd (h.memAddr _ _ (h.reg _)),
      trivial⟩, trivial⟩
  | scW | scD =>
    refine ⟨⟨⟨h.and (h.plain _ (fun _ => trivial) h.resValid (h.imm _))
      (h.plain _ (fun _ => trivial) h.resAddr (h.reg _)), ?_, ?_⟩,
      trivial⟩, trivial⟩
    · exact ⟨h.writeMem _ _ (h.reg _) (h.reg _), h.writeReg hrd (h.imm _), hres.valid (h.imm _),
        trivial⟩
    · exact ⟨h.writeReg hrd (h.imm _), hres.valid (h.imm _), trivial⟩
  | amoswapW | amoswapD => exact within_liftAmo h hrd (htemps rfl) hres fun _ hr => hr
  | amoaddW | amoaddD => exact within_liftAmo h hrd (htemps rfl) hres h.add
  | amoxorW | amoxorD => exact within_liftAmo h hrd (htemps rfl) hres h.xor
  | amoandW | amoandD => exact within_liftAmo h hrd (htemps rfl) hres h.and
  | amoorW | amoorD => exact within_liftAmo h hrd (htemps rfl) hres h.or
  | amominW => exact within_liftAmo h hrd (htemps rfl) hres h.min32
  | amomaxW => exact within_liftAmo h hrd (htemps rfl) hres h.max32
  | amominuW => exact within_liftAmo h hrd (htemps rfl) hres h.minu32
  | amomaxuW => exact within_liftAmo h hrd (htemps rfl) hres h.maxu32
  | amominD => exact within_liftAmo h hrd (htemps rfl) hres h.min
  | amomaxD => exact within_liftAmo h hrd (htemps rfl) hres h.max
  | amominuD => exact within_liftAmo h hrd (htemps rfl) hres h.minu
  | amomaxuD => exact within_liftAmo h hrd (htemps rfl) hres h.maxu

/-- A CSR instruction: rd gets the old value, then the CSR is written under a condition. -/
theorem within_csr {rd csr : ℕ} (hrd : args.Dest rd) (c : Prop) [Decidable c] (he : P e) :
    Lifted.Within P W
      (writeRd rd (.csr csr) ++ (if c then [Stmt.writeCsr csr e] else []), .fall none) :=
  ⟨allWithin_append (allWithin_writeRd h hrd (h.csr _)) (allWithin_ite ⟨h.writeCsr _ he, trivial⟩),
    trivial⟩

theorem within_liftZicsr {o : ZicsrOp} : Lifted.Within P W (liftZicsr args (.zicsr o)) := by
  cases o with
  | csrrw =>
    cases args with
    | Csr rd rs1 csr => exact within_csr h rfl True (h.reg rs1)
    | _ => exact within_trap _
  | csrrwi =>
    cases args with
    | CsrI rd imm csr => exact within_csr h rfl True (h.imm _)
    | _ => exact within_trap _
  | csrrs =>
    cases args with
    | Csr rd rs1 csr => exact within_csr h rfl (rs1 ≠ 0) (h.or (h.csr _) (h.reg _))
    | _ => exact within_trap _
  | csrrc =>
    cases args with
    | Csr rd rs1 csr => exact within_csr h rfl (rs1 ≠ 0) (h.and (h.csr _) (h.not (h.reg _)))
    | _ => exact within_trap _
  | csrrsi =>
    cases args with
    | CsrI rd imm csr => exact within_csr h rfl (imm ≠ 0) (h.or (h.csr _) (h.imm _))
    | _ => exact within_trap _
  | csrrci =>
    cases args with
    | CsrI rd imm csr => exact within_csr h rfl (imm ≠ 0) (h.and (h.csr _) (h.not (h.imm _)))
    | _ => exact within_trap _

theorem within_liftBinary (hop : Keeps P op) : Lifted.Within P W (liftBinary args op) := by
  cases args with
  | R rd rs1 rs2 => exact within_writeReg h rfl (hop (h.reg _) (h.reg _))
  | _ => exact within_trap _

theorem within_liftUnary {op : Expr X → Expr X} (hop : ∀ {e}, P e → P (op e)) :
    Lifted.Within P W (liftUnary args op) := by
  cases args with
  | I rd rs1 imm => exact within_writeReg h rfl (hop (h.reg _))
  | _ => exact within_trap _

theorem within_liftShamtOp {op : Expr X → U64 → Expr X} {bound : ℕ} (hbound : bound ≤ X.value)
    (hfits : R → args.ShamtBelow bound)
    (hop : ∀ {e} (v : U64), P e → (R → v.toNat < bound) → P (op e v)) :
    Lifted.Within P W (liftShamtOp args op) := by
  cases args with
  | I rd rs1 imm =>
    refine within_writeReg h rfl (hop _ (h.reg _) fun hR => ?_)
    have hlt : imm.toNat < bound := hfits hR
    have hle : X.value ≤ 64 := X.value_le
    rw [shamtOf, BitVec.toNat_setWidth_of_le (by decide), BitVec.toNat_setWidth,
      Nat.mod_eq_of_lt (by omega)]
    exact hlt
  | _ => exact within_trap _

theorem within_liftZba {o : ZbaOp} (hfits : R → (OpId.zba o).ShamtFits X args) :
    Lifted.Within P W (liftZba args (.zba o)) := by
  have hscale {l r : Expr X} (hl : P l) (hr : P r) (k : Fin 4) :
      P (.add r (.sll l (.imm (X.fromU64 (BitVec.ofNat 64 k))))) :=
    h.add hr (h.sll hl (h.imm _) fun _ => .imm (by cases X <;> decide +revert) le_rfl)
  cases o with
  | slliUw =>
    exact within_liftShamtOp h le_rfl hfits fun _ he hv =>
      h.sll (h.zext32 he) (h.imm _) fun hR => .imm (hv hR) le_rfl
  | addUw => exact within_liftBinary h fun hl hr => h.add hr (h.zext32 hl)
  | sh1add => exact within_liftBinary h fun hl hr => hscale hl hr 1
  | sh2add => exact within_liftBinary h fun hl hr => hscale hl hr 2
  | sh3add => exact within_liftBinary h fun hl hr => hscale hl hr 3
  | sh1addUw => exact within_liftBinary h fun hl hr => hscale (h.zext32 hl) hr 1
  | sh2addUw => exact within_liftBinary h fun hl hr => hscale (h.zext32 hl) hr 2
  | sh3addUw => exact within_liftBinary h fun hl hr => hscale (h.zext32 hl) hr 3

/-- A rotation by the amount in a register. -/
theorem keeps_rotate {mask width : X.Reg} (hmask : mask.toNat < X.value)
    {first second : Expr X → Expr X → Expr X} (hfirst : KeepsBelow R P X.value first)
    (hsecond : KeepsBelow R P X.value second) {l r : Expr X} (hl : P l) (hr : P r) :
    P (.or (first l (.and r (.imm mask))) (second l (.and (.sub (.imm width) r) (.imm mask)))) :=
  h.or (hfirst hl (h.and hr (h.imm _)) fun _ => .and hmask _)
    (hsecond hl (h.and (h.sub (h.imm _) hr) (h.imm _)) fun _ => .and hmask _)

/-- A rotation by an immediate amount. -/
theorem keeps_rotateImm (width : U64) {v : U64} (hwidth : width.toNat ≤ X.value)
    (hpos : 0 < width.toNat) (he : P e) (hv : R → v.toNat < width.toNat) :
    P (.or (.srl e (.imm (X.fromU64 v)))
      (.sll e (.imm (X.fromU64 ((width - v) &&& (width - 1)))))) := by
  have hmask : (width - 1).toNat < width.toNat := by
    rw [BitVec.toNat_sub_of_le (by rw [BitVec.le_def]; exact hpos)]
    exact Nat.sub_lt hpos (by decide)
  have hX {u : U64} (hu : u.toNat < width.toNat) : (Expr.imm (X.fromU64 u)).Below X.value :=
    .imm (Nat.lt_of_lt_of_le hu hwidth) le_rfl
  exact h.or (h.srl he (h.imm _) fun hR => hX (hv hR))
    (h.sll he (h.imm _) fun _ => hX (toNat_and_lt hmask _))

theorem within_liftZbb {o : ZbbOp} (hfits : R → (OpId.zbb o).ShamtFits X args) :
    Lifted.Within P W (liftZbb args (.zbb o)) := by
  have hxlen : (X.fromU64 (BitVec.ofNat 64 (X.value - 1))).toNat < X.value := by cases X <;> decide
  have hword : (X.fromU64 0x1F).toNat < X.value := by cases X <;> decide
  cases o with
  | rol => exact within_liftBinary h (keeps_rotate h hxlen h.sll h.srl)
  | ror => exact within_liftBinary h (keeps_rotate h hxlen h.srl h.sll)
  | rolw =>
    exact within_liftBinary h fun hl hr =>
      h.sext32 (keeps_rotate h hword h.sll h.srl (h.zext32 hl) hr)
  | rorw =>
    exact within_liftBinary h fun hl hr =>
      h.sext32 (keeps_rotate h hword h.srl h.sll (h.zext32 hl) hr)
  | rori =>
    have hvalue : (BitVec.ofNat 64 X.value).toNat = X.value := by cases X <;> decide
    exact within_liftShamtOp h le_rfl hfits fun _ he hv =>
      keeps_rotateImm h _ hvalue.le (by rw [hvalue]; exact X.value_pos) he fun hR => by
        rw [hvalue]; exact hv hR
  | roriw =>
    exact within_liftShamtOp h X.thirtyTwo_le_value hfits fun _ he hv =>
      h.sext32 (keeps_rotateImm h 32 X.thirtyTwo_le_value (by decide) (h.zext32 he) hv)
  | andn => exact within_liftBinary h fun hl hr => h.and hl (h.not hr)
  | orn => exact within_liftBinary h fun hl hr => h.or hl (h.not hr)
  | xnor => exact within_liftBinary h fun hl hr => h.not (h.xor hl hr)
  | max => exact within_liftBinary h h.max
  | maxu => exact within_liftBinary h h.maxu
  | min => exact within_liftBinary h h.min
  | minu => exact within_liftBinary h h.minu
  | sextB => exact within_liftUnary h h.sext8
  | sextH => exact within_liftUnary h h.sext16
  | zextH => exact within_liftUnary h h.zext16
  | _ => exact within_liftUnary h (h.unary _)

theorem within_liftZbs {o : ZbsOp} (hfits : R → (OpId.zbs o).ShamtFits X args) :
    Lifted.Within P W (liftZbs args (.zbs o)) := by
  have hmasked {op} (hop : KeepsBelow R P X.value op) : Keeps P fun l r => op l (.and r xlenMask) :=
    fun hl hr => hop hl (h.and hr (h.imm _)) fun _ => .xlenMask _
  have hbit {r : Expr X} (hr : P r) : P (bitAt r) := hmasked h.sll (h.imm _) hr
  have himm {op} (hop : KeepsBelow R P X.value op) {e : Expr X} (v : U64) (he : P e)
      (hv : R → v.toNat < X.value) : P (op e (.imm (X.fromU64 v))) :=
    hop he (h.imm _) fun hR => .imm (hv hR) le_rfl
  have hbitImm (v : U64) (hv : R → v.toNat < X.value) : P (bitAtImm v) := himm h.sll v (h.imm _) hv
  have hshamt := @within_liftShamtOp _ _ _ _ _ h
  cases o with
  | bclr => exact within_liftBinary h fun hl hr => h.and hl (h.not (hbit hr))
  | bext => exact within_liftBinary h fun hl hr => h.and (hmasked h.srl hl hr) (h.imm _)
  | binv => exact within_liftBinary h fun hl hr => h.xor hl (hbit hr)
  | bset => exact within_liftBinary h fun hl hr => h.or hl (hbit hr)
  | bclri => exact hshamt le_rfl hfits fun v he hv => h.and he (h.not (hbitImm v hv))
  | bexti => exact hshamt le_rfl hfits fun v he hv => h.and (himm h.srl v he hv) (h.imm _)
  | binvi => exact hshamt le_rfl hfits fun v he hv => h.xor he (hbitImm v hv)
  | bseti => exact hshamt le_rfl hfits fun v he hv => h.or he (hbitImm v hv)

theorem within_liftZbkb {o : ZbkbOp} : Lifted.Within P W (liftZbkb args (.zbkb o)) := by
  cases o with
  | pack | packh | packw => exact within_liftBinary h (h.plain _ fun _ => trivial)
  | brev8 | zip | unzip => exact within_liftUnary h (h.unary _)

theorem within_liftZicond {o : ZicondOp} : Lifted.Within P W (liftZicond args (.zicond o)) := by
  have hselect (op : BinaryOp) (hop : ∀ v : X.Reg, op.AmountInRange v) (rs1 rs2 : ℕ) : P (.select
      (.binary op (.reg rs2) (.imm (X.fromU64 0))) (.imm (X.fromU64 0)) (.reg rs1)) :=
    h.select (h.plain _ hop (h.reg _) (h.imm _)) (h.imm _) (h.reg _)
  cases o with
  | czeroEqz =>
    cases args with
    | R rd rs1 rs2 => exact within_writeReg h rfl (hselect .eq (fun _ => trivial) rs1 rs2)
    | _ => exact within_trap _
  | czeroNez =>
    cases args with
    | R rd rs1 rs2 => exact within_writeReg h rfl (hselect .ne (fun _ => trivial) rs1 rs2)
    | _ => exact within_trap _

end Bodies

/-- The body of every standard instruction lies in classes that contain what the lifts use. -/
theorem within_standardBody {R : Prop} {P : Expr X → Prop} {W : WriteTarget X → Expr X → Prop}
    {d : DecodedInstr X} (h : LiftClass R P W d.args) (hshamt : R → d.opid.ShamtsOk X d.args)
    (htemps : d.opid.usesTemps = true → HasTemps P W)
    (hres : d.opid.touchesReservation = true → HasReservation P W) :
    Lifted.Within P W (standardBody d) := by
  obtain ⟨opid, pc, size, raw, args⟩ := d
  cases opid with
  | i op => exact within_liftBaseOp h hshamt htemps hres
  | c op => exact within_liftCOp h hshamt htemps hres
  | a op =>
    cases args with
    | Amo rd rs1 rs2 aq rl => exact within_liftAOp h rfl htemps (hres rfl)
    | _ => exact within_trap _
  | m op => exact within_liftMOp h
  | zicsr op => exact within_liftZicsr h
  | zifencei op => exact ⟨trivial, trivial⟩
  | zba op => exact within_liftZba h fun hR => (hshamt hR).1
  | zbb op => exact within_liftZbb h fun hR => (hshamt hR).1
  | zbs op => exact within_liftZbs h fun hR => (hshamt hR).1
  | zbkb op => exact within_liftZbkb h
  | zicond op => exact within_liftZicond h
  | custom ext idx => exact within_trap _

/-! ## System calls -/

/-- The handlers of the repository: every ECALL exits, or a table of system calls. -/
def IsHandler (handler : DecodedInstr X → InstrIR X) : Prop :=
  handler = bareMetalHandler ∨ ∃ t : SyscallTable, handler = t.buildIr

/-- Classes that contain what the code of a system call uses. -/
structure SyscallClass (P : Expr X → Prop) (W : WriteTarget X → Expr X → Prop) : Prop
    extends ExprClass False P where
  writeA0 : ∀ {e}, P e → W (.reg REG_A0) e
  call : ∀ name args width, W (.reg REG_A0) (.externCall name (SyscallTable.callArgs args) width)
  writeExited : ∀ {e}, P e → W .exited e
  writeExitCode : ∀ {e}, P e → W .exitCode e

section Syscalls

variable {P : Expr X → Prop} {W : WriteTarget X → Expr X → Prop} (h : SyscallClass P W)
  (t : SyscallTable)
include h

theorem SyscallClass.numEq (num : U64) : P (t.numEq num) :=
  h.plain _ (fun _ => trivial) (h.reg _) (h.imm _)

theorem within_dispatch : t.dispatch.Within P W := by
  unfold SyscallTable.dispatch
  induction t.nonExitEntries with
  | nil => exact h.writeA0 (h.imm _)
  | cons entry entries ih =>
    rw [List.foldr_cons, SyscallTable.dispatchEntry]
    split
    · exact ⟨h.numEq t _, ⟨h.call _ _ _, trivial⟩, ih, trivial⟩
    · exact ⟨h.numEq t _, ⟨h.writeA0 (h.imm _), trivial⟩, ih, trivial⟩
    · exact ih

theorem within_exitStmts : Stmt.AllWithin P W t.exitStmts := by
  unfold SyscallTable.exitStmts
  induction t.exitEntries with
  | nil => trivial
  | cons entry entries ih =>
    exact ⟨⟨h.numEq t _, ⟨h.writeExited (h.imm _), h.writeExitCode (h.reg _), trivial⟩, trivial⟩,
      ih⟩

/-- The disjunction of the exit tests. -/
theorem SyscallClass.isExit (entries : List SyscallEntry) {acc : Expr X} (hacc : P acc) :
    P (entries.foldl (fun acc entry => Expr.or acc (t.numEq entry.num)) acc) := by
  induction entries generalizing acc with
  | nil => exact hacc
  | cons entry entries ih => exact ih (h.or hacc (h.numEq t _))

theorem within_dispatchStmts : Stmt.AllWithin P W t.dispatchStmts := by
  unfold SyscallTable.dispatchStmts
  split_ifs
  · trivial
  · split
    · exact ⟨within_dispatch h t, trivial⟩
    · exact ⟨⟨h.not (h.isExit t _ (h.numEq t _)), ⟨within_dispatch h t, trivial⟩, trivial⟩, trivial⟩

theorem within_handler {handler : DecodedInstr X → InstrIR X} (hhandler : IsHandler handler)
    (d : DecodedInstr X) : Lifted.Within P W ((handler d).statements, (handler d).terminator) := by
  obtain rfl | ⟨t, rfl⟩ := hhandler
  · exact ⟨trivial, h.reg _, .inr ⟨_, rfl⟩⟩
  · exact ⟨allWithin_append (within_exitStmts h t) (within_dispatchStmts h t), trivial⟩

end Syscalls

/-- Every instruction that the standard registry lifts lies in such classes. -/
theorem within_lift {P : Expr X → Prop} {W : WriteTarget X → Expr X → Prop} {d : DecodedInstr X}
    (h : LiftClass False P W d.args) (hsys : SyscallClass P W) (htemps : HasTemps P W)
    (hres : d.opid.touchesReservation = true → HasReservation P W)
    {handler : DecodedInstr X → InstrIR X} (hhandler : IsHandler handler)
    (hstd : d.opid.isStandard = true) :
    let ir := (ExtensionRegistry.standardWith X handler).lift d
    Lifted.Within P W (ir.statements, ir.terminator) := by
  intro ir
  by_cases hecall : d.opid = .i .ecall
  · have hir : ir = handler d := standard_lift_ecall handler hecall
    rw [hir]
    exact within_handler hsys hhandler d
  · have hir : ir = d.ir (standardBody d).1 (standardBody d).2 := standard_lift handler hstd hecall
    rw [hir]
    exact within_standardBody h False.elim (fun _ => htemps) hres

end Rvr
