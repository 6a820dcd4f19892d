import Rvr.Emit.X64.Rules

/-!
# Operators in x86-64 code
-/

namespace Rvr.X64

open Asm Asm.Machine State

/-! ## Guest values in registers -/

@[simp] theorem State.val_rv32 (σ : State) (g : Reg) :
    σ.val .rv32 g = (σ.regs g).setWidth 32 := rfl

@[simp] theorem State.val_rv64 (σ : State) (g : Reg) : σ.val .rv64 g = σ.regs g :=
  BitVec.setWidth_eq _

/-- The value of an operand at the width of the guest. -/
def State.operand (σ : State) (X : Xlen) : Operand → X.Reg
  | .imm z => BitVec.ofInt _ z
  | .reg n => σ.val X n.reg
  | .mem (.state f disp) => (σ.field f >>> (8 * disp)).setWidth _
  | .mem (.slot i) => (σ.slot i).setWidth _
  | .mem .guest => BitVec.ofNat _ (ByteMemory.readLE σ.mem (σ.regs .rax) (X.value / 8))

theorem State.read_suffix (σ : State) (X : Xlen) (o : Operand) :
    (σ.read (suffix X) o).setWidth X.value = σ.operand X o := by
  cases X <;> rcases o with z | n | f | i | _ <;> simp [operand, suffix, Xlen.value]

theorem State.val_put_self (σ : State) (X : Xlen) (n : Name) (v : BitVec (suffix X).bits) :
    (σ.put n v).val X n.reg = v.setWidth X.value := by
  rw [val, put_regs_self]
  cases X
  · exact BitVec.setWidth_setWidth_of_le _ (by decide)
  · exact BitVec.setWidth_setWidth_of_le _ (by decide)

/-- A 32-bit write clears the upper half. -/
theorem State.val_put_l_self (σ : State) (X : Xlen) (n : Name) (v : BitVec Size.l.bits) :
    (σ.put n v).val X n.reg = v.setWidth X.value := by
  rw [val, put_regs_self]
  exact BitVec.setWidth_setWidth_of_le _ X.value_le

/-- A register that was written under a size is read back under it. -/
theorem Size.setWidth_merge (sz : Size) (old : U64) (v : BitVec sz.bits) :
    (sz.merge old v).setWidth sz.bits = v := by
  cases sz with
  | q => simp [Size.merge]
  | l => simp [Size.merge]
  | w =>
    simp [Size.merge, Size.insert]
  | b =>
    simp [Size.merge, Size.insert]

variable {sz : Size}

theorem State.get_put_self (σ : State) (n : Name) (v : BitVec sz.bits) :
    (σ.put n v).get n sz = v := by
  rw [get, put_regs_self, Size.setWidth_merge]

theorem State.val_put_of_ne (σ : State) (X : Xlen) {n : Name} (v : BitVec sz.bits) {g : Reg}
    (h : g ≠ n.reg) : (σ.put n v).val X g = σ.val X g := by
  rw [val, put_regs_of_ne _ _ h, val]

theorem State.get_suffix (σ : State) (X : Xlen) (n : Name) :
    (σ.get n (suffix X)).setWidth X.value = σ.val X n.reg := σ.read_suffix X (.reg n)

theorem State.msb_get_suffix (σ : State) (X : Xlen) (n : Name) :
    (σ.get n (suffix X)).msb = (σ.val X n.reg).msb := by
  cases X
  · rfl
  · exact congrArg BitVec.msb (BitVec.setWidth_eq _)

/-! Operations at equal widths -/

section Widths

variable {w w' : ℕ} (h : w = w')

include h

theorem AluOp.setWidth_val (alu : AluOp) (x y : BitVec w) :
    (alu.val x y).setWidth w' = alu.val (x.setWidth w') (y.setWidth w') := by
  subst h
  simp only [BitVec.setWidth_eq]

theorem Flags.ofSub_setWidth (x y : BitVec w) :
    Flags.ofSub (x.setWidth w') (y.setWidth w') = Flags.ofSub x y := by
  subst h
  simp only [BitVec.setWidth_eq]

theorem ShiftOp.setWidth_val (op : ShiftOp) (x : BitVec w) (count : ℕ) :
    (op.val x count).setWidth w' = op.val (x.setWidth w') count := by
  subst h
  simp only [BitVec.setWidth_eq]

end Widths

/-- The value that lowered x86-64 code computes for a binary operator: shift amounts are taken
modulo the width, the correction of `mulhsu` looks at the low half of the product, and the packs
leave the left operand. -/
def loweredBinary {X : Xlen} (l r : X.Reg) : BinaryOp → X.Reg
  | .sll => l <<< (r.toNat % X.value)
  | .srl => l >>> (r.toNat % X.value)
  | .sra => l.sshiftRight (r.toNat % X.value)
  | .sllW => (l.setWidth 32 <<< (r.toNat % 32)).signExtend X.value
  | .srlW => (l.setWidth 32 >>> (r.toNat % 32)).signExtend X.value
  | .sraW => ((l.setWidth 32).sshiftRight (r.toNat % 32)).signExtend X.value
  | .mulHSU => BinaryOp.val l r .mulHU - if (l * r).msb then r else 0
  | .pack | .pack8 | .pack16 => l
  | op => op.val l r

/-- The destination is returned and holds a value, and control goes on. -/
def Leaves {X : Xlen} (dest : Name) (v : X.Reg) (n : Name) (_ : St) (c : State × Option Label) :
    Prop :=
  n = dest ∧ c.2 = none ∧ c.1.val X dest.reg = v

section Operators

variable {X : Xlen} {env : Env} {e : St} {σ : State} {dest : Name}

variable {v : X.Reg}

variable (hdest : dest.size = suffix X)
include hdest

/-- A move to the destination ends an operator. -/
theorem runs_moveTo {rv : Operand} (hfits : rv.fits (suffix X) = true) (hv : σ.operand X rv = v) :
    (machine env).Runs (do ins (.mov (suffix X) rv dest); pure dest) e (σ, none)
      (Leaves dest v) := by
  subst hv
  rw [runs_bind, runs_ins]
  refine ⟨?_, _, rfl, runs_pure.2 ⟨rfl, rfl, (val_put_self _ X dest _).trans (σ.read_suffix X rv)⟩⟩
  cases rv with
  | imm z => exact decide_eq_true ⟨hdest, .inl hfits⟩
  | reg n => exact decide_eq_true ⟨hfits, hdest⟩
  | mem o => exact decide_eq_true ⟨hfits, hdest⟩

/-- The value computed in rax is moved to the destination. -/
theorem runs_finish (hv : σ.val X .rax = v) :
    (machine env).Runs (finish X dest) e (σ, none) (Leaves dest v) := by
  subst hv
  by_cases hd : dest = temp1 X
  · simp [finish, hd, Leaves, temp1]
  · rw [finish, decide_eq_true (p := dest ≠ temp1 X) hd]
    exact runs_moveTo hdest (by exact decide_eq_true rfl) rfl

/-! ## Arithmetic and comparisons -/

theorem runs_alu {alu : AluOp} {rv : Operand}
    (hfits : rv.fits (suffix X) = true) :
    (machine env).Runs (do ins (.alu alu (suffix X) rv (temp1 X)); finish X dest) e (σ, none)
      (Leaves dest (alu.val (σ.val X .rax) (σ.operand X rv))) := by
  rw [runs_bind, runs_ins]
  refine ⟨decide_eq_true ⟨hfits, rfl⟩, _, rfl, runs_finish hdest ?_⟩
  refine (val_put_self _ X (temp1 X) _).trans ?_
  rw [AluOp.setWidth_val (bits_suffix X), read_suffix, get_suffix]
  rfl

/-- `add` of a small immediate is a `lea`. -/
theorem runs_leaAdd {z : ℤ} (hz : -2 ^ 31 ≤ z ∧ z < 2 ^ 31) :
    (machine env).Runs (do ins (.lea (suffix X) z (some (temp1 X)) none (temp1 X)); finish X dest)
      e (σ, none) (Leaves dest (σ.val X .rax + BitVec.ofInt X.value z)) := by
  rw [runs_bind, runs_ins]
  refine ⟨by simpa [temp1] using hz, _, rfl, runs_finish hdest ?_⟩
  refine (val_put_self _ X (temp1 X) _).trans ?_
  cases X
  · exact (BitVec.setWidth_eq _).trans ((BitVec.add_zero _).trans (BitVec.add_comm _ _))
  · exact (BitVec.add_zero _).trans (BitVec.add_comm _ _)

theorem runs_setcc {c : Cond} {rv : Operand}
    (hfits : rv.fits (suffix X) = true) {b : Bool}
    (hb : c.holds (.ofSub (σ.val X .rax) (σ.operand X rv)) = b) :
    (machine env).Runs (do
        ins (.cmp (suffix X) rv (temp1 X))
        ins (.setcc c al)
        ins (.movzx .b .l (.reg al) (regDword dest))
        pure dest) e (σ, none)
      (Leaves dest (Ops.ofBool X.value b)) := by
  subst hb
  have hrax : σ.val X .rax = _ := (σ.get_suffix X (temp1 X)).symm
  rw [← read_suffix, hrax, Flags.ofSub_setWidth (bits_suffix X), runs_bind, runs_ins]
  refine ⟨decide_eq_true ⟨hfits, rfl⟩, _, rfl, ?_⟩
  generalize hf : Flags.ofSub (σ.get (temp1 X) (suffix X)) (σ.read (suffix X) rv) = f
  rw [runs_bind, runs_ins]
  refine ⟨rfl, _, rfl, ?_⟩
  rw [runs_bind, runs_ins]
  refine ⟨by simp [al, regDword], _, rfl, runs_pure.2 ⟨rfl, rfl, ?_⟩⟩
  refine (val_put_l_self _ X (regDword dest) _).trans ?_
  rw [State.read, State.get_put_self]
  cases X <;> cases c.holds f <;> rfl

/-- Operators whose instruction takes the right operand as it is printed. -/
def isDirect : BinaryOp → Bool
  | .add | .sub | .and | .or | .xor | .eq | .ne | .lt | .ge | .ltu | .geu => true
  | _ => false

/-- The end of the general path, once the right operand is there. -/
def generalOp (X : Xlen) (op : BinaryOp) (rightVal : Operand) (dest : Name) : Em Name :=
  ((((emitBinaryArith X op rightVal dest).orElse fun _ =>
    emitBinaryMulSpecial X op rightVal dest).orElse fun _ =>
    emitBinaryDivRem X op rightVal dest).orElse fun _ =>
    emitBinaryCompare X op rightVal dest).getD (finish X dest)

variable {op : BinaryOp}

theorem runs_generalOp_direct {rv : Operand}
    (hop : isDirect op = true) (hfits : rv.fits (suffix X) = true) :
    (machine env).Runs (generalOp X op rv dest) e (σ, none)
      (Leaves dest (op.val (σ.val X .rax) (σ.operand X rv))) := by
  cases op with
  | add =>
    cases rv with
    | imm z =>
      by_cases hz : -2 ^ 31 ≤ z ∧ z < 2 ^ 31
      · simp only [generalOp, emitBinaryArith, if_pos hz]
        exact runs_leaAdd hdest hz
      · simp only [generalOp, emitBinaryArith, if_neg hz]
        exact runs_alu hdest hfits
    | _ => exact runs_alu hdest hfits
  | sub => exact runs_alu hdest hfits
  | and => exact runs_alu hdest hfits
  | or => exact runs_alu hdest hfits
  | xor => exact runs_alu hdest hfits
  | eq => exact runs_setcc hdest hfits (holds_ofSub_e _ _)
  | ne => exact runs_setcc hdest hfits (holds_ofSub_ne _ _)
  | lt => exact runs_setcc hdest hfits (holds_ofSub_l _ _)
  | ge => exact runs_setcc hdest hfits (holds_ofSub_ge _ _)
  | ltu => exact runs_setcc hdest hfits (holds_ofSub_b _ _)
  | geu => exact runs_setcc hdest hfits (holds_ofSub_ae _ _)
  | _ => cases hop

omit hdest

/-- An immediate that does not fit is printed nevertheless. -/
theorem emits_generalOp_direct {rv : Operand} (hop : isDirect op = true)
    (hfits : rv.fits (suffix X) = false) :
    ∃ i, Emit.Emits i (generalOp X op rv dest) e ∧ encodable i = false := by
  have halu : ∀ alu, encodable (.alu alu (suffix X) rv (temp1 X)) = false := by
    intro alu
    exact decide_eq_false fun h => by rw [hfits] at h; exact absurd h.1 Bool.false_ne_true
  have hcmp : encodable (.cmp (suffix X) rv (temp1 X)) = false :=
    decide_eq_false fun h => by rw [hfits] at h; exact absurd h.1 Bool.false_ne_true
  have hfirst : ∀ {i : Instr} {m : Em Name}, encodable i = false →
      ∃ i', Emit.Emits i' (do ins i; m) e ∧ encodable i' = false := by
    intro i m henc
    exact ⟨i, by simp, henc⟩
  cases op with
  | add =>
    cases rv with
    | imm z =>
      have hz : ¬ (-2 ^ 31 ≤ z ∧ z < 2 ^ 31) := by
        intro hz
        refine absurd hfits ?_
        cases X <;> simp [suffix] <;> omega
      simp only [generalOp, emitBinaryArith, if_neg hz]
      exact hfirst (halu _)
    | _ => exact hfirst (halu _)
  | sub | and | or | xor => exact hfirst (halu _)
  | eq | ne | lt | ge | ltu | geu => exact hfirst hcmp
  | _ => cases hop

variable {Q : Name → St → State × Option Label → Prop} {c : State × Option Label}

/-- An immediate that does not fit its field makes the text no program. -/
theorem not_runs_generalOp_direct {rv : Operand} (hop : isDirect op = true)
    (hfits : rv.fits (suffix X) = false) :
    ¬ (machine env).Runs (generalOp X op rv dest) e c Q := by
  obtain ⟨i, hi, henc⟩ := emits_generalOp_direct hop hfits
  exact not_runs_of_emits hi henc

/-! ## Operators through rcx -/

/-- Loading the right operand into rcx leads from `σ` to `σ₁`. -/
def RightIn (env : Env) (sz : Size) (rv : Operand) (σ σ₁ : State) : Prop :=
  ∀ e, (machine env).Runs (loadRight sz rv) e (σ, none) fun _ e' c' => e' = e ∧ c' = (σ₁, none)

variable {σ₁ : State} {rv : Operand}

theorem RightIn.bind {α : Type} {sz : Size} {f : Unit → Em α}
    {Q : α → St → State × Option Label → Prop} (hright : RightIn env sz rv σ σ₁)
    (h : (machine env).Runs (f ()) e (σ₁, none) Q) :
    (machine env).Runs (loadRight sz rv >>= f) e (σ, none) Q := by
  rw [runs_bind]
  refine (hright e).mono ?_
  rintro _ _ _ ⟨rfl, rfl⟩
  exact h

/-- The two halves of a product. -/
theorem val_stepMul_rdx (signed : Bool) (n : Name) (τ : State)
    (hτ : stepMul signed (suffix X) n σ = some (τ, none)) :
    τ.val X .rdx = Ops.mulHigh
      (if signed then (σ.val X .rax).signExtend (2 * X.value)
        else (σ.val X .rax).setWidth (2 * X.value))
      (if signed then (σ.val X n.reg).signExtend (2 * X.value)
        else (σ.val X n.reg).setWidth (2 * X.value)) := by
  cases hτ
  cases X <;> cases signed <;> simp [suffix] <;> rfl

theorem val_stepMul_rax (n : Name) (τ : State)
    (hτ : stepMul false (suffix X) n σ = some (τ, none)) :
    τ.val X .rax = σ.val X .rax * σ.val X n.reg := by
  cases hτ
  cases X
  · simp [suffix]
    exact Word.setWidth_mul_setWidth (by decide) _ _
  · simp [suffix]
    exact Word.setWidth_mul_setWidth (by decide) _ _

/-- `cdq` or `cqo`. -/
theorem runs_signRdx {Q : Unit → St → State × Option Label → Prop} :
    (machine env).Runs (signRdx X) e (σ, none) Q ↔
      Q () e (σ.put ⟨.rdx, suffix X⟩
        ((σ.get ⟨.rax, suffix X⟩ (suffix X)).sshiftRight ((suffix X).bits - 1)), none) := by
  cases X <;> simp [signRdx, suffix]

variable (hright : RightIn env (suffix X) rv σ σ₁)
include hright

theorem runs_mulH (hdest : dest.size = suffix X) :
    (machine env).Runs (generalOp X .mulH rv dest) e (σ, none)
      (Leaves dest (BinaryOp.val (σ₁.val X .rax) (σ₁.val X .rcx) .mulH)) := by
  refine hright.bind ?_
  rw [runs_bind, runs_signRdx, runs_bind, runs_ins]
  refine ⟨decide_eq_true rfl, _, rfl, ?_⟩
  refine runs_moveTo hdest (by exact decide_eq_true rfl)
    ((val_stepMul_rdx true (temp2 X) _ rfl).trans ?_)
  rfl

theorem runs_mulHU (hdest : dest.size = suffix X) :
    (machine env).Runs (generalOp X .mulHU rv dest) e (σ, none)
      (Leaves dest (BinaryOp.val (σ₁.val X .rax) (σ₁.val X .rcx) .mulHU)) := by
  refine hright.bind ?_
  rw [runs_bind, runs_ins]
  refine ⟨decide_eq_true rfl, _, rfl, ?_⟩
  exact runs_moveTo hdest (by exact decide_eq_true rfl) (val_stepMul_rdx false (temp2 X) _ rfl)

/-- `mulhsu` as it is emitted: the correction looks at the low half of the product, not at the left
operand. -/
theorem runs_mulHSU (hdest : dest.size = suffix X) :
    (machine env).Runs (generalOp X .mulHSU rv dest) e (σ, none)
      (Leaves dest (BinaryOp.val (σ₁.val X .rax) (σ₁.val X .rcx) .mulHU -
        if (σ₁.val X .rax * σ₁.val X .rcx).msb then σ₁.val X .rcx else 0)) := by
  refine hright.bind ?_
  rw [runs_bind, runs_ins]
  refine ⟨decide_eq_true rfl, _, rfl, ?_⟩
  generalize hτ : unflagged _ = τ
  have hmul : stepMul false (suffix X) (temp2 X) σ₁ = some (τ, none) := congrArg next hτ
  have hhigh := val_stepMul_rdx false (temp2 X) τ hmul
  have hlow := val_stepMul_rax (temp2 X) τ hmul
  have hrcx : τ.val X .rcx = σ₁.val X .rcx := by
    rw [← hτ]
    exact (val_put_of_ne _ X _ (by simp)).trans (val_put_of_ne _ X _ (by simp))
  rw [runs_bind, runs_ins]
  refine ⟨decide_eq_true ⟨rfl, rfl⟩, _, rfl, ?_⟩
  rw [runs_bind, runs_nextLabel, runs_bind, runs_ins]
  refine ⟨rfl, _, rfl, ?_⟩
  rw [holds_ofAnd_self_ns, msb_get_suffix, show τ.val X (temp1 X).reg = _ from hlow]
  by_cases hm : (σ₁.val X .rax * σ₁.val X .rcx).msb = true
  · -- the low half is negative: the right operand is taken off
    rw [show (σ₁.val X .rax * σ₁.val X (temp2 X).reg).msb = true from hm, if_neg (by decide),
      if_pos hm,
      runs_bind, runs_ins]
    refine ⟨decide_eq_true ⟨decide_eq_true rfl, rfl⟩, _, rfl, ?_⟩
    refine runs_moveTo hdest (by exact decide_eq_true rfl) ?_
    refine (val_put_self _ X ⟨.rdx, suffix X⟩ _).trans ?_
    rw [AluOp.setWidth_val (bits_suffix X), read_suffix, get_suffix]
    exact congrArg₂ (· - ·) hhigh hrcx
  · rw [Bool.not_eq_true] at hm
    rw [show (σ₁.val X .rax * σ₁.val X (temp2 X).reg).msb = false from hm, if_pos (by decide),
      if_neg (by rw [hm]; decide), runs_bind, runs_ins_wanted]
    refine ⟨decide_eq_true ⟨decide_eq_true rfl, rfl⟩, ?_⟩
    rw [runs_bind, runs_emitLabel, if_pos rfl]
    refine runs_moveTo hdest (by exact decide_eq_true rfl) ?_
    exact hhigh.trans (BitVec.sub_zero _).symm

/-! ### Division -/

omit hright

/-- A signed division of a sign-extended dividend does not fault if the divisor is not zero and the
quotient fits. -/
theorem stepDiv_signed {n : Name} {x d : BitVec sz.bits} (hbits : 0 < sz.bits)
    (hrdx : σ.get ⟨.rdx, sz⟩ sz = x.sshiftRight (sz.bits - 1)) (hrax : σ.get ⟨.rax, sz⟩ sz = x)
    (hd : σ.get n sz = d) (hzero : d ≠ 0) (hov : x ≠ BitVec.intMin _ ∨ d ≠ -1#_) :
    stepDiv true sz n σ =
      next (((σ.put ⟨.rax, sz⟩ (x.sdiv d)).put ⟨.rdx, sz⟩ (x.srem d)).unflagged) := by
  obtain ⟨hlo, hhi⟩ := Word.tdiv_bounds hov
  have hok : ¬ (d = 0 ∨ x.toInt.tdiv d.toInt < -2 ^ (sz.bits - 1) ∨
      2 ^ (sz.bits - 1) ≤ x.toInt.tdiv d.toInt) := by
    rintro (h | h | h)
    · exact hzero h
    · omega
    · omega
  rw [stepDiv, hrdx, hrax, hd, if_pos rfl]
  simp only [Word.toInt_sign_append hbits, if_neg hok, Word.ofInt_tdiv hov, Word.ofInt_tmod]

/-- An unsigned division of a zero-extended dividend does not fault if the divisor is not zero. -/
theorem stepDiv_unsigned {n : Name} {x d : BitVec sz.bits}
    (hrdx : σ.get ⟨.rdx, sz⟩ sz = 0) (hrax : σ.get ⟨.rax, sz⟩ sz = x)
    (hd : σ.get n sz = d) (hzero : d ≠ 0) :
    stepDiv false sz n σ =
      next (((σ.put ⟨.rax, sz⟩ (x / d)).put ⟨.rdx, sz⟩ (x % d)).unflagged) := by
  have hlt : x.toNat / d.toNat < 2 ^ sz.bits := (Nat.div_le_self _ _).trans_lt x.isLt
  have hok : ¬ (d = 0 ∨ 2 ^ sz.bits ≤ x.toNat / d.toNat) := by
    rintro (h | h)
    · exact hzero h
    · omega
  have ha : ((0 : BitVec sz.bits) ++ x).toNat = x.toNat := by simp
  have hdiv : BitVec.ofNat sz.bits (x.toNat / d.toNat) = x / d := by
    rw [← BitVec.toNat_udiv, BitVec.ofNat_toNat, BitVec.setWidth_eq]
  have hmod : BitVec.ofNat sz.bits (x.toNat % d.toNat) = x % d := by
    rw [← BitVec.toNat_umod, BitVec.ofNat_toNat, BitVec.setWidth_eq]
  rw [stepDiv, hrdx, hrax, hd, if_neg Bool.false_ne_true]
  simp only [ha, if_neg hok, hdiv, hmod]

/-- Control reaches the division by one of two jumps. -/
theorem overflow_jumps {w : ℕ} {x d m k : BitVec w} (h : ¬ (x = m ∧ d = k)) :
    (x = m) = True ∧ (d = k) = False ∨ (x = m) = False := by
  by_cases hx : x = m
  · exact .inl ⟨eq_true hx, eq_false fun hd => h ⟨hx, hd⟩⟩
  · exact .inr (eq_false hx)

variable {wantRem : Bool}

section Divisions

variable {w : ℕ} (hw : X.value = w) {x d : BitVec w} (hx : (σ₁.regs .rax).setWidth w = x)
  (hd : (σ₁.regs .rcx).setWidth w = d)

include hdest hright hw hx hd

/-- Zero divisors and the one overflow are caught before `idiv`. -/
theorem runs_emitDivSigned_width :
    (machine env).Runs (emitDivSigned X wantRem rv dest) e (σ, none) fun n _ c =>
      n = dest ∧ c.2 = none ∧
        (c.1.regs dest.reg).setWidth w = if wantRem then Ops.rem x d else Ops.div x d := by
  obtain ⟨g, _⟩ := dest
  obtain rfl := hdest
  refine hright.bind ?_
  have hmin32 : BitVec.intMin 32 = 0x80000000#32 := rfl
  have hmin64 : BitVec.intMin 64 = 0x8000000000000000#64 := rfl
  cases X <;> subst hw <;> simp only [Xlen.value, BitVec.setWidth_eq] at x d hx hd ⊢
  all_goals
    by_cases hzero : d = 0#_
    · cases wantRem <;>
        simp [suffix, temp1, temp2, hd, hx, hzero, eax, rax, rdx, signRdx, clear, Ops.rem, Ops.div]
    by_cases hov : x = BitVec.intMin _ ∧ d = -1#_
    · cases wantRem <;>
        simp [suffix, temp1, temp2, hd, hx, hov, hmin32, hmin64, eax, rax, rdx, signRdx, clear,
          Ops.rem, Ops.div, AluOp.val]
    have hne := not_and_or.1 hov
    simp only [hmin32, hmin64, BitVec.reduceNeg] at hov
    rcases overflow_jumps hov with ⟨hx', hd'⟩ | hx'
    all_goals
      cases wantRem <;>
        simp [suffix, temp1, temp2, *, eax, rax, rdx, signRdx, clear] <;>
        rw [stepDiv_signed (x := x) (d := d) (by decide) (by simp) (by simpa using hx)
          (by simpa using hd) hzero hne] <;>
        simp [hzero, Ops.div, Ops.rem]

theorem runs_emitDivUnsigned_width :
    (machine env).Runs (emitDivUnsigned X wantRem rv dest) e (σ, none) fun n _ c =>
      n = dest ∧ c.2 = none ∧
        (c.1.regs dest.reg).setWidth w = if wantRem then Ops.remU x d else Ops.divU x d := by
  obtain ⟨g, _⟩ := dest
  obtain rfl := hdest
  refine hright.bind ?_
  cases X <;> subst hw <;> simp only [Xlen.value, BitVec.setWidth_eq] at x d hx hd ⊢
  all_goals
    by_cases hzero : d = 0#_
    · cases wantRem <;> simp [suffix, temp1, temp2, hd, hx, hzero, edx, Ops.remU, Ops.divU]
    · cases wantRem <;> simp [suffix, temp1, temp2, hd, hzero, edx, AluOp.val] <;>
        rw [stepDiv_unsigned (x := x) (d := d) (by simp) (by simpa using hx)
          (by simpa using hd) hzero] <;>
        simp [hzero, Ops.divU, Ops.remU]

end Divisions

theorem runs_emitDivWSigned (hright : RightIn env .l rv σ σ₁)
    (hdest : dest.size = .q) {x d : BitVec 32} (hx : (σ₁.regs .rax).setWidth 32 = x)
    (hd : (σ₁.regs .rcx).setWidth 32 = d) :
    (machine env).Runs (emitDivWSigned wantRem rv dest) e (σ, none) fun n _ c =>
      n = dest ∧ c.2 = none ∧ c.1.regs dest.reg =
        (if wantRem then Ops.rem x d else Ops.div x d).signExtend 64 := by
  obtain ⟨g, _⟩ := dest
  obtain rfl := hdest
  refine hright.bind ?_
  by_cases hzero : d = 0#32
  · cases wantRem <;> simp [ecx, edx, hd, hx, hzero, eax, Ops.rem, Ops.div]
  by_cases hov : x = 0x80000000#32 ∧ d = 0xffffffff#32
  · cases wantRem <;> simp [ecx, edx, hd, hx, hov, eax, Ops.rem, Ops.div, AluOp.val]
  have hne : x ≠ BitVec.intMin 32 ∨ d ≠ -1#32 := not_and_or.1 hov
  rcases overflow_jumps hov with ⟨hx', hd'⟩ | hx'
  all_goals
    cases wantRem <;> simp [ecx, edx, *, eax] <;>
      rw [stepDiv_signed (x := x) (d := d) (by decide) (by simp) (by simpa using hx)
        (by simpa using hd) hzero hne] <;>
      simp [hzero, Ops.div, Ops.rem]

theorem runs_emitDivWUnsigned (hright : RightIn env .l rv σ σ₁)
    (hdest : dest.size = .q) {x d : BitVec 32} (hx : (σ₁.regs .rax).setWidth 32 = x)
    (hd : (σ₁.regs .rcx).setWidth 32 = d) :
    (machine env).Runs (emitDivWUnsigned wantRem rv dest) e (σ, none) fun n _ c =>
      n = dest ∧ c.2 = none ∧ c.1.regs dest.reg =
        (if wantRem then Ops.remU x d else Ops.divU x d).signExtend 64 := by
  obtain ⟨g, _⟩ := dest
  obtain rfl := hdest
  refine hright.bind ?_
  by_cases hzero : d = 0#32
  · cases wantRem <;> simp [ecx, eax, edx, hd, hx, hzero, Ops.remU, Ops.divU]
  · cases wantRem <;> simp [ecx, eax, edx, hd, hzero, AluOp.val] <;>
      rw [stepDiv_unsigned (x := x) (d := d) (by simp) (by simpa using hx)
        (by simpa using hd) hzero] <;>
      simp [hzero, Ops.divU, Ops.remU]

/-! ## Shifts -/

/-- The end of a word operator on RV64. -/
theorem runs_sextEax (hdest : dest.size = .q) {v : Xlen.rv64.Reg}
    (hv : ((σ.regs .rax).setWidth 32).signExtend 64 = v) :
    (machine env).Runs (do ins (.movsx .l .q (.reg eax) dest); pure dest) e (σ, none)
      (Leaves (X := .rv64) dest v) := by
  subst hv
  obtain ⟨g, _⟩ := dest
  obtain rfl := hdest
  simp [eax, Leaves]
  rfl

variable {count : ℕ}

variable (hdest : dest.size = suffix X)
include hdest

/-- A shift by a constant. -/
theorem runs_shiftImm {op : ShiftOp} (hcount : count < 256) :
    (machine env).Runs (do ins (.shiftImm op (suffix X) count (temp1 X)); finish X dest) e (σ, none)
      (Leaves dest (op.val (σ.val X .rax) count)) := by
  rw [runs_bind, runs_ins]
  refine ⟨decide_eq_true ⟨hcount, rfl⟩, _, rfl, runs_finish hdest ?_⟩
  refine (val_put_self _ X (temp1 X) _).trans ?_
  rw [ShiftOp.setWidth_val (bits_suffix X), get_suffix]
  rfl

/-- A shift by `%cl`. -/
theorem runs_shiftCl {op : ShiftOp} :
    (machine env).Runs (do ins (.shiftCl op (suffix X) (temp1 X)); finish X dest) e (σ, none)
      (Leaves dest (op.val (σ.val X .rax) (σ.get ⟨.rcx, .b⟩ .b).toNat)) := by
  rw [runs_bind, runs_ins]
  refine ⟨decide_eq_true rfl, _, rfl, runs_finish hdest ?_⟩
  refine (val_put_self _ X (temp1 X) _).trans ?_
  rw [ShiftOp.setWidth_val (bits_suffix X), get_suffix]
  rfl

/-- A left shift by one, two or three is a `lea`. -/
theorem runs_leaShift {k : ℕ} (hk : k ≤ 3) (hpos : 0 < k) :
    (machine env).Runs (do
        (if k = 1 then ins (.lea (suffix X) 0 (some (temp1 X)) (some (temp1 X, 1)) (temp1 X))
         else if k = 2 then ins (.lea (suffix X) 0 none (some (temp1 X, 4)) (temp1 X))
         else ins (.lea (suffix X) 0 none (some (temp1 X, 8)) (temp1 X)))
        finish X dest) e (σ, none) (Leaves dest (σ.val X .rax <<< k)) := by
  have hscale : ∀ {w : ℕ} (x : BitVec w), x * BitVec.ofNat w (2 ^ k) = x <<< k := by
    intro w x
    rw [BitVec.shiftLeft_eq_mul_twoPow]
    congr 1
    apply BitVec.eq_of_toNat_eq
    rw [BitVec.toNat_ofNat, BitVec.toNat_twoPow]
  have hwidth : ∀ {w w' : ℕ} (_ : w = w') (x : BitVec w), (x <<< k).setWidth w' =
      x.setWidth w' <<< k := by
    rintro w _ rfl x
    rw [BitVec.setWidth_eq, BitVec.setWidth_eq]
  have hrax : σ.val X .rax = _ := (σ.get_suffix X (temp1 X)).symm
  rw [hrax, ← hwidth (bits_suffix X), ← hscale]
  generalize hx : σ.get (temp1 X) (suffix X) = x
  interval_cases k
  all_goals
    simp only [runs_bind, if_true, Nat.reduceEqDiff, if_false, runs_ins]
    refine ⟨by simp [temp1], _, rfl, runs_finish hdest ?_⟩
    refine (val_put_self _ X (temp1 X) _).trans (congrArg _ ?_)
    simp only [Option.map_some, Option.getD_some, hx]
    rw [show BitVec.ofInt (suffix X).bits 0 = 0#_ from rfl, BitVec.zero_add]
  · rw [show BitVec.ofNat (suffix X).bits (2 ^ 1) = 1#_ + 1#_ from BitVec.ofNat_add 1 1,
      BitVec.mul_add,
      BitVec.mul_one]
  · exact BitVec.zero_add _
  · exact BitVec.zero_add _

omit hdest

/-- The end of a word shift by a constant on RV64. -/
theorem runs_shiftImmW (hdest : dest.size = .q) {op : ShiftOp} (hcount : count < 256) :
    (machine env).Runs (do
        ins (.shiftImm op .l count eax)
        ins (.movsx .l .q (.reg eax) dest)
        pure dest) e (σ, none)
      (Leaves (X := .rv64) dest ((op.val ((σ.regs .rax).setWidth 32) count).signExtend 64)) := by
  rw [runs_bind, runs_ins]
  refine ⟨decide_eq_true ⟨hcount, rfl⟩, _, rfl, ?_⟩
  exact runs_sextEax hdest (by simp [eax])

/-- The number of shift amounts that an operator tells apart. -/
def shiftRange (X : Xlen) (isWord : Bool) : ℕ := if isWord then 32 else X.value

theorem shiftRange_pos (X : Xlen) (isWord : Bool) :
    0 < shiftRange X isWord ∧ shiftRange X isWord ≤ 64 := by
  cases X <;> cases isWord <;> decide

variable {x86Op : ShiftOp}

theorem lowered_shift (hop : shiftOp op = some (x86Op, false)) {x : X.Reg}
    (hcount : count % X.value = v.toNat % X.value) :
    x86Op.val x count = loweredBinary x v op := by
  cases op <;> cases hop <;> simp [loweredBinary, ShiftOp.val, hcount]

theorem lowered_shiftW (hop : shiftOp op = some (x86Op, true)) {x : X.Reg}
    (hcount : count % 32 = v.toNat % 32) :
    (x86Op.val (x.setWidth 32) count).signExtend X.value = loweredBinary x v op := by
  cases op <;> cases hop <;> simp [loweredBinary, ShiftOp.val, hcount]

/-- A shift by an immediate, once the left operand is in rax. -/
theorem runs_emitBinaryShift_imm {isWord : Bool} (hop : shiftOp op = some (x86Op, isWord))
    {emitRight : Operation} {m : Em Name}
    (hdest : dest.size = suffix X) (hX : isWord = true → X = .rv64)
    (hm : emitBinaryShift op (.imm v) emitRight dest = some m) :
    (machine env).Runs m e (σ, none) (Leaves dest (loweredBinary (σ.val X .rax) v op)) := by
  have hmask : (if isWord = true ∨ X = .rv32 then 0x1f else 0x3f) + 1 = shiftRange X isWord := by
    cases X <;> cases isWord <;> rfl
  have hlt : v.toNat % shiftRange X isWord < 256 := by
    have hrange := shiftRange_pos X isWord
    exact (Nat.mod_lt _ hrange.1).trans (by omega)
  rw [emitBinaryShift, hop] at hm
  cases hm
  simp only [Xlen.toNat_toU64, hmask]
  cases isWord with
  | true =>
    obtain rfl := hX rfl
    rw [if_neg (by rintro ⟨rfl, -⟩; cases hop), ← lowered_shiftW hop (Nat.mod_mod _ _)]
    exact runs_shiftImmW hdest hlt
  | false =>
    by_cases hlea : op = .sll ∧ v.toNat % shiftRange X false ≤ 3 ∧ v.toNat % shiftRange X false > 0
    · rw [if_pos hlea]
      obtain ⟨rfl, hle, hpos⟩ := hlea
      exact runs_leaShift hdest hle hpos
    · rw [if_neg hlea, ← lowered_shift hop (Nat.mod_mod _ _)]
      exact runs_shiftImm hdest hlt

theorem runs_shiftClW (hdest : dest.size = .q) {op : ShiftOp} :
    (machine env).Runs (do
        ins (.shiftCl op .l eax)
        ins (.movsx .l .q (.reg eax) dest)
        pure dest) e (σ, none)
      (Leaves (X := .rv64) dest ((op.val ((σ.regs .rax).setWidth 32)
        (σ.get ⟨.rcx, .b⟩ .b).toNat).signExtend 64)) := by
  rw [runs_bind, runs_ins]
  refine ⟨rfl, _, rfl, ?_⟩
  exact runs_sextEax hdest (by simp [eax])

/-- The low byte of a register has the shift amount of the guest value in it. -/
theorem toNat_mod_shiftRange (σ : State) (X : Xlen) (g : Reg) (isWord : Bool) :
    (σ.regs g).toNat % 256 % shiftRange X isWord = (σ.val X g).toNat % shiftRange X isWord := by
  cases X <;> cases isWord <;> simp [shiftRange, Xlen.value]

/-- A shift by a register, once the left operand is in rax. -/
theorem runs_emitBinaryShift_reg {isWord : Bool}
    (hop : shiftOp op = some (x86Op, isWord)) {r : ℕ} {emitRight : Operation} {m : Em Name}
    {a b : X.Reg}
    (hdest : dest.size = suffix X) (hX : isWord = true → X = .rv64)
    (hright : (machine env).Runs (emitRight (temp3 X)) e (σ, none) fun n _ c =>
      c.2 = none ∧ c.1.val X n.reg = b ∧ c.1.val X .rax = a)
    (hm : emitBinaryShift (X := X) op (.reg r) emitRight dest = some m) :
    (machine env).Runs m e (σ, none) (Leaves dest (loweredBinary a b op)) := by
  rw [emitBinaryShift, hop] at hm
  cases hm
  rw [runs_bind]
  refine hright.mono ?_
  rintro n e₁ ⟨σ₁, _⟩ ⟨rfl, hb, ha⟩
  subst hb ha
  -- the amount goes to rcx, of which the shift uses the low byte
  have hmove : (machine env).Runs
      (Emit.when (n.reg ≠ .rcx) (ins (.mov .l (.reg (regDword n)) ecx))) e₁ (σ₁, none) fun _ _ c =>
        c.2 = none ∧ c.1.regs .rax = σ₁.regs .rax ∧
          (c.1.get ⟨.rcx, .b⟩ .b).toNat = (σ₁.regs n.reg).toNat % 256 := by
    by_cases hn : n.reg = .rcx
    · simp [hn]
    · simp [hn, regDword, ecx]
  rw [runs_bind]
  refine hmove.mono ?_
  rintro _ e₂ ⟨σ₂, _⟩ ⟨rfl, hrax, hcl⟩
  have hcount := toNat_mod_shiftRange σ₁ X n.reg isWord
  rw [← hcl] at hcount
  cases isWord with
  | true =>
    obtain rfl := hX rfl
    rw [← lowered_shiftW hop hcount, val_rv64, ← hrax]
    exact runs_shiftClW hdest
  | false =>
    rw [← lowered_shift hop hcount, show σ₁.val X .rax = σ₂.val X .rax by rw [val, val, hrax]]
    exact runs_shiftCl hdest

/-! ## Word operators -/

/-- Operators that are printed for 64-bit registers only. -/
def isWordOp : BinaryOp → Bool
  | .addW | .subW | .mulW | .divW | .divUW | .remW | .remUW | .sllW | .srlW | .sraW => true
  | _ => false

theorem runs_aluW (hdest : dest.size = .q) {alu : AluOp} {o : Operand} (hfits : o.fits .l = true) :
    (machine env).Runs (do
        ins (.alu alu .l o eax)
        ins (.movsx .l .q (.reg eax) dest)
        pure dest) e (σ, none)
      (Leaves (X := .rv64) dest ((alu.val ((σ.regs .rax).setWidth 32) (σ.read .l o)).signExtend
        64)) := by
  rw [runs_bind, runs_ins]
  refine ⟨decide_eq_true ⟨hfits, rfl⟩, _, rfl, ?_⟩
  exact runs_sextEax hdest (by simp [eax])

theorem runs_mulW (hright : RightIn env .l rv σ σ₁) (hdest : dest.size = .q) :
    (machine env).Runs (generalOp .rv64 .mulW rv dest) e (σ, none)
      (Leaves dest (BinaryOp.val (σ₁.val .rv64 .rax) (σ₁.val .rv64 .rcx) .mulW)) := by
  refine hright.bind ?_
  exact runs_aluW hdest (by rfl)

/-! ## The general path -/

/-- Operators that take their right operand from rcx, whatever register it was evaluated to. -/
def usesRcx : BinaryOp → Bool
  | .mulH | .mulHSU | .mulHU | .div | .divU | .rem | .remU
  | .mulW | .divW | .divUW | .remW | .remUW => true
  | _ => false

theorem runs_generalOp_rcx (hop : usesRcx op = true) (hword : isWordOp op = false)
    (hright : RightIn env (suffix X) rv σ σ₁) (hdest : dest.size = suffix X) :
    (machine env).Runs (generalOp X op rv dest) e (σ, none)
      (Leaves dest (loweredBinary (σ₁.val X .rax) (σ₁.val X .rcx) op)) := by
  cases op with
  | mulH => exact runs_mulH hright hdest
  | mulHU => exact runs_mulHU hright hdest
  | mulHSU => exact runs_mulHSU hright hdest
  | div => exact runs_emitDivSigned_width hdest hright rfl rfl rfl
  | divU => exact runs_emitDivUnsigned_width hdest hright rfl rfl rfl
  | rem => exact runs_emitDivSigned_width hdest hright rfl rfl rfl
  | remU => exact runs_emitDivUnsigned_width hdest hright rfl rfl rfl
  | _ => simp [usesRcx, isWordOp] at hop hword

theorem runs_generalOp_rcxW (hop : usesRcx op = true) (hword : isWordOp op = true)
    (hright : RightIn env .l rv σ σ₁) (hdest : dest.size = .q) :
    (machine env).Runs (generalOp .rv64 op rv dest) e (σ, none)
      (Leaves dest (loweredBinary (σ₁.val .rv64 .rax) (σ₁.val .rv64 .rcx) op)) := by
  have hleaves : ∀ {v : BitVec 64} {n e' c}, n = dest ∧ c.2 = none ∧ c.1.regs dest.reg = v →
      Leaves (X := .rv64) dest v n e' c := by
    rintro v n e' c ⟨hn, hc, hval⟩
    exact ⟨hn, hc, (val_rv64 _ _).trans hval⟩
  cases op with
  | mulW => exact runs_mulW hright hdest
  | divW => exact (runs_emitDivWSigned hright hdest rfl rfl).mono fun _ _ _ h => hleaves h
  | divUW => exact (runs_emitDivWUnsigned hright hdest rfl rfl).mono fun _ _ _ h => hleaves h
  | remW => exact (runs_emitDivWSigned hright hdest rfl rfl).mono fun _ _ _ h => hleaves h
  | remUW => exact (runs_emitDivWUnsigned hright hdest rfl rfl).mono fun _ _ _ h => hleaves h
  | _ => simp [usesRcx, isWordOp] at hop hword

theorem runs_generalOp_mul {n : Name} (hn : n.size = suffix X) (hdest : dest.size = suffix X) :
    (machine env).Runs (generalOp X .mul (.reg n) dest) e (σ, none)
      (Leaves dest (σ.val X .rax * σ.val X n.reg)) :=
  runs_alu hdest (decide_eq_true hn)

theorem runs_generalOp_mul_imm {z : ℤ} (hz : encodable (.mov (suffix X) (.imm z) (temp2 X)) = true)
    (hdest : dest.size = suffix X) :
    (machine env).Runs (generalOp X .mul (.imm z) dest) e (σ, none)
      (Leaves dest (σ.val X .rax * BitVec.ofInt X.value z)) := by
  change (machine env).Runs ((ins _ >>= fun _ => ins _) >>= fun _ => finish X dest) _ _ _
  rw [runs_bind, runs_bind, runs_ins]
  refine ⟨hz, _, rfl, ?_⟩
  rw [← runs_bind]
  have hrcx : (σ.put (temp2 X) (BitVec.ofInt (suffix X).bits z)).val X .rcx =
      BitVec.ofInt X.value z :=
    (val_put_self _ X (temp2 X) _).trans (σ.read_suffix X (.imm z))
  rw [← hrcx]
  exact runs_alu hdest (by exact decide_eq_true rfl)

theorem runs_generalOp_pack (hop : op = .pack ∨ op = .pack8 ∨ op = .pack16)
    (hdest : dest.size = suffix X) :
    (machine env).Runs (generalOp X op rv dest) e (σ, none) (Leaves dest (σ.val X .rax)) := by
  rcases hop with rfl | rfl | rfl <;> exact runs_finish hdest rfl

/-! ## Unary operators -/

/-- The value that emitted code computes for a unary operator: an operator that the backend does not
know leaves its operand. -/
def loweredUnary (x : X.Reg) : UnaryOp → X.Reg
  | .clz32 | .ctz32 | .cpop32 | .orc8 | .brev8 | .zip | .unzip => x
  | op => op.val x

/-- The end of `emit_unary_op`, once the operand is in rax. -/
def unaryEnd (X : Xlen) (op : UnaryOp) (dest : Name) : Em Name :=
  ((((emitUnaryNegate X op dest).orElse fun _ => emitUnaryExtend X op dest).orElse fun _ =>
    emitUnaryBitcount X op dest).orElse fun _ => emitUnaryMisc X op dest).getD (finish X dest)

/-- Operators on words are printed for 64-bit registers. -/
def unaryEncodable (X : Xlen) (op : UnaryOp) (dest : Name) : Bool :=
  X = .rv64 ∨ (op ≠ .sext32 ∧ (op = .zext32 → dest = temp1 X))

/-- `bsr` and `xor` count the leading zeros. -/
theorem clz_of_bsr {w k : ℕ} (hw : w = 2 ^ k) {x : BitVec w} (hx : x ≠ 0#w) :
    (BitVec.ofNat w (w - 1) - x.clz) ^^^ BitVec.ofNat w (w - 1) = x.clz := by
  have hmod : w % 2 ^ w = w := Nat.mod_eq_of_lt Nat.lt_two_pow_self
  have hlt : x.clz.toNat < w := by
    simpa [hmod] using BitVec.lt_def.1 (BitVec.clz_lt_iff_ne_zero.2 hx)
  have hmax : (BitVec.ofNat w (w - 1)).toNat = w - 1 :=
    Nat.mod_eq_of_lt ((Nat.sub_le _ _).trans_lt Nat.lt_two_pow_self)
  apply BitVec.eq_of_toNat_eq
  rw [BitVec.toNat_xor, BitVec.toNat_sub_of_le (BitVec.le_def.2 (by omega)), hmax]
  generalize x.clz.toNat = c at hlt
  subst hw
  -- below a power of two, taking a number from the largest one flips its bits
  apply Nat.eq_of_testBit_eq
  intro i
  rw [Nat.testBit_xor, Nat.sub_sub, Nat.add_comm 1, Nat.testBit_two_pow_sub_succ hlt,
    Nat.testBit_two_pow_sub_one]
  by_cases hi : i < k
  · simp [hi]
  · have hle : 2 ^ k ≤ 2 ^ i := Nat.pow_le_pow_right two_pos (not_lt.1 hi)
    simp [hi, Nat.testBit_lt_two_pow (hlt.trans_le hle)]

/-- An instruction that computes the value in rax, and the move to the destination. -/
theorem runs_insFinish {i : Instr} {τ : State} (henc : encodable i = true)
    (hstep : step env i σ = some (τ, none)) (hdest : dest.size = suffix X) (hv : τ.val X .rax = v) :
    (machine env).Runs (do ins i; finish X dest) e (σ, none) (Leaves dest v) := by
  rw [runs_bind, runs_ins]
  exact ⟨henc, _, hstep, runs_finish hdest hv⟩

/-- A sign extension of the low part of rax into the destination. -/
theorem runs_movsx (hsz : sz.bits ≤ 16) (hdest : dest.size = suffix X) :
    (machine env).Runs (do ins (.movsx sz (suffix X) (.reg ⟨.rax, sz⟩) dest); pure dest) e (σ, none)
      (Leaves dest (((σ.val X .rax).setWidth sz.bits).signExtend X.value)) := by
  have hlt : sz.bits < (suffix X).bits := by
    rw [bits_suffix]
    exact lt_of_le_of_lt hsz (lt_of_lt_of_le (by decide) X.thirtyTwo_le_value)
  rw [runs_bind, runs_ins]
  refine ⟨decide_eq_true ⟨decide_eq_true rfl, hdest, hlt⟩, _, rfl, runs_pure.2 ⟨rfl, rfl, ?_⟩⟩
  refine (val_put_self _ X dest _).trans ?_
  rw [val, BitVec.setWidth_setWidth_of_le _ (bits_suffix X ▸ hlt.le)]
  cases X <;> exact BitVec.setWidth_eq _

/-- A zero extension of the low part of rax into the destination. -/
theorem runs_movzx (hsz : sz.bits ≤ 16) :
    (machine env).Runs (do ins (.movzx sz .l (.reg ⟨.rax, sz⟩) (regDword dest)); pure dest) e
      (σ, none)
      (Leaves dest (((σ.val X .rax).setWidth sz.bits).setWidth X.value)) := by
  have hlt : sz.bits < Size.l.bits := lt_of_le_of_lt hsz (by decide)
  rw [runs_bind, runs_ins]
  refine ⟨decide_eq_true ⟨decide_eq_true rfl, rfl, hlt⟩, _, rfl, runs_pure.2 ⟨rfl, rfl, ?_⟩⟩
  refine (val_put_l_self _ X (regDword dest) _).trans ?_
  rw [val, BitVec.setWidth_setWidth_of_le _ (hlt.le.trans X.thirtyTwo_le_value)]
  exact Word.setWidth_setWidth_of_ge hlt.le _

theorem runs_clz (hdest : dest.size = suffix X) :
    (machine env).Runs (unaryEnd X .clz dest) e (σ, none) (Leaves dest (σ.val X .rax).clz) := by
  by_cases hx : (σ.regs .rax).setWidth X.value = 0#X.value <;> cases X
  all_goals
    simp only [Xlen.value, BitVec.setWidth_eq] at hx
    simp [unaryEnd, emitUnaryNegate, emitUnaryExtend, emitUnaryBitcount, suffix, temp1, hx,
      Xlen.value]
    refine runs_finish hdest ?_
  · rfl
  · rfl
  · simp
    exact clz_of_bsr (k := 5) rfl hx
  · exact clz_of_bsr (k := 6) rfl hx

theorem runs_ctz (hdest : dest.size = suffix X) :
    (machine env).Runs (unaryEnd X .ctz dest) e (σ, none) (Leaves dest (σ.val X .rax).ctz) := by
  have hzero : (0#32).ctz = 32#32 ∧ (0#64).ctz = 64#64 := by decide +kernel
  by_cases hx : (σ.regs .rax).setWidth X.value = 0#X.value <;> cases X
  all_goals
    simp only [Xlen.value, BitVec.setWidth_eq] at hx
    simp [unaryEnd, emitUnaryNegate, emitUnaryExtend, emitUnaryBitcount, suffix, temp1, hx, hzero,
      Xlen.value]
    refine runs_finish hdest ?_
  · rfl
  · rfl
  · simp
    rfl
  · rfl

theorem runs_unaryEnd {op : UnaryOp} (henc : unaryEncodable X op dest = true)
    (hdest : dest.size = suffix X) :
    (machine env).Runs (unaryEnd X op dest) e (σ, none)
      (Leaves dest (loweredUnary (σ.val X .rax) op)) := by
  have hwidth : ∀ v : BitVec (suffix X).bits, (σ.put (temp1 X) v).unflagged.val X .rax =
      v.setWidth X.value :=
    val_put_self _ X (temp1 X)
  cases op with
  | not =>
    refine runs_insFinish (by exact decide_eq_true rfl) rfl hdest ((hwidth _).trans ?_)
    cases X <;> exact BitVec.setWidth_eq _
  | neg =>
    refine runs_insFinish (by exact decide_eq_true rfl) rfl hdest ((hwidth _).trans ?_)
    cases X <;> exact BitVec.setWidth_eq _
  | sext8 => exact runs_movsx (by decide) hdest
  | sext16 => exact runs_movsx (by decide) hdest
  | sext32 =>
    cases X with
    | rv32 => simp [unaryEncodable] at henc
    | rv64 => exact runs_sextEax hdest (by simp; rfl)
  | zext8 => exact runs_movzx (by decide)
  | zext16 => exact runs_movzx (by decide)
  | zext32 =>
    cases X with
    | rv32 =>
      obtain rfl : dest = temp1 .rv32 := by simpa [unaryEncodable] using henc
      change (machine env).Runs (ins _ >>= fun _ => _) _ _ _
      simp [temp1, eax, Leaves]
      exact ((BitVec.setWidth_eq _).trans (BitVec.setWidth_eq _)).symm
    | rv64 =>
      refine runs_insFinish (by rfl) rfl hdest ?_
      rfl
  | clz => exact runs_clz hdest
  | ctz => exact runs_ctz hdest
  | cpop =>
    refine runs_insFinish (by exact decide_eq_true ⟨rfl, rfl⟩) rfl hdest ((hwidth _).trans ?_)
    cases X <;> exact BitVec.setWidth_eq _
  | rev8 =>
    refine runs_insFinish (by exact decide_eq_true rfl) rfl hdest ((hwidth _).trans ?_)
    cases X <;> exact BitVec.setWidth_eq _
  | _ => exact runs_finish hdest rfl

/-- On RV32 the destination has no 64-bit name for the operators on words. -/
theorem not_runs_unaryEnd {op : UnaryOp} (henc : unaryEncodable X op dest = false)
    (hdest : dest.size = suffix X) :
    ¬ (machine env).Runs (unaryEnd X op dest) e c Q := by
  simp only [unaryEncodable, decide_eq_false_iff_not, not_or, not_and, not_forall] at henc
  obtain ⟨hX, hop⟩ := henc
  obtain rfl : X = .rv32 := by
    cases X with
    | rv32 => rfl
    | rv64 => exact absurd rfl hX
  by_cases hs : op = .sext32
  · subst hs
    refine not_runs_of_emits (i := .movsx .l .q (.reg eax) dest) ?_ ?_
    · simp [unaryEnd, emitUnaryNegate, emitUnaryExtend]
    · exact decide_eq_false fun h => by simp [hdest, suffix] at h
  · obtain ⟨rfl, hne⟩ := hop hs
    refine not_runs_of_emits (i := .mov .q (.reg (temp1 .rv32)) dest) ?_ ?_
    · simp [unaryEnd, emitUnaryNegate, emitUnaryExtend, hne]
    · rfl

/-- On RV32 the word operators cannot be encoded either. -/
theorem not_runs_generalOp_word (hop : usesRcx op = true) (hword : isWordOp op = true)
    (hdest : dest.size = .l) :
    ¬ (machine env).Runs (generalOp .rv32 op rv dest) e c Q := by
  have hno : ∀ {n : Name}, Emit.Emits (.movsx .l .q (.reg n) dest) (generalOp .rv32 op rv dest) e →
      ¬ (machine env).Runs (generalOp .rv32 op rv dest) e c Q := by
    intro n hn
    exact not_runs_of_emits hn (decide_eq_false fun h => by simp [hdest] at h)
  cases op with
  | mulW => exact hno (n := eax) (by simp [generalOp, emitBinaryArith, emitBinaryMulSpecial])
  | divW =>
    exact hno (n := eax) (by simp [generalOp, emitBinaryArith, emitBinaryMulSpecial,
      emitBinaryDivRem, emitDivWSigned])
  | divUW =>
    exact hno (n := eax) (by simp [generalOp, emitBinaryArith, emitBinaryMulSpecial,
      emitBinaryDivRem, emitDivWUnsigned])
  | remW =>
    exact hno (n := edx) (by simp [generalOp, emitBinaryArith, emitBinaryMulSpecial,
      emitBinaryDivRem, emitDivWSigned])
  | remUW =>
    exact hno (n := edx) (by simp [generalOp, emitBinaryArith, emitBinaryMulSpecial,
      emitBinaryDivRem, emitDivWUnsigned])
  | _ => simp [usesRcx, isWordOp] at hop hword

end Operators

end Rvr.X64
