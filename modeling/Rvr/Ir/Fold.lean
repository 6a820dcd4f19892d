import Rvr.Ir.Eval

/-!
# The folding constructors preserve meaning

Every smart constructor of `Expr` evaluates to the value of the plain operator on the values of its
operands, whatever it folded.  The evaluation lemmas are tagged for `simp`, so that the value of a
lifted expression is computed without looking at the constructors again.

A written value can also change guest memory, but only when it is a runtime call.  `isCall` singles
out those expressions; no constructor turns operands that are not calls into one.
-/

namespace Rvr

open Xlen BitVec

namespace Xlen

variable {X : Xlen}

/-! ## Truncation commutes with the folded operators -/

theorem fromU64_add (a b : U64) : X.fromU64 (a + b) = X.fromU64 a + X.fromU64 b :=
  setWidth_add a b X.value_le

theorem fromU64_neg (a : U64) : X.fromU64 (-a) = -X.fromU64 a :=
  setWidth_neg_of_le X.value_le

theorem fromU64_sub (a b : U64) : X.fromU64 (a - b) = X.fromU64 a - X.fromU64 b := by
  rw [sub_eq_add_neg, fromU64_add, fromU64_neg, ← sub_eq_add_neg]

theorem fromU64_and (a b : U64) : X.fromU64 (a &&& b) = X.fromU64 a &&& X.fromU64 b :=
  setWidth_and

theorem fromU64_or (a b : U64) : X.fromU64 (a ||| b) = X.fromU64 a ||| X.fromU64 b :=
  setWidth_or

theorem fromU64_xor (a b : U64) : X.fromU64 (a ^^^ b) = X.fromU64 a ^^^ X.fromU64 b :=
  setWidth_xor

/-- Truncating a sign extension from at most 64 bits is sign extension to the register width. -/
theorem fromU64_signExtend {w : ℕ} (a : BitVec w) :
    X.fromU64 (a.signExtend 64) = a.signExtend X.value := by
  apply eq_of_getLsbD_eq
  intro i hi
  have hi64 : i < 64 := lt_of_lt_of_le hi X.value_le
  simp only [fromU64, getLsbD_setWidth, getLsbD_signExtend, hi64, decide_true, Bool.true_and]

/-- Narrowing a register to `w ≤ XLEN` bits does not depend on going through `u64`. -/
theorem toU64_setWidth {w : ℕ} (hw : w ≤ 32) (v : X.Reg) :
    (toU64 v).setWidth w = v.setWidth w := by
  exact setWidth_setWidth_of_le v (by omega)

/-- Masking a register with `2 ^ w - 1` is truncation to `w` bits. -/
theorem and_lowMask_eq_setWidth (w : ℕ) (v : X.Reg) :
    v &&& X.fromU64 (BitVec.ofNat 64 (2 ^ w - 1)) = (v.setWidth w).setWidth X.value := by
  apply eq_of_getLsbD_eq
  intro i hi
  have hi64 : i < 64 := lt_of_lt_of_le hi X.value_le
  simp only [fromU64, getLsbD_and, getLsbD_setWidth, getLsbD_ofNat, Nat.testBit_two_pow_sub_one, hi,
    hi64]
  exact Bool.and_comm _ _

end Xlen

namespace Expr

variable {X : Xlen} {rt : Runtime X} {s : GuestState X}

/-! ## Evaluation of the plain constructors -/

@[simp] theorem eval_imm (v : X.Reg) : (imm v).eval rt s = v := rfl

@[simp] theorem eval_reg (r : ℕ) : (reg r).eval rt s = s.readReg r := rfl

@[simp] theorem eval_read (r : ℕ) : (read r).eval rt s = s.readReg r := rfl

@[simp] theorem eval_csr (c : ℕ) : (csr c).eval rt s = s.readCsr c := rfl

@[simp] theorem eval_temp (i : ℕ) : (temp i).eval rt s = s.temps i := rfl

@[simp] theorem eval_resAddr : resAddr.eval rt s = s.resAddr := rfl

@[simp] theorem eval_resValid : resValid.eval rt s = s.resValid.setWidth X.value := rfl

@[simp] theorem eval_mem (base : Expr X) (offset : BitVec 16) (width : ℕ) (signed : Bool) :
    (mem base offset width signed).eval rt s =
      s.loadMem (base.eval rt s + offset.signExtend X.value) width signed := rfl

@[simp] theorem eval_memU (addr : Expr X) (width : ℕ) :
    (memU addr width).eval rt s = s.loadMem (addr.eval rt s) width false := rfl

@[simp] theorem eval_memS (addr : Expr X) (width : ℕ) :
    (memS addr width).eval rt s = s.loadMem (addr.eval rt s) width true := rfl

@[simp] theorem eval_unary (op : UnaryOp) (e : Expr X) :
    (unary op e).eval rt s = op.val (e.eval rt s) := rfl

@[simp] theorem eval_binary (op : BinaryOp) (l r : Expr X) :
    (binary op l r).eval rt s = op.val (l.eval rt s) (r.eval rt s) := rfl

@[simp] theorem eval_select (c t e : Expr X) :
    (select c t e).eval rt s = if c.eval rt s = 0 then e.eval rt s else t.eval rt s := rfl

/-! ## Evaluation of the folding constructors -/

/-- An operand that counts as zero evaluates to zero. -/
theorem eval_of_isZero {e : Expr X} (h : e.isZero = true) : e.eval rt s = 0#X.value := by
  unfold isZero at h
  split at h
  · next v => rw [eval_imm]; exact toU64_eq_zero.1 (by simpa using h)
  · rw [eval_reg]; rfl
  · exact absurd h (by simp)

@[simp] theorem eval_neg (e : Expr X) : (neg e).eval rt s = -e.eval rt s := rfl

@[simp] theorem eval_not (e : Expr X) : (not e).eval rt s = ~~~e.eval rt s := rfl

@[simp] theorem eval_add (l r : Expr X) : (add l r).eval rt s = l.eval rt s + r.eval rt s := by
  unfold add
  split
  · simp only [eval_imm, fromU64_add, fromU64_toU64]
  · split_ifs with hr hl
    · rw [eval_of_isZero hr, BitVec.add_zero]
    · rw [eval_of_isZero hl, BitVec.zero_add]
    · rfl

@[simp] theorem eval_sub (l r : Expr X) : (sub l r).eval rt s = l.eval rt s - r.eval rt s := by
  unfold sub
  split
  · simp only [eval_imm, fromU64_sub, fromU64_toU64]
  · split_ifs with hr hl
    · rw [eval_of_isZero hr, BitVec.sub_zero]
    · rw [eval_neg, eval_of_isZero hl, BitVec.zero_sub]
    · rfl

@[simp] theorem eval_and (l r : Expr X) : (and l r).eval rt s = l.eval rt s &&& r.eval rt s := by
  unfold and
  split
  · simp only [eval_imm, fromU64_and, fromU64_toU64]
  · rfl

@[simp] theorem eval_or (l r : Expr X) : (or l r).eval rt s = l.eval rt s ||| r.eval rt s := by
  unfold or
  split
  · simp only [eval_imm, fromU64_or, fromU64_toU64]
  · split_ifs with hr hl
    · rw [eval_of_isZero hr, or_zero]
    · rw [eval_of_isZero hl, zero_or]
    · rfl

@[simp] theorem eval_xor (l r : Expr X) : (xor l r).eval rt s = l.eval rt s ^^^ r.eval rt s := by
  unfold xor
  split
  · simp only [eval_imm, fromU64_xor, fromU64_toU64]
  · split_ifs with hr hl
    · rw [eval_of_isZero hr, xor_zero]
    · rw [eval_of_isZero hl, zero_xor]
    · rfl

@[simp] theorem eval_sll (l r : Expr X) :
    (sll l r).eval rt s = l.eval rt s <<< (r.eval rt s).toNat := by
  unfold sll
  split_ifs with hr
  · rw [eval_of_isZero hr]; simp
  · rfl

@[simp] theorem eval_srl (l r : Expr X) :
    (srl l r).eval rt s = l.eval rt s >>> (r.eval rt s).toNat := by
  unfold srl
  split_ifs with hr
  · rw [eval_of_isZero hr]; simp
  · rfl

@[simp] theorem eval_sra (l r : Expr X) :
    (sra l r).eval rt s = (l.eval rt s).sshiftRight (r.eval rt s).toNat := by
  unfold sra
  split_ifs with hr
  · rw [eval_of_isZero hr]; simp
  · rfl

@[simp] theorem eval_ltu (l r : Expr X) :
    (ltu l r).eval rt s = Ops.ofBool _ ((l.eval rt s).ult (r.eval rt s)) := by
  unfold ltu
  split_ifs with hl
  · -- `0 < x` was rewritten to `x != 0`
    have hpos (v : X.Reg) : (0#X.value).ult v = (v != 0) := by
      rw [Bool.eq_iff_iff, ult_iff_lt, bne_iff_ne, ne_eq, ← toNat_inj]
      exact Nat.pos_iff_ne_zero
    simp only [ne, eval_binary, BinaryOp.val, eval_imm, fromU64_zero, eval_of_isZero hl, hpos]
  · rfl

/-! ## Extensions -/

section Extensions

variable (e : Expr X)

@[simp] theorem eval_sext8 :
    (sext8 e).eval rt s = ((e.eval rt s).setWidth 8).signExtend X.value := by
  unfold sext8
  split
  · rw [eval_imm, eval_imm, fromU64_signExtend, toU64_setWidth (by decide)]
  · rfl

@[simp] theorem eval_sext16 :
    (sext16 e).eval rt s = ((e.eval rt s).setWidth 16).signExtend X.value := by
  unfold sext16
  split
  · rw [eval_imm, eval_imm, fromU64_signExtend, toU64_setWidth (by decide)]
  · rfl

@[simp] theorem eval_sext32 :
    (sext32 e).eval rt s = ((e.eval rt s).setWidth 32).signExtend X.value := by
  unfold sext32
  split
  · rw [eval_imm, eval_imm, fromU64_signExtend, toU64_setWidth (by decide)]
  · rfl

@[simp] theorem eval_zext8 :
    (zext8 e).eval rt s = ((e.eval rt s).setWidth 8).setWidth X.value := by
  unfold zext8
  split
  · rw [fromU64_and, fromU64_toU64]
    exact and_lowMask_eq_setWidth 8 _
  · rfl

@[simp] theorem eval_zext16 :
    (zext16 e).eval rt s = ((e.eval rt s).setWidth 16).setWidth X.value := by
  unfold zext16
  split
  · rw [fromU64_and, fromU64_toU64]
    exact and_lowMask_eq_setWidth 16 _
  · rfl

@[simp] theorem eval_zext32 :
    (zext32 e).eval rt s = ((e.eval rt s).setWidth 32).setWidth X.value := by
  unfold zext32
  split
  · rw [fromU64_and, fromU64_toU64]
    exact and_lowMask_eq_setWidth 32 _
  · rfl

end Extensions

/-! ## Operators that are never folded -/

section Plain

variable (l r : Expr X)

@[simp] theorem eval_mul : (mul l r).eval rt s = l.eval rt s * r.eval rt s := rfl

@[simp] theorem eval_eq : (eq l r).eval rt s = Ops.ofBool _ (l.eval rt s == r.eval rt s) := rfl

@[simp] theorem eval_ne : (ne l r).eval rt s = Ops.ofBool _ (l.eval rt s != r.eval rt s) := rfl

@[simp] theorem eval_lt : (lt l r).eval rt s = Ops.ofBool _ ((l.eval rt s).slt (r.eval rt s)) := rfl

@[simp] theorem eval_ge : (ge l r).eval rt s = Ops.ofBool _ (!(l.eval rt s).slt (r.eval rt s)) :=
  rfl

@[simp] theorem eval_geu : (geu l r).eval rt s = Ops.ofBool _ (!(l.eval rt s).ult (r.eval rt s)) :=
  rfl

@[simp] theorem eval_slt :
    (slt l r).eval rt s = Ops.ofBool _ ((l.eval rt s).slt (r.eval rt s)) := rfl

@[simp] theorem eval_sltu :
    (sltu l r).eval rt s = Ops.ofBool _ ((l.eval rt s).ult (r.eval rt s)) := eval_ltu l r

end Plain

/-! ## Word operators -/

section Word

variable (l r : Expr X)

@[simp] theorem eval_addw :
    (addw l r).eval rt s =
      ((l.eval rt s).setWidth 32 + (r.eval rt s).setWidth 32).signExtend X.value := by
  unfold addw
  split_ifs with hr hl
  · rw [eval_of_isZero hr]; simp
  · rw [eval_of_isZero hl]; simp
  · rfl

@[simp] theorem eval_subw :
    (subw l r).eval rt s =
      ((l.eval rt s).setWidth 32 - (r.eval rt s).setWidth 32).signExtend X.value := by
  unfold subw
  split_ifs with hr hl
  · rw [eval_of_isZero hr]; simp
  · rw [eval_sext32, eval_neg, eval_of_isZero hl,
      setWidth_neg_of_le X.thirtyTwo_le_value]
    simp
  · rfl

@[simp] theorem eval_sllw :
    (sllw l r).eval rt s =
      ((l.eval rt s).setWidth 32 <<< (r.eval rt s).toNat).signExtend X.value := by
  unfold sllw
  split_ifs with hr
  · rw [eval_of_isZero hr]; simp
  · rfl

@[simp] theorem eval_srlw :
    (srlw l r).eval rt s =
      ((l.eval rt s).setWidth 32 >>> (r.eval rt s).toNat).signExtend X.value := by
  unfold srlw
  split_ifs with hr
  · rw [eval_of_isZero hr]; simp
  · rfl

@[simp] theorem eval_sraw :
    (sraw l r).eval rt s =
      (((l.eval rt s).setWidth 32).sshiftRight (r.eval rt s).toNat).signExtend X.value := by
  unfold sraw
  split_ifs with hr
  · rw [eval_of_isZero hr]; simp
  · rfl

end Word

/-! ## Runtime calls -/

/-- Whether the expression is a runtime call. -/
def isCall : Expr X → Bool
  | .externCall .. => true
  | _ => false

/-- Evaluating anything but a runtime call leaves guest memory alone. -/
theorem memAfter_of_isCall {e : Expr X} (h : e.isCall = false) : e.memAfter rt s = s.mem := by
  cases e <;> first | rfl | exact absurd h (by simp [isCall])

@[simp] theorem isCall_read (r : ℕ) : (read r : Expr X).isCall = false := rfl

@[simp] theorem isCall_add {l r : Expr X} (hl : l.isCall = false) (hr : r.isCall = false) :
    (add l r).isCall = false := by
  unfold add
  split
  · rfl
  · split_ifs <;> first | assumption | rfl

@[simp] theorem isCall_sub {l r : Expr X} (hl : l.isCall = false) :
    (sub l r).isCall = false := by
  unfold sub
  split
  · rfl
  · split_ifs <;> first | assumption | rfl

@[simp] theorem isCall_and (l r : Expr X) : (and l r).isCall = false := by
  unfold and
  split <;> rfl

@[simp] theorem isCall_or {l r : Expr X} (hl : l.isCall = false) (hr : r.isCall = false) :
    (or l r).isCall = false := by
  unfold or
  split
  · rfl
  · split_ifs <;> first | assumption | rfl

@[simp] theorem isCall_xor {l r : Expr X} (hl : l.isCall = false) (hr : r.isCall = false) :
    (xor l r).isCall = false := by
  unfold xor
  split
  · rfl
  · split_ifs <;> first | assumption | rfl

@[simp] theorem isCall_sll {l : Expr X} (r : Expr X) (hl : l.isCall = false) :
    (sll l r).isCall = false := by
  unfold sll
  split_ifs <;> first | assumption | rfl

@[simp] theorem isCall_srl {l : Expr X} (r : Expr X) (hl : l.isCall = false) :
    (srl l r).isCall = false := by
  unfold srl
  split_ifs <;> first | assumption | rfl

@[simp] theorem isCall_sra {l : Expr X} (r : Expr X) (hl : l.isCall = false) :
    (sra l r).isCall = false := by
  unfold sra
  split_ifs <;> first | assumption | rfl

@[simp] theorem isCall_ltu (l r : Expr X) : (ltu l r).isCall = false := by
  unfold ltu
  split_ifs <;> rfl

@[simp] theorem isCall_sext8 (e : Expr X) : (sext8 e).isCall = false := by
  cases e <;> rfl

@[simp] theorem isCall_sext16 (e : Expr X) : (sext16 e).isCall = false := by
  cases e <;> rfl

@[simp] theorem isCall_sext32 (e : Expr X) : (sext32 e).isCall = false := by
  cases e <;> rfl

@[simp] theorem isCall_zext16 (e : Expr X) : (zext16 e).isCall = false := by
  cases e <;> rfl

@[simp] theorem isCall_zext32 (e : Expr X) : (zext32 e).isCall = false := by
  cases e <;> rfl

@[simp] theorem isCall_addw (l r : Expr X) : (addw l r).isCall = false := by
  unfold addw
  split_ifs <;> first | exact isCall_sext32 _ | rfl

@[simp] theorem isCall_subw (l r : Expr X) : (subw l r).isCall = false := by
  unfold subw
  split_ifs <;> first | exact isCall_sext32 _ | rfl

@[simp] theorem isCall_sllw (l r : Expr X) : (sllw l r).isCall = false := by
  unfold sllw
  split_ifs <;> first | exact isCall_sext32 _ | rfl

@[simp] theorem isCall_srlw (l r : Expr X) : (srlw l r).isCall = false := by
  unfold srlw
  split_ifs <;> first | exact isCall_sext32 _ | rfl

@[simp] theorem isCall_sraw (l r : Expr X) : (sraw l r).isCall = false := by
  unfold sraw
  split_ifs <;> first | exact isCall_sext32 _ | rfl

/-! ## Constructors as functions

What a lift needs to know about the constructor it is given: the function it denotes, and that it
builds a runtime call only from a runtime call. -/

/-- A binary constructor denotes a function of the operand values. -/
structure Denotes (op : Expr X → Expr X → Expr X) (f : X.Reg → X.Reg → X.Reg) : Prop where
  eval : ∀ (rt : Runtime X) (s : GuestState X) (l r : Expr X),
    (op l r).eval rt s = f (l.eval rt s) (r.eval rt s)
  isCall : ∀ {l r : Expr X}, l.isCall = false → r.isCall = false → (op l r).isCall = false

theorem denotes_snd : Denotes (fun _ r : Expr X => r) fun _ r => r :=
  ⟨fun _ _ _ _ => rfl, fun _ hr => hr⟩

theorem denotes_add : Denotes (X := X) add (· + ·) := ⟨fun _ _ => eval_add, isCall_add⟩

theorem denotes_sub : Denotes (X := X) sub (· - ·) :=
  ⟨fun _ _ => eval_sub, fun hl _ => isCall_sub hl⟩

theorem denotes_and : Denotes (X := X) and (· &&& ·) :=
  ⟨fun _ _ => eval_and, fun _ _ => isCall_and _ _⟩

theorem denotes_or : Denotes (X := X) or (· ||| ·) := ⟨fun _ _ => eval_or, isCall_or⟩

theorem denotes_xor : Denotes (X := X) xor (· ^^^ ·) := ⟨fun _ _ => eval_xor, isCall_xor⟩

/-- A selection on a comparison takes the first branch when the comparison holds. -/
theorem eval_select_ofBool {c t e : Expr X} {b : Bool} (hc : c.eval rt s = Ops.ofBool _ b) :
    (select c t e).eval rt s = if b then t.eval rt s else e.eval rt s := by
  have hzero := Ops.ofBool_eq_zero X.value_pos b
  rw [eval_select, hc]
  cases b
  · exact if_pos (hzero.2 rfl)
  · exact if_neg fun h => absurd (hzero.1 h) Bool.noConfusion

theorem denotes_min : Denotes (X := X) min fun l r => if l.slt r then l else r :=
  ⟨fun _ _ _ _ => eval_select_ofBool (eval_lt ..), fun _ _ => rfl⟩

theorem denotes_max : Denotes (X := X) max fun l r => if l.slt r then r else l :=
  ⟨fun _ _ _ _ => eval_select_ofBool (eval_lt ..), fun _ _ => rfl⟩

theorem denotes_minu : Denotes (X := X) minu fun l r => if l.ult r then l else r :=
  ⟨fun _ _ _ _ => eval_select_ofBool (eval_ltu ..), fun _ _ => rfl⟩

theorem denotes_maxu : Denotes (X := X) maxu fun l r => if l.ult r then r else l :=
  ⟨fun _ _ _ _ => eval_select_ofBool (eval_ltu ..), fun _ _ => rfl⟩

section Extended

variable (rt : Runtime X) (s : GuestState X) (l r : Expr X)

/-- The signed comparison of two sign-extended words is that of the words. -/
theorem eval_lt_sext32 :
    (lt (sext32 l) (sext32 r)).eval rt s =
      Ops.ofBool _ (((l.eval rt s).setWidth 32).slt ((r.eval rt s).setWidth 32)) := by
  rw [eval_lt, eval_sext32, eval_sext32]
  congr 1
  rw [Bool.eq_iff_iff, slt_iff_toInt_lt, slt_iff_toInt_lt,
    toInt_signExtend_of_le X.thirtyTwo_le_value,
    toInt_signExtend_of_le X.thirtyTwo_le_value]

/-- The unsigned comparison of two zero-extended words is that of the words. -/
theorem eval_ltu_zext32 :
    (ltu (zext32 l) (zext32 r)).eval rt s =
      Ops.ofBool _ (((l.eval rt s).setWidth 32).ult ((r.eval rt s).setWidth 32)) := by
  rw [eval_ltu, eval_zext32, eval_zext32]
  congr 1
  rw [Bool.eq_iff_iff, ult_iff_lt, ult_iff_lt, lt_def, lt_def,
    toNat_setWidth_of_le X.thirtyTwo_le_value,
    toNat_setWidth_of_le X.thirtyTwo_le_value]

end Extended

theorem denotes_min32 : Denotes (X := X) min32 fun l r =>
    if (l.setWidth 32).slt (r.setWidth 32) then l else r :=
  ⟨fun _ _ _ _ => eval_select_ofBool (eval_lt_sext32 ..), fun _ _ => rfl⟩

theorem denotes_max32 : Denotes (X := X) max32 fun l r =>
    if (l.setWidth 32).slt (r.setWidth 32) then r else l :=
  ⟨fun _ _ _ _ => eval_select_ofBool (eval_lt_sext32 ..), fun _ _ => rfl⟩

theorem denotes_minu32 : Denotes (X := X) minu32 fun l r =>
    if (l.setWidth 32).ult (r.setWidth 32) then l else r :=
  ⟨fun _ _ _ _ => eval_select_ofBool (eval_ltu_zext32 ..), fun _ _ => rfl⟩

theorem denotes_maxu32 : Denotes (X := X) maxu32 fun l r =>
    if (l.setWidth 32).ult (r.setWidth 32) then r else l :=
  ⟨fun _ _ _ _ => eval_select_ofBool (eval_ltu_zext32 ..), fun _ _ => rfl⟩

/-- A constructor that never folds denotes the value of its operator. -/
theorem denotes_binary (op : BinaryOp) : Denotes (X := X) (binary op) fun l r => op.val l r :=
  ⟨fun _ _ _ _ => rfl, fun _ _ => rfl⟩

theorem denotes_sll : Denotes (X := X) sll fun l r => l <<< r.toNat :=
  ⟨fun _ _ => eval_sll, fun hl _ => isCall_sll _ hl⟩

theorem denotes_srl : Denotes (X := X) srl fun l r => l >>> r.toNat :=
  ⟨fun _ _ => eval_srl, fun hl _ => isCall_srl _ hl⟩

theorem denotes_sra : Denotes (X := X) sra fun l r => l.sshiftRight r.toNat :=
  ⟨fun _ _ => eval_sra, fun hl _ => isCall_sra _ hl⟩

theorem denotes_ltu : Denotes (X := X) ltu fun l r => Ops.ofBool _ (l.ult r) :=
  ⟨fun _ _ => eval_ltu, fun _ _ => isCall_ltu _ _⟩

theorem denotes_addw : Denotes (X := X) addw fun l r =>
    (l.setWidth 32 + r.setWidth 32).signExtend X.value :=
  ⟨fun _ _ => eval_addw, fun _ _ => isCall_addw _ _⟩

theorem denotes_subw : Denotes (X := X) subw fun l r =>
    (l.setWidth 32 - r.setWidth 32).signExtend X.value :=
  ⟨fun _ _ => eval_subw, fun _ _ => isCall_subw _ _⟩

theorem denotes_sllw : Denotes (X := X) sllw fun l r =>
    (l.setWidth 32 <<< r.toNat).signExtend X.value :=
  ⟨fun _ _ => eval_sllw, fun _ _ => isCall_sllw _ _⟩

theorem denotes_srlw : Denotes (X := X) srlw fun l r =>
    (l.setWidth 32 >>> r.toNat).signExtend X.value :=
  ⟨fun _ _ => eval_srlw, fun _ _ => isCall_srlw _ _⟩

theorem denotes_sraw : Denotes (X := X) sraw fun l r =>
    ((l.setWidth 32).sshiftRight r.toNat).signExtend X.value :=
  ⟨fun _ _ => eval_sraw, fun _ _ => isCall_sraw _ _⟩

/-! ## Folding keeps the value -/

/-- The unary constructors that fold, with the operators they stand for. -/
def unaryConstructors (X : Xlen) : List ((Expr X → Expr X) × UnaryOp) :=
  [(sext8, .sext8), (sext16, .sext16), (sext32, .sext32), (zext8, .zext8), (zext16, .zext16),
    (zext32, .zext32)]

/-- The binary constructors that fold, with the operators they stand for. -/
def binaryConstructors (X : Xlen) : List ((Expr X → Expr X → Expr X) × BinaryOp) :=
  [(add, .add), (sub, .sub), (and, .and), (or, .or), (xor, .xor), (sll, .sll), (srl, .srl),
    (sra, .sra),
    (ltu, .ltu)]

/-- The word constructors that fold, with the operators they stand for. -/
def wordConstructors : List ((Expr .rv64 → Expr .rv64 → Expr .rv64) × BinaryOp) :=
  [(addw, .addW), (subw, .subW), (sllw, .sllW), (srlw, .srlW), (sraw, .sraW)]

/-- The expressions that the folding constructors return have the values of the plain operator nodes
over the same operands, in every guest state. -/
theorem constructors_keep_value (X : Xlen) :
    (∀ c ∈ unaryConstructors X, ∀ rt s e, (c.1 e).eval rt s = (unary c.2 e).eval rt s) ∧
    (∀ c ∈ binaryConstructors X, ∀ rt s l r, (c.1 l r).eval rt s = (binary c.2 l r).eval rt s) ∧
    (∀ c ∈ wordConstructors, ∀ rt s l r, (c.1 l r).eval rt s = (binary c.2 l r).eval rt s) := by
  refine ⟨fun c hc => ?_, fun c hc => ?_, fun c hc => ?_⟩
  · simp only [unaryConstructors, List.mem_cons, List.not_mem_nil, or_false] at hc
    obtain rfl | rfl | rfl | rfl | rfl | rfl := hc
    · exact fun _ _ => eval_sext8
    · exact fun _ _ => eval_sext16
    · exact fun _ _ => eval_sext32
    · exact fun _ _ => eval_zext8
    · exact fun _ _ => eval_zext16
    · exact fun _ _ => eval_zext32
  · simp only [binaryConstructors, List.mem_cons, List.not_mem_nil, or_false] at hc
    obtain rfl | rfl | rfl | rfl | rfl | rfl | rfl | rfl | rfl := hc
    · exact fun _ _ => eval_add
    · exact fun _ _ => eval_sub
    · exact fun _ _ => eval_and
    · exact fun _ _ => eval_or
    · exact fun _ _ => eval_xor
    · exact fun _ _ => eval_sll
    · exact fun _ _ => eval_srl
    · exact fun _ _ => eval_sra
    · exact fun _ _ => eval_ltu
  · simp only [wordConstructors, List.mem_cons, List.not_mem_nil, or_false] at hc
    obtain rfl | rfl | rfl | rfl | rfl := hc
    · exact fun _ _ => eval_addw
    · exact fun _ _ => eval_subw
    · exact fun _ _ => eval_sllw
    · exact fun _ _ => eval_srlw
    · exact fun _ _ => eval_sraw

end Expr

end Rvr
