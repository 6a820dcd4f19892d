import Rvr.Verify.Base
import Rvr.Verify.BitmanipDecode
import Rvr.Verify.BitmanipValues

/-!
# The bit-manipulation extensions implement the RISC-V specification

Executing the lift of a legal Zba, Zbb, Zbs or Zbkb instruction writes the specified value to rd,
goes on with the next instruction and changes nothing else (`bit_implements_spec`).
-/

namespace Rvr

open Spec BitVec ExtensionRegistry

variable {X : Xlen} {rt : Runtime X}

/-! ## Constants -/

theorem toNat_fromU64_ofNat {n : ℕ} (hn : n < 2 ^ 32) :
    (X.fromU64 (BitVec.ofNat 64 n)).toNat = n := by
  have hlt : n < 2 ^ X.value :=
    Nat.lt_of_lt_of_le hn (Nat.pow_le_pow_right (by decide) X.thirtyTwo_le_value)
  rw [Xlen.fromU64, setWidth_ofNat_of_le X.value_le, toNat_ofNat, Nat.mod_eq_of_lt hlt]

theorem eval_xlenMask (s : GuestState X) :
    (xlenMask : Expr X).eval rt s = BitVec.ofNat _ (X.value - 1) :=
  setWidth_ofNat_of_le X.value_le _

/-- The amount of the second shift of a rotate. -/
theorem toNat_complement (b : X.Reg) :
    ((X.fromU64 (BitVec.ofNat 64 X.value) - b) &&& BitVec.ofNat _ (X.value - 1)).toNat =
      (X.value - b.toNat % X.value) % X.value := by
  rw [toNat_and_shiftMask, toNat_sub, toNat_fromU64_ofNat (by cases X <;> decide)]
  have hb := b.isLt
  cases X <;> simp only [Xlen.value] at hb ⊢ <;> omega

/-- The same for the rotates of a word. -/
theorem toNat_wordComplement (b : X.Reg) :
    ((X.fromU64 32 - b) &&& X.fromU64 0x1F).toNat = (32 - (b.setWidth 32).toNat % 32) % 32 := by
  have h32 : (X.fromU64 32).toNat = 32 := toNat_fromU64_ofNat (by decide)
  have hmask : (X.fromU64 0x1F).toNat = 2 ^ 5 - 1 := toNat_fromU64_ofNat (by decide)
  rw [toNat_and, hmask, Nat.and_two_pow_sub_one_eq_mod, toNat_sub, h32,
    toNat_setWidth]
  have hb := b.isLt
  cases X <;> simp only [Xlen.value] at hb ⊢ <;> omega

/-! ## The lifted constructors -/

namespace Expr

theorem denotes_shxadd {n : ℕ} (hn : n < 2 ^ 32) :
    Denotes (X := X) (fun a b => .add b (.sll a (.imm (X.fromU64 (BitVec.ofNat 64 n)))))
      fun a b => b + a <<< n :=
  ⟨fun rt s l r => by rw [eval_add, eval_sll, eval_imm, toNat_fromU64_ofNat hn],
    fun hl hr => isCall_add hr (isCall_sll _ hl)⟩

theorem denotes_addUw :
    Denotes (X := X) (fun a b => .add b (.zext32 a)) fun a b => b + (a.setWidth 32).setWidth _ :=
  ⟨fun rt s l r => by rw [eval_add, eval_zext32], fun _ hr => isCall_add hr (isCall_zext32 _)⟩

theorem denotes_shxaddUw {n : ℕ} (hn : n < 2 ^ 32) :
    Denotes (X := X) (fun a b => .add b (.sll (.zext32 a) (.imm (X.fromU64 (BitVec.ofNat 64 n)))))
      fun a b => b + (a.setWidth 32).setWidth _ <<< n :=
  ⟨fun rt s l r => by rw [eval_add, eval_sll, eval_zext32, eval_imm, toNat_fromU64_ofNat hn],
    fun _ hr => isCall_add hr (isCall_sll _ (isCall_zext32 _))⟩

theorem denotes_andn : Denotes (X := X) (fun a b => .and a (.not b)) fun a b => a &&& ~~~b :=
  ⟨fun rt s l r => by rw [eval_and, eval_not], fun _ _ => isCall_and _ _⟩

theorem denotes_orn : Denotes (X := X) (fun a b => .or a (.not b)) fun a b => a ||| ~~~b :=
  ⟨fun rt s l r => by rw [eval_or, eval_not], fun hl _ => isCall_or hl rfl⟩

theorem denotes_xnor : Denotes (X := X) (fun a b => .not (.xor a b)) fun a b => ~~~(a ^^^ b) :=
  ⟨fun rt s l r => by rw [eval_not, eval_xor], fun _ _ => rfl⟩

theorem denotes_rol :
    Denotes (X := X)
      (fun a b => .or (.sll a (.and b xlenMask))
        (.srl a (.and (.sub (.imm (X.fromU64 (BitVec.ofNat 64 X.value))) b) xlenMask)))
      fun a b => a.rotateLeft (b.toNat % X.value) := by
  refine ⟨fun rt s l r => ?_, fun hl _ => isCall_or (isCall_sll _ hl) (isCall_srl _ hl)⟩
  rw [eval_or, eval_sll, eval_srl, eval_and, eval_and, eval_sub, eval_imm, eval_xlenMask,
    toNat_and_shiftMask, toNat_complement,
    Word.rotateLeft_eq_shifts _ (Nat.mod_lt _ X.value_pos)]

theorem denotes_ror :
    Denotes (X := X)
      (fun a b => .or (.srl a (.and b xlenMask))
        (.sll a (.and (.sub (.imm (X.fromU64 (BitVec.ofNat 64 X.value))) b) xlenMask)))
      fun a b => a.rotateRight (b.toNat % X.value) := by
  refine ⟨fun rt s l r => ?_, fun hl _ => isCall_or (isCall_srl _ hl) (isCall_sll _ hl)⟩
  rw [eval_or, eval_sll, eval_srl, eval_and, eval_and, eval_sub, eval_imm, eval_xlenMask,
    toNat_and_shiftMask, toNat_complement,
    Word.rotateRight_eq_shifts _ (Nat.mod_lt _ X.value_pos)]

/-- The low word of a rotate to the left of a zero-extended word. -/
theorem setWidth_rotateLeft (a : BitVec 32) {k : ℕ} (hk : k < 32) :
    (a.setWidth X.value <<< k ||| a.setWidth X.value >>> ((32 - k) % 32)).setWidth 32 =
      a.rotateLeft k := by
  have h := X.thirtyTwo_le_value
  rw [setWidth_or, setWidth_shiftLeft_of_le h, Word.setWidth_ushiftRight h,
    BitVec.setWidth_setWidth_of_le _ h, setWidth_eq, Word.rotateLeft_eq_shifts _ hk]

theorem setWidth_rotateRight (a : BitVec 32) {k : ℕ} (hk : k < 32) :
    (a.setWidth X.value >>> k ||| a.setWidth X.value <<< ((32 - k) % 32)).setWidth 32 =
      a.rotateRight k := by
  have h := X.thirtyTwo_le_value
  rw [setWidth_or, setWidth_shiftLeft_of_le h, Word.setWidth_ushiftRight h,
    BitVec.setWidth_setWidth_of_le _ h, setWidth_eq, Word.rotateRight_eq_shifts _ hk]

/-- The amounts of the two shifts of a word rotate. -/
theorem eval_wordAmounts (rt : Runtime X) (s : GuestState X) (e : Expr X) :
    ((and e (.imm (X.fromU64 0x1F))).eval rt s).toNat = ((e.eval rt s).setWidth 32).toNat % 32 ∧
      ((and (.sub (.imm (X.fromU64 32)) e) (.imm (X.fromU64 0x1F))).eval rt s).toNat =
        (32 - ((e.eval rt s).setWidth 32).toNat % 32) % 32 := by
  have hmask : X.fromU64 0x1F = BitVec.ofNat _ 0x1f := setWidth_ofNat_of_le X.value_le 0x1f
  constructor
  · rw [eval_and, eval_imm, hmask, toNat_and_wordShiftMask]
  · rw [eval_and, eval_sub, eval_imm, eval_imm, toNat_wordComplement]

theorem denotes_rolw :
    Denotes (X := X)
      (fun a b => .sext32 (.or (.sll (.zext32 a) (.and b (.imm (X.fromU64 0x1F))))
        (.srl (.zext32 a) (.and (.sub (.imm (X.fromU64 32)) b) (.imm (X.fromU64 0x1F))))))
      (wordVal fun a b => a.rotateLeft (b.toNat % 32)) := by
  refine ⟨fun rt s l r => ?_, fun _ _ => isCall_sext32 _⟩
  obtain ⟨hamount, hcomplement⟩ := eval_wordAmounts rt s r
  rw [eval_sext32, eval_or, eval_sll, eval_srl, eval_zext32, hamount, hcomplement,
    setWidth_rotateLeft _ (Nat.mod_lt _ (by decide))]
  rfl

theorem denotes_rorw :
    Denotes (X := X)
      (fun a b => .sext32 (.or (.srl (.zext32 a) (.and b (.imm (X.fromU64 0x1F))))
        (.sll (.zext32 a) (.and (.sub (.imm (X.fromU64 32)) b) (.imm (X.fromU64 0x1F))))))
      (wordVal fun a b => a.rotateRight (b.toNat % 32)) := by
  refine ⟨fun rt s l r => ?_, fun _ _ => isCall_sext32 _⟩
  obtain ⟨hamount, hcomplement⟩ := eval_wordAmounts rt s r
  rw [eval_sext32, eval_or, eval_sll, eval_srl, eval_zext32, hamount, hcomplement,
    setWidth_rotateRight _ (Nat.mod_lt _ (by decide))]
  rfl

theorem eval_bitAt (rt : Runtime X) (s : GuestState X) (e : Expr X) :
    (bitAt e).eval rt s = 1#X.value <<< ((e.eval rt s).toNat % X.value) := by
  have hone : X.fromU64 1 = 1#X.value := setWidth_ofNat_of_le X.value_le 1
  rw [bitAt, eval_sll, eval_imm, eval_and, eval_xlenMask, toNat_and_shiftMask, hone]

theorem isCall_bitAt (e : Expr X) : (bitAt e).isCall = false := isCall_sll _ rfl

theorem denotes_bclr : Denotes (X := X) (fun a b => .and a (.not (bitAt b)))
    fun a b => a &&& ~~~(1#X.value <<< (b.toNat % X.value)) :=
  ⟨fun rt s l r => by rw [eval_and, eval_not, eval_bitAt], fun _ _ => isCall_and _ _⟩

theorem denotes_bext : Denotes (X := X)
    (fun a b => .and (.srl a (.and b xlenMask)) (.imm (X.fromU64 1)))
    fun a b => a >>> (b.toNat % X.value) &&& 1 := by
  have hone : X.fromU64 1 = 1#X.value := setWidth_ofNat_of_le X.value_le 1
  refine ⟨fun rt s l r => ?_, fun _ _ => isCall_and _ _⟩
  rw [eval_and, eval_srl, eval_and, eval_xlenMask, toNat_and_shiftMask, hone]
  rfl

theorem denotes_binv : Denotes (X := X) (fun a b => .xor a (bitAt b))
    fun a b => a ^^^ 1#X.value <<< (b.toNat % X.value) :=
  ⟨fun rt s l r => by rw [eval_xor, eval_bitAt], fun hl _ => isCall_xor hl (isCall_bitAt _)⟩

theorem denotes_bset : Denotes (X := X) (fun a b => .or a (bitAt b))
    fun a b => a ||| 1#X.value <<< (b.toNat % X.value) :=
  ⟨fun rt s l r => by rw [eval_or, eval_bitAt], fun hl _ => isCall_or hl (isCall_bitAt _)⟩

end Expr

/-! ## Instructions on two registers -/

theorem writesRd_binary (pc : X.Reg) (op : BinaryBitOp) (rd rs1 rs2 : RegId) :
    WritesRd rt (standardBody ((BitInstr.binary op rd rs1 rs2).decoded pc)) rd.toNat fun s =>
      op.val (s.readReg rs1.toNat) (s.readReg rs2.toNat) := by
  cases op with
  | sh1add => exact .liftBinary _ _ (Expr.denotes_shxadd (by decide)) _
  | sh2add => exact .liftBinary _ _ (Expr.denotes_shxadd (by decide)) _
  | sh3add => exact .liftBinary _ _ (Expr.denotes_shxadd (by decide)) _
  | addUw => exact .liftBinary _ _ Expr.denotes_addUw _
  | sh1addUw => exact .liftBinary _ _ (Expr.denotes_shxaddUw (by decide)) _
  | sh2addUw => exact .liftBinary _ _ (Expr.denotes_shxaddUw (by decide)) _
  | sh3addUw => exact .liftBinary _ _ (Expr.denotes_shxaddUw (by decide)) _
  | andn => exact .liftBinary _ _ Expr.denotes_andn _
  | orn => exact .liftBinary _ _ Expr.denotes_orn _
  | xnor => exact .liftBinary _ _ Expr.denotes_xnor _
  | max =>
    exact (WritesRd.liftBinary _ _ Expr.denotes_max _).congr fun s =>
      if_congr slt_iff_toInt_lt rfl rfl
  | maxu =>
    exact (WritesRd.liftBinary _ _ Expr.denotes_maxu _).congr fun s =>
      if_congr (ult_iff_lt.trans lt_def) rfl rfl
  | min =>
    exact (WritesRd.liftBinary _ _ Expr.denotes_min _).congr fun s =>
      if_congr slt_iff_toInt_lt rfl rfl
  | minu =>
    exact (WritesRd.liftBinary _ _ Expr.denotes_minu _).congr fun s =>
      if_congr (ult_iff_lt.trans lt_def) rfl rfl
  | rol => exact .liftBinary _ _ Expr.denotes_rol _
  | ror => exact .liftBinary _ _ Expr.denotes_ror _
  | rolw => exact .liftBinary _ _ Expr.denotes_rolw _
  | rorw => exact .liftBinary _ _ Expr.denotes_rorw _
  | bclr => exact .liftBinary _ _ Expr.denotes_bclr _
  | bext => exact .liftBinary _ _ Expr.denotes_bext _
  | binv => exact .liftBinary _ _ Expr.denotes_binv _
  | bset => exact .liftBinary _ _ Expr.denotes_bset _
  | pack =>
    exact (WritesRd.liftBinary _ _ (Expr.denotes_binary .pack) _).congr fun s =>
      Word.setWidth_or_shiftLeft _ _
  | packh =>
    exact (WritesRd.liftBinary _ _ (Expr.denotes_binary .pack8) _).congr fun s =>
      Word.setWidth_or_shiftLeft _ _
  | packw =>
    refine (WritesRd.liftBinary _ _ (Expr.denotes_binary .pack16) _).congr fun s => ?_
    rw [BinaryOp.val, pack16_eq, BitVec.setWidth_setWidth_of_le _ (by decide),
      BitVec.setWidth_setWidth_of_le _ (by decide)]
    rfl

/-! ## Instructions on one register -/

theorem WritesRd.liftUnary (op : Expr X → Expr X) (rd rs1 : ℕ) (imm : BitVec 32)
    (hcall : (op (.reg rs1)).isCall = false) :
    WritesRd rt (Rvr.liftUnary (.I rd rs1 imm) op) rd fun s => (op (.reg rs1)).eval rt s :=
  of_writeReg rd hcall

theorem writesRd_unary (pc : X.Reg) (op : UnaryBitOp) (rd rs1 : RegId) :
    WritesRd rt (standardBody ((BitInstr.unary op rd rs1).decoded pc)) rd.toNat fun s =>
      op.val (s.readReg rs1.toNat) := by
  have hbytes : X.value % 8 = 0 := by cases X <;> rfl
  cases op with
  | clz => exact .liftUnary Expr.clz _ _ 0 rfl
  | ctz => exact .liftUnary Expr.ctz _ _ 0 rfl
  | cpop => exact .liftUnary Expr.cpop _ _ 0 rfl
  | clzw => exact .liftUnary Expr.clz32 _ _ 0 rfl
  | ctzw => exact .liftUnary Expr.ctz32 _ _ 0 rfl
  | cpopw => exact .liftUnary Expr.cpop32 _ _ 0 rfl
  | sextB =>
    exact (WritesRd.liftUnary Expr.sext8 _ _ 0 (Expr.isCall_sext8 _)).congr fun s =>
      Expr.eval_sext8 _
  | sextH =>
    exact (WritesRd.liftUnary Expr.sext16 _ _ 0 (Expr.isCall_sext16 _)).congr fun s =>
      Expr.eval_sext16 _
  | zextH =>
    exact (WritesRd.liftUnary Expr.zext16 _ _ 0 (Expr.isCall_zext16 _)).congr fun s =>
      Expr.eval_zext16 _
  | orcB => exact (WritesRd.liftUnary Expr.orc8 _ _ 0 rfl).congr fun s => orc8_eq hbytes _
  | rev8 => exact (WritesRd.liftUnary Expr.rev8 _ _ 0 rfl).congr fun s => rev8_eq hbytes _
  | brev8 => exact (WritesRd.liftUnary Expr.brev8 _ _ 0 rfl).congr fun s => brev8_eq hbytes _
  | zip =>
    exact (WritesRd.liftUnary Expr.zip _ _ 0 rfl).congr fun s =>
      congrArg (setWidth _) (zip32_eq _)
  | unzip =>
    exact (WritesRd.liftUnary Expr.unzip _ _ 0 rfl).congr fun s =>
      congrArg (setWidth _) (unzip32_eq _)

/-! ## Instructions with a shift amount -/

/-- The shift amount that the lifts take from the immediate. -/
theorem shamtOf_setWidth (shamt : BitVec 6) :
    shamtOf (shamt.setWidth 32) = BitVec.ofNat 64 shamt.toNat := by
  apply eq_of_toNat_eq
  rw [shamtOf, toNat_setWidth, toNat_setWidth, toNat_setWidth,
    toNat_ofNat]
  omega

theorem WritesRd.liftShamtOp (op : Expr X → U64 → Expr X) (rd rs1 : ℕ) (shamt : BitVec 6)
    (hcall : ∀ n, (op (.reg rs1) n).isCall = false) :
    WritesRd rt (Rvr.liftShamtOp (.I rd rs1 (shamt.setWidth 32)) op) rd fun s =>
      (op (.reg rs1) (BitVec.ofNat 64 shamt.toNat)).eval rt s := by
  rw [Rvr.liftShamtOp, shamtOf_setWidth]
  exact of_writeReg rd (hcall _)

/-- The complement of an immediate rotate amount. -/
theorem toNat_immComplement {n k : ℕ} (hn : n = 32 ∨ n = 64) (hk : k < n) :
    (X.fromU64 ((BitVec.ofNat 64 n - BitVec.ofNat 64 k) &&& (BitVec.ofNat 64 n - 1))).toNat =
      (n - k) % n := by
  have hnat : ((BitVec.ofNat 64 n - BitVec.ofNat 64 k) &&& (BitVec.ofNat 64 n - 1)).toNat =
      (n - k) % n := by
    rw [toNat_and, toNat_sub, toNat_ofNat, toNat_ofNat]
    rcases hn with rfl | rfl
    · refine (Nat.and_two_pow_sub_one_eq_mod _ 5).trans ?_
      omega
    · refine (Nat.and_two_pow_sub_one_eq_mod _ 6).trans ?_
      omega
  have hlt : (n - k) % n < 2 ^ 32 := by
    rcases hn with rfl | rfl <;> omega
  rw [← hnat] at hlt ⊢
  conv_lhs => rw [← setWidth_eq ((BitVec.ofNat 64 n - BitVec.ofNat 64 k) &&& _),
    ← ofNat_toNat]
  exact toNat_fromU64_ofNat hlt

theorem writesRd_shift (pc : X.Reg) (op : ShamtBitOp) (rd rs1 : RegId) (shamt : BitVec 6)
    (hlegal : (BitInstr.shift op rd rs1 shamt).Legal X) :
    WritesRd rt (standardBody ((BitInstr.shift op rd rs1 shamt).decoded pc)) rd.toNat fun s =>
      op.val (s.readReg rs1.toNat) shamt.toNat := by
  have hamount : (X.fromU64 (BitVec.ofNat 64 shamt.toNat)).toNat = shamt.toNat :=
    toNat_fromU64_ofNat (by omega)
  have hone : X.fromU64 1 = 1#X.value := setWidth_ofNat_of_le X.value_le 1
  have hbit (s : GuestState X) :
      (bitAtImm (BitVec.ofNat 64 shamt.toNat) : Expr X).eval rt s = 1#X.value <<< shamt.toNat := by
    rw [bitAtImm, Expr.eval_sll, Expr.eval_imm, Expr.eval_imm, hamount, hone]
  cases op with
  | slliUw =>
    refine (WritesRd.liftShamtOp _ _ _ shamt
      (fun n => Expr.isCall_sll _ (Expr.isCall_zext32 _))).congr fun s => ?_
    rw [Expr.eval_sll, Expr.eval_imm, hamount]
    rfl
  | bclri =>
    refine (WritesRd.liftShamtOp _ _ _ shamt (fun n => Expr.isCall_and _ _)).congr fun s => ?_
    rw [Expr.eval_and, Expr.eval_not, hbit]
    rfl
  | bexti =>
    refine (WritesRd.liftShamtOp _ _ _ shamt (fun n => Expr.isCall_and _ _)).congr fun s => ?_
    rw [Expr.eval_and, Expr.eval_srl, Expr.eval_imm, hamount, hone]
    rfl
  | binvi =>
    refine (WritesRd.liftShamtOp _ _ _ shamt
      (fun n => Expr.isCall_xor rfl (Expr.isCall_sll _ rfl))).congr fun s => ?_
    rw [Expr.eval_xor, hbit]
    rfl
  | bseti =>
    refine (WritesRd.liftShamtOp _ _ _ shamt
      (fun n => Expr.isCall_or rfl (Expr.isCall_sll _ rfl))).congr fun s => ?_
    rw [Expr.eval_or, hbit]
    rfl
  | rori =>
    have hs : shamt.toNat < X.value := hlegal
    refine (WritesRd.liftShamtOp _ _ _ shamt
      (fun n => Expr.isCall_or (Expr.isCall_srl _ rfl) (Expr.isCall_sll _ rfl))).congr fun s => ?_
    rw [Expr.eval_or, Expr.eval_srl, Expr.eval_sll, Expr.eval_imm, Expr.eval_imm, hamount,
      toNat_immComplement (by cases X <;> decide) hs, ← Word.rotateRight_eq_shifts _ hs]
    rfl
  | roriw =>
    have hs : shamt.toNat < 32 := hlegal.2
    have hcomplement : (X.fromU64 ((32 - BitVec.ofNat 64 shamt.toNat) &&& 0x1F)).toNat =
        (32 - shamt.toNat) % 32 := toNat_immComplement (Or.inl rfl) hs
    refine (WritesRd.liftShamtOp _ _ _ shamt (fun n => Expr.isCall_sext32 _)).congr fun s => ?_
    rw [Expr.eval_sext32, Expr.eval_or, Expr.eval_srl, Expr.eval_sll, Expr.eval_zext32,
      Expr.eval_imm, Expr.eval_imm, hamount, hcomplement, Expr.setWidth_rotateRight _ hs]
    rfl

/-! ## All instructions -/

theorem writesRd_bit (pc : X.Reg) (i : BitInstr) (hlegal : i.Legal X) :
    WritesRd rt (standardBody (i.decoded pc)) i.rd.toNat fun s =>
      i.val fun r => s.readReg r.toNat := by
  cases i with
  | binary op rd rs1 rs2 => exact writesRd_binary pc op rd rs1 rs2
  | unary op rd rs1 => exact writesRd_unary pc op rd rs1
  | shift op rd rs1 shamt => exact writesRd_shift pc op rd rs1 shamt hlegal

theorem bitOpid_ne_ecall (i : BitInstr) : i.opid ≠ .i .ecall := by
  cases i with
  | binary op => cases op <;> exact nofun
  | unary op => cases op <;> exact nofun
  | shift op => cases op <;> exact nofun

theorem bitOpid_isStandard (i : BitInstr) : i.opid.isStandard = true := by
  cases i with
  | binary op => cases op <;> rfl
  | unary op => cases op <;> rfl
  | shift op => cases op <;> rfl

/-- A pack with `x0` is ZEXT.H: the same word and the same result. -/
theorem zextH_of_isZextH {i : BitInstr} (hlegal : i.Legal X) (h : i.IsZextH X) :
    ∃ j : BitInstr, ¬ j.IsZextH X ∧ j.Legal X ∧ j.encode X = i.encode X ∧ j.rd = i.rd ∧
      ∀ regs : RegId → X.Reg, regs 0 = 0 → j.val regs = i.val regs := by
  unfold BitInstr.IsZextH at h
  split at h
  · next rd rs1 rs2 =>
    obtain ⟨rfl, rfl⟩ := h
    refine ⟨.unary .zextH rd rs1, id, trivial, rfl, rfl, fun regs h0 => ?_⟩
    change ((regs rs1).setWidth 16).setWidth 32 =
      ((regs 0).setWidth 16 ++ (regs rs1).setWidth 16).setWidth 32
    rw [h0]
    exact (zero_append_eq _).symm.trans (setWidth_eq _).symm
  · next rd rs1 rs2 =>
    subst h
    cases hlegal
    refine ⟨.unary .zextH rd rs1, id, trivial, rfl, rfl, fun regs h0 => ?_⟩
    change ((regs rs1).setWidth 16).setWidth 64 =
      (((regs 0).setWidth 16 ++ (regs rs1).setWidth 16 : BitVec 32)).signExtend 64
    have hpack : ((regs 0).setWidth 16 ++ (regs rs1).setWidth 16 : BitVec 32) =
        ((regs rs1).setWidth 16).setWidth 32 := by
      rw [h0]
      exact zero_append_eq _
    have hmsb : (((regs rs1).setWidth 16).setWidth 32).msb = false := by
      rw [msb_setWidth, getLsbD_of_ge _ _ (by decide), Bool.and_false]
    rw [hpack, signExtend_eq_setWidth_of_msb_false hmsb]
    exact (setWidth_setWidth (by decide)).symm
  · exact h.elim

/-- Decoding a legal Zba, Zbb, Zbs or Zbkb word with the standard registry and executing its lift
writes the specified value to rd and goes on with the next instruction; the rest of the state is
unchanged. -/
theorem bit_implements_spec (handler : DecodedInstr X → InstrIR X) (rt : Runtime X) (i : BitInstr)
    (hlegal : i.Legal X) (rest : List (BitVec 8)) (pc : X.Reg) (s : GuestState X) :
    ∃ d, (standardWith X handler).decode (wordBytes (i.encode X) ++ rest) pc =
        some d ∧
      ((standardWith X handler).lift d).exec rt s =
        (s.writeReg i.rd.toNat (i.val fun r => s.readReg r.toNat),
          .goto (pc + BitVec.ofNat _ 4)) := by
  have hmain (j : BitInstr) (hj : j.Legal X) (hne : ¬ j.IsZextH X) :
      ∃ d, (standardWith X handler).decode (wordBytes (j.encode X) ++ rest) pc =
          some d ∧
        ((standardWith X handler).lift d).exec rt s =
          (s.writeReg j.rd.toNat (j.val fun r => s.readReg r.toNat),
            .goto (pc + BitVec.ofNat _ 4)) := by
    refine ⟨j.decoded pc, decode_encode_bit rest j hj hne, ?_⟩
    rw [standard_lift handler (bitOpid_isStandard j) (bitOpid_ne_ecall j)]
    exact writesRd_bit pc j hj _ s
  by_cases h : i.IsZextH X
  · obtain ⟨j, hne, hj, hencode, hrd, hval⟩ := zextH_of_isZextH hlegal h
    rw [← hencode, ← hrd, ← hval (fun r => s.readReg r.toNat) rfl]
    exact hmain j hj hne
  · exact hmain i hlegal h

/-- `ror x5, x6, x7` on RV32 with a rotate amount that is zero modulo 32. -/
theorem bit_implements_spec_ror :
    let i : BitInstr := .binary .ror 5 6 7
    let s : GuestState .rv32 := ((GuestState.zero .rv32).writeReg 6 0x80000001).writeReg 7 32
    i.Legal .rv32 ∧ i.encode .rv32 = 0x607352b3 ∧
      ∃ d, (standard .rv32).decode (wordBytes (i.encode .rv32)) 0x1000 = some d ∧
        ((standard .rv32).lift d).exec (Runtime.idle .rv32) s =
          (s.writeReg 5 0x80000001, .goto 0x1004) :=
  ⟨trivial, rfl,
    bit_implements_spec bareMetalHandler (Runtime.idle .rv32) (.binary .ror 5 6 7) trivial
      [] 0x1000 _⟩

end Rvr
