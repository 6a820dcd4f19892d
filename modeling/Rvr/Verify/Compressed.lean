import Rvr.Spec.Compressed
import Rvr.Verify.Base

/-!
# Compressed instructions execute as their expansions

A halfword that the C extension decodes, and that the specification does not reserve, stands for a
32-bit instruction (`Spec.expand`).  The decoder finds the operands of that instruction, and the
lift of the compressed form has the effect of the lift of the expansion with size 2
(`compressed_exec_expansion`).
-/

namespace Rvr

open Spec BitVec ExtensionRegistry Word

variable {X : Xlen} (h : BitVec 16)

/-! ## Fields -/

section Fields

theorem toNat_quadrant : (h &&& 0x3).toNat = (h.extractLsb' 0 2).toNat := by
  have hfield : ((h >>> 0) &&& 0x3).toNat = _ := toNat_field h 0 2 rfl
  rw [ushiftRight_zero] at hfield
  rw [hfield, toNat_extractLsb']

theorem toNat_halfField (lo len : ℕ) {mask : BitVec 16} (hmask : mask.toNat = 2 ^ len - 1) :
    ((h >>> lo) &&& mask).toNat = (h.extractLsb' lo len).toNat := by
  rw [toNat_field h lo len hmask, toNat_extractLsb']

theorem regField5_eq (lo : ℕ) : regField5 h lo = (h.extractLsb' lo 5).toNat :=
  toNat_halfField h lo 5 rfl

theorem regField3_eq (lo : ℕ) : regField3 h lo = (creg (h.extractLsb' lo 3)).toNat := by
  unfold regField3 creg
  rw [toNat_halfField h lo 3 rfl, Word.toNat_append, Nat.add_comm]
  rfl

theorem regField5_eq_zero (lo : ℕ) : regField5 h lo = 0 ↔ h.extractLsb' lo 5 = 0#5 := by
  rw [regField5_eq, ← toNat_inj]
  rfl

theorem regField5_eq_two (lo : ℕ) : regField5 h lo = 2 ↔ h.extractLsb' lo 5 = 2#5 := by
  rw [regField5_eq, ← toNat_inj]
  rfl

end Fields

/-! ## Immediates

Each immediate is assembled from the low end; the sum of the fields is the value of the
specification's concatenation. -/

section Immediates

theorem decodeAddi4spnImm_toNat : (decodeAddi4spnImm h).toNat = (immAddi4spn h).toNat := by
  have hbit2 := toNat_shiftLeft_field h 0x1 6 1 2 rfl (by decide)
  have hbit3 := toNat_or_field h 0x1 5 1 3 rfl (by decide) hbit2 (by omega)
  have hbits5 := toNat_or_field h 0x3 11 2 4 rfl (by decide) hbit3 (by omega)
  have hbits9 := toNat_or_field h 0xF 7 4 6 rfl (by decide) hbits5 (by omega)
  refine hbits9.trans ?_
  simp only [immAddi4spn, Word.toNat_append, toNat_extractLsb', toNat_zero]
  omega

theorem decodeClLwOffset_toNat : (decodeClLwOffset h).toNat = (uimmWord h).toNat := by
  have hbit2 := toNat_shiftLeft_field h 0x1 6 1 2 rfl (by decide)
  have hbits5 := toNat_or_field h 0x7 10 3 3 rfl (by decide) hbit2 (by omega)
  have hbit6 := toNat_or_field h 0x1 5 1 6 rfl (by decide) hbits5 (by omega)
  refine hbit6.trans ?_
  simp only [uimmWord, Word.toNat_append, toNat_extractLsb', toNat_zero]
  omega

theorem decodeClLdOffset_toNat : (decodeClLdOffset h).toNat = (uimmDouble h).toNat := by
  have hbits5 := toNat_shiftLeft_field h 0x7 10 3 3 rfl (by decide)
  have hbits7 := toNat_or_field h 0x3 5 2 6 rfl (by decide) hbits5 (by omega)
  refine hbits7.trans ?_
  simp only [uimmDouble, Word.toNat_append, toNat_extractLsb', toNat_zero]
  omega

theorem decodeCiShamt_toNat : (decodeCiShamt h).toNat = (immCi h).toNat := by
  have hbits4 : ((h >>> 2) &&& 0x1F).toNat = _ := toNat_field h 2 5 rfl
  have hbit5 := toNat_or_field h 0x1 12 1 5 rfl (by decide) hbits4 (by omega)
  refine hbit5.trans ?_
  simp only [immCi, Word.toNat_append, toNat_extractLsb']
  omega

theorem decodeCiImm_eq : decodeCiImm h = (immCi h).signExtend 16 :=
  sshiftRight_shiftLeft_of_toNat_eq (w := 16) (n := 6) (by decide) (by decide)
    (decodeCiShamt_toNat h)

theorem decodeCjImm_eq : decodeCjImm h = (offsetCj h ++ 0#1).signExtend 16 := by
  have hbits3 := toNat_shiftLeft_field h 0x7 3 3 1 rfl (by decide)
  have hbit4 := toNat_or_field h 0x1 11 1 4 rfl (by decide) hbits3 (by omega)
  have hbit5 := toNat_or_field h 0x1 2 1 5 rfl (by decide) hbit4 (by omega)
  have hbit6 := toNat_or_field h 0x1 7 1 6 rfl (by decide) hbit5 (by omega)
  have hbit7 := toNat_or_field h 0x1 6 1 7 rfl (by decide) hbit6 (by omega)
  have hbits9 := toNat_or_field h 0x3 9 2 8 rfl (by decide) hbit7 (by omega)
  have hbit10 := toNat_or_field h 0x1 8 1 10 rfl (by decide) hbits9 (by omega)
  have hbit11 := toNat_or_field h 0x1 12 1 11 rfl (by decide) hbit10
    (by omega)
  refine sshiftRight_shiftLeft_of_toNat_eq (w := 16) (n := 12) (by decide) (by decide)
    (hbit11.trans ?_)
  simp only [offsetCj, Word.toNat_append, toNat_extractLsb', toNat_zero]
  omega

theorem decodeCi16spImm_eq : decodeCi16spImm h = (immAddi16sp h).signExtend 16 := by
  have hbit4 := toNat_shiftLeft_field h 0x1 6 1 4 rfl (by decide)
  have hbit5 := toNat_or_field h 0x1 2 1 5 rfl (by decide) hbit4 (by omega)
  have hbit6 := toNat_or_field h 0x1 5 1 6 rfl (by decide) hbit5 (by omega)
  have hbits8 := toNat_or_field h 0x3 3 2 7 rfl (by decide) hbit6 (by omega)
  have hbit9 := toNat_or_field h 0x1 12 1 9 rfl (by decide) hbits8 (by omega)
  refine sshiftRight_shiftLeft_of_toNat_eq (w := 16) (n := 10) (by decide) (by decide)
    (hbit9.trans ?_)
  simp only [immAddi16sp, Word.toNat_append, toNat_extractLsb', toNat_zero]
  omega

theorem decodeCbImm_eq : decodeCbImm h = (offsetCb h ++ 0#1).signExtend 16 := by
  have hbits2 := toNat_shiftLeft_field h 0x3 3 2 1 rfl (by decide)
  have hbits4 := toNat_or_field h 0x3 10 2 3 rfl (by decide) hbits2 (by omega)
  have hbit5 := toNat_or_field h 0x1 2 1 5 rfl (by decide) hbits4 (by omega)
  have hbits7 := toNat_or_field h 0x3 5 2 6 rfl (by decide) hbit5 (by omega)
  have hbit8 := toNat_or_field h 0x1 12 1 8 rfl (by decide) hbits7 (by omega)
  refine sshiftRight_shiftLeft_of_toNat_eq (w := 16) (n := 9) (by decide) (by decide)
    (hbit8.trans ?_)
  simp only [offsetCb, Word.toNat_append, toNat_extractLsb', toNat_zero]
  omega

theorem decodeCiLwspOffset_toNat : (decodeCiLwspOffset h).toNat = (uimmLwsp h).toNat := by
  have hbits4 := toNat_shiftLeft_field h 0x7 4 3 2 rfl (by decide)
  have hbit5 := toNat_or_field h 0x1 12 1 5 rfl (by decide) hbits4 (by omega)
  have hbits7 := toNat_or_field h 0x3 2 2 6 rfl (by decide) hbit5 (by omega)
  refine hbits7.trans ?_
  simp only [uimmLwsp, Word.toNat_append, toNat_extractLsb', toNat_zero]
  omega

theorem decodeCiLdspOffset_toNat : (decodeCiLdspOffset h).toNat = (uimmLdsp h).toNat := by
  have hbits4 := toNat_shiftLeft_field h 0x3 5 2 3 rfl (by decide)
  have hbit5 := toNat_or_field h 0x1 12 1 5 rfl (by decide) hbits4 (by omega)
  have hbits8 := toNat_or_field h 0x7 2 3 6 rfl (by decide) hbit5 (by omega)
  refine hbits8.trans ?_
  simp only [uimmLdsp, Word.toNat_append, toNat_extractLsb', toNat_zero]
  omega

theorem decodeCssSwspOffset_toNat : (decodeCssSwspOffset h).toNat = (uimmSwsp h).toNat := by
  have hbits5 := toNat_shiftLeft_field h 0xF 9 4 2 rfl (by decide)
  have hbits7 := toNat_or_field h 0x3 7 2 6 rfl (by decide) hbits5 (by omega)
  refine hbits7.trans ?_
  simp only [uimmSwsp, Word.toNat_append, toNat_extractLsb', toNat_zero]
  omega

theorem decodeCssSdspOffset_toNat : (decodeCssSdspOffset h).toNat = (uimmSdsp h).toNat := by
  have hbits5 := toNat_shiftLeft_field h 0x7 10 3 3 rfl (by decide)
  have hbits8 := toNat_or_field h 0x7 7 3 6 rfl (by decide) hbits5 (by omega)
  refine hbits8.trans ?_
  simp only [uimmSdsp, Word.toNat_append, toNat_extractLsb', toNat_zero]
  omega

end Immediates

/-! ## Operands

The immediates as the 32-bit instruction carries them. -/

section Operands

theorem unsigned_operand {n : ℕ} {x : BitVec 16} {y : BitVec n} (hn : n < 12)
    (hxy : x.toNat = y.toNat) : x.setWidth 32 = (y.setWidth 12).signExtend 32 := by
  rw [signExtend_setWidth hn, ← ofNat_toNat, hxy, ofNat_toNat]

theorem signed_operand {n : ℕ} (v : ℕ) {x : BitVec 16} {y : BitVec n} (hn : n ≤ 16) (hv : n ≤ v)
    (hv' : v ≤ 32) (hxy : x = y.signExtend 16) :
      x.signExtend 32 = (y.signExtend v).signExtend 32 := by
  rw [hxy, signExtend_signExtend hn (by decide), signExtend_signExtend hv hv']

theorem offset_operand {n : ℕ} (v : ℕ) {x : BitVec 16} {y : BitVec n} (hn : n + 1 ≤ 16) (hv : n ≤ v)
    (hv' : v + 1 ≤ 32) (hxy : x = (y ++ 0#1).signExtend 16) :
    x.signExtend 32 = (y.signExtend v ++ 0#1).signExtend 32 := by
  rw [hxy, signExtend_signExtend hn (by decide), signExtend_append_zero hv hv']

/-- The upper immediate of `c.lui`: the source sign-extends after the shift by 12. -/
theorem decodeCiLuiImm_eq : decodeCiLuiImm h = (immCi h).signExtend 20 ++ 0#12 := by
  have hnat : ((decodeCiShamt h).setWidth 32 <<< 12).toNat = (immCi h ++ 0#12).toNat := by
    have hwidth : ((decodeCiShamt h).setWidth 32).toNat = (immCi h).toNat :=
      (toNat_setWidth_of_le (by decide)).trans (decodeCiShamt_toNat h)
    rw [toNat_shiftLeft_of_lt (by omega), hwidth, Word.toNat_append, toNat_zero,
      Nat.add_zero]
  have hlui : decodeCiLuiImm h = (immCi h ++ 0#12).signExtend 32 :=
    sshiftRight_shiftLeft_of_toNat_eq (w := 32) (n := 18) (by decide) (by decide) hnat
  rw [hlui, ← signExtend_append_zero (v := 20) (by decide) (by decide)]
  exact signExtend_eq _

theorem shamt_operand : (decodeCiShamt h).setWidth 32 = (immCi h).setWidth 32 := by
  rw [← ofNat_toNat, decodeCiShamt_toNat, ofNat_toNat]

theorem ci_operand : (decodeCiImm h).signExtend 32 = ((immCi h).signExtend 12).signExtend 32 :=
  signed_operand 12 (by decide) (by decide) (by decide) (decodeCiImm_eq h)

theorem ci16sp_operand :
    (decodeCi16spImm h).signExtend 32 = ((immAddi16sp h).signExtend 12).signExtend 32 :=
  signed_operand 12 (by decide) (by decide) (by decide) (decodeCi16spImm_eq h)

theorem cj_operand :
    (decodeCjImm h).signExtend 32 = ((offsetCj h).signExtend 20 ++ 0#1).signExtend 32 :=
  offset_operand 20 (by decide) (by decide) (by decide) (decodeCjImm_eq h)

theorem cb_operand :
    (decodeCbImm h).signExtend 32 = ((offsetCb h).signExtend 12 ++ 0#1).signExtend 32 :=
  offset_operand 12 (by decide) (by decide) (by decide) (decodeCbImm_eq h)

theorem decodeCiImm_eq_zero : decodeCiImm h = 0 ↔ immCi h = 0 := by
  rw [decodeCiImm_eq]
  constructor
  · intro hzero
    rw [← setWidth_signExtend (v := 16) (by decide) (immCi h), hzero]
    rfl
  · intro hzero
    rw [hzero]
    rfl

theorem decodeCi16spImm_ne_zero (hzero : decodeCi16spImm h ≠ 0) : immAddi16sp h ≠ 0 := by
  intro himm
  apply hzero
  rw [decodeCi16spImm_eq, himm]
  rfl

theorem decodeCiLuiImm_ne_zero (hzero : decodeCiLuiImm h ≠ 0) : immCi h ≠ 0 := by
  intro himm
  apply hzero
  rw [decodeCiLuiImm_eq, himm]
  rfl

end Operands

/-! ## Decoding -/

section Decode

/-- The base operations that a compressed operation shares its lift with. -/
def COp.baseOp : COp → Option BaseOp
  | .add => some .add
  | .sub => some .sub
  | .xor => some .xor
  | .or => some .or
  | .and => some .and
  | .addw => some .addw
  | .subw => some .subw
  | .addi | .addi4spn | .addi16sp => some .addi
  | .addiw => some .addiw
  | .andi => some .andi
  | .slli => some .slli
  | .srli => some .srli
  | .srai => some .srai
  | .lui => some .lui
  | .lw | .lwsp => some .lw
  | .ld | .ldsp => some .ld
  | .sw | .swsp => some .sw
  | .sd | .sdsp => some .sd
  | .jal => some .jal
  | .ebreak => some .ebreak
  | _ => none

/-- The operation and operands that a halfword is decoded to, and the instruction it stands for.
Most operations have the operands and the lift of their expansion; the others have a lift of their
own. -/
inductive Expands (X : Xlen) (h : BitVec 16) : COp → InstrArgs → Expansion → Prop
  | same {op : COp} {b : BaseOp} {i : Instr} (hop : op.baseOp = some b) (hopid : i.opid = .i b)
      (hlegal : i.Legal X) : Expands X h op i.args (.base i)
  | mv (rd rs2 : RegId) : Expands X h .mv (.R rd.toNat 0 rs2.toNat) (.base (.reg .add rd 0 rs2))
  | li (rd : RegId) (imm : BitVec 12) :
      Expands X h .li (.I rd.toNat 0 (imm.signExtend 32)) (.base (.opImm .addi rd 0 imm))
  | nop : Expands X h .nop .none (.base (.opImm .addi 0 0 0))
  | j (offset : BitVec 20) :
      Expands X h .j (.J 0 ((offset ++ 0#1).signExtend 32)) (.base (.jal 0 offset))
  | jr (hrs1 : h.extractLsb' 7 5 ≠ 0#5) :
      Expands X h .jr (.I 0 (h.extractLsb' 7 5).toNat 0) (.base (.jalr 0 (h.extractLsb' 7 5) 0))
  | jalr : Expands X h .jalr (.I 1 (h.extractLsb' 7 5).toNat 0)
    (.base (.jalr 1 (h.extractLsb' 7 5) 0))
  | beqz (rs1 : RegId) (offset : BitVec 12) :
      Expands X h .beqz (.B rs1.toNat 0 ((offset ++ 0#1).signExtend 32))
        (.base (.branch .beq rs1 0 offset))
  | bnez (rs1 : RegId) (offset : BitVec 12) :
      Expands X h .bnez (.B rs1.toNat 0 ((offset ++ 0#1).signExtend 32))
        (.base (.branch .bne rs1 0 offset))
  | ebreak : Expands X h .ebreak .none .ebreak

variable {h} {op : COp} {args : InstrArgs}

/-- An expansion of the first kind, with the operands given as the decoder computes them. -/
theorem Expands.of_args {b : BaseOp} {i : Instr} (hop : op.baseOp = some b) (hopid : i.opid = .i b)
    (hlegal : i.Legal X) (hargs : args = i.args) : Expands X h op args (.base i) :=
  hargs ▸ .same hop hopid hlegal

theorem expands_q0 (hdec : decodeQ0 X h (h.extractLsb' 13 3).toNat = some (op, args)) :
    ∃ x, expandQ0 X h = some x ∧ Expands X h op args x := by
  unfold decodeQ0 at hdec
  split at hdec
  · next hf =>
    rw [expandQ0, hf]
    dsimp only at hdec
    split_ifs at hdec with hzero
    cases hdec
    have hnonzero : immAddi4spn h ≠ 0 := by
      intro himm
      apply hzero
      apply eq_of_toNat_eq
      rw [decodeAddi4spnImm_toNat, himm]
      rfl
    refine ⟨_, if_neg hnonzero, .of_args rfl rfl trivial ?_⟩
    rw [regField3_eq, unsigned_operand (by decide) (decodeAddi4spnImm_toNat h)]
    rfl
  · next hf =>
    rw [expandQ0, hf]
    cases hdec
    refine ⟨_, rfl, .of_args rfl rfl trivial ?_⟩
    rw [regField3_eq, regField3_eq, unsigned_operand (by decide) (decodeClLwOffset_toNat h)]
    rfl
  · next hf =>
    rw [expandQ0, hf]
    split_ifs at hdec with hX
    cases hdec
    refine ⟨_, if_pos (Xlen.eq_rv64 hX), .of_args rfl rfl (Xlen.eq_rv64 hX) ?_⟩
    rw [regField3_eq, regField3_eq, unsigned_operand (by decide) (decodeClLdOffset_toNat h)]
    rfl
  · next hf =>
    rw [expandQ0, hf]
    cases hdec
    refine ⟨_, rfl, .of_args rfl rfl trivial ?_⟩
    rw [regField3_eq, regField3_eq, decodeCsSwOffset,
      unsigned_operand (by decide) (decodeClLwOffset_toNat h)]
    rfl
  · next hf =>
    rw [expandQ0, hf]
    split_ifs at hdec with hX
    cases hdec
    refine ⟨_, if_pos (Xlen.eq_rv64 hX), .of_args rfl rfl (Xlen.eq_rv64 hX) ?_⟩
    rw [regField3_eq, regField3_eq, decodeCsSdOffset,
      unsigned_operand (by decide) (decodeClLdOffset_toNat h)]
    rfl
  · cases hdec

theorem expands_alu (hdec : decodeMiscAlu X h = some (op, args))
    (hshamt : (h.extractLsb' 10 2).toNat < 2 → (immCi h).toNat < X.value) :
    ∃ x, expandAlu X h = some x ∧ Expands X h op args x := by
  unfold decodeMiscAlu at hdec
  unfold expandAlu
  dsimp only at hdec
  rw [toNat_halfField h 10 2 rfl, toNat_halfField h 5 2 rfl, toNat_halfField h 12 1 rfl,
    regField3_eq, regField3_eq] at hdec
  split at hdec
  · next hf =>
    have hlt := hshamt (by omega)
    rw [hf]
    cases hdec
    refine ⟨_, if_pos hlt, .of_args rfl rfl hlt ?_⟩
    rw [shamt_operand]
    rfl
  · next hf =>
    have hlt := hshamt (by omega)
    rw [hf]
    cases hdec
    refine ⟨_, if_pos hlt, .of_args rfl rfl hlt ?_⟩
    rw [shamt_operand]
    rfl
  · next hf =>
    rw [hf]
    cases hdec
    refine ⟨_, rfl, .of_args rfl rfl trivial ?_⟩
    rw [ci_operand]
    rfl
  · next hf =>
    rw [hf]
    obtain ⟨found, hfound, hpair⟩ := Option.map_eq_some_iff.1 hdec
    cases hpair
    split_ifs at hfound with hzero hX
    · rw [hzero]
      split at hfound <;> cases hfound
      all_goals
        next hlow =>
          rw [hlow]
          exact ⟨_, rfl, .of_args rfl rfl trivial rfl⟩
    · have hone : (h.extractLsb' 12 1).toNat = 1 := by omega
      have hrv64 := Xlen.eq_rv64 (not_not.1 hX)
      rw [hone]
      split at hfound <;> cases hfound
      all_goals
        next hlow =>
          rw [hlow]
          exact ⟨_, if_pos hrv64, .of_args rfl rfl hrv64 rfl⟩
  · cases hdec

theorem expands_addi :
    Expands X h (decodeQ1Addi h).1 (decodeQ1Addi h).2
      (.base (.opImm .addi (h.extractLsb' 7 5) (h.extractLsb' 7 5) ((immCi h).signExtend 12))) := by
  unfold decodeQ1Addi
  dsimp only
  split_ifs with hnop
  · rw [(regField5_eq_zero h 7).1 hnop.1, (decodeCiImm_eq_zero h).1 hnop.2]
    exact .nop
  · refine .of_args rfl rfl trivial ?_
    rw [regField5_eq, ci_operand]
    rfl

theorem expands_addiwOrJal (hdec : decodeQ1AddiwOrJal X h = some (op, args))
    (hf : (h.extractLsb' 13 3).toNat = 1) :
    ∃ x, expandQ1 X h = some x ∧ Expands X h op args x := by
  unfold decodeQ1AddiwOrJal at hdec
  unfold expandQ1
  rw [hf]
  dsimp only at hdec
  split_ifs at hdec with hX hrd
  · cases Xlen.eq_rv64 hX
    cases hdec
    refine ⟨_, if_neg (mt (regField5_eq_zero h 7).2 hrd), .of_args rfl rfl rfl ?_⟩
    rw [regField5_eq, ci_operand]
    rfl
  · cases X with
    | rv64 => exact absurd rfl hX
    | rv32 =>
      cases hdec
      refine ⟨_, rfl, .of_args rfl rfl trivial ?_⟩
      rw [cj_operand]
      rfl

theorem expands_addi16spOrLui (hdec : decodeQ1Addi16spOrLui h = some (op, args))
    (hf : (h.extractLsb' 13 3).toNat = 3) :
    ∃ x, expandQ1 X h = some x ∧ Expands X h op args x := by
  unfold decodeQ1Addi16spOrLui at hdec
  unfold expandQ1
  rw [hf]
  dsimp only at hdec
  split_ifs at hdec with hrd hzero hzero
  · cases hdec
    refine ⟨_, (if_pos ((regField5_eq_two h 7).1 hrd)).trans
      (if_neg (decodeCi16spImm_ne_zero h hzero)),
      .of_args rfl rfl trivial ?_⟩
    rw [ci16sp_operand]
    rfl
  · cases hdec
    obtain ⟨hzero, -⟩ := not_or.1 hzero
    refine ⟨_, (if_neg (mt (regField5_eq_two h 7).2 hrd)).trans
      (if_neg (decodeCiLuiImm_ne_zero h hzero)),
      .of_args rfl rfl trivial ?_⟩
    rw [regField5_eq, decodeCiLuiImm_eq]
    rfl

theorem expands_q1 (hdec : decodeQ1 X h (h.extractLsb' 13 3).toNat = some (op, args))
    (hshamt : (h.extractLsb' 13 3).toNat = 0b100 → (h.extractLsb' 10 2).toNat < 2 →
      (immCi h).toNat < X.value) :
    ∃ x, expandQ1 X h = some x ∧ Expands X h op args x := by
  unfold decodeQ1 at hdec
  split at hdec
  · next hf =>
    have hexpands : Expands X h (decodeQ1Addi h).1 (decodeQ1Addi h).2 _ := expands_addi
    rw [Option.some.inj hdec] at hexpands
    unfold expandQ1
    rw [hf]
    exact ⟨_, rfl, hexpands⟩
  · next hf => exact expands_addiwOrJal hdec hf
  · next hf =>
    cases hdec
    unfold expandQ1
    rw [hf, regField5_eq, ci_operand]
    exact ⟨_, rfl, .li _ _⟩
  · next hf => exact expands_addi16spOrLui hdec hf
  · next hf =>
    unfold expandQ1
    rw [hf]
    exact expands_alu hdec (hshamt hf)
  · next hf =>
    cases hdec
    unfold expandQ1
    rw [hf, cj_operand]
    exact ⟨_, rfl, .j _⟩
  · next hf =>
    cases hdec
    unfold expandQ1
    rw [hf, regField3_eq, cb_operand]
    exact ⟨_, rfl, .beqz _ _⟩
  · next hf =>
    cases hdec
    unfold expandQ1
    rw [hf, regField3_eq, cb_operand]
    exact ⟨_, rfl, .bnez _ _⟩
  · cases hdec

theorem expands_reg (hdec : decodeQ2Reg h = some (op, args))
    (hf : (h.extractLsb' 13 3).toNat = 0b100) :
    ∃ x, expandQ2 X h = some x ∧ Expands X h op args x := by
  have hrs1 := regField5_eq_zero h 7
  have hrs2 := regField5_eq_zero h 2
  unfold decodeQ2Reg at hdec
  dsimp only at hdec
  rw [toNat_halfField h 12 1 rfl] at hdec
  unfold expandQ2
  rw [hf]
  split_ifs at hdec with hbit h2 h1 h12 h2
  · cases hdec
    have h1 := mt hrs1.2 h1
    rw [regField5_eq]
    exact ⟨_, (if_pos hbit).trans ((if_neg (not_not.2 (hrs2.1 h2))).trans (if_pos h1)), .jr h1⟩
  · cases hdec
    rw [regField5_eq, regField5_eq]
    exact ⟨_, (if_pos hbit).trans (if_pos (mt hrs2.2 h2)), .mv _ _⟩
  · cases hdec
    exact ⟨_, (if_neg hbit).trans ((if_neg (not_not.2 (hrs2.1 h12.2))).trans
      (if_neg (not_not.2 (hrs1.1 h12.1)))), .ebreak⟩
  · cases hdec
    have h1 : h.extractLsb' 7 5 ≠ 0#5 := fun h1 => h12 ⟨hrs1.2 h1, h2⟩
    rw [regField5_eq]
    exact ⟨_, (if_neg hbit).trans ((if_neg (not_not.2 (hrs2.1 h2))).trans (if_pos h1)), .jalr⟩
  · cases hdec
    rw [regField5_eq, regField5_eq]
    exact ⟨_, (if_neg hbit).trans (if_pos (mt hrs2.2 h2)), .of_args rfl rfl trivial rfl⟩

theorem expands_q2 (hdec : decodeQ2 X h (h.extractLsb' 13 3).toNat = some (op, args))
    (hshamt : (h.extractLsb' 13 3).toNat = 0 → (immCi h).toNat < X.value) :
    ∃ x, expandQ2 X h = some x ∧ Expands X h op args x := by
  have hrd := regField5_eq_zero h 7
  unfold decodeQ2 at hdec
  dsimp only at hdec
  split at hdec
  · next hf =>
    split_ifs at hdec with h0
    cases hdec
    unfold expandQ2
    rw [hf, regField5_eq, shamt_operand]
    exact ⟨_, if_pos (hshamt hf), .of_args rfl rfl (hshamt hf) rfl⟩
  · next hf =>
    split_ifs at hdec with h0
    cases hdec
    unfold expandQ2
    rw [hf, regField5_eq, unsigned_operand (by decide) (decodeCiLwspOffset_toNat h)]
    exact ⟨_, if_neg (mt hrd.2 h0), .of_args rfl rfl trivial rfl⟩
  · next hf =>
    split_ifs at hdec with hX h0
    cases hdec
    have hrv64 := Xlen.eq_rv64 hX
    unfold expandQ2
    rw [hf, regField5_eq, unsigned_operand (by decide) (decodeCiLdspOffset_toNat h)]
    exact ⟨_, if_pos ⟨hrv64, mt hrd.2 h0⟩, .of_args rfl rfl hrv64 rfl⟩
  · next hf => exact expands_reg hdec hf
  · next hf =>
    cases hdec
    unfold expandQ2
    rw [hf, regField5_eq, unsigned_operand (by decide) (decodeCssSwspOffset_toNat h)]
    exact ⟨_, rfl, .of_args rfl rfl trivial rfl⟩
  · next hf =>
    split_ifs at hdec with hX
    cases hdec
    have hrv64 := Xlen.eq_rv64 hX
    unfold expandQ2
    rw [hf, regField5_eq, unsigned_operand (by decide) (decodeCssSdspOffset_toNat h)]
    exact ⟨_, if_pos hrv64, .of_args rfl rfl hrv64 rfl⟩
  · cases hdec

end Decode

/-! ## Execution -/

section Exec

/-- What the standard registry decodes an expansion to. -/
def Spec.Expansion.decoded (x : Expansion) (pc : X.Reg) : DecodedInstr X :=
  match x with
  | .base i => i.decoded pc
  | .ebreak => ⟨.i .ebreak, pc, 4, 0x00100073, .none⟩

variable {h} {rt : Runtime X} {s : GuestState X} {op : COp} {args : InstrArgs} {x : Expansion}

theorem Expands.decode (hx : Expands X h op args x) {handler : DecodedInstr X → InstrIR X}
    (rest : List (BitVec 8)) (pc : X.Reg) :
    (standardWith X handler).decode (wordBytes x.encode ++ rest) pc =
      some (x.decoded pc) := by
  cases hx with
  | same hop hopid hlegal => exact decode_encode rest _ hlegal
  | ebreak =>
    have hdecode : decode32bit X 0x00100073 pc = some (Expansion.ebreak.decoded pc) := by
      cases X <;> rfl
    have hopcode : decodeOpcode 0x00100073 = 0x73 := rfl
    exact decode_of_base rest hopcode rfl hdecode
  | _ =>
    refine decode_encode rest _ ?_
    trivial

theorem Spec.Expansion.isStandard (x : Expansion) (pc : X.Reg) :
    (x.decoded pc).opid.isStandard = true := by
  cases x with
  | base i => exact opid_isStandard i
  | ebreak => rfl

/-- An instruction with the same pc and size and the same body has the same effect. -/
theorem exec_body_congr {d d' : DecodedInstr X} (hpc : d.pc = d'.pc) (hsize : d.size = d'.size)
    (hbody : standardBody d = standardBody d') :
    (d.ir (standardBody d).1 (standardBody d).2).exec rt s =
      (d'.ir (standardBody d').1 (standardBody d').2).exec rt s := by
  unfold InstrIR.exec InstrIR.nextPc DecodedInstr.ir
  rw [hpc, hsize, hbody]

/-- Bodies that write the same value to the same register have the same effect. -/
theorem WritesRd.exec_eq {body body' : Lifted X} {rd : ℕ} {v v' : GuestState X → X.Reg}
    (hd : WritesRd rt body rd v) (hd' : WritesRd rt body' rd v') {d d' : DecodedInstr X}
    (hpc : d.pc = d'.pc) (hsize : d.size = d'.size) (hv : v s = v' s) :
    (d.ir body.1 body.2).exec rt s = (d'.ir body'.1 body'.2).exec rt s := by
  rw [hd d s, hd' d' s, hpc, hsize, hv]

theorem and_not_one_of_even {v : X.Reg} (hv : v.toNat % 2 = 0) : v &&& ~~~1 = v := by
  have hmask : (~~~1 : X.Reg) = allOnes X.value <<< 1 := by cases X <;> rfl
  apply eq_of_toNat_eq
  rw [hmask, toNat_and_highMask]
  omega

/-- The lift of the base jump clears the low bit of its target and those of `c.jr` and `c.jalr` do
not; from an even base both go to the base. -/
theorem exec_jalr_eq {d d' : DecodedInstr X} {rd rs1 : ℕ} (link : X.Reg)
    (heven : (s.readReg rs1).toNat % 2 = 0) :
    (d.ir (jalrStmts rd rs1 link) (.jumpDyn (jalrBase rd rs1) none)).exec rt s =
      (d'.ir (jalrStmts rd rs1 link) (.jumpDyn (Expr.and (Expr.add (jalrBase rd rs1)
        (.imm (X.fromU64 (((0 : BitVec 12).signExtend 32).signExtend 64))))
          (.imm (X.fromU64 (~~~1)))) none)).exec rt s := by
  have hzero : (0 : BitVec 12).signExtend X.value = 0#X.value := by cases X <;> rfl
  rw [exec_jumpDyn d s _ (statementsWriteExit_jalrStmts _ _ _),
    exec_jumpDyn d' s _ (statementsWriteExit_jalrStmts _ _ _), eval_jalrTarget, eval_jalrBase,
      hzero,
    BitVec.add_zero, and_not_one_of_even heven]

/-- Branches to the same target on conditions of the same value. -/
theorem exec_branch_eq {d d' : DecodedInstr X} (hpc : d.pc = d'.pc) (hsize : d.size = d'.size)
    {cond cond' : Expr X} (target : X.Reg) (hcond : cond.eval rt s = cond'.eval rt s) :
    (d.ir [] (.branch cond target none .none)).exec rt s =
      (d'.ir [] (.branch cond' target none .none)).exec rt s := by
  rw [InstrIR.exec_of_not_writesExit s rfl]
  simp only [DecodedInstr.ir, Terminator.control, Stmt.execAll_nil, InstrIR.nextPc, hcond, hpc,
    hsize]
  rfl

/-- The immediate zero has the value of `x0`. -/
theorem eval_zero : (Expr.imm (X.fromU64 0)).eval rt s = (Expr.read 0).eval rt s := by
  rw [Xlen.fromU64_zero]
  rfl

/-- The lift of a compressed instruction has the effect of the lift of its expansion at size 2. -/
theorem Expands.exec_eq (hx : Expands X h op args x) (pc : X.Reg)
    (heven : op = .jr ∨ op = .jalr → (s.readReg (h.extractLsb' 7 5).toNat).toNat % 2 = 0) :
    let d : DecodedInstr X := ⟨.c op, pc, 2, h.setWidth 32, args⟩
    let d' : DecodedInstr X := { x.decoded pc with size := 2 }
    (d.ir (standardBody d).1 (standardBody d).2).exec rt s =
      (d'.ir (standardBody d').1 (standardBody d').2).exec rt s := by
  intro d d'
  cases hx with
  | @same _ b i hop hopid hlegal =>
    have hbody : standardBody d' = liftBaseOp i.args b pc 2 := by
      change standardBody ⟨i.opid, pc, 2, i.encode, i.args⟩ = _
      rw [hopid]
      rfl
    refine exec_body_congr rfl rfl (Eq.trans ?_ hbody.symm)
    cases op <;> cases hop <;> rfl
  | mv rd rs2 =>
    exact (WritesRd.of_writeRd rd.toNat rfl).exec_eq
      (WritesRd.liftR rd.toNat 0 Expr.denotes_add rs2.toNat) rfl rfl (zero_add _).symm
  | li rd imm =>
    exact (WritesRd.liftI rd.toNat 0 Expr.denotes_snd (imm.signExtend 32)).exec_eq
      (WritesRd.liftI rd.toNat 0 Expr.denotes_add (imm.signExtend 32)) rfl rfl
      (zero_add _).symm
  | nop =>
    rw [show standardBody d = ([], .fall none) from rfl, exec_fall d s rfl]
    exact (WritesRd.liftI 0 0 Expr.denotes_add ((0 : BitVec 12).signExtend 32) d' s).symm
  | j offset => exact exec_body_congr rfl rfl rfl
  | jr hrs1 =>
    -- nothing is saved or linked, since rd is `x0` and the base is not
    have hne : 0 ≠ (h.extractLsb' 7 5).toNat := fun h0 => hrs1 (eq_of_toNat_eq h0.symm)
    have hbody : standardBody d = (jalrStmts 0 (h.extractLsb' 7 5).toNat (linkValue pc 2),
        .jumpDyn (jalrBase 0 (h.extractLsb' 7 5).toNat) none) := by
      unfold jalrStmts jalrBase
      rw [if_neg hne, if_neg hne]
      rfl
    rw [hbody]
    exact exec_jalr_eq (linkValue pc 2) (heven (.inl rfl))
  | jalr => exact exec_jalr_eq (linkValue pc 2) (heven (.inr rfl))
  | beqz rs1 offset =>
    refine exec_branch_eq rfl rfl _ ?_
    rw [Expr.eval_eq, eval_zero]
    rfl
  | bnez rs1 offset =>
    refine exec_branch_eq rfl rfl _ ?_
    rw [Expr.eval_ne, eval_zero]
    exact (Expr.eval_ne _ _).symm
  | ebreak => exact exec_body_congr rfl rfl rfl

/-- An instruction other than `c.invalid` comes from a quadrant decoder. -/
theorem decoded_of_valid {found : Option (COp × InstrArgs)} {invalid : InstrArgs} {pc : X.Reg}
    {d : DecodedInstr X}
    (hd : some ⟨.c (found.getD (.invalid, invalid)).1, pc, 2, h.setWidth 32,
      (found.getD (.invalid, invalid)).2⟩ = some d)
    (hvalid : d.opid ≠ .c .invalid) :
    ∃ op args, d = ⟨.c op, pc, 2, h.setWidth 32, args⟩ ∧ found = some (op, args) := by
  cases hd
  cases found with
  | none => exact absurd rfl hvalid
  | some p => exact ⟨p.1, p.2, rfl, rfl⟩

/-- The decoder and the specification agree on what a halfword stands for. -/
theorem expands_of_decode {d : DecodedInstr X} {pc : X.Reg} (hdec : decodeC X h pc = some d)
    (hvalid : d.opid ≠ .c .invalid) (hres : ¬ Reserved X h) :
    ∃ op args x, d = ⟨.c op, pc, 2, h.setWidth 32, args⟩ ∧ expand X h = some x ∧
      Expands X h op args x := by
  unfold decodeC at hdec
  dsimp only at hdec
  rw [toNat_halfField h 13 3 rfl, toNat_quadrant] at hdec
  unfold Reserved at hres
  split at hdec
  · next hq =>
    rw [expand, hq]
    obtain ⟨op, args, rfl, hfound⟩ := decoded_of_valid hdec hvalid
    obtain ⟨x, hx⟩ := expands_q0 hfound
    exact ⟨op, args, x, rfl, hx⟩
  · next hq =>
    rw [hq] at hres
    rw [expand, hq]
    have hshamt (hf : (h.extractLsb' 13 3).toNat = 4) (hlow : (h.extractLsb' 10 2).toNat < 2) :
        (immCi h).toNat < X.value := by
      by_contra hge
      exact hres (.inr (.inr (.inr (.inl ⟨hf, hlow, not_lt.1 hge⟩))))
    obtain ⟨op, args, rfl, hfound⟩ := decoded_of_valid hdec hvalid
    obtain ⟨x, hx⟩ := expands_q1 hfound hshamt
    exact ⟨op, args, x, rfl, hx⟩
  · next hq =>
    rw [hq] at hres
    rw [expand, hq]
    have hshamt (hf : (h.extractLsb' 13 3).toNat = 0) : (immCi h).toNat < X.value := by
      by_contra hge
      exact hres (.inl ⟨hf, not_lt.1 hge⟩)
    obtain ⟨op, args, rfl, hfound⟩ := decoded_of_valid hdec hvalid
    obtain ⟨x, hx⟩ := expands_q2 hfound hshamt
    exact ⟨op, args, x, rfl, hx⟩
  · obtain ⟨_, _, _, hfound⟩ := decoded_of_valid hdec hvalid
    cases hfound

/-- Every halfword that the C extension decodes, and that is not reserved, has the effect of the
32-bit instruction it stands for: the standard registry decodes that instruction, and executing its
lift with the size set to 2, so that it links and falls through to `pc + 2`, gives the same state
and the same next pc.  `c.jr` and `c.jalr` are given an even base. -/
theorem compressed_exec_expansion (handler : DecodedInstr X → InstrIR X) (rt : Runtime X)
    (half : BitVec 16) (pc : X.Reg) (s : GuestState X) (rest : List (BitVec 8)) {d : DecodedInstr X}
    (hdec : decodeC X half pc = some d) (hvalid : d.opid ≠ .c .invalid)
    (hres : ¬ Reserved X half)
    (heven : d.opid = .c .jr ∨ d.opid = .c .jalr →
      (s.readReg (half.extractLsb' 7 5).toNat).toNat % 2 = 0) :
    ∃ x d32, expand X half = some x ∧
      (standardWith X handler).decode (wordBytes x.encode ++ rest) pc = some d32 ∧
      d32.pc = pc ∧ d32.size = 4 ∧
      ((standardWith X handler).lift d).exec rt s =
        ((standardWith X handler).lift { d32 with size := 2 }).exec rt s := by
  obtain ⟨op, args, x, rfl, hexpand, hx⟩ := expands_of_decode hdec hvalid hres
  have hjump : op = .jr ∨ op = .jalr → (s.readReg (half.extractLsb' 7 5).toNat).toNat % 2 = 0 :=
    fun hop => heven (hop.imp (congrArg OpId.c) (congrArg OpId.c))
  have hpc : (x.decoded pc).pc = pc ∧ (x.decoded pc).size = 4 := by cases x <;> exact ⟨rfl, rfl⟩
  refine ⟨x, x.decoded pc, hexpand, hx.decode rest pc, hpc.1, hpc.2, ?_⟩
  have hecall : (x.decoded pc).opid ≠ .i .ecall := by
    cases x with
    | base i => exact opid_ne_ecall i
    | ebreak => exact nofun
  have hlift32 := standard_lift handler (d := { x.decoded pc with size := 2 })
    (x.isStandard pc) hecall
  rw [hlift32]
  exact hx.exec_eq pc hjump

/-- `c.jalr ra` on RV64 with an even base does what `jalr ra, 0(ra)` does, up to its size. -/
theorem compressed_exec_expansion_jalr :
    let s : GuestState .rv64 := (GuestState.zero .rv64).writeReg 1 0x2000
    let d : DecodedInstr .rv64 := ⟨.c .jalr, 0x1000, 2, 0x9082, .I 1 1 0⟩
    decodeC .rv64 0x9082 0x1000 = some d ∧ ¬ Reserved .rv64 0x9082 ∧
      ∃ x d32, expand .rv64 0x9082 = some x ∧
        (standard .rv64).decode (wordBytes x.encode ++ []) 0x1000 = some d32 ∧
        d32.pc = 0x1000 ∧ d32.size = 4 ∧
        ((standard .rv64).lift d).exec (Runtime.idle .rv64) s =
          ((standard .rv64).lift { d32 with size := 2 }).exec
            (Runtime.idle .rv64) s := by
  have hres : ¬ Reserved .rv64 0x9082 := by
    simp [Reserved]
  exact ⟨by decide +kernel, hres, compressed_exec_expansion bareMetalHandler (Runtime.idle .rv64)
    0x9082 0x1000 _ [] (by decide +kernel) nofun hres (fun _ => rfl)⟩

end Exec

end Rvr
