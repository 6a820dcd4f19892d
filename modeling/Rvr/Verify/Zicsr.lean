import Rvr.Isa.Exec

/-!
# What the CSR instructions do

A Zicsr instruction reads a CSR into rd and updates it from a source operand: the value of rs1, or a
five-bit immediate.  The lifts write rd first and read rs1 afterwards, so a register form with rd =
rs1 updates the CSR from its own old value.  `csr_effect_iff` says for every decoded instruction and
every state exactly when the architectural effect is obtained.
-/

namespace Rvr

open ExtensionRegistry

variable {X : Xlen}

/-! ## The architectural effect -/

/-- The new value of the CSR, from its old value and the source operand. -/
def ZicsrOp.newValue (op : ZicsrOp) (old src : X.Reg) : X.Reg :=
  match op with
  | .csrrw | .csrrwi => src
  | .csrrs | .csrrsi => old ||| src
  | .csrrc | .csrrci => old &&& ~~~src

/-- The rd field of a CSR instruction. -/
def InstrArgs.csrRd : InstrArgs → ℕ
  | .Csr rd _ _ => rd
  | .CsrI rd _ _ => rd
  | _ => 0

/-- The CSR number of a CSR instruction. -/
def InstrArgs.csrNum : InstrArgs → ℕ
  | .Csr _ _ csr => csr
  | .CsrI _ _ csr => csr
  | _ => 0

/-- The source operand of a CSR instruction in a given state. -/
def InstrArgs.csrSource (s : GuestState X) : InstrArgs → X.Reg
  | .Csr _ rs1 _ => s.readReg rs1
  | .CsrI _ imm _ => BitVec.ofNat X.value imm
  | _ => 0

/-- rd gets the old value of the CSR, and the CSR its new value. -/
def CsrEffect (op : ZicsrOp) (args : InstrArgs) (s s' : GuestState X) : Prop :=
  (args.csrRd ≠ 0 → s'.readReg args.csrRd = s.readCsr args.csrNum) ∧
    s'.readCsr args.csrNum = op.newValue (s.readCsr args.csrNum) (args.csrSource s)

/-- Updating the CSR from its own old value gives what updating it from `src` would have given. -/
def ZicsrOp.AliasHarmless (op : ZicsrOp) (old src : X.Reg) : Prop :=
  match op with
  | .csrrw => src = old
  | .csrrs => old ||| src = old
  | .csrrc => old &&& ~~~src = 0
  | _ => True

/-- Register forms have distinct rd and rs1, or `x0`, or operands on which the aliasing does not
show. -/
def CsrSafe (op : ZicsrOp) (args : InstrArgs) (s : GuestState X) : Prop :=
  match args with
  | .Csr rd rs1 csr => rd = rs1 → rd ≠ 0 → op.AliasHarmless (s.readCsr csr) (s.readReg rs1)
  | _ => True

/-! ## Executing the lifts -/

section Exec

variable {rt : Runtime X}

/-- Write rd from the CSR, then update the CSR from an expression read after that. -/
theorem exec_csr_update (d : DecodedInstr X) (s : GuestState X) {rd csr : ℕ} {e : Expr X}
    (h : e.isCall = false) :
    ((d.ir (writeRd rd (.csr csr) ++ [.writeCsr csr e]) (.fall none)).exec rt s).1
      = (s.writeReg rd (s.readCsr csr)).writeCsr csr
          (e.eval rt (s.writeReg rd (s.readCsr csr))) := by
  have hexit : Stmt.statementsWriteExit (writeRd rd (.csr csr) ++ [.writeCsr csr e]) = false := by
    unfold writeRd
    split_ifs <;> rfl
  rw [InstrIR.exec_of_not_writesExit s hexit]
  simp only [DecodedInstr.ir, Stmt.execAll_append, execAll_writeRd (e := .csr csr) s rfl,
    Expr.eval_csr, Stmt.execAll_cons, Stmt.execAll_nil, Stmt.writeCsr, Stmt.exec_write _ h,
    WriteTarget.write]

/-- Only write rd from the CSR: the set and clear forms with a zero operand field. -/
theorem exec_csr_read (d : DecodedInstr X) (s : GuestState X) {rd csr : ℕ} :
    ((d.ir (writeRd rd (.csr csr) ++ []) (.fall none)).exec rt s).1
      = s.writeReg rd (s.readCsr csr) := by
  rw [List.append_nil, exec_writeRd_fall (e := .csr csr) d s rfl]
  rfl

end Exec

/-- What the decoder accepts: register forms carry rs1, immediate forms the immediate. -/
theorem decodeZicsr_cases {raw : BitVec 32} {pc : X.Reg} {d : DecodedInstr X}
    (h : decodeZicsr X raw pc = some d) :
    ∃ op args, d = ⟨.zicsr op, pc, 4, raw, args⟩ ∧ ∃ rd src csr,
      ((op = .csrrw ∨ op = .csrrs ∨ op = .csrrc) ∧ args = .Csr rd src csr) ∨
      ((op = .csrrwi ∨ op = .csrrsi ∨ op = .csrrci) ∧ args = .CsrI rd src csr) := by
  unfold decodeZicsr at h
  simp only at h
  split_ifs at h
  rw [Option.map_eq_some_iff] at h
  obtain ⟨⟨op, args⟩, hfound, rfl⟩ := h
  refine ⟨op, args, rfl, decodeRd raw, decodeRs1 raw, ((raw >>> 20) &&& 0xFFF).toNat, ?_⟩
  split at hfound <;> first | (cases hfound; simp) | cases hfound

section Effect

variable {s : GuestState X} {rd csr : ℕ} {v : X.Reg}

/-- After the two writes of an updating form, rd holds the old CSR value and the CSR `v`, so the
effect is the architectural one exactly when `v` is. -/
theorem csrEffect_update_iff {op : ZicsrOp} {args : InstrArgs} (hrd : args.csrRd = rd)
    (hcsr : args.csrNum = csr) (hlow : isCounter csr = false) (hhigh : isCounterHigh csr = false) :
    CsrEffect op args s ((s.writeReg rd (s.readCsr csr)).writeCsr csr v) ↔
      v = op.newValue (s.readCsr csr) (args.csrSource s) := by
  unfold CsrEffect
  rw [hrd, hcsr, GuestState.readCsr_writeCsr_self _ hlow hhigh]
  exact and_iff_right fun h => GuestState.readReg_writeReg_self s h _

/-- A form without the second write has the architectural effect when the update is trivial. -/
theorem csrEffect_read {op : ZicsrOp} {args : InstrArgs} (hrd : args.csrRd = rd)
    (hcsr : args.csrNum = csr)
    (htriv : op.newValue (s.readCsr csr) (args.csrSource s) = s.readCsr csr) :
    CsrEffect op args s (s.writeReg rd (s.readCsr csr)) := by
  unfold CsrEffect
  rw [hrd, hcsr, htriv]
  exact ⟨fun h => GuestState.readReg_writeReg_self s h _, rfl⟩

end Effect

/-! ## The lifted instructions -/

section Lifted

variable {handler : DecodedInstr X → InstrIR X} {d : DecodedInstr X} {op : ZicsrOp} (rd csr : ℕ)
  (rt : Runtime X) (s : GuestState X)

/-- An instruction whose body writes rd and then the CSR. -/
theorem lifted_update_iff (hop : d.opid = .zicsr op) {e : Expr X} (he : e.isCall = false)
    (hbody : standardBody d = (writeRd rd (.csr csr) ++ [.writeCsr csr e], .fall none))
    (hrd : d.args.csrRd = rd) (hcsr : d.args.csrNum = csr)
    (hlow : isCounter csr = false) (hhigh : isCounterHigh csr = false) :
    CsrEffect op d.args s (((standardWith X handler).lift d).exec rt s).1 ↔
      e.eval rt (s.writeReg rd (s.readCsr csr)) =
        op.newValue (s.readCsr csr) (d.args.csrSource s) := by
  have hlift := standard_lift handler (d := d) (by simp [hop, OpId.isStandard]) (by simp [hop])
  rw [hbody] at hlift
  rw [hlift, exec_csr_update d s he, csrEffect_update_iff hrd hcsr hlow hhigh]

/-- An instruction whose body writes only rd, because its operand field is zero. -/
theorem lifted_read (hop : d.opid = .zicsr op)
    (hbody : standardBody d = (writeRd rd (.csr csr) ++ [], .fall none))
    (hrd : d.args.csrRd = rd) (hcsr : d.args.csrNum = csr)
    (htriv : op.newValue (s.readCsr csr) (d.args.csrSource s) = s.readCsr csr) :
    CsrEffect op d.args s (((standardWith X handler).lift d).exec rt s).1 := by
  have hlift := standard_lift handler (d := d) (by simp [hop, OpId.isStandard]) (by simp [hop])
  rw [hbody] at hlift
  rw [hlift, exec_csr_read d s]
  exact csrEffect_read hrd hcsr htriv

end Lifted

/-! ## When the architectural effect is obtained -/

/-- With rd = rs1 the update reads the old CSR value instead of rs1; otherwise it reads rs1. -/
theorem newValue_after_rd_iff {op : ZicsrOp} (hop : op = .csrrw ∨ op = .csrrs ∨ op = .csrrc)
    (s : GuestState X) (rd rs1 csr : ℕ) :
    op.newValue (s.readCsr csr) ((s.writeReg rd (s.readCsr csr)).readReg rs1)
        = op.newValue (s.readCsr csr) (s.readReg rs1) ↔
      CsrSafe op (.Csr rd rs1 csr) s := by
  rw [GuestState.readReg_writeReg]
  by_cases halias : rs1 = rd ∧ rs1 ≠ 0
  · rw [if_pos halias]
    obtain ⟨rfl, h0⟩ := halias
    have hsafe : CsrSafe op (.Csr rs1 rs1 csr) s ↔
        op.AliasHarmless (s.readCsr csr) (s.readReg rs1) := by
      simp [CsrSafe, h0]
    rw [hsafe]
    rcases hop with rfl | rfl | rfl
    · exact eq_comm
    · simp only [ZicsrOp.newValue, BitVec.or_self]
      exact eq_comm
    · simp only [ZicsrOp.newValue, BitVec.and_not_self]
      exact eq_comm
  · have hsafe : CsrSafe op (.Csr rd rs1 csr) s := fun h h0 => absurd ⟨h.symm, h ▸ h0⟩ halias
    rw [if_neg halias]
    exact iff_of_true rfl hsafe

/-- The register operand of a set or clear form with rs1 = `x0` changes nothing. -/
theorem csrSafe_of_rs1_zero {op : ZicsrOp} {rd csr : ℕ} (s : GuestState X) :
    CsrSafe op (.Csr rd 0 csr) s := fun h h0 => absurd h h0

theorem ofNat_fromU64 (n : ℕ) : X.fromU64 (BitVec.ofNat 64 n) = BitVec.ofNat X.value n := by
  rw [Xlen.fromU64, BitVec.setWidth_ofNat_of_le X.value_le]

/-- A CSR instruction has its architectural effect exactly when it is an immediate form, or its rd
is `x0` or differs from rs1, or the aliasing of rd and rs1 does not show in the operands. -/
theorem csr_effect_iff (handler : DecodedInstr X → InstrIR X) {raw : BitVec 32} {pc : X.Reg}
    {d : DecodedInstr X} {op : ZicsrOp} (hd : decodeZicsr X raw pc = some d)
    (hop : d.opid = .zicsr op)
    (hlow : isCounter d.args.csrNum = false) (hhigh : isCounterHigh d.args.csrNum = false)
    (rt : Runtime X) (s : GuestState X) :
    CsrEffect op d.args s (((standardWith X handler).lift d).exec rt s).1 ↔
      CsrSafe op d.args s := by
  obtain ⟨op', args, rfl, rd, src, csr, hform⟩ := decodeZicsr_cases hd
  obtain rfl : op' = op := by simpa using hop
  rcases hform with ⟨hreg, rfl⟩ | ⟨himm, rfl⟩
  · have hiff := newValue_after_rd_iff hreg s rd src csr
    rcases hreg with rfl | rfl | rfl
    · exact (lifted_update_iff rd csr (e := .read src) rt s rfl rfl rfl rfl rfl hlow hhigh).trans
        hiff
    · by_cases hsrc : src = 0
      · subst hsrc
        exact iff_of_true (lifted_read rd csr rt s rfl rfl rfl rfl BitVec.or_zero)
          (csrSafe_of_rs1_zero s)
      · refine (lifted_update_iff rd csr (e := .or (.csr csr) (.read src)) rt s rfl
          (Expr.isCall_or rfl rfl) ?_ rfl rfl hlow hhigh).trans (Iff.trans ?_ hiff)
        · simp [standardBody, liftZicsr, liftCsrrs, hsrc]
        · rw [Expr.eval_or]; rfl
    · by_cases hsrc : src = 0
      · subst hsrc
        exact iff_of_true (lifted_read rd csr rt s rfl rfl rfl rfl (by simp [ZicsrOp.newValue,
          InstrArgs.csrSource])) (csrSafe_of_rs1_zero s)
      · refine (lifted_update_iff rd csr (e := .and (.csr csr) (.not (.read src)))
          rt s rfl (Expr.isCall_and _ _) ?_ rfl rfl hlow hhigh).trans (Iff.trans ?_ hiff)
        · simp [standardBody, liftZicsr, liftCsrrc, hsrc]
        · rw [Expr.eval_and]; rfl
  · -- an immediate operand does not depend on rd, so the written value is always the right one
    refine iff_of_true ?_ trivial
    have himmediate := ofNat_fromU64 (X := X) src
    rcases himm with rfl | rfl | rfl
    · exact (lifted_update_iff rd csr (e := .imm _) rt s rfl rfl rfl rfl rfl hlow hhigh).2
        himmediate
    · by_cases hsrc : src = 0
      · subst hsrc
        exact lifted_read rd csr rt s rfl rfl rfl rfl BitVec.or_zero
      · refine (lifted_update_iff rd csr
          (e := .or (.csr csr) (.imm (X.fromU64 (BitVec.ofNat 64 src)))) rt s rfl
          (Expr.isCall_or rfl rfl) ?_ rfl rfl hlow hhigh).2 ?_
        · simp [standardBody, liftZicsr, liftCsrrsi, hsrc]
        · rw [Expr.eval_or, himmediate]; rfl
    · by_cases hsrc : src = 0
      · subst hsrc
        exact lifted_read rd csr rt s rfl rfl rfl rfl
          (by simp [ZicsrOp.newValue, InstrArgs.csrSource])
      · refine (lifted_update_iff rd csr
          (e := .and (.csr csr) (.not (.imm (X.fromU64 (BitVec.ofNat 64 src))))) rt s rfl
          (Expr.isCall_and _ _) ?_ rfl rfl hlow hhigh).2 ?_
        · simp [standardBody, liftZicsr, liftCsrrci, hsrc]
        · rw [himmediate]; rfl

/-! ## The aliased read-modify-write -/

/-- A state in which `x10 = 5` and every CSR is 7. -/
def aliasedState : GuestState .rv64 :=
  { GuestState.zero .rv64 with regs := fun r => if r = 10 then 5 else 0, csrs := fun _ => 7 }

/-- `csrrw a0, 0x340, a0`. -/
def aliasedCsrrw : DecodedInstr .rv64 := ⟨.zicsr .csrrw, 0, 4, 0x34051573#32, .Csr 10 10 0x340⟩

/-- `csrrw a0, 0x340, a1`. -/
def distinctCsrrw : DecodedInstr .rv64 := ⟨.zicsr .csrrw, 0, 4, 0x34059573#32, .Csr 10 11 0x340⟩

/-- With the source in `a1` the condition holds and with it the effect. -/
theorem csr_effect_distinct :
    CsrSafe .csrrw distinctCsrrw.args aliasedState ∧
      CsrEffect .csrrw distinctCsrrw.args aliasedState
        (((standardWith .rv64 bareMetalHandler).lift distinctCsrrw).exec
          (.idle .rv64) aliasedState).1 := by
  have hsafe : CsrSafe .csrrw distinctCsrrw.args aliasedState := fun h => absurd h (by decide)
  have hd : decodeZicsr .rv64 0x34059573#32 0 = some distinctCsrrw := by decide
  exact ⟨hsafe, (csr_effect_iff bareMetalHandler hd rfl (by decide) (by decide) (.idle .rv64)
    aliasedState).2 hsafe⟩

/-- `csrrw a0, 0x340, a0` with `a0 = 5` and the CSR at 7 leaves the CSR at 7 instead of 5. -/
theorem csr_effect_aliased_fails :
    decodeZicsr .rv64 0x34051573#32 0 = some aliasedCsrrw ∧
      ((((standardWith .rv64 bareMetalHandler).lift aliasedCsrrw).exec
        (.idle .rv64) aliasedState).1).readCsr 0x340 = 7 ∧
      ¬ CsrEffect .csrrw aliasedCsrrw.args aliasedState
        (((standardWith .rv64 bareMetalHandler).lift aliasedCsrrw).exec
          (.idle .rv64) aliasedState).1 := by
  refine ⟨by decide, by decide, fun h => ?_⟩
  exact absurd h.2 (by decide)

end Rvr
