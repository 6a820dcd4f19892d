import Rvr.Verify.Lifts

/-!
# Shift amounts

C leaves a shift undefined when its amount is not smaller than the width of the left operand.  An
instruction that the standard registry decodes is lifted to shifts with amounts in range, in every
guest state, unless it is an immediate shift on RV32 whose shift amount has its sixth bit set; the
decoders let those through (`standard_shiftsInRange_iff`).

The predicate follows the tree (`Expr.ShiftsInRange`) and the statements in the states they are
executed in.  The expressions with all shifts in range in every state are a class in the sense of
`LiftClass`; only the immediate shifts of the base and C extensions are read back.
-/

namespace Rvr

open ExtensionRegistry

variable {X : Xlen}

section Predicate

variable (rt : Runtime X) (s : GuestState X)

mutual

/-- Every shift node of an expression has its amount in range. -/
def Expr.ShiftsInRange : Expr X → Prop
  | .mem base _ _ _ => base.ShiftsInRange
  | .memAddr addr _ _ => addr.ShiftsInRange
  | .unary _ e => e.ShiftsInRange
  | .binary op l r => l.ShiftsInRange ∧ r.ShiftsInRange ∧ op.AmountInRange (r.eval rt s)
  | .ternary _ c t e => c.ShiftsInRange ∧ t.ShiftsInRange ∧ e.ShiftsInRange
  | .externCall _ args _ => Expr.ArgsShiftsInRange args
  | _ => True

def Expr.ArgsShiftsInRange : List (Expr X) → Prop
  | [] => True
  | e :: es => e.ShiftsInRange ∧ Expr.ArgsShiftsInRange es

end

def WriteTarget.ShiftsInRange : WriteTarget X → Prop
  | .mem base _ _ => base.ShiftsInRange rt s
  | _ => True

end Predicate

section Statements

variable (rt : Runtime X)

mutual

/-- Every shift node of a statement, both branches of an `If` included. -/
def Stmt.ShiftsInRange : Stmt X → GuestState X → Prop
  | .write target value, s =>
    value.ShiftsInRange rt s ∧ target.ShiftsInRange rt { s with mem := value.memAfter rt s }
  | .ite cond thenStmts elseStmts, s =>
    cond.ShiftsInRange rt s ∧ Stmt.AllShiftsInRange thenStmts s ∧ Stmt.AllShiftsInRange elseStmts s
  | .externCall _ args, s => Expr.ArgsShiftsInRange rt s args

/-- Each statement in the state that the ones before it leave. -/
def Stmt.AllShiftsInRange : List (Stmt X) → GuestState X → Prop
  | [], _ => True
  | st :: sts, s => st.ShiftsInRange s ∧ Stmt.AllShiftsInRange sts (st.exec rt s)

end

def Terminator.ShiftsInRange (s : GuestState X) : Terminator X → Prop
  | .jumpDyn addr _ => addr.ShiftsInRange rt s
  | .branch cond _ _ _ => cond.ShiftsInRange rt s
  | .exit code => code.ShiftsInRange rt s
  | _ => True

/-- Every shift node of a body that is executed in a state. -/
def Lifted.ShiftsInRange (body : Lifted X) (s : GuestState X) : Prop :=
  Stmt.AllShiftsInRange rt body.1 s ∧ body.2.ShiftsInRange rt (Stmt.execAll rt body.1 s)

/-- Every shift node of a lifted instruction that is executed in a state. -/
def InstrIR.ShiftsInRange (i : InstrIR X) (s : GuestState X) : Prop :=
  Lifted.ShiftsInRange rt (i.statements, i.terminator) s

end Statements

/-! ## Shift amounts that the decoders produce -/

section Decoders

variable {raw : BitVec 32} {pc : X.Reg} {d : DecodedInstr X}

theorem decodeOpImm32_shamtFits {funct3 funct7 rd rs1 : ℕ} {p : OpId × InstrArgs}
    (h : decodeOpImm32 funct3 funct7 rd rs1 raw = some p) : p.1.ShamtFits X p.2 := by
  obtain ⟨op, hop, rfl⟩ := Option.map_eq_some_iff.1 h
  have hlt : ((raw >>> 20) &&& 0x1F).toNat < 32 := toNat_and_lt (by decide) _
  split at hop <;> (try split_ifs at hop) <;> cases hop <;> first | exact True.intro | exact hlt

/-- The decoders of the base extension that produce no operation with a bound. -/
theorem shamtFits_of_map {op : Option BaseOp} {args : InstrArgs} {p : OpId × InstrArgs}
    (h : (op.map fun op => (OpId.i op, args)) = some p)
    (hop : ∀ o, op = some o → o ≠ .slliw ∧ o ≠ .srliw ∧ o ≠ .sraiw) : p.1.ShamtFits X p.2 := by
  obtain ⟨o, ho, rfl⟩ := Option.map_eq_some_iff.1 h
  obtain ⟨h1, h2, h3⟩ := hop o ho
  cases o with
  | slliw => exact absurd rfl h1
  | srliw => exact absurd rfl h2
  | sraiw => exact absurd rfl h3
  | _ => trivial

theorem decode32bit_shamtFits (h : decode32bit X raw pc = some d) : d.opid.ShamtFits X d.args := by
  obtain ⟨⟨opid, args⟩, hfound, rfl⟩ := Option.map_eq_some_iff.1 h
  split at hfound <;> (try split_ifs at hfound)
  · cases hfound; trivial
  · cases hfound; trivial
  · cases hfound; trivial
  · cases hfound; trivial
  · refine shamtFits_of_map hfound fun o ho => ?_
    split at ho <;> cases ho <;> decide
  · refine shamtFits_of_map hfound fun o ho => ?_
    split at ho <;> (try split_ifs at ho) <;> cases ho <;> decide
  · refine shamtFits_of_map hfound fun o ho => ?_
    split at ho <;> (try split_ifs at ho) <;> cases ho <;> decide
  · refine shamtFits_of_map hfound fun o ho => ?_
    split at ho <;> (try split_ifs at ho) <;> cases ho <;> decide
  · exact decodeOpImm32_shamtFits hfound
  · refine shamtFits_of_map hfound fun o ho => ?_
    split at ho <;> cases ho <;> decide
  · refine shamtFits_of_map hfound fun o ho => ?_
    split at ho <;> cases ho <;> decide
  · cases hfound; trivial
  · unfold decodeSystem at hfound
    split_ifs at hfound <;> cases hfound <;> trivial
  · cases hfound

theorem decodeZba_shamtFits (h : decodeZba X raw pc = some d) : d.opid.ShamtFits X d.args := by
  unfold decodeZba at h
  simp only at h
  split_ifs at h with _ _ _ hslli
  · split at h <;> cases h <;> trivial
  · cases h; trivial
  · split at h <;> cases h <;> trivial
  · cases h
    change ((raw >>> 20) &&& 0x3F).toNat < X.value
    rw [hslli.2.1]
    exact toNat_and_lt (by decide) _

variable {p : ZbbOp × InstrArgs}

theorem decodeZbbOpImm_shamtFits {funct3 imm12 rd rs1 : ℕ}
    (h : decodeZbbOpImm X raw funct3 imm12 rd rs1 = some p) : (OpId.zbb p.1).ShamtFits X p.2 := by
  unfold decodeZbbOpImm at h
  split at h
  · obtain ⟨o, ho, rfl⟩ := Option.map_eq_some_iff.1 h
    split at ho <;> cases ho <;> trivial
  · have hlt : (if X.value = 32 then (raw >>> 20) &&& 0x1F else (raw >>> 20) &&& 0x3F).toNat
        < X.value := by
      cases X with
      | rv32 => exact toNat_and_lt (by decide) _
      | rv64 => exact toNat_and_lt (by decide) _
    generalize (if X.value = 32 then (raw >>> 20) &&& 0x1F else (raw >>> 20) &&& 0x3F) = shamt
      at h hlt
    split_ifs at h <;> cases h <;> first | exact True.intro | exact hlt

theorem decodeZbbOp32_shamtFits {funct3 funct7 rs2 rd rs1 : ℕ}
    (h : decodeZbbOp32 funct3 funct7 rs2 rd rs1 = some p) : (OpId.zbb p.1).ShamtFits X p.2 := by
  unfold decodeZbbOp32 at h
  split_ifs at h
  · cases h; trivial
  · obtain ⟨o, ho, rfl⟩ := Option.map_eq_some_iff.1 h
    split at ho <;> cases ho <;> trivial

theorem decodeZbbOpImm32_shamtFits {funct3 funct7 rd rs1 : ℕ}
    (h : decodeZbbOpImm32 raw funct3 funct7 rd rs1 = some p) : (OpId.zbb p.1).ShamtFits X p.2 := by
  unfold decodeZbbOpImm32 at h
  split_ifs at h
  · obtain ⟨o, ho, rfl⟩ := Option.map_eq_some_iff.1 h
    split at ho <;> cases ho <;> trivial
  · cases h
    exact toNat_and_lt (k := 32) (by decide) _

theorem decodeZbb_shamtFits (h : decodeZbb X raw pc = some d) : d.opid.ShamtFits X d.args := by
  obtain ⟨⟨op, args⟩, hfound, rfl⟩ := Option.map_eq_some_iff.1 h
  split at hfound <;> (try split_ifs at hfound)
  · unfold decodeZbbRtype at hfound
    split_ifs at hfound
    · cases hfound; trivial
    · obtain ⟨o, ho, hargs⟩ := Option.map_eq_some_iff.1 hfound
      cases hargs
      split at ho <;> (try split at ho) <;> cases ho <;> trivial
  · exact decodeZbbOpImm_shamtFits hfound
  · exact decodeZbbOp32_shamtFits hfound
  · exact decodeZbbOpImm32_shamtFits hfound
  · cases hfound

theorem decodeZbs_shamtFits (h : decodeZbs X raw pc = some d) : d.opid.ShamtFits X d.args := by
  obtain ⟨⟨op, args⟩, hfound, rfl⟩ := Option.map_eq_some_iff.1 h
  have hlt : ((raw >>> 20) &&& (if X.value = 32 then 0x1F else 0x3F)).toNat < X.value := by
    cases X with
    | rv32 => exact toNat_and_lt (by decide) _
    | rv64 => exact toNat_and_lt (by decide) _
  generalize (raw >>> 20) &&& (if X.value = 32 then 0x1F else 0x3F) = shamt at hfound hlt
  simp only at hfound
  split_ifs at hfound <;> (try split at hfound) <;> cases hfound <;>
    first | exact True.intro | exact hlt

/-- The shift amount of an instruction that the standard registry decodes is below the bound of its
operation. -/
theorem standard_decode_shamtFits {handler : DecodedInstr X → InstrIR X} {bytes : List (BitVec 8)}
    (h : (standardWith X handler).decode bytes pc = some d) :
    d.opid.ShamtFits X d.args := by
  obtain ⟨e, he, hd⟩ := List.exists_of_findSome?_eq_some h
  have hmem : e ∈ standardExtensions X := he
  have hcases := InstructionExtension.decode_cases hd
  simp only [standardExtensions, List.mem_cons, List.not_mem_nil, or_false] at hmem
  rcases hmem with rfl | rfl | rfl | rfl | rfl | rfl | rfl | rfl | rfl | rfl | rfl <;>
    obtain ⟨low, hlow⟩ | ⟨raw, hraw⟩ := hcases
  · cases hlow; trivial
  · cases hraw
  · cases hlow
  · exact decode32bit_shamtFits hraw
  · cases hlow
  · obtain ⟨⟨op, hop⟩, -⟩ := decodeM_found hraw
    rw [hop]; trivial
  · cases hlow
  · obtain ⟨⟨op, hop⟩, -⟩ := decodeA_found hraw
    rw [hop]; trivial
  · cases hlow
  · obtain ⟨⟨op, hop⟩, -⟩ := decodeZicsr_found hraw
    rw [hop]; trivial
  · cases hlow
  · obtain ⟨⟨op, hop⟩, -⟩ := decodeZifencei_found hraw
    rw [hop]; trivial
  · cases hlow
  · exact decodeZba_shamtFits hraw
  · cases hlow
  · exact decodeZbb_shamtFits hraw
  · cases hlow
  · exact decodeZbs_shamtFits hraw
  · cases hlow
  · obtain ⟨⟨op, hop⟩, -⟩ := decodeZbkb_found hraw
    rw [hop]; trivial
  · cases hlow
  · obtain ⟨⟨op, hop⟩, -⟩ := decodeZicond_found hraw
    rw [hop]; trivial

end Decoders

/-! ## Lifted bodies -/

/-- An expression with all shifts in range in every guest state. -/
def Expr.ShiftsOk (e : Expr X) : Prop := ∀ rt s, e.ShiftsInRange rt s

/-- A write with all shifts in range in every guest state. -/
def WriteTarget.ShiftsOk (target : WriteTarget X) (value : Expr X) : Prop :=
  value.ShiftsOk ∧ ∀ rt s, target.ShiftsInRange rt s

theorem shiftsClass (args : InstrArgs) :
    LiftClass (X := X) True Expr.ShiftsOk WriteTarget.ShiftsOk args where
  imm _ _ _ := trivial
  reg _ _ _ := trivial
  csr _ _ _ := trivial
  resAddr _ _ := trivial
  resValid _ _ := trivial
  mem _ _ _ h := h
  memAddr _ _ h := h
  unary _ _ h := h
  binary _ _ _ hop hl hr rt s := ⟨hl rt s, hr rt s, hop trivial rt s⟩
  select hc ht he rt s := ⟨hc rt s, ht rt s, he rt s⟩
  writeReg _ h := ⟨h, fun _ _ => trivial⟩
  writeCsr _ _ h := ⟨h, fun _ _ => trivial⟩
  writeMem _ _ _ hbase h := ⟨h, hbase⟩

theorem shiftsOk_hasTemps : HasTemps (X := X) Expr.ShiftsOk WriteTarget.ShiftsOk :=
  fun _ => ⟨fun _ _ => trivial, fun h => ⟨h, fun _ _ => trivial⟩⟩

theorem shiftsOk_hasReservation : HasReservation (X := X) Expr.ShiftsOk WriteTarget.ShiftsOk :=
  ⟨fun h => ⟨h, fun _ _ => trivial⟩, fun h => ⟨h, fun _ _ => trivial⟩⟩

section Bodies

variable {rt : Runtime X} {s : GuestState X}

theorem argsShiftsInRange {es : List (Expr X)} (h : ∀ e ∈ es, e.ShiftsOk) :
    Expr.ArgsShiftsInRange rt s es := by
  induction es with
  | nil => trivial
  | cons e es ih => exact ⟨h e (.head _) rt s, ih fun e he => h e (.tail _ he)⟩

mutual

theorem Stmt.Within.shiftsInRange {st : Stmt X} (h : st.Within Expr.ShiftsOk WriteTarget.ShiftsOk)
    (s : GuestState X) : st.ShiftsInRange rt s := by
  cases st with
  | write target value => exact ⟨h.1 rt s, h.2 rt _⟩
  | ite cond thenStmts elseStmts =>
    exact ⟨h.1 rt s, Stmt.AllWithin.shiftsInRange h.2.1 s, Stmt.AllWithin.shiftsInRange h.2.2 s⟩
  | externCall fnName args => exact argsShiftsInRange h

theorem Stmt.AllWithin.shiftsInRange {sts : List (Stmt X)}
    (h : Stmt.AllWithin Expr.ShiftsOk WriteTarget.ShiftsOk sts) (s : GuestState X) :
    Stmt.AllShiftsInRange rt sts s := by
  cases sts with
  | nil => trivial
  | cons st sts => exact ⟨h.1.shiftsInRange s, Stmt.AllWithin.shiftsInRange h.2 _⟩

end

theorem Lifted.Within.shiftsInRange {body : Lifted X}
    (h : body.Within Expr.ShiftsOk WriteTarget.ShiftsOk) : body.ShiftsInRange rt s := by
  refine ⟨Stmt.AllWithin.shiftsInRange h.1 s, ?_⟩
  have hterm := h.2
  cases hbody : body.2 with
  | jumpDyn addr resolved | exit code =>
    rw [hbody] at hterm
    exact hterm.1 rt _
  | branch cond _ _ _ =>
    rw [hbody] at hterm
    exact hterm rt _
  | _ => trivial

/-- An immediate shift that is lifted in range has its amount in range: a constructor that folds
drops the amount only if it is zero. -/
theorem lowShamtBelow_of_shifts {args : InstrArgs} {op : BinaryOp} (h : Lifted.ShiftsInRange rt
      (liftShamt args fun l r => if r.isZero then l else .binary op l r) s)
    (hop : ∀ v : X.Reg, op.AmountInRange v → v.toNat < X.value) :
    args.LowShamtBelow X.value := by
  cases args with
  | I rd rs1 imm =>
    refine or_iff_not_imp_left.2 fun hrd => ?_
    have hamount : (X.fromU64 ((imm &&& 0x3F).setWidth 64)).toNat = imm.toNat % 64 := by
      rw [← toNat_lowShamt]
      refine Xlen.toNat_fromU64_of_lt ?_
      rw [toNat_lowShamt]
      exact Nat.lt_of_lt_of_le (Nat.mod_lt _ (by decide)) (by cases X <;> decide)
    rw [← hamount]
    have hstmts := h.1
    simp only [liftShamt, writeRd, if_pos hrd] at hstmts
    have hvalue := hstmts.1.1
    split_ifs at hvalue with hzero
    · rw [show X.fromU64 _ = 0#X.value from @Expr.eval_of_isZero _ rt s _ hzero]
      exact X.value_pos
    · exact hop _ hvalue.2.2
  | _ => trivial

end Bodies

/-! ## The standard registry -/

theorem shifts_standardBody {rt : Runtime X} {s : GuestState X} {d : DecodedInstr X}
    (hfits : d.opid.ShamtFits X d.args) :
    Lifted.ShiftsInRange rt (standardBody d) s ↔ d.opid.ShamtInRange X d.args := by
  constructor
  · intro h
    obtain ⟨opid, pc, size, raw, args⟩ := d
    cases opid with
    | i op | c op =>
      cases op with
      | slli | srli | srai => exact lowShamtBelow_of_shifts h fun _ hv => hv
      | _ => trivial
    | _ => trivial
  · intro h
    exact (within_standardBody (shiftsClass d.args) (fun _ => ⟨hfits, h⟩)
      (fun _ => shiftsOk_hasTemps)
      fun _ => shiftsOk_hasReservation).shiftsInRange

/-- In every guest state all shifts of a decoded instruction have amounts in range, unless it is an
immediate shift with an amount of the register width or more. -/
theorem standard_shiftsInRange_iff {bytes : List (BitVec 8)} {pc : X.Reg} {d : DecodedInstr X}
    (h : (standard X).decode bytes pc = some d) (rt : Runtime X)
    (s : GuestState X) :
    ((standard X).lift d).ShiftsInRange rt s ↔ d.opid.ShamtInRange X d.args := by
  by_cases hecall : d.opid = .i .ecall
  · have hlift : (standard X).lift d = bareMetalHandler d :=
      standard_lift_ecall bareMetalHandler hecall
    rw [hlift, hecall]
    exact iff_of_true ⟨trivial, trivial⟩ trivial
  · have hlift : (standard X).lift d = d.ir (standardBody d).1 (standardBody d).2 :=
      standard_lift bareMetalHandler (isStandard_of_decode h) hecall
    rw [hlift]
    exact shifts_standardBody (standard_decode_shamtFits h)

/-- `slli x1, x1, 31` and `slli x1, x1, 32` as the decoder of RV32 reads them. -/
def slliWord (shamt : BitVec 6) : DecodedInstr .rv32 :=
  ⟨.i .slli, 0, 4, 0x00009093 ||| (shamt.setWidth 32 <<< 20), .I 1 1 (shamt.setWidth 32)⟩

theorem standard_shiftsInRange_slli_31 :
    (standard .rv32).decode [0x93, 0x90, 0xF0, 0x01] 0 = some (slliWord 31) ∧
      ((standard .rv32).lift (slliWord 31)).ShiftsInRange (Runtime.idle .rv32)
        (GuestState.zero .rv32) := by
  have hdecode : (standard .rv32).decode [0x93, 0x90, 0xF0, 0x01] 0
      = some (slliWord 31) := by decide +kernel
  exact ⟨hdecode, (standard_shiftsInRange_iff hdecode _ _).2 (.inr (by decide))⟩

/-- With the sixth bit of the shift amount the word is reserved on RV32, but it is decoded, and the
lifted shift has amount 32. -/
theorem standard_shiftsInRange_slli_32_fails :
    (standard .rv32).decode [0x93, 0x90, 0x00, 0x02] 0 = some (slliWord 32) ∧
      ¬ ((standard .rv32).lift (slliWord 32)).ShiftsInRange (Runtime.idle .rv32)
        (GuestState.zero .rv32) := by
  refine ⟨by decide +kernel, fun h => ?_⟩
  have hamount : (32 : BitVec 32).toNat < 32 := h.1.1.1.2.2
  exact absurd hamount (by decide)

end Rvr
