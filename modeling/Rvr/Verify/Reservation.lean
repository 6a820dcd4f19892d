import Rvr.Lib.Trace
import Rvr.Verify.Atomics
import Rvr.Verify.Lifts

/-!
# The reservation of LR and SC

An SC succeeds exactly when the most recent LR, SC, AMO or store before it was an LR at the same
address.  LR sets the reservation, the other three clear it, and no other instruction of the
standard extensions touches it; `Trace.observe_run_eq_some_iff` turns these facts about single
instructions into the statement about runs.
-/

namespace Rvr

open ByteMemory GuestState Stmt

variable {X : Xlen}

/-- The reserved address, if the reservation is valid. -/
def GuestState.reservation (s : GuestState X) : Option X.Reg :=
  if s.resValid = 0 then none else some s.resAddr

/-! ## Statements that leave the reservation alone -/

mutual

/-- Whether a statement can write the reservation. -/
def Stmt.writesReservation : Stmt X → Bool
  | .write target _ =>
    match target with
    | .resAddr => true
    | .resValid => true
    | _ => false
  | .ite _ thenStmts elseStmts =>
    Stmt.statementsWriteReservation thenStmts || Stmt.statementsWriteReservation elseStmts
  | .externCall _ _ => false

/-- Whether one of several statements can write the reservation. -/
def Stmt.statementsWriteReservation : List (Stmt X) → Bool
  | [] => false
  | st :: sts => st.writesReservation || Stmt.statementsWriteReservation sts

end

theorem WriteTarget.write_reservation {rt : Runtime X} {s : GuestState X} {v : X.Reg}
    {t : WriteTarget X} (h : t ≠ .resAddr) (h' : t ≠ .resValid) :
    (t.write rt s v).reservation = s.reservation := by
  cases t <;> first | rfl | exact absurd rfl h | exact absurd rfl h'

mutual

theorem Stmt.exec_reservation (rt : Runtime X) (s : GuestState X) :
    ∀ st : Stmt X, st.writesReservation = false → (st.exec rt s).reservation = s.reservation
  | .write target value, h => by
    refine WriteTarget.write_reservation ?_ ?_
    · rintro rfl
      exact absurd h (by simp [writesReservation])
    · rintro rfl
      exact absurd h (by simp [writesReservation])
  | .ite cond thenStmts elseStmts, h => by
    rw [writesReservation, Bool.or_eq_false_iff] at h
    rw [exec_ite]
    split_ifs
    · exact execAll_reservation rt s elseStmts h.2
    · exact execAll_reservation rt s thenStmts h.1
  | .externCall _ _, _ => rfl

theorem Stmt.execAll_reservation (rt : Runtime X) (s : GuestState X) :
    ∀ sts : List (Stmt X), Stmt.statementsWriteReservation sts = false →
      (execAll rt sts s).reservation = s.reservation
  | [], _ => rfl
  | st :: sts, h => by
    rw [statementsWriteReservation, Bool.or_eq_false_iff] at h
    rw [execAll_cons, execAll_reservation rt (st.exec rt s) sts h.2,
      exec_reservation rt s st h.1]

end

/-! ## Instructions that leave the reservation alone -/

/-- A write of something else than the reservation. -/
def WriteTarget.OffReservation (target : WriteTarget X) (_ : Expr X) : Prop :=
  target ≠ .resAddr ∧ target ≠ .resValid

theorem offReservation_liftClass (args : InstrArgs) :
    LiftClass False (fun _ : Expr X => True) WriteTarget.OffReservation args where
  toExprClass := .univ
  writeReg _ _ := ⟨nofun, nofun⟩
  writeCsr _ _ _ := ⟨nofun, nofun⟩
  writeMem _ _ _ _ _ := ⟨nofun, nofun⟩

theorem offReservation_syscallClass :
    SyscallClass (fun _ : Expr X => True) WriteTarget.OffReservation where
  toExprClass := .univ
  writeA0 _ := ⟨nofun, nofun⟩
  call _ _ _ := ⟨nofun, nofun⟩
  writeExited _ := ⟨nofun, nofun⟩
  writeExitCode _ := ⟨nofun, nofun⟩

mutual

theorem Stmt.Within.writesReservation {st : Stmt X}
    (h : st.Within (fun _ => True) WriteTarget.OffReservation) : st.writesReservation = false := by
  cases st with
  | write target value =>
    cases target with
    | resAddr => exact absurd rfl h.1
    | resValid => exact absurd rfl h.2
    | _ => rfl
  | ite cond thenStmts elseStmts =>
    rw [Stmt.writesReservation, h.2.1.writesReservation, h.2.2.writesReservation]
    rfl
  | externCall fnName args => rfl

theorem Stmt.AllWithin.writesReservation {sts : List (Stmt X)}
    (h : Stmt.AllWithin (fun _ => True) WriteTarget.OffReservation sts) :
    Stmt.statementsWriteReservation sts = false := by
  cases sts with
  | nil => rfl
  | cons st sts =>
    rw [Stmt.statementsWriteReservation, h.1.writesReservation,
      Stmt.AllWithin.writesReservation h.2]
    rfl

end

/-- The ECALL handlers of the repository: bare metal, and syscall tables. -/
def IsShippedHandler (handler : DecodedInstr X → InstrIR X) : Prop :=
  handler = bareMetalHandler ∨ ∃ t : SyscallTable, handler = t.buildIr

/-! ## Runs -/

section Runs

variable (handler : DecodedInstr X → InstrIR X) (rt : Runtime X)

/-- An instruction that the standard registry decodes. -/
def Decoded (d : DecodedInstr X) : Prop :=
  ∃ bytes pc, (ExtensionRegistry.standardWith X handler).decode bytes pc = some d

/-- The state after executing the lifted IR of an instruction. -/
def execInstr (s : GuestState X) (d : DecodedInstr X) : GuestState X :=
  (((ExtensionRegistry.standardWith X handler).lift d).exec rt s).1

end Runs

def DecodedInstr.isLr (d : DecodedInstr X) : Bool := d.opid = .a .lrW ∨ d.opid = .a .lrD

def DecodedInstr.isSc (d : DecodedInstr X) : Bool := d.opid = .a .scW ∨ d.opid = .a .scD

/-- The rs1 value of an atomic instruction. -/
def InstrArgs.amoAddr (s : GuestState X) : InstrArgs → X.Reg
  | .Amo _ rs1 _ _ _ => s.readReg rs1
  | _ => 0

/-- What an atomic or a store makes of the reservation. -/
def reservationAfter (s : GuestState X) (d : DecodedInstr X) : Option X.Reg :=
  if d.isLr then some (d.args.amoAddr s) else none

/-! ## The effect of single instructions on the reservation -/

variable {d : DecodedInstr X}

section Effects

variable {handler : DecodedInstr X → InstrIR X} {rt : Runtime X}

variable (s : GuestState X)

theorem execInstr_eq (hstd : d.opid.isStandard = true) (hecall : d.opid ≠ .i .ecall) :
    execInstr handler rt s d = execAll rt (standardBody d).1 s := by
  rw [execInstr, standard_lift handler hstd hecall, InstrIR.exec_fst]
  rfl

/-- The operation of a decoded instruction belongs to a standard extension. -/
theorem isStandard_of_decoded (h : Decoded handler d) :
    d.opid.isStandard = true := by
  obtain ⟨bytes, pc, hd⟩ := h
  exact isStandard_of_decode hd

theorem execInstr_keeps (hh : IsShippedHandler handler) (s : GuestState X)
    (hd : Decoded handler d) (h : d.opid.touchesReservation = false) :
    (execInstr handler rt s d).reservation = s.reservation := by
  have hlift := within_lift (offReservation_liftClass d.args) offReservation_syscallClass
    (fun _ => ⟨trivial, fun _ => ⟨nofun, nofun⟩⟩)
      (fun htouches => by rw [h] at htouches; cases htouches)
    hh (isStandard_of_decoded hd)
  rw [execInstr, InstrIR.exec_fst]
  exact execAll_reservation rt s _ hlift.1.writesReservation

/-- Statements that end by clearing the reservation. -/
theorem execAll_clear (stmts : List (Stmt X)) :
    (execAll rt (stmts ++ [.writeResValid (.imm (X.fromU64 0))]) s).reservation = none := by
  rw [execAll_append, execAll_cons, exec_clearReservation]
  rfl

theorem execAll_liftAmo_clear (rd rs1 rs2 n : ℕ) (signed : Bool) (op : Expr X → Expr X → Expr X) :
    (execAll rt (liftAmo rd rs1 rs2 n signed op).1 s).reservation = none := by
  simp only [liftAmo]
  rw [execAll_append]
  exact execAll_clear _ [_, _, _]

theorem execAll_liftLr (rd rs1 n : ℕ) (is64 : Bool) :
    (execAll rt (liftLr rd rs1 n is64).1 s).reservation = some (s.readReg rs1) := by
  simp only [liftLr, execAll_cons, exec_setReservation]
  rfl

/-- The test of an SC: the reservation is valid and at the address. -/
theorem eval_scCond (rs1 : ℕ) :
    (Expr.and (.ne .resValid (.imm (X.fromU64 0))) (.eq .resAddr (.read rs1))).eval rt s = 0 ↔
      s.reservation ≠ some (s.readReg rs1) := by
  have hvalid : s.resValid.setWidth X.value = 0#X.value ↔ s.resValid = 0 := by
    have hle : 8 ≤ X.value := Nat.le_trans (by decide) X.thirtyTwo_le_value
    rw [← BitVec.toNat_inj, ← BitVec.toNat_inj, BitVec.toNat_setWidth_of_le hle]
    rfl
  rw [Expr.eval_and, Expr.eval_ne, Expr.eval_eq, Xlen.fromU64_zero, Ops.ofBool_and_ofBool]
  refine (Ops.ofBool_eq_zero X.value_pos _).trans ?_
  unfold reservation
  by_cases hv : s.resValid = 0
  · simp [hv]
  · have hv' : s.resValid.setWidth X.value ≠ 0#X.value := fun h => hv (hvalid.1 h)
    rw [if_neg hv]
    simp [hv']

/-- An SC stores and writes 0 if the reservation is at its address, and only writes 1 otherwise. -/
theorem execAll_liftSc (rd rs1 rs2 n : ℕ) :
    execAll rt (liftSc rd rs1 rs2 n).1 s =
      if s.reservation = some (s.readReg rs1) then
        { (s.storeMem (s.readReg rs1) n (s.readReg rs2)).writeReg rd 0 with resValid := 0 }
      else { s.writeReg rd 1 with resValid := 0 } := by
  have hone : X.fromU64 1 = 1 := by cases X <;> rfl
  simp only [liftSc, execAll_cons, execAll_nil, exec_ite]
  by_cases hres : s.reservation = some (s.readReg rs1)
  · rw [if_neg fun h => (eval_scCond s rs1).1 h hres, if_pos hres,
      exec_writeMem_zero (e := .read rs2) s rfl, exec_clearReservation, Xlen.fromU64_zero]
    rfl
  · rw [if_pos ((eval_scCond s rs1).2 hres), if_neg hres,
      exec_writeReg (e := .imm _) _ rfl, exec_clearReservation, Expr.eval_imm, hone]

/-- Atomics and stores determine the reservation. -/
theorem execInstr_sets (hd : Decoded handler d) (h : d.opid.touchesReservation = true) :
    (execInstr handler rt s d).reservation = reservationAfter s d := by
  have hstd := isStandard_of_decoded hd
  obtain ⟨bytes, pc', hdecode⟩ := hd
  have hformat := standard_decode_format hdecode
  have hecall : d.opid ≠ .i .ecall := by
    intro he
    rw [he] at h
    cases h
  rw [execInstr_eq s hstd hecall]
  obtain ⟨opid, pc, size, raw, args⟩ := d
  have hstore (n : ℕ) (hs : args.format = .s) :
      (execAll rt (liftStore args n).1 s).reservation = none := by
    cases args with
    | S rs1 rs2 imm => exact execAll_clear s [.writeMem (.read rs1) (toI16 imm) (.read rs2) n]
    | _ => cases hs
  cases opid with
  | a op =>
    cases args with
    | Amo rd rs1 rs2 aq rl =>
      cases op
      case lrW | lrD => exact execAll_liftLr s rd rs1 _ _
      case scW | scD =>
        refine (congrArg reservation (execAll_liftSc s rd rs1 rs2 _)).trans ?_
        split_ifs <;> rfl
      case amoswapW | amoswapD => exact execAll_liftAmo_clear s rd rs1 rs2 _ _ fun _ b => b
      all_goals exact execAll_liftAmo_clear s rd rs1 rs2 _ _ _
    | _ => cases hformat
  | i op =>
    cases op
    case sb | sh | sw | sd => exact hstore _ (Option.some.inj hformat).symm
    all_goals cases h
  | c op =>
    cases op
    case sw | sd | swsp | sdsp => exact hstore _ (Option.some.inj hformat).symm
    all_goals cases h
  | _ => cases h

end Effects

/-! ## SC at the end of a run -/

section Sc

variable (handler : DecodedInstr X → InstrIR X) (rt : Runtime X)

/-- The most recent atomic or store of a run from `s` was an LR with rs1 value `addr`. -/
def ReservedBy (s : GuestState X) (run : List (DecodedInstr X)) (addr : X.Reg) : Prop :=
  ∃ pre lr post, run = pre ++ lr :: post ∧ lr.isLr = true ∧
    (∀ d ∈ post, d.opid.touchesReservation = false) ∧
      lr.args.amoAddr (Trace.run (execInstr handler rt) s pre) = addr

variable {handler} {rt}

theorem isLr_touches (h : d.isLr = true) :
    d.opid.touchesReservation = true := by
  rcases of_decide_eq_true h with h | h <;> rw [h] <;> rfl

/-- The reservation at the end of a run. -/
theorem reservation_run (hh : IsShippedHandler handler) {s : GuestState X} (hs : s.resValid = 0)
    {run : List (DecodedInstr X)} (hrun : ∀ d ∈ run, Decoded handler d) (addr : X.Reg) :
    (Trace.run (execInstr handler rt) s run).reservation = some addr ↔
      ReservedBy handler rt s run addr := by
  have hstart : s.reservation = none := if_pos hs
  rw [Trace.observe_run_eq_some_iff (fun d => d.opid.touchesReservation = true) reservationAfter
    (fun d hd h s => execInstr_keeps hh s (hrun d hd) (Bool.eq_false_iff.2 h))
    (fun d hd h s => execInstr_sets s (hrun d hd) h) hstart]
  constructor
  · rintro ⟨pre, d, post, rfl, -, hpost, hval⟩
    unfold reservationAfter at hval
    split_ifs at hval with hlr
    exact ⟨pre, d, post, rfl, hlr, fun x hx => Bool.eq_false_iff.2 (hpost x hx),
      Option.some.inj hval⟩
  · rintro ⟨pre, d, post, rfl, hlr, hpost, haddr⟩
    refine ⟨pre, d, post, rfl, isLr_touches hlr, fun x hx => ?_, ?_⟩
    · exact Bool.eq_false_iff.1 (hpost x hx)
    · rw [reservationAfter, if_pos hlr, haddr]

/-- A decoded SC has the arguments of an atomic, and its lift is `liftSc` at its width. -/
theorem execInstr_sc (rt : Runtime X) {sc : DecodedInstr X} (hsc : Decoded handler sc)
    (hop : sc.isSc = true) :
    ∃ op rd rs1 rs2 aq rl, sc.opid = .a op ∧ sc.args = .Amo rd rs1 rs2 aq rl ∧
      ∀ s : GuestState X, execInstr handler rt s sc =
        execAll rt (liftSc rd rs1 rs2 op.bytes).1 s := by
  obtain ⟨bytes, pc', hdecode⟩ := hsc
  have hformat := standard_decode_format hdecode
  obtain ⟨opid, pc, size, raw, args⟩ := sc
  have hsc : opid = .a .scW ∨ opid = .a .scD := of_decide_eq_true hop
  cases args with
  | Amo rd rs1 rs2 aq rl =>
    rcases hsc with rfl | rfl
    · exact ⟨.scW, rd, rs1, rs2, aq, rl, rfl, rfl, fun s => execInstr_eq s rfl (by simp)⟩
    · exact ⟨.scD, rd, rs1, rs2, aq, rl, rfl, rfl, fun s => execInstr_eq s rfl (by simp)⟩
  | _ => rcases hsc with rfl | rfl <;> cases hformat

/-- What a successful SC of `n` bytes does. -/
structure ScSuccess (n rd rs1 rs2 : ℕ) (s s' : GuestState X) : Prop where
  mem : s'.mem = writeLE s.mem (s.readReg rs1) n (s.readReg rs2).toNat
  dest : rd ≠ 0 → s'.readReg rd = 0

/-- What a failed SC does. -/
structure ScFailure (rd : ℕ) (s s' : GuestState X) : Prop where
  mem : s'.mem = s.mem
  dest : rd ≠ 0 → s'.readReg rd = 1

/-- An SC executed after a run that starts without a reservation stores its value and writes 0 if
the most recent LR, SC, AMO or store of the run was an LR with the same rs1 value, and otherwise
leaves memory alone and writes 1.  So rd tells exactly which of the two happened. -/
theorem sc_effect (hh : IsShippedHandler handler) (rt : Runtime X) {s₀ : GuestState X}
    (hs₀ : s₀.resValid = 0) {run : List (DecodedInstr X)} (hrun : ∀ d ∈ run, Decoded handler d)
    {sc : DecodedInstr X} (hsc : Decoded handler sc) (hop : sc.isSc = true) :
    ∃ op rd rs1 rs2 aq rl, sc.opid = .a op ∧ sc.args = .Amo rd rs1 rs2 aq rl ∧
      let s := Trace.run (execInstr handler rt) s₀ run
      let s' := execInstr handler rt s sc
      (ReservedBy handler rt s₀ run (s.readReg rs1) → ScSuccess op.bytes rd rs1 rs2 s s') ∧
        (¬ ReservedBy handler rt s₀ run (s.readReg rs1) → ScFailure rd s s') ∧
          (rd ≠ 0 → (s'.readReg rd = 0 ↔ ReservedBy handler rt s₀ run (s.readReg rs1))) := by
  obtain ⟨op, rd, rs1, rs2, aq, rl, hopid, hargs, hexec⟩ := execInstr_sc rt hsc hop
  refine ⟨op, rd, rs1, rs2, aq, rl, hopid, hargs, ?_⟩
  intro s s'
  have hs' : s' = _ := (hexec s).trans (execAll_liftSc s rd rs1 rs2 op.bytes)
  rw [← reservation_run hh hs₀ hrun]
  by_cases hres : s.reservation = some (s.readReg rs1)
  · rw [if_pos hres] at hs'
    have hdest (h0 : rd ≠ 0) : s'.readReg rd = 0 := by
      rw [hs']
      exact readReg_writeReg_self _ h0 0
    refine ⟨fun _ => ⟨?_, hdest⟩, fun h => absurd hres h, fun h0 => iff_of_true (hdest h0) hres⟩
    rw [hs']
    change writeLE s.mem _ (storeBytes op.bytes) _ = _
    rw [AOp.storeBytes_bytes]
  · rw [if_neg hres] at hs'
    have hdest (h0 : rd ≠ 0) : s'.readReg rd = 1 := by
      rw [hs']
      exact readReg_writeReg_self _ h0 1
    have hone : (1 : X.Reg) ≠ 0 := by cases X <;> decide
    refine ⟨fun h => absurd h hres, fun _ => ⟨?_, hdest⟩, fun h0 => ?_⟩
    · rw [hs']
      rfl
    · rw [hdest h0]
      exact iff_of_false hone hres

/-- `lr.w a0, (a1)`. -/
def demoLr : DecodedInstr .rv64 := ⟨.a .lrW, 0, 4, 0x1005A52F#32, .Amo 10 11 0 false false⟩

/-- `sc.w a2, a3, (a1)`. -/
def demoSc : DecodedInstr .rv64 := ⟨.a .scW, 4, 4, 0x18D5A62F#32, .Amo 12 11 13 false false⟩

/-- An LR directly before an SC at the same address. -/
theorem sc_effect_after_lr :
    ReservedBy bareMetalHandler (.idle .rv64) (zero .rv64) [demoLr] 0 ∧
      ∃ op rd rs1 rs2 aq rl, demoSc.opid = .a op ∧ demoSc.args = .Amo rd rs1 rs2 aq rl ∧
        let s := execInstr bareMetalHandler (.idle .rv64) (zero .rv64) demoLr
        ScSuccess op.bytes rd rs1 rs2 s (execInstr bareMetalHandler (.idle .rv64) s demoSc) := by
  have hlr : Decoded bareMetalHandler demoLr := ⟨[0x2F, 0xA5, 0x05, 0x10], 0, by decide +kernel⟩
  have hsc : Decoded bareMetalHandler demoSc := ⟨[0x2F, 0xA6, 0xD5, 0x18], 4, by decide +kernel⟩
  have hres (addr : Xlen.rv64.Reg) (h : addr = 0) :
      ReservedBy bareMetalHandler (.idle .rv64) (zero .rv64) [demoLr] addr := by
    subst h
    exact ⟨[], demoLr, [], rfl, rfl, by simp, rfl⟩
  refine ⟨hres 0 rfl, ?_⟩
  have hstart : (zero .rv64).resValid = 0 := rfl
  have hrun : ∀ d ∈ [demoLr], Decoded bareMetalHandler d := by simpa using hlr
  obtain ⟨op, rd, rs1, rs2, aq, rl, hop, hargs, hsuccess, -⟩ :=
    sc_effect (.inl rfl) (.idle .rv64) hstart hrun hsc rfl
  obtain ⟨rfl, rfl, rfl, rfl, rfl⟩ : 12 = rd ∧ 11 = rs1 ∧ 13 = rs2 ∧ false = aq ∧ false = rl := by
    simpa [demoSc] using hargs
  exact ⟨op, 12, 11, 13, false, false, hop, rfl, hsuccess (hres _ (by decide +kernel))⟩

end Sc

end Rvr
