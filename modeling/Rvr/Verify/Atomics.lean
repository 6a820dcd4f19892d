import Rvr.Isa.Exec
import Rvr.Lib.Word

/-!
# What the atomic instructions do

An AMO loads a word or doubleword, gives it to rd and stores the combination of the loaded value
with rs2.  The lift copies rs1 or rs2 to a temporary when rd would overwrite it, and does word-sized
minima and maxima on registers whose upper half is not the extension of the lower; `amo_effect` says
that neither shows.
-/

namespace Rvr

open ByteMemory BitVec GuestState Stmt

variable {X : Xlen}

/-! ## The architectural effect -/

/-- The operations that an AMO applies to the loaded value and the source operand. -/
inductive AmoKind
  | swap | add | xor | and | or | min | max | minu | maxu
  deriving DecidableEq, Repr

/-- The value an AMO stores, at the width of the access. -/
def AmoKind.val {w : ℕ} (old src : BitVec w) : AmoKind → BitVec w
  | .swap => src
  | .add => old + src
  | .xor => old ^^^ src
  | .and => old &&& src
  | .or => old ||| src
  | .min => if old.toInt < src.toInt then old else src
  | .max => if old.toInt < src.toInt then src else old
  | .minu => if old.toNat < src.toNat then old else src
  | .maxu => if old.toNat < src.toNat then src else old

/-- The operation of an AMO; LR and SC have none. -/
def AOp.amoKind : AOp → Option AmoKind
  | .lrW | .lrD | .scW | .scD => none
  | .amoswapW | .amoswapD => some .swap
  | .amoaddW | .amoaddD => some .add
  | .amoxorW | .amoxorD => some .xor
  | .amoandW | .amoandD => some .and
  | .amoorW | .amoorD => some .or
  | .amominW | .amominD => some .min
  | .amomaxW | .amomaxD => some .max
  | .amominuW | .amominuD => some .minu
  | .amomaxuW | .amomaxuD => some .maxu

/-- The number of bytes an atomic instruction accesses. -/
def AOp.bytes (op : AOp) : ℕ := if op.is64 then 8 else 4

@[simp] theorem AOp.storeBytes_bytes (op : AOp) : storeBytes op.bytes = op.bytes := by
  unfold AOp.bytes
  split_ifs <;> rfl

/-- The value that an access of `n` bytes finds in memory. -/
def GuestState.valueAt (s : GuestState X) (addr : X.Reg) (n : ℕ) : BitVec (8 * n) :=
  BitVec.ofNat _ (readLE s.mem addr n)

/-- rd gets the old value, sign-extended; memory changes only in the accessed window, where the
combination of the old value and rs2 is stored; every other register is kept.  Address and source
are those from before the instruction. -/
structure AmoEffect (k : AmoKind) (n rd rs1 rs2 : ℕ) (s s' : GuestState X) : Prop where
  dest : rd ≠ 0 → s'.readReg rd = (s.valueAt (s.readReg rs1) n).signExtend X.value
  regs : ∀ r, r ≠ rd → s'.readReg r = s.readReg r
  mem : s'.mem = writeLE s.mem (s.readReg rs1) n
    (k.val (s.valueAt (s.readReg rs1) n) ((s.readReg rs2).setWidth (8 * n))).toNat

/-! ## Executing the lift -/

/-- The state with the loaded value in temporary 2 and in rd, when the store is computed. -/
def GuestState.amoLoaded (s : GuestState X) (rd : ℕ) (old : X.Reg) : GuestState X :=
  { s with temps := Function.update s.temps 2 old }.writeReg rd old

/-- The load, the write of rd and the store, from a state in which address and source are safe from
the first two. -/
theorem execAll_amoTail (rt : Runtime X) (s : GuestState X) (rd n : ℕ) (signed : Bool)
    (addr src : Expr X) {a b : X.Reg} {op : Expr X → Expr X → Expr X} {f : X.Reg → X.Reg → X.Reg}
    (hop : Expr.Denotes op f) (hcall : src.isCall = false) (ha : addr.eval rt s = a)
    (ha' : ∀ old, addr.eval rt (s.amoLoaded rd old) = a)
    (hb' : ∀ old, src.eval rt (s.amoLoaded rd old) = b) :
    execAll rt
        [.writeTemp 2 (if signed then .memS addr n else .memU addr n), .writeReg rd (.temp 2),
          .writeMem addr 0 (op (.temp 2) src) n, .writeResValid (.imm (X.fromU64 0))] s =
      { (s.amoLoaded rd (s.loadMem a n signed)).storeMem a n (f (s.loadMem a n signed) b) with
        resValid := 0 } := by
  set memRead : Expr X := if signed then .memS addr n else .memU addr n with hmemRead
  have hload : memRead.eval rt s = s.loadMem a n signed := by
    cases signed <;> simp [hmemRead, ha]
  have hloadCall : memRead.isCall = false := by
    cases signed <;> rfl
  have hopCall : (op (.temp 2) src).isCall = false := hop.isCall rfl hcall
  have hloaded : (writeReg rd (.temp 2)).exec rt ((writeTemp 2 memRead).exec rt s) =
      s.amoLoaded rd (s.loadMem a n signed) := by
    rw [exec_writeTemp s hloadCall, exec_writeReg (e := .temp 2) _ rfl, hload]
    simp [amoLoaded]
  have htemp : (s.amoLoaded rd (s.loadMem a n signed)).temps 2 = s.loadMem a n signed := by
    simp [amoLoaded]
  rw [execAll_cons, execAll_cons, hloaded, execAll_cons, execAll_cons,
    execAll_nil, exec_writeMem_zero _ hopCall, exec_clearReservation, hop.eval,
    Expr.eval_temp, htemp, ha', hb']

/-- What the lift of an AMO does, for any operator: the operands are those from before the
instruction, whatever registers coincide. -/
theorem execAll_liftAmo (rt : Runtime X) (s : GuestState X) (rd rs1 rs2 n : ℕ) (signed : Bool)
    {op : Expr X → Expr X → Expr X} {f : X.Reg → X.Reg → X.Reg} (hop : Expr.Denotes op f) :
    let old := s.loadMem (s.readReg rs1) n signed
    let s' := execAll rt (liftAmo rd rs1 rs2 n signed op).1 s
    (∀ r, s'.readReg r = (s.writeReg rd old).readReg r) ∧
      s'.mem = (s.storeMem (s.readReg rs1) n (f old (s.readReg rs2))).mem := by
  intro old s'
  -- the state after the copies: only temporaries 1 and 3 may differ
  obtain ⟨t, hcopies, ht1, ht3⟩ : ∃ t, execAll rt
      ((if rd = rs1 then [.writeTemp 1 (.read rs1)] else []) ++
        (if rd = rs2 then [.writeTemp 3 (.read rs2)] else [])) s = { s with temps := t } ∧
      (rd = rs1 → t 1 = s.readReg rs1) ∧ (rd = rs2 → t 3 = s.readReg rs2) := by
    have hsave (s : GuestState X) (i r : ℕ) : execAll rt [.writeTemp i (.read r)] s =
        { s with temps := Function.update s.temps i (s.readReg r) } :=
      exec_writeTemp (e := .read r) s rfl i
    rw [execAll_append]
    split_ifs with h2 h1 h1
    · rw [hsave, hsave]
      exact ⟨_, rfl, fun _ => by simp, fun _ => by simp [readReg]⟩
    · exact ⟨_, rfl, fun h => absurd h h1, fun _ => by simp⟩
    · exact ⟨_, rfl, fun _ => by simp, fun h => absurd h h2⟩
    · exact ⟨s.temps, rfl, fun h => absurd h h1, fun h => absurd h h2⟩
  have hsafe {i r : ℕ} (hi : i ≠ 2) (hti : rd = r → t i = s.readReg r) (v : X.Reg) :
      (if rd = r then Expr.temp i else .read r).eval rt
        (amoLoaded { s with temps := t } rd v) = s.readReg r := by
    split_ifs with hr
    · rw [← hti hr]
      exact Function.update_of_ne hi _ _
    · exact readReg_writeReg_ne _ (Ne.symm hr) v
  have htail := execAll_amoTail rt { s with temps := t } rd n signed
    (if rd = rs1 then .temp 1 else .read rs1) (if rd = rs2 then .temp 3 else .read rs2) hop
    (by split_ifs <;> rfl) (a := s.readReg rs1) (by split_ifs with h; exacts [ht1 h, rfl])
    (hsafe (by decide) ht1) (hsafe (by decide) ht3)
  have hs' : s' = _ := (execAll_append s _ _).trans ((congrArg _ hcopies).trans htail)
  rw [hs']
  exact ⟨fun _ => rfl, rfl⟩

/-- Word and doubleword loads give the sign extension of the value in memory. -/
theorem loadMem_amo (s : GuestState X) (addr : X.Reg) (op : AOp) (hw : 8 * op.bytes ≤ X.value) :
    s.loadMem addr op.bytes (!op.is64) = (s.valueAt addr op.bytes).signExtend X.value := by
  unfold AOp.bytes at hw ⊢
  cases h64 : op.is64
  · rfl
  · -- a doubleword access is as wide as the register
    cases X
    · simp [h64, Xlen.value] at hw
    · exact (signExtend_eq _).symm

/-! ## The operators -/

/-- A register function that computes an AMO operation on the low `w` bits. -/
def AmoKind.LiftedBy (k : AmoKind) (w : ℕ) (f : X.Reg → X.Reg → X.Reg) : Prop :=
  ∀ (old : BitVec w) (src : X.Reg),
    (f (old.signExtend X.value) src).setWidth w = k.val old (src.setWidth w)

section LiftedBy

variable {w : ℕ} (hw : w ≤ X.value)
include hw

theorem liftedBy_add : AmoKind.LiftedBy (X := X) .add w (· + ·) := by
  intro old src
  rw [setWidth_add _ _ hw, Word.setWidth_signExtend hw]
  rfl

theorem liftedBy_xor : AmoKind.LiftedBy (X := X) .xor w (· ^^^ ·) := by
  intro old src
  rw [setWidth_xor, Word.setWidth_signExtend hw]
  rfl

theorem liftedBy_and : AmoKind.LiftedBy (X := X) .and w (· &&& ·) := by
  intro old src
  rw [setWidth_and, Word.setWidth_signExtend hw]
  rfl

theorem liftedBy_or : AmoKind.LiftedBy (X := X) .or w (· ||| ·) := by
  intro old src
  rw [setWidth_or, Word.setWidth_signExtend hw]
  rfl

theorem liftedBy_min : AmoKind.LiftedBy (X := X) .min w fun l r =>
    if (l.setWidth w).slt (r.setWidth w) then l else r := by
  intro old src
  simp only [apply_ite (setWidth w), Word.setWidth_signExtend hw, AmoKind.val,
    slt_iff_toInt_lt]

theorem liftedBy_max : AmoKind.LiftedBy (X := X) .max w fun l r =>
    if (l.setWidth w).slt (r.setWidth w) then r else l := by
  intro old src
  simp only [apply_ite (setWidth w), Word.setWidth_signExtend hw, AmoKind.val,
    slt_iff_toInt_lt]

theorem liftedBy_minu : AmoKind.LiftedBy (X := X) .minu w fun l r =>
    if (l.setWidth w).ult (r.setWidth w) then l else r := by
  intro old src
  simp only [apply_ite (setWidth w), Word.setWidth_signExtend hw, AmoKind.val,
    ult_iff_lt, lt_def]

theorem liftedBy_maxu : AmoKind.LiftedBy (X := X) .maxu w fun l r =>
    if (l.setWidth w).ult (r.setWidth w) then r else l := by
  intro old src
  simp only [apply_ite (setWidth w), Word.setWidth_signExtend hw, AmoKind.val,
    ult_iff_lt, lt_def]

end LiftedBy

/-- Every AMO is lifted by `liftAmo` from a constructor that computes its operation at the width of
the access. -/
theorem liftAOp_amo {op : AOp} {k : AmoKind} (hk : op.amoKind = some k)
    (hw : 8 * op.bytes ≤ X.value) (rd rs1 rs2 : ℕ) :
    ∃ (e : Expr X → Expr X → Expr X) (f : X.Reg → X.Reg → X.Reg),
      liftAOp rd rs1 rs2 op = liftAmo rd rs1 rs2 op.bytes (!op.is64) e ∧ Expr.Denotes e f ∧
        k.LiftedBy (8 * op.bytes) f := by
  have hrv64 : op.is64 = true → X = .rv64 := by
    intro h
    cases X
    · simp [AOp.bytes, h, Xlen.value] at hw
    · rfl
  cases op <;> simp only [AOp.amoKind, Option.some.injEq, reduceCtorEq] at hk <;> subst hk
  case amoswapW | amoswapD => exact ⟨_, _, rfl, Expr.denotes_snd, fun _ _ => rfl⟩
  case amoaddW | amoaddD => exact ⟨_, _, rfl, Expr.denotes_add, liftedBy_add hw⟩
  case amoxorW | amoxorD => exact ⟨_, _, rfl, Expr.denotes_xor, liftedBy_xor hw⟩
  case amoandW | amoandD => exact ⟨_, _, rfl, Expr.denotes_and, liftedBy_and hw⟩
  case amoorW | amoorD => exact ⟨_, _, rfl, Expr.denotes_or, liftedBy_or hw⟩
  case amominW => exact ⟨_, _, rfl, Expr.denotes_min32, liftedBy_min hw⟩
  case amomaxW => exact ⟨_, _, rfl, Expr.denotes_max32, liftedBy_max hw⟩
  case amominuW => exact ⟨_, _, rfl, Expr.denotes_minu32, liftedBy_minu hw⟩
  case amomaxuW => exact ⟨_, _, rfl, Expr.denotes_maxu32, liftedBy_maxu hw⟩
  -- doublewords exist on RV64 only, where the truncation is the identity
  all_goals obtain rfl : X = .rv64 := hrv64 rfl
  case amominD => exact ⟨_, _, rfl, Expr.denotes_min, liftedBy_min hw⟩
  case amomaxD => exact ⟨_, _, rfl, Expr.denotes_max, liftedBy_max hw⟩
  case amominuD => exact ⟨_, _, rfl, Expr.denotes_minu, liftedBy_minu hw⟩
  case amomaxuD => exact ⟨_, _, rfl, Expr.denotes_maxu, liftedBy_maxu hw⟩

/-! ## Decoded instructions -/

/-- What the decoder accepts: an access that is no wider than a register. -/
theorem decodeA_cases {raw : BitVec 32} {pc : X.Reg} {d : DecodedInstr X}
    (h : decodeA X raw pc = some d) :
    ∃ op rd rs1 rs2 aq rl, d = ⟨.a op, pc, 4, raw, .Amo rd rs1 rs2 aq rl⟩ ∧
      8 * op.bytes ≤ X.value := by
  unfold decodeA at h
  simp only at h
  split_ifs at h with hopcode hwidth
  obtain ⟨op, hop, rfl⟩ := Option.map_eq_some_iff.1 h
  refine ⟨op, _, _, _, _, _, rfl, ?_⟩
  have his64 : op.is64 = (decodeFunct3 raw == 3) := by
    unfold decodeAOpid at hop
    generalize (decodeFunct3 raw == 3) = b at hop ⊢
    split at hop <;> cases b <;> cases hop <;> rfl
  have hle := X.thirtyTwo_le_value
  unfold AOp.bytes
  split_ifs with hd
  · rw [his64, beq_iff_eq] at hd
    omega
  · omega

/-- No A-extension instruction exits or jumps. -/
theorem liftAOp_falls (rd rs1 rs2 : ℕ) (op : AOp) :
    ∃ stmts, liftAOp (X := X) rd rs1 rs2 op = (stmts, .fall none) ∧
      statementsWriteExit stmts = false := by
  have hamo (n : ℕ) (signed : Bool) (e : Expr X → Expr X → Expr X) :
      ∃ stmts, liftAmo rd rs1 rs2 n signed e = (stmts, .fall none) ∧
        statementsWriteExit stmts = false := by
    refine ⟨_, rfl, ?_⟩
    split_ifs <;> rfl
  cases op
  case lrW | lrD | scW | scD => exact ⟨_, rfl, rfl⟩
  case amoswapW | amoswapD => exact hamo _ _ fun _ b => b
  all_goals exact hamo _ _ _

/-- The lift of an A-extension instruction runs the statements of `liftAOp` and falls through. -/
theorem exec_liftAOp (handler : DecodedInstr X → InstrIR X) (rt : Runtime X) (s : GuestState X)
    (op : AOp) (pc : X.Reg) (size : ℕ) (raw : BitVec 32) (rd rs1 rs2 : ℕ) (aq rl : Bool) :
    ((ExtensionRegistry.standardWith X handler).lift
        ⟨.a op, pc, size, raw, .Amo rd rs1 rs2 aq rl⟩).exec rt s =
      (execAll rt (liftAOp rd rs1 rs2 op).1 s, .goto (pc + BitVec.ofNat _ size)) := by
  obtain ⟨stmts, hlift, hexit⟩ := liftAOp_falls (X := X) rd rs1 rs2 op
  have hbody : standardBody ⟨.a op, pc, size, raw, .Amo rd rs1 rs2 aq rl⟩ = (stmts, .fall none) :=
    hlift
  rw [standard_lift handler rfl (by simp), hbody, exec_fall _ _ hexit, hlift]

/-- Every AMO the decoder accepts has its architectural effect, for any choice of registers, and
passes control to the next instruction. -/
theorem amo_effect (handler : DecodedInstr X → InstrIR X) {raw : BitVec 32} {pc : X.Reg}
    {d : DecodedInstr X} {op : AOp} {k : AmoKind} (hd : decodeA X raw pc = some d)
    (hop : d.opid = .a op) (hk : op.amoKind = some k) (rt : Runtime X) (s : GuestState X) :
    ∃ rd rs1 rs2 aq rl, d.args = .Amo rd rs1 rs2 aq rl ∧
      AmoEffect k op.bytes rd rs1 rs2 s
        (((ExtensionRegistry.standardWith X handler).lift d).exec rt s).1 ∧
      (((ExtensionRegistry.standardWith X handler).lift d).exec rt s).2 =
        .goto (pc + BitVec.ofNat _ 4) := by
  obtain ⟨op', rd, rs1, rs2, aq, rl, rfl, hw⟩ := decodeA_cases hd
  obtain rfl : op' = op := by simpa using hop
  refine ⟨rd, rs1, rs2, aq, rl, rfl, ?_⟩
  rw [exec_liftAOp]
  refine ⟨?_, rfl⟩
  obtain ⟨e, f, hlift, hdenotes, hlifted⟩ := liftAOp_amo hk hw rd rs1 rs2
  rw [hlift]
  obtain ⟨hregs, hmem⟩ := execAll_liftAmo rt s rd rs1 rs2 op'.bytes (!op'.is64) hdenotes
  have hload := loadMem_amo s (s.readReg rs1) op' hw
  rw [hload] at hregs hmem
  refine ⟨fun h0 => ?_, fun r hr => ?_, ?_⟩
  · rw [hregs, readReg_writeReg_self _ h0]
  · rw [hregs, readReg_writeReg_ne _ hr]
  · rw [hmem, storeMem, AOp.storeBytes_bytes, ← hlifted, writeLE_setWidth]

/-- `amoadd.w a0, a0, (a0)`: all three registers coincide. -/
def aliasedAmoadd : DecodedInstr .rv64 :=
  ⟨.a .amoaddW, 0, 4, 0x00A5252F#32, .Amo 10 10 10 false false⟩

/-- A state in which every register holds `0x100`. -/
def pointerState : GuestState .rv64 := { zero .rv64 with regs := fun _ => 0x100 }

theorem amo_effect_aliased :
    decodeA .rv64 0x00A5252F#32 0 = some aliasedAmoadd ∧
      AmoEffect .add 4 10 10 10 pointerState
        (((ExtensionRegistry.standardWith .rv64 bareMetalHandler).lift aliasedAmoadd).exec
          (.idle .rv64) pointerState).1 := by
  have hd : decodeA .rv64 0x00A5252F#32 0 = some aliasedAmoadd := by decide
  obtain ⟨rd, rs1, rs2, aq, rl, hargs, heffect, -⟩ :=
    amo_effect bareMetalHandler hd rfl rfl (.idle .rv64) pointerState
  obtain ⟨rfl, rfl, rfl, rfl, rfl⟩ : 10 = rd ∧ 10 = rs1 ∧ 10 = rs2 ∧ false = aq ∧ false = rl := by
    simpa [aliasedAmoadd] using hargs
  exact ⟨hd, heffect⟩

end Rvr
