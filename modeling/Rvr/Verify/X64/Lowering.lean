import Rvr.Verify.X64.Operators

/-!
# Operators on registers and immediates in x86-64 code

`emit_binary_op` and `emit_unary_op` (`rvr-emit/src/x86/ir/expr/ops.rs`) applied to operands that
are register reads or immediates.  An operator has up to three paths: neutral immediates, the
operation in place on a hot destination, and the general one through `%rax`.  On every path the code
computes `loweredBinary` of the operands it works with, and these need not be the operands of the
IR:

* `emit_expr_imm` loads 0 for an RV32 immediate above `0x7fffffff` (`Leaf.loaded`), and so does the
  immediate of `addw` and `subw`;
* the operators with fixed registers take a right operand that was not loaded into `%rcx` from there
  nevertheless (`usedRight`);
* an immediate that does not fit the instruction makes a text that no assembler takes.
-/

namespace Rvr.X64

open Asm Asm.Machine

/-! ## Operands -/

/-- An operand that is a register read or an immediate. -/
inductive Leaf (X : Xlen)
  | reg (r : ℕ)
  | imm (v : X.Reg)

/-- The value that `emit_expr_imm` loads for an immediate. -/
def loadedImm {X : Xlen} (v : X.Reg) : X.Reg := if X = .rv32 ∧ 0x7fffffff < v.toNat then 0 else v

theorem loadedImm_of_le {X : Xlen} {v : X.Reg} (hv : v.toNat ≤ 0x7fffffff) : loadedImm v = v :=
  if_neg fun h => absurd h.2 (by omega)

namespace Leaf

variable {X : Xlen} (em : Emitter) (σ : State)

def expr : Leaf X → Expr X
  | .reg r => .reg r
  | .imm v => .imm v

/-- The value of an operand. -/
def val : Leaf X → X.Reg
  | .reg r => (em.guest σ).readReg r
  | .imm v => v

/-- The value that the code of an operand leaves in a register. -/
def loaded : Leaf X → X.Reg
  | .reg r => (em.guest σ).readReg r
  | .imm v => loadedImm v

theorem eval_expr (rt : Runtime X) (l : Leaf X) : l.expr.eval rt (em.guest σ) = l.val em σ := by
  cases l <;> rfl

end Leaf

/-- What the code of an operand guarantees: control goes on, the returned name has the guest width,
and only the listed registers change. -/
structure Evaluates (X : Xlen) (scratch : List Reg) (σ : State) (n : Name)
    (c : State × Option Label) : Prop where
  done : c.2 = none
  size : n.size = suffix X
  regs : ∀ g ∉ scratch, c.1.regs g = σ.regs g
  field : c.1.field = σ.field
  slot : c.1.slot = σ.slot
  mem : c.1.mem = σ.mem

namespace Evaluates

variable {X : Xlen} {scratch : List Reg} {σ τ : State} {n : Name} {c : State × Option Label}

theorem refl (hn : n.size = suffix X) : Evaluates X scratch σ n (σ, none) :=
  ⟨rfl, hn, fun _ _ => rfl, rfl, rfl, rfl⟩

/-- Scratch registers hold no guest value. -/
theorem sameGuest (h : Evaluates X scratch σ n c) (hhot : ∀ g ∈ scratch, g ∉ availableRegs)
    (hinstret : Reg.r10 ∉ scratch) : SameGuest σ c.1 :=
  ⟨fun g hg => h.regs g fun hs => hhot g hs hg, h.regs _ hinstret, h.field, h.slot, h.mem⟩

/-- A write to the returned register. -/
theorem put (hn : n.size = suffix X) {sz : Size} (v : BitVec sz.bits) :
    Evaluates X [n.reg] σ n (σ.put n v, none) := by
  refine ⟨rfl, hn, ?_, rfl, rfl, rfl⟩
  intro g hg
  exact State.put_regs_of_ne _ _ (List.ne_of_not_mem_cons hg)

/-- Two pieces of code after each other. -/
theorem trans {scratch' : List Reg} {n' : Name} (h : Evaluates X scratch σ n (τ, none))
    (h' : Evaluates X scratch' τ n' c) : Evaluates X (scratch ++ scratch') σ n' c := by
  refine ⟨h'.done, h'.size, ?_, h'.field.trans h.field, h'.slot.trans h.slot, h'.mem.trans h.mem⟩
  intro g hg
  rw [List.mem_append, not_or] at hg
  exact (h'.regs g hg.2).trans (h.regs g hg.1)

theorem flags (h : Evaluates X scratch σ n (τ, none)) (f : Option Flags) :
    Evaluates X scratch σ n ({ τ with flags := f }, none) :=
  ⟨rfl, h.size, h.regs, h.field, h.slot, h.mem⟩

theorem mono {scratch' : List Reg} (h : Evaluates X scratch σ n c) (hsub : scratch ⊆ scratch') :
    Evaluates X scratch' σ n c :=
  ⟨h.done, h.size, fun g hg => h.regs g fun hs => hg (hsub hs), h.field, h.slot, h.mem⟩

end Evaluates

/-- The registers that the code of an operand changes when it is emitted for `t`. -/
def Leaf.scratch {X : Xlen} (t : Reg) : Leaf X → List Reg
  | .reg r => if r = 0 then [t] else [.r11]
  | .imm _ => [t]

section Leaves

variable {X : Xlen} {em : Emitter} {e : St} {σ : State} {env : Env} {t : Name}

theorem readReg_of_ne {r : ℕ} (hr : r ≠ 0) :
    (em.guest σ : GuestState X).readReg r = em.guestReg σ r := by
  simp [GuestState.readReg, hr, Emitter.guest]

/-- The cached register survives code that keeps the guest state and the cache. -/
theorem Cached.congr {σ' : State} (h : Cached X em e σ) (hguest : SameGuest σ σ')
    (hcache : σ'.regs .r11 = σ.regs .r11) : Cached X em e σ' := by
  intro r hr
  rw [hguest.guestReg, State.val, hcache]
  exact h r hr

theorem runs_clear (ht : t.size = suffix X) {Q : Unit → St → State × Option Label → Prop} :
    (machine env).Runs (clear X t) e (σ, none) Q ↔
      Q () e ((σ.put t (0 : BitVec (suffix X).bits)).unflagged, none) := by
  have hzero : ∀ x : BitVec (suffix X).bits, AluOp.xor.val x x = 0 := fun x => BitVec.xor_self
  rw [clear, runs_ins, step, State.read, hzero]
  simp [ht]

/-- A register read. -/
theorem runs_loadRvToTemp (hcached : Cached X em e σ) (ht : t.size = suffix X) (r : ℕ) :
    (machine env).Runs (loadRvToTemp X em r t) e (σ, none) fun n e' c =>
      Evaluates X ((Leaf.reg r : Leaf X).scratch t.reg) σ n c ∧
        c.1.val X n.reg = (em.guest σ).readReg r ∧
        (t.reg ∉ availableRegs → t.reg ≠ .r10 → t.reg ≠ .r11 → Cached X em e' c.1) := by
  by_cases hr : r = 0
  · subst hr
    rw [loadRvToTemp, if_pos rfl, runs_bind, runs_clear ht, runs_pure]
    have hev : Evaluates X [t.reg] σ t ((σ.put t (0 : BitVec (suffix X).bits)).unflagged, none) :=
      (Evaluates.put ht _).flags _
    refine ⟨hev, ?_, ?_⟩
    · exact (State.val_put_self σ X t 0).trans (BitVec.setWidth_zero ..)
    · intro havail hinstret hcache
      refine hcached.congr (hev.sameGuest ?_ ?_) ?_
      · simpa using havail
      · simpa using hinstret.symm
      · exact State.put_regs_of_ne _ _ hcache.symm
  · have hscratch : (Leaf.reg r : Leaf X).scratch t.reg = [.r11] := if_neg hr
    rw [loadRvToTemp, if_neg hr, readReg_of_ne hr, hscratch]
    cases hmap : em.regMap.mapping r with
    | some g =>
      have hget : em.regMap.get X r = some ⟨g, suffix X⟩ := by rw [RegMap.get, hmap]; rfl
      rw [hget, runs_pure]
      refine ⟨.refl rfl, ?_, fun _ _ _ => hcached⟩
      rw [Emitter.guestReg, hmap]
    | none =>
      have hget : em.regMap.get X r = none := by rw [RegMap.get, hmap]; rfl
      rw [hget]
      simp only [coldCacheHit, runs_bind, runs_get, runs_pure]
      by_cases hhit : e.coldCache = some r
      · rw [if_pos hhit, runs_pure]
        exact ⟨.refl rfl, hcached r hhit, fun _ _ _ => hcached⟩
      · rw [if_neg hhit, runs_bind, runs_ins]
        have hval : ((σ.put (coldCacheReg X) (σ.read (suffix X) (fieldOperand (.reg r)))).val X
            .r11) =
            em.guestReg σ r := by
          rw [Emitter.guestReg, hmap]
          exact (State.val_put_self σ X (coldCacheReg X) _).trans
            ((σ.read_suffix X _).trans (by simp [State.operand, fieldOperand, State.fieldVal]))
        have hev : Evaluates X [.r11] σ (coldCacheReg X)
            (σ.put (coldCacheReg X) (σ.read (suffix X) (fieldOperand (.reg r))), none) :=
          .put (n := coldCacheReg X) rfl _
        refine ⟨decide_eq_true ⟨rfl, rfl⟩, _, rfl, ?_⟩
        simp only [coldCacheSet, runs_bind, runs_modify, runs_pure]
        refine ⟨hev, hval, ?_⟩
        intro _ _ _ r' hr'
        cases hr'
        exact hval.trans ((hev.sameGuest (by decide) (by decide)).guestReg r).symm

/-- Code that only writes the register it is emitted for. -/
theorem Evaluates.cached (hcached : Cached X em e σ) {c : State × Option Label} {n : Name}
    (h : Evaluates X [t.reg] σ n c) (havail : t.reg ∉ availableRegs) (hinstret : t.reg ≠ .r10)
    (hcache : t.reg ≠ .r11) : Cached X em e c.1 :=
  hcached.congr (h.sameGuest (by simpa using havail) (by simpa using hinstret.symm))
    (h.regs _ (by simpa using hcache.symm))

/-- An immediate. -/
theorem runs_emitExprImm (ht : t.size = suffix X) (v : X.Reg) :
    (machine env).Runs (emitExprImm v t) e (σ, none) fun n e' c =>
      Evaluates X [t.reg] σ n c ∧ c.1.val X n.reg = loadedImm v ∧ e' = e := by
  have hnat := Xlen.toNat_toU64 v
  unfold emitExprImm
  rw [runs_bind]
  by_cases hv : v = 0
  · subst hv
    have hzero : Xlen.toU64 (0 : X.Reg) = 0 := Xlen.toU64_eq_zero.2 rfl
    rw [if_pos hzero, runs_clear ht, runs_pure]
    refine ⟨(Evaluates.put ht _).flags _, ?_, rfl⟩
    rw [loadedImm_of_le (v := (0 : X.Reg)) (Nat.zero_le _)]
    exact (State.val_put_self σ X t 0).trans (BitVec.setWidth_zero ..)
  · rw [if_neg fun h => hv (Xlen.toU64_eq_zero.1 h)]
    cases X with
    | rv32 =>
      rw [runs_ins]
      refine ⟨decide_eq_true ⟨ht, .inl ?_⟩, _, rfl, runs_pure.2 ⟨.put ht _, ?_, rfl⟩⟩
      · exact decide_eq_true (by split <;> omega)
      · refine (State.val_put_self σ .rv32 t _).trans ?_
        simp only [loadedImm, true_and, hnat, State.read]
        by_cases hle : v.toNat ≤ 0x7fffffff
        · rw [if_pos hle, if_neg (by omega), BitVec.ofInt_natCast, BitVec.ofNat_toNat]
          exact (BitVec.setWidth_eq _).trans (BitVec.setWidth_eq v)
        · rw [if_neg hle, if_pos (by omega)]
          rfl
    | rv64 =>
      rw [hnat]
      by_cases hle : v.toNat > 0x7fffffff
      · simp only [hle, if_true, runs_ins]
        refine ⟨decide_eq_true ht, _, rfl, runs_pure.2 ⟨.put ht _, ?_, rfl⟩⟩
        exact (State.val_put_self σ .rv64 t _).trans
          ((BitVec.setWidth_eq _).trans (BitVec.setWidth_eq v))
      · simp only [hle, if_false, runs_ins]
        have hfits : immFits .q v.toNat = true := by
          simp only [immFits, decide_eq_true_eq]
          omega
        refine ⟨decide_eq_true ⟨ht, .inl hfits⟩, _, rfl, runs_pure.2 ⟨.put ht _, ?_, rfl⟩⟩
        refine (State.val_put_self σ .rv64 t _).trans ?_
        rw [State.read, BitVec.ofInt_natCast, BitVec.ofNat_toNat]
        exact (BitVec.setWidth_eq _).trans (BitVec.setWidth_eq v)

/-- The code of an operand. -/
theorem runs_leaf (hcached : Cached X em e σ) (ht : t.size = suffix X) (l : Leaf X) :
    (machine env).Runs (emitExpr em l.expr t) e (σ, none) fun n e' c =>
      Evaluates X (l.scratch t.reg) σ n c ∧ c.1.val X n.reg = l.loaded em σ ∧
        (t.reg ∉ availableRegs → t.reg ≠ .r10 → t.reg ≠ .r11 → Cached X em e' c.1) := by
  cases l with
  | reg r =>
    exact runs_loadRvToTemp hcached ht r
  | imm v =>
    refine (runs_emitExprImm ht v).mono ?_
    rintro n e' c ⟨hev, hval, rfl⟩
    exact ⟨hev, hval, hev.cached hcached⟩

/-! ## The left operand in rax -/

theorem narrowed_of_size {n : Name} (hn : n.size = suffix X) : narrowed X n = n := by
  obtain ⟨g, sz⟩ := n
  cases X <;> cases hn <;> rfl

/-- A value is moved to the name it should be under, unless it is there. -/
theorem runs_moveUnless {n : Name} (hn : n.size = suffix X) (ht : t.size = suffix X) :
    (machine env).Runs (Emit.when (n ≠ t) (ins (.mov (suffix X) (.reg n) t))) e (σ, none)
      fun _ e' c => e' = e ∧ Evaluates X [t.reg] σ t c ∧ c.1.val X t.reg = σ.val X n.reg := by
  by_cases hnt : n = t
  · subst hnt
    rw [decide_eq_false (by simp), Emit.when_false, runs_pure]
    exact ⟨rfl, .refl ht, rfl⟩
  · rw [decide_eq_true (p := n ≠ t) hnt, Emit.when_true, runs_ins]
    refine ⟨decide_eq_true ⟨decide_eq_true hn, ht⟩, _, rfl, rfl, .put ht _, ?_⟩
    exact (State.val_put_self _ X t _).trans (σ.get_suffix X n)

/-- The left operand goes to rax. -/
theorem runs_left (hcached : Cached X em e σ) (l : Leaf X) :
    (machine env).Runs (emitExpr em l.expr (temp1 X)) e (σ, none) fun n e₁ c₁ =>
      (machine env).Runs (Emit.when (n ≠ temp1 X) (ins (.mov (suffix X) (.reg n) (temp1 X)))) e₁ c₁
        fun _ e₂ c₂ => Evaluates X [.rax, .r11] σ (temp1 X) c₂ ∧ c₂.1.val X .rax = l.loaded em σ ∧
          Cached X em e₂ c₂.1 := by
  refine (runs_leaf hcached (by rfl) l).mono ?_
  rintro n e₁ ⟨τ, _⟩ ⟨hev, hval, hcached₁⟩
  obtain rfl : _ = none := hev.done
  refine (runs_moveUnless hev.size rfl).mono ?_
  rintro _ e₂ ⟨ρ, _⟩ ⟨rfl, hmove, hrax⟩
  refine ⟨(hev.trans hmove).mono ?_, hrax.trans hval, ?_⟩
  · cases l with
    | reg r => by_cases hr : r = 0 <;> simp [Leaf.scratch, hr, temp1]
    | imm v => simp [Leaf.scratch, temp1]
  · exact hmove.cached (hcached₁ rax_notMem_availableRegs (by simp [temp1]) (by simp [temp1]))
      rax_notMem_availableRegs (by simp [temp1]) (by simp [temp1])

end Leaves

/-! ## The right operand on the path through rax -/

theorem Leaves.congr {X : Xlen} {dest n : Name} {v v' : X.Reg} {e : St} {c : State × Option Label}
    (h : Leaves dest v n e c) (hv : v = v') : Leaves dest v' n e c := hv ▸ h

variable {Q : Name → St → State × Option Label → Prop} {emitRight : Operation}

section ViaRax

variable {X : Xlen} {em : Emitter} {e : St} {σ : State} {env : Env} {dest : Name} {op : BinaryOp}

/-- The immediate that the code works with, if the text can be assembled. -/
def usedImm (op : BinaryOp) (v : X.Reg) : Option X.Reg :=
  if op = .addW ∨ op = .subW then some (if v.toNat ≤ 0x7fffffff then v else 0)
  else if isDirect op then if immFits (suffix X) (Xlen.toU64 v).toInt then some v else none
  else if usesRcx op ∧ isWordOp op then if immFits .l (Xlen.toU64 v).toInt then some v else none
  else some v

/-- The right operand that the code works with once the left one is in rax, if the text can be
assembled: word operators cannot on RV32. -/
def viaRaxRight (em : Emitter) (σ : State) (op : BinaryOp) (right : Leaf X) : Option X.Reg :=
  if isWordOp op ∧ X = .rv32 then none
  else
    match right with
    | .reg r => some (if usesRcx op ∧ r ≠ 0 then σ.val X .rcx else (em.guest σ).readReg r)
    | .imm v => usedImm op v

/-- `emit_binary_op` after the left operand is in rax. -/
def afterLeft (op : BinaryOp) (right : Expr X) (emitRight : Operation) (dest : Name) : Em Name :=
  ((emitBinaryShift op right emitRight dest).orElse fun _ =>
    emitBinaryWord op right emitRight dest).getD (emitBinaryGeneral op right emitRight dest)

/-- A printed immediate stands for the value it was made from. -/
theorem ofInt_toInt_toU64 (v : X.Reg) : BitVec.ofInt X.value (Xlen.toU64 v).toInt = v := by
  cases X with
  | rv32 =>
    have hlt : v.toNat < 2 ^ 32 := v.isLt
    have hint : (Xlen.toU64 v).toInt = v.toNat := by
      rw [BitVec.toInt_eq_toNat_of_lt (by rw [Xlen.toNat_toU64]; omega), Xlen.toNat_toU64]
    rw [hint, BitVec.ofInt_natCast, BitVec.ofNat_toNat]
    exact BitVec.setWidth_eq v
  | rv64 => exact BitVec.ofInt_toInt.trans (BitVec.setWidth_eq v)

theorem setWidth_ofInt {w w' : ℕ} (h : w = w') (z : ℤ) :
    (BitVec.ofInt w z).setWidth w' = BitVec.ofInt w' z := by
  subst h
  exact BitVec.setWidth_eq _

/-- Any guest value can be moved to a register of the guest width. -/
theorem encodable_mov_toU64 (v : X.Reg) {n : Name} (hn : n.size = suffix X) :
    encodable (.mov (suffix X) (.imm (Xlen.toU64 v).toInt) n) = true := by
  have hint := (Xlen.toU64 v).toInt_lt
  have hint' := (Xlen.toU64 v).le_toInt
  refine decide_eq_true ⟨hn, ?_⟩
  cases X with
  | rv32 =>
    have hlt : v.toNat < 2 ^ 32 := v.isLt
    have hpos : (Xlen.toU64 v).toInt = v.toNat := by
      rw [BitVec.toInt_eq_toNat_of_lt (by rw [Xlen.toNat_toU64]; omega), Xlen.toNat_toU64]
    refine .inl (decide_eq_true ?_)
    omega
  | rv64 => exact .inr ⟨rfl, by omega, by omega⟩

theorem rightIn_reg {sz : Size} (n : Name) : RightIn env sz (.reg n) σ σ :=
  fun _ => runs_pure.2 ⟨rfl, rfl⟩

theorem rightIn_imm {sz : Size} {z : ℤ} (henc : encodable (.mov sz (.imm z) ⟨.rcx, sz⟩) = true) :
    RightIn env sz (.imm z) σ (σ.put ⟨.rcx, sz⟩ (BitVec.ofInt sz.bits z)) :=
  fun _ => runs_ins.2 ⟨henc, _, rfl, rfl, rfl⟩

/-- Word operators only look at the low half of their right operand. -/
theorem loweredBinary_congr_word {a b b' : X.Reg} (hop : isWordOp op = true)
    (hrcx : usesRcx op = true)
    (hb : b.setWidth 32 = b'.setWidth 32) : loweredBinary a b op = loweredBinary a b' op := by
  cases op <;> simp_all [isWordOp, usesRcx, loweredBinary, BinaryOp.val]

theorem loweredBinary_direct (hop : isDirect op = true) (a b : X.Reg) :
    loweredBinary a b op = op.val a b := by
  cases op <;> first | rfl | cases hop

theorem usesRcx_direct (hop : isDirect op = true) : usesRcx op = false := by
  cases op <;> first | rfl | cases hop

theorem loweredBinary_pack (hop : op = .pack ∨ op = .pack8 ∨ op = .pack16) (a b : X.Reg) :
    loweredBinary a b op = a := by
  rcases hop with rfl | rfl | rfl <;> rfl

/-- The operators of the general path. -/
theorem general_cases (hshift : shiftOp op = none) (hadd : ¬ (op = .addW ∨ op = .subW)) :
    isDirect op = true ∨ usesRcx op = true ∨ op = .mul ∨ op = .pack ∨ op = .pack8 ∨
      op = .pack16 := by
  cases op <;> simp_all [shiftOp, isDirect, usesRcx]

/-- The general path with its right operand in a register. -/
theorem runs_generalOp_reg {n : Name} (hshift : shiftOp op = none)
    (hadd : ¬ (op = .addW ∨ op = .subW)) (hX : isWordOp op = true → X = .rv64)
    (hn : n.size = suffix X) (hdest : dest.size = suffix X) :
    (machine env).Runs (generalOp X op (.reg n) dest) e (σ, none)
      (Leaves dest (loweredBinary (σ.val X .rax)
        (σ.val X (if usesRcx op then .rcx else n.reg)) op)) := by
  have hfits : (Operand.reg n).fits (suffix X) = true := decide_eq_true hn
  rcases general_cases hshift hadd with hop | hop | rfl | hop
  · rw [loweredBinary_direct hop, usesRcx_direct hop]
    exact runs_generalOp_direct hdest hop hfits
  · rw [hop]
    cases hword : isWordOp op with
    | false => exact runs_generalOp_rcx hop hword (rightIn_reg n) hdest
    | true =>
      obtain rfl := hX hword
      exact runs_generalOp_rcxW hop hword (rightIn_reg n) hdest
  · exact runs_generalOp_mul hn hdest
  · rw [loweredBinary_pack hop]
    exact runs_generalOp_pack hop hdest

/-- The general path with an immediate that can be encoded. -/
theorem runs_generalOp_imm {v : X.Reg} (hshift : shiftOp op = none)
    (hadd : ¬ (op = .addW ∨ op = .subW)) (hX : isWordOp op = true → X = .rv64)
    (hdirect : isDirect op = true → immFits (suffix X) (Xlen.toU64 v).toInt = true)
    (hword : usesRcx op = true → isWordOp op = true → immFits .l (Xlen.toU64 v).toInt = true)
    (hdest : dest.size = suffix X) :
    (machine env).Runs (generalOp X op (.imm (Xlen.toU64 v).toInt) dest) e (σ, none)
      (Leaves dest (loweredBinary (σ.val X .rax) v op)) := by
  rcases general_cases hshift hadd with hop | hop | rfl | hop
  · rw [loweredBinary_direct hop]
    have hfits : (Operand.imm (Xlen.toU64 v).toInt).fits (suffix X) = true := hdirect hop
    refine (runs_generalOp_direct hdest hop hfits).mono fun _ _ _ h => h.congr ?_
    rw [State.operand, ofInt_toInt_toU64]
  · have hrax : ∀ {sz : Size} (w : BitVec sz.bits), (σ.put ⟨.rcx, sz⟩ w).val X .rax =
      σ.val X .rax :=
      fun w => State.val_put_of_ne σ X w (by simp)
    cases hw : isWordOp op with
    | false =>
      refine (runs_generalOp_rcx hop hw (rightIn_imm (encodable_mov_toU64 v rfl)) hdest).mono
        fun _ _ _ h => h.congr ?_
      rw [hrax, State.val_put_self σ X ⟨.rcx, suffix X⟩, setWidth_ofInt (bits_suffix X),
        ofInt_toInt_toU64]
    | true =>
      obtain rfl := hX hw
      have henc : encodable (.mov .l (.imm (Xlen.toU64 v).toInt) ecx) = true :=
        decide_eq_true ⟨rfl, .inl (hword hop hw)⟩
      refine (runs_generalOp_rcxW hop hw (rightIn_imm henc) hdest).mono fun _ _ _ h => h.congr ?_
      refine loweredBinary_congr_word hw hop ?_
      -- the low half of the immediate went through ecx
      have hlow : BitVec.ofInt 32 (Xlen.toU64 v).toInt = v.setWidth 32 :=
        (BitVec.signExtend_eq_setWidth_of_le (Xlen.toU64 v) (by decide)).trans
          (congrArg (BitVec.setWidth 32) (BitVec.setWidth_eq v))
      refine (congrArg (BitVec.setWidth 32) (State.val_put_l_self σ .rv64 ecx _)).trans ?_
      exact (BitVec.setWidth_setWidth_of_le _ (by decide)).trans ((BitVec.setWidth_eq _).trans hlow)
  · refine (runs_generalOp_mul_imm (encodable_mov_toU64 v rfl) hdest).mono fun _ _ _ h => h.congr ?_
    rw [ofInt_toInt_toU64]
    rfl
  · rw [loweredBinary_pack hop]
    exact runs_generalOp_pack hop hdest

theorem afterLeft_shift {right : Expr X} {m : Em Name}
    (hm : emitBinaryShift op right emitRight dest = some m) :
    afterLeft op right emitRight dest = m := by
  rw [afterLeft, hm]
  rfl

theorem afterLeft_general {right : Expr X} (hshift : shiftOp op = none)
    (hadd : ¬ (op = .addW ∨ op = .subW)) :
    afterLeft op right emitRight dest =
      (emitRightOperand right emitRight >>= fun rightVal => generalOp X op rightVal dest) := by
  have hword : emitBinaryWord op right emitRight dest = none := by
    cases op <;> first | rfl | exact absurd (.inl rfl) hadd | exact absurd (.inr rfl) hadd
  rw [afterLeft, emitBinaryShift, hshift, hword]
  rfl

theorem usedImm_eq_some {v b : X.Reg} (hadd : ¬ (op = .addW ∨ op = .subW))
    (hb : usedImm op v = some b) :
    v = b ∧ (isDirect op = true → immFits (suffix X) (Xlen.toU64 v).toInt = true) ∧
      (usesRcx op = true → isWordOp op = true → immFits .l (Xlen.toU64 v).toInt = true) := by
  rw [usedImm, if_neg hadd] at hb
  cases hdirect : isDirect op with
  | true =>
    rw [hdirect, if_pos rfl, Option.ite_none_right_eq_some] at hb
    refine ⟨Option.some.inj hb.2, fun _ => hb.1, fun hrcx => ?_⟩
    rw [usesRcx_direct hdirect] at hrcx
    cases hrcx
  | false =>
    rw [hdirect, if_neg Bool.false_ne_true] at hb
    split at hb
    · rw [Option.ite_none_right_eq_some] at hb
      exact ⟨Option.some.inj hb.2, nofun, fun _ _ => hb.1⟩
    · next hw => exact ⟨Option.some.inj hb, nofun, fun h h' => absurd ⟨h, h'⟩ hw⟩

theorem usedImm_eq_none {v : X.Reg} (hb : usedImm op v = none) :
    isDirect op = true ∧ immFits (suffix X) (Xlen.toU64 v).toInt = false ∨
      usesRcx op = true ∧ isWordOp op = true ∧ immFits .l (Xlen.toU64 v).toInt = false := by
  rw [usedImm] at hb
  split at hb
  · cases hb
  split at hb
  · next hdirect =>
    split at hb
    · cases hb
    · next hfits => exact .inl ⟨hdirect, Bool.eq_false_of_not_eq_true hfits⟩
  · split at hb
    · next hop =>
      split at hb
      · cases hb
      · next hfits => exact .inr ⟨hop.1, hop.2, Bool.eq_false_of_not_eq_true hfits⟩
    · cases hb

variable {right : Leaf X}

/-- The shifts. -/
theorem runs_afterLeft_shift (hcached : Cached X em e σ) {x86Op : ShiftOp}
    (hshift : shiftOp op = some (x86Op, isWordOp op)) (hX : isWordOp op = true → X = .rv64)
    (hdest : dest.size = suffix X) :
    (machine env).Runs (afterLeft op right.expr (emitExpr em right.expr) dest) e (σ, none)
      (Leaves dest (loweredBinary (σ.val X .rax) (right.val em σ) op)) := by
  obtain ⟨m, hm⟩ : ∃ m, emitBinaryShift op right.expr (emitExpr em right.expr) dest = some m := by
    simp only [emitBinaryShift, hshift]
    exact ⟨_, rfl⟩
  rw [afterLeft_shift hm]
  cases right with
  | imm v => exact runs_emitBinaryShift_imm hshift hdest hX hm
  | reg r =>
    refine runs_emitBinaryShift_reg hshift hdest hX ?_ hm
    refine (runs_leaf hcached (by rfl) (.reg r)).mono ?_
    rintro n _ c ⟨hev, hval, -⟩
    refine ⟨hev.done, hval, ?_⟩
    rw [State.val, State.val, hev.regs .rax (by simp [Leaf.scratch, temp3]; split <;> simp)]

/-- A register read for rcx: `x0` is loaded there, any other register is left where it is. -/
theorem runs_right (hcached : Cached X em e σ) (r : ℕ) :
    (machine env).Runs (emitExpr em (.reg r : Expr X) (temp2 X)) e (σ, none) fun n _ c =>
      Evaluates X [.rcx, .r11] σ n c ∧ c.1.val X n.reg = (em.guest σ).readReg r ∧
        c.1.val X .rcx = if r ≠ 0 then σ.val X .rcx else (em.guest σ).readReg r := by
  by_cases hr : r = 0
  · subst hr
    have hval : (σ.put (temp2 X) (0 : BitVec (suffix X).bits)).val X .rcx = 0 :=
      (State.val_put_self σ X (temp2 X) 0).trans (BitVec.setWidth_zero ..)
    rw [emitExpr, loadRvToTemp, if_pos rfl, runs_bind, runs_clear rfl, runs_pure]
    exact ⟨((Evaluates.put (n := temp2 X) rfl _).flags _).mono (by simp [temp2]), hval, hval⟩
  · refine (runs_leaf hcached (by rfl) (.reg r)).mono ?_
    rintro n e₁ c ⟨hev, hval, -⟩
    have hscratch : (Leaf.reg r : Leaf X).scratch (temp2 X).reg = [.r11] := if_neg hr
    rw [hscratch] at hev
    refine ⟨hev.mono (by simp), hval, ?_⟩
    rw [if_pos hr, State.val, State.val, hev.regs .rcx (by decide)]

/-- The general path, once the left operand is in rax. -/
theorem runs_afterLeft_general (hcached : Cached X em e σ) {b : X.Reg}
    (hshift : shiftOp op = none) (hadd : ¬ (op = .addW ∨ op = .subW))
    (hb : viaRaxRight em σ op right = some b) (hX : isWordOp op = true → X = .rv64)
    (hdest : dest.size = suffix X) :
    (machine env).Runs (afterLeft op right.expr (emitExpr em right.expr) dest) e (σ, none)
      (Leaves dest (loweredBinary (σ.val X .rax) b op)) := by
  have hword : ¬ (isWordOp op = true ∧ X = .rv32) := fun h => by
    have := hX h.1
    simp [h.2] at this
  rw [afterLeft_general hshift hadd, runs_bind]
  cases right with
  | imm v =>
    rw [viaRaxRight, if_neg hword] at hb
    obtain ⟨rfl, hdirect, hw⟩ := usedImm_eq_some hadd hb
    rw [Leaf.expr, emitRightOperand, runs_pure]
    exact runs_generalOp_imm hshift hadd hX hdirect hw hdest
  | reg r =>
    rw [viaRaxRight, if_neg hword, Option.some.injEq] at hb
    rw [emitRightOperand, runs_bind]
    · refine (runs_right hcached r).mono ?_
      rintro n e₁ ⟨τ, _⟩ ⟨hev, hval, hrcx⟩
      obtain rfl : _ = none := hev.done
      rw [runs_pure]
      refine (runs_generalOp_reg hshift hadd hX hev.size hdest).mono fun _ _ _ h => h.congr ?_
      have hrax : τ.val X .rax = σ.val X .rax := by
        rw [State.val, State.val, hev.regs .rax (by decide)]
      rw [← hb]
      congr 1
      by_cases hop : usesRcx op = true
      · simpa [hop] using hrcx
      · rw [if_neg hop, if_neg fun h => hop h.1]
        exact hval
    · rintro _ ⟨⟩

/-- `addw` and `subw`. -/
theorem runs_afterLeft_word (hcached : Cached .rv64 em e σ) {right : Leaf .rv64} {b : Xlen.rv64.Reg}
    (hadd : op = .addW ∨ op = .subW) (hb : viaRaxRight em σ op right = some b)
    (hdest : dest.size = .q) :
    (machine env).Runs (afterLeft op right.expr (emitExpr em right.expr) dest) e (σ, none)
      (Leaves dest (loweredBinary (σ.val .rv64 .rax) b op)) := by
  obtain ⟨alu, hcode, hval⟩ : ∃ alu : AluOp, (∀ emitRight : Operation,
      afterLeft op right.expr emitRight dest = (wordOperand right.expr emitRight >>= fun o => do
        ins (.alu alu .l o eax)
        ins (.movsx .l .q (.reg eax) dest)
        pure dest)) ∧
      ∀ x : BitVec 64, (alu.val (x.setWidth 32) (b.setWidth 32)).signExtend 64 =
        loweredBinary (X := .rv64) x b op := by
    rcases hadd with rfl | rfl
    · exact ⟨.add, fun _ => rfl, fun _ => rfl⟩
    · exact ⟨.sub, fun _ => rfl, fun _ => rfl⟩
  have hno : ¬ (isWordOp op = true ∧ Xlen.rv64 = .rv32) := by simp
  have hrcx : usesRcx op = false := by rcases hadd with rfl | rfl <;> rfl
  rw [hcode, runs_bind]
  cases right with
  | imm v =>
    rw [viaRaxRight, if_neg hno, usedImm, if_pos hadd, Option.some.injEq] at hb
    rw [Leaf.expr, wordOperand, runs_pure]
    have hlow : BitVec.ofInt 32 (if v.toNat ≤ 0x7fffffff then (v.toNat : ℤ) else 0) =
        b.setWidth 32 := by
      subst hb
      split
      · exact (BitVec.ofInt_natCast ..).trans (BitVec.ofNat_toNat ..)
      · rfl
    have hfits : (Operand.imm (if v.toNat ≤ 0x7fffffff then (v.toNat : ℤ) else 0)).fits .l = true :=
      decide_eq_true (by split <;> omega)
    refine (runs_aluW hdest hfits).mono fun _ _ _ h => h.congr ?_
    rw [State.val_rv64, ← hval, ← hlow]
    rfl
  | reg r =>
    rw [viaRaxRight, if_neg hno, hrcx, Option.some.injEq] at hb
    rw [wordOperand, runs_bind]
    · refine (runs_right hcached r).mono ?_
      rintro n e₁ ⟨τ, _⟩ ⟨hev, hright, -⟩
      obtain rfl : _ = none := hev.done
      rw [runs_pure]
      refine (runs_aluW hdest (by rfl)).mono fun _ _ _ h => h.congr ?_
      have hrax : τ.regs .rax = σ.regs .rax := hev.regs .rax (by decide)
      rw [State.val_rv64, ← hval, ← hb, ← hright, hrax]
      rfl
    · nofun

/-- The code after the left operand computes the operator on rax and the right operand that it works
with. -/
theorem runs_afterLeft (hcached : Cached X em e σ) {b : X.Reg}
    (hb : viaRaxRight em σ op right = some b) (hdest : dest.size = suffix X) :
    (machine env).Runs (afterLeft op right.expr (emitExpr em right.expr) dest) e (σ, none)
      (Leaves dest (loweredBinary (σ.val X .rax) b op)) := by
  have hX : isWordOp op = true → X = .rv64 := by
    intro hop
    cases X with
    | rv64 => rfl
    | rv32 =>
      unfold viaRaxRight at hb
      rw [if_pos ⟨hop, rfl⟩] at hb
      cases hb
  cases hshift : shiftOp op with
  | some p =>
    have hno : ¬ (isWordOp op = true ∧ X = .rv32) := fun h => nomatch h.2.symm.trans (hX h.1)
    have hkind : p.2 = isWordOp op ∧ viaRaxRight em σ op right = some (right.val em σ) := by
      unfold viaRaxRight
      rw [if_neg hno]
      cases op <;> cases hshift <;> cases right <;>
        simp [isWordOp, usedImm, isDirect, usesRcx, Leaf.val]
    obtain ⟨x86Op, isWord⟩ := p
    obtain ⟨rfl, hval⟩ := hkind
    rw [hval, Option.some.injEq] at hb
    subst hb
    exact runs_afterLeft_shift hcached hshift hX hdest
  | none =>
    by_cases hadd : op = .addW ∨ op = .subW
    · obtain rfl : X = .rv64 := hX (by rcases hadd with rfl | rfl <;> rfl)
      exact runs_afterLeft_word hcached hadd hb hdest
    · exact runs_afterLeft_general hcached hshift hadd hb hX hdest

/-- The word operators end in a sign extension to 64 bits, which RV32 has no name for. -/
theorem not_runs_afterLeft_word (hop : isWordOp op = true) (right : Leaf .rv32)
    (hdest : dest.size = .l) {c : State × Option Label} :
    ¬ (machine env).Runs (afterLeft op right.expr emitRight dest) e c Q := by
  have hno : encodable (.movsx .l .q (.reg eax) dest) = false :=
    decide_eq_false fun h => by simp [hdest] at h
  by_cases hgen : shiftOp op = none ∧ ¬ (op = .addW ∨ op = .subW)
  · have hrcx : usesRcx op = true := by
      cases op <;> simp_all [isWordOp, usesRcx, shiftOp]
    rw [afterLeft_general hgen.1 hgen.2, runs_bind]
    rintro ⟨c', -, hrun⟩
    exact not_runs_generalOp_word hrcx hop hdest hrun
  · refine not_runs_of_emits (i := .movsx .l .q (.reg eax) dest) ?_ hno
    cases right <;> cases op <;>
      simp_all [afterLeft, emitBinaryShift, shiftOp, isWordOp, emitBinaryWord, Leaf.expr]

/-- What cannot be assembled does not run. -/
theorem not_runs_afterLeft (hb : viaRaxRight em σ op right = none)
    (hdest : dest.size = suffix X) {τ : State} :
    ¬ (machine env).Runs (afterLeft op right.expr (emitExpr em right.expr) dest) e (τ, none) Q := by
  unfold viaRaxRight at hb
  split at hb
  · next hword =>
    obtain ⟨hop, rfl⟩ := hword
    exact not_runs_afterLeft_word hop right hdest
  cases right with
  | reg r => cases hb
  | imm v =>
    have hgen : shiftOp op = none ∧ ¬ (op = .addW ∨ op = .subW) := by
      rcases usedImm_eq_none hb with ⟨hop, -⟩ | ⟨hop, -⟩ <;>
        cases op <;> simp_all [isDirect, usesRcx, shiftOp]
    rw [afterLeft_general hgen.1 hgen.2, Leaf.expr, emitRightOperand, runs_bind, runs_pure]
    rcases usedImm_eq_none hb with ⟨hop, hfits⟩ | ⟨hop, hword, hfits⟩
    · exact not_runs_generalOp_direct hop (by exact hfits)
    · refine not_runs_of_emits (i := .mov .l (.imm (Xlen.toU64 v).toInt) ecx) ?_ ?_
      · cases op <;> simp_all [usesRcx, isWordOp, generalOp, emitBinaryArith, emitBinaryMulSpecial,
          emitBinaryDivRem, emitDivWSigned, emitDivWUnsigned, loadRight, ecx]
      · refine decide_eq_false ?_
        rintro ⟨-, h | ⟨h, -⟩⟩
        · rw [hfits] at h
          cases h
        · cases h

end ViaRax

/-! ## The two short paths -/

section Paths

variable {X : Xlen} {em : Emitter} {e : St} {σ : State} {env : Env} {dest : Name} {op : BinaryOp}

/-- Immediates that are neutral or absorbing for the operator. -/
def isImmFast (op : BinaryOp) : Leaf X → Bool
  | .imm v =>
    match op with
    | .add | .sub | .or | .xor => v = 0
    | .and => v = 0 ∨ v = BitVec.allOnes _
    | .mul => v = 0 ∨ v = 1
    | _ => false
  | .reg _ => false

/-- The immediates as the source tests them. -/
theorem toNat_toU64_eq_zero {v : X.Reg} : (Xlen.toU64 v).toNat = 0 ↔ v = 0 := by
  rw [Xlen.toNat_toU64, ← BitVec.toNat_inj]
  rfl

theorem toNat_toU64_eq_one {v : X.Reg} : (Xlen.toU64 v).toNat = 1 ↔ v = 1 := by
  have hone : (1 : X.Reg).toNat = 1 := by cases X <;> rfl
  rw [Xlen.toNat_toU64, ← BitVec.toNat_inj, hone]

theorem toNat_toU64_eq_allOnes {v : X.Reg} :
    (Xlen.toU64 v).toNat = 2 ^ X.value - 1 ↔ v = BitVec.allOnes _ := by
  rw [Xlen.toNat_toU64, ← BitVec.toNat_inj, BitVec.toNat_allOnes]

variable {right : Leaf X}

/-- Which immediates take the fast path. -/
theorem emitBinaryOpImmFast_eq_none {emitLeft : Operation} (hfast : isImmFast op right = false) :
    emitBinaryOpImmFast op emitLeft right.expr dest = none := by
  cases right with
  | reg r => rfl
  | imm v =>
    cases op <;> simp_all [emitBinaryOpImmFast, Leaf.expr, isImmFast, toNat_toU64_eq_zero,
      toNat_toU64_eq_one, toNat_toU64_eq_allOnes]

theorem runs_emitMoveLeftToDest (hcached : Cached X em e σ) (l : Leaf X)
    (hdest : dest.size = suffix X) :
    (machine env).Runs (emitMoveLeftToDest X (emitExpr em l.expr) dest) e (σ, none)
      (Leaves dest (l.loaded em σ)) := by
  rw [emitMoveLeftToDest, runs_bind]
  refine (runs_leaf hcached hdest l).mono ?_
  rintro n e₁ ⟨τ, _⟩ ⟨hev, hval, -⟩
  obtain rfl : _ = none := hev.done
  rw [runs_bind, narrowed_of_size hev.size, narrowed_of_size hdest]
  refine (runs_moveUnless hev.size hdest).mono ?_
  rintro _ e₂ ⟨ρ, _⟩ ⟨-, hmove, hmoved⟩
  exact runs_pure.2 ⟨rfl, hmove.done, hmoved.trans hval⟩

theorem runs_clearDest (hdest : dest.size = suffix X) :
    (machine env).Runs (do clear X dest; pure dest) e (σ, none) (Leaves dest (0 : X.Reg)) := by
  rw [runs_bind, runs_clear hdest, runs_pure]
  exact ⟨rfl, rfl, (State.val_put_self σ X dest 0).trans (BitVec.setWidth_zero ..)⟩

/-- The path of neutral and absorbing immediates. -/
theorem runs_immFast (hcached : Cached X em e σ) (left : Leaf X) (hfast : isImmFast op right = true)
    (hdest : dest.size = suffix X) :
    ∃ m, emitBinaryOpImmFast op (emitExpr em left.expr) right.expr dest = some m ∧
      (machine env).Runs m e (σ, none)
        (Leaves dest (loweredBinary (left.loaded em σ) (right.val em σ) op)) := by
  cases right with
  | reg r => cases hfast
  | imm v =>
    have hmove : ∀ {b : X.Reg}, b = left.loaded em σ → (machine env).Runs
        (emitMoveLeftToDest X (emitExpr em left.expr) dest) e (σ, none) (Leaves dest b) :=
      fun h => (runs_emitMoveLeftToDest hcached left hdest).mono fun _ _ _ h' => h'.congr h.symm
    have hclear : ∀ {b : X.Reg}, b = 0 → (machine env).Runs (do clear X dest; pure dest) e (σ, none)
        (Leaves dest b) :=
      fun h => (runs_clearDest hdest).mono fun _ _ _ h' => h'.congr h.symm
    simp only [emitBinaryOpImmFast, Leaf.val, toNat_toU64_eq_zero, toNat_toU64_eq_one,
      toNat_toU64_eq_allOnes]
    cases op with
    | add | sub | or | xor =>
      obtain rfl := of_decide_eq_true hfast
      exact ⟨_, if_pos rfl, hmove (by simp [loweredBinary, BinaryOp.val])⟩
    | and =>
      by_cases hv : v = 0
      · subst hv
        exact ⟨_, if_pos rfl, hclear (by simp [loweredBinary, BinaryOp.val])⟩
      · obtain rfl := (of_decide_eq_true hfast).resolve_left hv
        exact ⟨_, (if_neg hv).trans (if_pos rfl), hmove (by simp [loweredBinary, BinaryOp.val])⟩
    | mul =>
      by_cases hv : v = 0
      · subst hv
        exact ⟨_, if_pos rfl, hclear (by simp [loweredBinary, BinaryOp.val])⟩
      · obtain rfl := (of_decide_eq_true hfast).resolve_left hv
        exact ⟨_, (if_neg hv).trans (if_pos rfl), hmove (by simp [loweredBinary, BinaryOp.val])⟩
    | _ => cases hfast

/-- Whether the left operand is the hot register that is also the destination. -/
def isInPlace (em : Emitter) (op : BinaryOp) (dest : Name) : Leaf X → Bool
  | .reg r => (aluOp op).isSome ∧ em.regMap.get X r = some dest
  | .imm _ => false

theorem emitBinaryOpInPlace_eq_none {left : Leaf X} (hplace : isInPlace em op dest left = false) :
    emitBinaryOpInPlace em op left.expr right.expr emitRight dest = none := by
  cases left with
  | imm v => cases hop : aluOp op <;> simp [emitBinaryOpInPlace, Leaf.expr]
  | reg r => cases hop : aluOp op <;> simp_all [emitBinaryOpInPlace, Leaf.expr, isInPlace]

/-- The right operand of the operation in place. -/
theorem runs_inPlaceOperand (hcached : Cached X em e σ) (right : Leaf X) :
    (machine env).Runs (inPlaceOperand op right.expr (emitExpr em right.expr)) e
      (σ, none) fun o _ c =>
      c.2 = none ∧ o.fits (suffix X) = true ∧ c.1.operand X o = right.loaded em σ ∧
        ∀ g ∈ availableRegs, c.1.regs g = σ.regs g := by
  have hreg : (machine env).Runs (do
        let rightReg ← emitExpr em right.expr (temp2 X)
        pure (.reg rightReg)) e (σ, none) fun o _ c =>
      c.2 = none ∧ o.fits (suffix X) = true ∧ c.1.operand X o = right.loaded em σ ∧
        ∀ g ∈ availableRegs, c.1.regs g = σ.regs g := by
    rw [runs_bind]
    refine (runs_leaf hcached (by rfl) right).mono ?_
    rintro n e₁ c ⟨hev, hval, -⟩
    refine runs_pure.2 ⟨hev.done, decide_eq_true hev.size, hval, ?_⟩
    intro g hg
    refine hev.regs g ?_
    rintro hmem
    have hscratch : g = .rcx ∨ g = .r11 := by
      cases right with
      | imm v => exact .inl (List.mem_singleton.1 hmem)
      | reg r => by_cases hr : r = 0 <;> simp_all [Leaf.scratch, temp2]
    rcases hscratch with rfl | rfl
    · revert hg; decide
    · revert hg; decide
  cases right with
  | reg r => exact hreg
  | imm v =>
    by_cases hsmall : op ≠ .mul ∧ (Xlen.toU64 v).toNat ≤ 0x7fffffff
    · rw [Leaf.expr, inPlaceOperand, if_pos hsmall, runs_pure]
      rw [Xlen.toNat_toU64] at hsmall ⊢
      refine ⟨rfl, ?_, ?_, fun _ _ => rfl⟩
      · cases X with
        | rv32 => simp only [Operand.fits, suffix, immFits, decide_eq_true_eq]; omega
        | rv64 => simp only [Operand.fits, suffix, immFits, decide_eq_true_eq]; omega
      · rw [State.operand, BitVec.ofInt_natCast, BitVec.ofNat_toNat, Leaf.loaded,
          loadedImm_of_le hsmall.2, BitVec.setWidth_eq]
    · rw [Leaf.expr, inPlaceOperand, if_neg hsmall]
      exact hreg

theorem loweredBinary_aluOp {alu : AluOp} (hop : aluOp op = some alu) (a b : X.Reg) :
    loweredBinary a b op = alu.val a b := by
  cases op <;> cases hop <;> rfl

/-- The operation in place. -/
theorem runs_inPlace (hcached : Cached X em e σ) {left : Leaf X} (right : Leaf X)
    (hplace : isInPlace em op dest left = true) :
    ∃ m, emitBinaryOpInPlace em op left.expr right.expr (emitExpr em right.expr) dest = some m ∧
      (machine env).Runs m e (σ, none)
        (Leaves dest (loweredBinary (left.loaded em σ) (right.loaded em σ) op)) := by
  cases left with
  | imm v => cases hplace
  | reg r =>
    obtain ⟨halu, hget⟩ := of_decide_eq_true hplace
    obtain ⟨alu, hop⟩ := Option.isSome_iff_exists.1 halu
    obtain ⟨g, hmap, rfl⟩ := Option.map_eq_some_iff.1 hget
    have hr : r ≠ 0 := by
      rintro rfl
      rw [em.regMap.zero] at hmap
      cases hmap
    have hleft : (Leaf.reg r : Leaf X).loaded em σ = σ.val X g := by
      rw [Leaf.loaded, readReg_of_ne hr, Emitter.guestReg, hmap]
    refine ⟨_, by simp only [emitBinaryOpInPlace, hop]; exact if_pos hget, ?_⟩
    rw [runs_bind, hleft, loweredBinary_aluOp hop]
    refine (runs_inPlaceOperand hcached right).mono ?_
    rintro o e₁ ⟨τ, _⟩ ⟨rfl, hfits, hval, hregs⟩
    rw [runs_bind, runs_ins]
    refine ⟨decide_eq_true ⟨hfits, rfl⟩, _, rfl, runs_pure.2 ⟨rfl, rfl, ?_⟩⟩
    refine (State.val_put_self τ X ⟨g, suffix X⟩ _).trans ?_
    rw [AluOp.setWidth_val (bits_suffix X), State.get_suffix, State.read_suffix, hval, State.val,
      State.val, hregs g (em.regMap.available hmap)]

/-- The right operand that the code works with, if the text can be assembled. -/
def usedRight (em : Emitter) (σ : State) (op : BinaryOp) (left right : Leaf X) (dest : Name) :
    Option X.Reg :=
  if isImmFast op right then some (right.val em σ)
  else if isInPlace em op dest left then some (right.loaded em σ)
  else viaRaxRight em σ op right

theorem emitBinaryOp_of_some {m : Em Name} {left right : Expr X} {emitLeft : Operation}
    (h : (emitBinaryOpImmFast op emitLeft right dest).orElse (fun _ =>
      emitBinaryOpInPlace em op left right emitRight dest) = some m) :
    emitBinaryOp em op left right emitLeft emitRight dest = m := by
  rw [emitBinaryOp, h]
  rfl

/-- Code for the left operand does not change what the right one will be. -/
theorem viaRaxRight_congr {τ : State} (h : SameGuest σ τ) (hrcx : τ.regs .rcx = σ.regs .rcx)
    (right : Leaf X) : viaRaxRight em τ op right = viaRaxRight em σ op right := by
  unfold viaRaxRight
  rw [h.guest, State.val, State.val, hrcx]

variable (hcached : Cached X em e σ)
include hcached

/-- The path through rax. -/
theorem runs_viaRax {left : Leaf X} {b : X.Reg}
    (hb : viaRaxRight em σ op right = some b) (hdest : dest.size = suffix X) :
    (machine env).Runs (emitBinaryOpViaRax op right.expr (emitExpr em left.expr)
      (emitExpr em right.expr) dest) e (σ, none)
      (Leaves dest (loweredBinary (left.loaded em σ) b op)) := by
  rw [emitBinaryOpViaRax, runs_bind]
  refine (runs_left hcached left).mono ?_
  intro n e₁ c₁ hmove
  rw [runs_bind]
  refine hmove.mono ?_
  rintro _ e₂ ⟨τ, _⟩ ⟨hev, hval, hcached₂⟩
  obtain rfl : _ = none := hev.done
  have hsame : SameGuest σ τ := hev.sameGuest (by decide) (by decide)
  rw [← viaRaxRight_congr hsame (hev.regs .rcx (by decide))] at hb
  exact (runs_afterLeft hcached₂ hb hdest).mono fun _ _ _ h => h.congr (by rw [← hval])

theorem not_runs_viaRax {left : Leaf X}
    (hb : viaRaxRight em σ op right = none) (hdest : dest.size = suffix X) :
    ¬ (machine env).Runs (emitBinaryOpViaRax op right.expr (emitExpr em left.expr)
      (emitExpr em right.expr) dest) e (σ, none) Q := by
  intro hrun
  rw [emitBinaryOpViaRax, runs_bind] at hrun
  obtain ⟨c₁, -, hmove, hrest⟩ := (runs_left hcached left).and hrun
  rw [runs_bind] at hrest
  obtain ⟨⟨τ, _⟩, -, ⟨hev, -⟩, hafter⟩ := hmove.and hrest
  obtain rfl : _ = none := hev.done
  exact not_runs_afterLeft hb hdest hafter

/-- The code of a binary operator computes it on the operands that it works with. -/
theorem runs_binary {left : Leaf X} {b : X.Reg}
    (hb : usedRight em σ op left right dest = some b) (hdest : dest.size = suffix X) :
    (machine env).Runs (emitExpr em (.binary op left.expr right.expr) dest) e (σ, none)
      (Leaves dest (loweredBinary (left.loaded em σ) b op)) := by
  rw [emitExpr]
  cases hfast : isImmFast op right with
  | true =>
    rw [usedRight, hfast, if_pos rfl, Option.some.injEq] at hb
    obtain ⟨m, hm, hrun⟩ := runs_immFast hcached left hfast hdest
    rw [emitBinaryOp_of_some (by rw [hm]; rfl), ← hb]
    exact hrun
  | false =>
    rw [usedRight, hfast, if_neg Bool.false_ne_true] at hb
    cases hplace : isInPlace em op dest left with
    | true =>
      rw [hplace, if_pos rfl, Option.some.injEq] at hb
      obtain ⟨m, hm, hrun⟩ := runs_inPlace hcached right hplace
      rw [emitBinaryOp_of_some (by rw [emitBinaryOpImmFast_eq_none hfast, Option.orElse_none, hm]),
        ← hb]
      exact hrun
    | false =>
      rw [hplace] at hb
      rw [emitBinaryOp, emitBinaryOpImmFast_eq_none hfast, emitBinaryOpInPlace_eq_none hplace]
      exact runs_viaRax hcached hb hdest

theorem not_runs_binary {left : Leaf X}
    (hb : usedRight em σ op left right dest = none) (hdest : dest.size = suffix X) :
    ¬ (machine env).Runs (emitExpr em (.binary op left.expr right.expr) dest) e (σ, none) Q := by
  unfold usedRight at hb
  split at hb
  · cases hb
  split at hb
  · cases hb
  next hfast hplace =>
    rw [emitExpr, emitBinaryOp, emitBinaryOpImmFast_eq_none (Bool.eq_false_of_not_eq_true hfast),
      emitBinaryOpInPlace_eq_none (Bool.eq_false_of_not_eq_true hplace)]
    exact not_runs_viaRax hcached hb hdest

/-- The code of a unary operator computes it on the operand that it loads. -/
theorem runs_unary {op : UnaryOp} (inner : Leaf X)
    (henc : unaryEncodable X op dest = true) (hdest : dest.size = suffix X) :
    (machine env).Runs (emitExpr em (.unary op inner.expr) dest) e (σ, none)
      (Leaves dest (loweredUnary (inner.loaded em σ) op)) := by
  rw [emitExpr, emitUnaryOp, runs_bind]
  refine (runs_left hcached inner).mono ?_
  intro n e₁ c₁ hmove
  rw [runs_bind]
  refine hmove.mono ?_
  rintro _ e₂ ⟨τ, _⟩ ⟨hev, hval, -⟩
  obtain rfl : _ = none := hev.done
  exact (runs_unaryEnd henc hdest).mono fun _ _ _ h => h.congr (by rw [← hval])

theorem not_runs_unary {op : UnaryOp} (inner : Leaf X)
    (henc : unaryEncodable X op dest = false) (hdest : dest.size = suffix X) :
    ¬ (machine env).Runs (emitExpr em (.unary op inner.expr) dest) e (σ, none) Q := by
  intro hrun
  rw [emitExpr, emitUnaryOp, runs_bind] at hrun
  obtain ⟨c₁, -, hmove, hrest⟩ := (runs_left hcached inner).and hrun
  rw [runs_bind] at hrest
  obtain ⟨c₂, -, -, hend⟩ := hmove.and hrest
  exact not_runs_unaryEnd henc hdest hend

end Paths

/-! ## Operators on operands -/

/-- An operator applied to register reads and immediates. -/
inductive LeafOp (X : Xlen)
  | binary (op : BinaryOp) (left right : Leaf X)
  | unary (op : UnaryOp) (inner : Leaf X)

namespace LeafOp

variable {X : Xlen}

def expr : LeafOp X → Expr X
  | .binary op left right => .binary op left.expr right.expr
  | .unary op inner => .unary op inner.expr

/-- The text can be assembled, and the value that it computes from the operands it works with is the
value of the operator on the operands of the IR. -/
def LoweredOk (em : Emitter) (σ : State) (dest : Name) : LeafOp X → Prop
  | .binary op left right => ∃ b, usedRight em σ op left right dest = some b ∧
      loweredBinary (left.loaded em σ) b op = op.val (left.val em σ) (right.val em σ)
  | .unary op inner => unaryEncodable X op dest = true ∧
      loweredUnary (inner.loaded em σ) op = op.val (inner.val em σ)

end LeafOp

/-- The returned register holds a value, and control goes on. -/
def Returns {X : Xlen} (v : X.Reg) (n : Name) (_ : St) (c : State × Option Label) : Prop :=
  c.2 = none ∧ c.1.val X n.reg = v

section Main

variable {X : Xlen} {env : Env} {e : St} {σ : State} {dest : Name} {m : Em Name}

theorem Leaves.returns {v : X.Reg} {n : Name} {c : State × Option Label} (h : Leaves dest v n e c) :
    Returns v n e c := by
  obtain ⟨rfl, hdone, hval⟩ := h
  exact ⟨hdone, hval⟩

/-- Code that leaves one value returns another exactly if the two are the same. -/
theorem runs_returns_iff {v v' : X.Reg} (h : (machine env).Runs m e (σ, none) (Leaves dest v)) :
    (machine env).Runs m e (σ, none) (Returns v') ↔ v = v' := by
  constructor
  · intro h'
    obtain ⟨c, -, hv, hv'⟩ := h.and h'
    exact hv.returns.2.symm.trans hv'.2
  · rintro rfl
    exact h.mono fun _ _ _ hv => hv.returns

end Main

/-- An operator on register reads and immediates leaves the value of the IR in the returned register
exactly if the code works with operands that give that value. -/
theorem operators_iff {X : Xlen} (rt : Runtime X) (env : Env) (em : Emitter) (e : St) (σ : State)
    (dest : Name) (o : LeafOp X) (hcached : Cached X em e σ) (hdest : dest.size = suffix X) :
    (machine env).Runs (emitExpr em o.expr dest) e (σ, none)
        (Returns (o.expr.eval rt (em.guest σ))) ↔
      o.LoweredOk em σ dest := by
  cases o with
  | binary op left right =>
    rw [LeafOp.expr, Expr.eval, Leaf.eval_expr, Leaf.eval_expr, LeafOp.LoweredOk]
    cases hb : usedRight em σ op left right dest with
    | none =>
      refine iff_of_false (not_runs_binary hcached hb hdest) ?_
      rintro ⟨b, h, -⟩
      cases h
    | some b =>
      rw [runs_returns_iff (runs_binary hcached hb hdest)]
      refine ⟨fun h => ⟨b, rfl, h⟩, ?_⟩
      rintro ⟨_, hb', h⟩
      cases hb'
      exact h
  | unary op inner =>
    rw [LeafOp.expr, Expr.eval, Leaf.eval_expr, LeafOp.LoweredOk]
    cases henc : unaryEncodable X op dest with
    | false =>
      refine iff_of_false (not_runs_unary hcached inner henc hdest) ?_
      rintro ⟨h, -⟩
      cases h
    | true =>
      rw [runs_returns_iff (runs_unary hcached inner henc hdest)]
      exact ⟨fun h => ⟨rfl, h⟩, And.right⟩

/-- The state of the example: `t0` is hot in `%r14` and holds 6, `t1` is hot in `%r13` and holds
2. -/
def divState : State :=
  { State.zero with regs := Function.update (Function.update State.zero.regs .r14 6) .r13 2 }

/-- `addi` of a hot register meets the condition. -/
theorem operators_addi :
    (machine .idle).Runs (emitExpr (.plain .wrap 32 [5, 6])
        (.binary .add (.reg 5) (.imm 3) : Expr .rv64) rax) .start (divState, none)
      (Returns (9 : Xlen.rv64.Reg)) :=
  (operators_iff (.idle .rv64) .idle (.plain .wrap 32 [5, 6]) .start divState rax
    (.binary .add (.reg 5) (.imm 3)) (by intro r hr; cases hr) rfl).2
    ⟨3, by decide +kernel, by decide +kernel⟩

/-- `div` of two hot registers divides by what `%rcx` was left with: 6 / 2 gives the quotient by
zero. -/
theorem operators_div_stale_rcx :
    ((machine .idle).exec ((emitExpr (.plain .wrap 32 [5, 6])
        (.binary .div (.reg 5) (.reg 6) : Expr .rv64) rax).code .start) (divState, none)).map
        (fun c => c.1.regs .rax) = some (BitVec.allOnes 64) ∧
      ((Expr.binary .div (.reg 5) (.reg 6) : Expr .rv64).eval (.idle .rv64)
        ((Emitter.plain .wrap 32 [5, 6]).guest divState)).toNat = 3 := by
  decide +kernel

end Rvr.X64
