import Rvr.Emit.X64.Lower

/-!
# Reasoning about emitted x86-64 code

The guest state that a machine state stands for, what an instruction can write, and the rules by
which a text is executed symbolically while it is emitted.
-/

namespace Rvr.X64

open Asm Asm.Machine

/-! ## Registers and sizes -/

@[simp] theorem bits_suffix (X : Xlen) : (suffix X).bits = X.value := by
  cases X <;> rfl

@[simp] theorem narrowed_reg (X : Xlen) (n : Name) : (narrowed X n).reg = n.reg := by
  cases X <;> rfl

theorem rax_notMem_availableRegs : Reg.rax ∉ availableRegs := by decide

variable {sz : Size}

namespace State

variable (σ : State)

/-- The guest value in a register. -/
def val (X : Xlen) (g : Reg) : X.Reg := (σ.regs g).setWidth X.value

/-- The guest value in a field of the state structure. -/
def fieldVal (X : Xlen) (f : Field) : X.Reg := (σ.field f).setWidth X.value

theorem put_regs_self (n : Name) (v : BitVec sz.bits) :
    (σ.put n v).regs n.reg = sz.merge (σ.regs n.reg) v := Function.update_self ..

theorem put_regs_of_ne {n : Name} (v : BitVec sz.bits) {g : Reg} (h : g ≠ n.reg) :
    (σ.put n v).regs g = σ.regs g := Function.update_of_ne h ..

@[simp] theorem put_q (g : Reg) (sz : Size) (v : BitVec Size.q.bits) :
    σ.put ⟨g, sz⟩ v = { σ with regs := Function.update σ.regs g v } := by
  simp [State.put, Size.merge]

@[simp] theorem put_l (g : Reg) (sz : Size) (v : BitVec Size.l.bits) :
    σ.put ⟨g, sz⟩ v = { σ with regs := Function.update σ.regs g (v.setWidth 64) } := by
  rw [State.put, Size.merge]

@[simp] theorem unflagged_regs : σ.unflagged.regs = σ.regs := rfl

end State

/-! ## The guest state of a machine state -/

section Guest

variable {X : Xlen} (em : Emitter) (σ : State)

/-- The value of a guest register: in its machine register if it is hot, in the state structure if
it is cold. -/
def Emitter.guestReg (r : ℕ) : X.Reg :=
  match em.regMap.mapping r with
  | some g => σ.val X g
  | none => σ.fieldVal X (.reg r)

/-- The retired-instruction count, which lives in `%r10` if it is counted. -/
def Emitter.guestInstret : U64 :=
  if em.instretMode.counts then σ.regs .r10 else σ.field .instret

/-- The guest state that a machine state stands for.  The backend keeps no CSRs besides the
counters, reads the cycle counter as `instret`, and has eight temps. -/
def Emitter.guest : GuestState X where
  regs := em.guestReg σ
  pc := σ.fieldVal X .pc
  mem a := σ.mem (a.setWidth 64)
  csrs _ := 0
  instret := em.guestInstret σ
  resAddr := σ.fieldVal X .resAddr
  resValid := (σ.field .resValid).setWidth 8
  hasExited := (σ.field .hasExited).setWidth 8
  exitCode := (σ.field .exitCode).setWidth 8
  cycle := (em.guestInstret σ).setWidth X.value
  traceIdx := 0
  pcIdx := 0
  temps i := if i < 8 then (σ.slot i).setWidth X.value else 0

/-- Two machine states that stand for the same guest state. -/
structure SameGuest (σ σ' : State) : Prop where
  hot : ∀ g ∈ availableRegs, σ'.regs g = σ.regs g
  instret : σ'.regs .r10 = σ.regs .r10
  field : σ'.field = σ.field
  slot : σ'.slot = σ.slot
  mem : σ'.mem = σ.mem

variable {em σ}

theorem SameGuest.refl (σ : State) : SameGuest σ σ := ⟨fun _ _ => rfl, rfl, rfl, rfl, rfl⟩

/-- A write to a register that holds no guest value. -/
theorem SameGuest.put {n : Name} {v : BitVec sz.bits} (h : n.reg ∉ availableRegs)
    (hinstret : n.reg ≠ .r10) : SameGuest σ (σ.put n v) := by
  refine ⟨?_, State.put_regs_of_ne _ _ hinstret.symm, rfl, rfl, rfl⟩
  intro g hg
  exact State.put_regs_of_ne _ _ fun hgn => h (hgn ▸ hg)

theorem SameGuest.guestReg {σ' : State} (h : SameGuest σ σ') (r : ℕ) :
    (em.guestReg σ' r : X.Reg) = em.guestReg σ r := by
  unfold Emitter.guestReg
  split
  case h_1 g hg => rw [State.val, State.val, h.hot g (em.regMap.available hg)]
  case h_2 => rw [State.fieldVal, State.fieldVal, h.field]

theorem SameGuest.guest {σ' : State} (h : SameGuest σ σ') :
    (em.guest σ' : GuestState X) = em.guest σ := by
  have hregs : (em.guestReg σ' : ℕ → X.Reg) = em.guestReg σ := funext h.guestReg
  simp only [Emitter.guest, Emitter.guestInstret, State.fieldVal, hregs, h.instret, h.field, h.slot,
    h.mem]

variable (em σ)

/-- The cached register: `%r11` holds the guest register that the emitter remembers. -/
def Cached (X : Xlen) (em : Emitter) (e : St) (σ : State) : Prop :=
  ∀ r, e.coldCache = some r → σ.val X .r11 = em.guestReg σ r

end Guest

/-- The machine state in which everything is zero. -/
def State.zero : State where
  regs _ := 0
  flags := none
  field _ := 0
  slot _ := 0
  mem _ := 0
  touched := []
  calls := []

/-- A host whose calls do nothing. -/
def Env.idle : Env := ⟨fun _ σ => σ⟩

/-- An emitter for given hot registers that counts and traces nothing. -/
def Emitter.plain (mode : AddressMode) (memoryBits : ℕ) (hotRegs : List ℕ) : Emitter where
  addressMode := mode
  memoryBits := memoryBits
  instretMode := .off
  perfMode := false
  diffTracer := false
  regMap := .new hotRegs
  inputs := ⟨0, 0, ∅, ∅⟩
  labelPcs := ∅

/-- The state of the emitter at the start. -/
def St.start : St := ⟨0, none⟩

/-! ## What an instruction writes -/

/-- The registers that an instruction can change. -/
def Instr.writes : Instr → List Reg
  | .mov _ _ dst | .movabs _ dst | .movzx _ _ _ dst | .movsx _ _ _ dst | .lea _ _ _ _ dst
  | .alu _ _ _ dst | .setcc _ dst | .cmov _ _ _ dst | .shiftImm _ _ _ dst | .shiftCl _ _ dst
  | .neg _ dst | .not _ dst | .bsr _ _ dst | .bsf _ _ dst | .popcnt _ _ dst | .bswap _ dst =>
    [dst.reg]
  | .mul _ _ _ | .div _ _ _ => [.rax, .rdx]
  | .cdq | .cqo => [.rdx]
  | .dispatchJump => [.rax, .rcx, .rdx]
  | .store _ _ _ | .cmp _ _ _ | .test _ _ _ | .jcc _ _ | .jmp _ | .call _ | .malformed _ => []

/-- The field of the state structure that an instruction stores to. -/
def Instr.stores : Instr → Option Field
  | .store _ _ (.state f _) => some f
  | _ => none

def Instr.isCall : Instr → Bool
  | .call _ => true
  | _ => false

@[simp] theorem State.touch_regs (σ : State) (m : Mem) : (σ.touch m).regs = σ.regs := by
  cases m <;> rfl

@[simp] theorem State.touch_field (σ : State) (m : Mem) : (σ.touch m).field = σ.field := by
  cases m <;> rfl

@[simp] theorem State.touchOperand_regs (σ : State) (o : Operand) :
    (σ.touchOperand o).regs = σ.regs := by
  cases o <;> simp [State.touchOperand]

@[simp] theorem State.touchOperand_field (σ : State) (o : Operand) :
    (σ.touchOperand o).field = σ.field := by
  cases o <;> simp [State.touchOperand]

@[simp] theorem State.put_field (σ : State) (n : Name) (v : BitVec sz.bits) :
    (σ.put n v).field = σ.field := rfl

@[simp] theorem State.write_regs (σ : State) (sz : Size) (v : BitVec sz.bits) (m : Mem) :
    (σ.write sz v m).regs = σ.regs := by
  cases m <;> rfl

/-- What a step leaves alone: the registers and the field that the instruction does not name. -/
structure Untouched (i : Instr) (σ σ' : State) : Prop where
  regs : ∀ g ∉ i.writes, σ'.regs g = σ.regs g
  field : ∀ f, i.stores ≠ some f → σ'.field f = σ.field f

variable {i : Instr}

/-- An instruction that only puts a value into a register. -/
theorem Untouched.put {σ τ : State} {n : Name} {v : BitVec sz.bits}
    (hregs : τ.regs = σ.regs) (hfield : τ.field = σ.field) (hn : n.reg ∈ i.writes) :
    Untouched i σ (τ.put n v) := by
  refine ⟨?_, ?_⟩
  · intro g hg
    have hne : g ≠ n.reg := by
      rintro rfl
      exact hg hn
    rw [State.put_regs_of_ne _ _ hne, hregs]
  · intro f _
    rw [State.put_field, hfield]

/-- Forgetting or setting the flags touches nothing. -/
theorem Untouched.flags {σ σ' : State} (h : Untouched i σ σ') (f : Option Flags) :
    Untouched i σ { σ' with flags := f } := ⟨h.regs, h.field⟩

theorem Untouched.refl (i : Instr) (σ : State) : Untouched i σ σ :=
  ⟨fun _ _ => rfl, fun _ _ => rfl⟩

theorem Untouched.trans {σ τ ρ : State} (h : Untouched i σ τ) (h' : Untouched i τ ρ) :
    Untouched i σ ρ :=
  ⟨fun g hg => (h'.regs g hg).trans (h.regs g hg), fun f hf => (h'.field f hf).trans (h.field f hf)⟩

/-- An instruction other than a call changes no register and no field that it does not name. -/
theorem untouched_step {env : Env} {σ σ' : State} {l : Option Label}
    (h : step env i σ = some (σ', l)) (hcall : i.isCall = false) : Untouched i σ σ' := by
  cases i with
  | call fn => cases hcall
  | malformed text => cases h
  | dispatchJump => cases h; exact .refl _ _
  | jmp l => cases h; exact .refl _ _
  | jcc c l =>
    obtain ⟨f, -, hf⟩ := Option.bind_eq_some_iff.1 h
    cases hf
    exact .refl _ _
  | mov sz src dst => cases h; exact .put (by simp) (by simp) List.mem_cons_self
  | movabs v dst => cases h; exact .put rfl rfl List.mem_cons_self
  | movzx ssz dsz src dst => cases h; exact .put (by simp) (by simp) List.mem_cons_self
  | movsx ssz dsz src dst => cases h; exact .put (by simp) (by simp) List.mem_cons_self
  | lea sz disp base index dst => cases h; exact .put rfl rfl List.mem_cons_self
  | alu op sz src dst => cases h; exact (Untouched.put rfl rfl List.mem_cons_self).flags none
  | cmp sz src dst => cases h; exact (Untouched.refl _ _).flags _
  | test sz src dst => cases h; exact (Untouched.refl _ _).flags _
  | setcc c dst =>
    obtain ⟨f, -, hf⟩ := Option.bind_eq_some_iff.1 h
    cases hf
    exact .put rfl rfl List.mem_cons_self
  | cmov c sz src dst =>
    obtain ⟨f, -, hf⟩ := Option.bind_eq_some_iff.1 h
    cases hf
    exact .put rfl rfl List.mem_cons_self
  | shiftImm op sz count dst => cases h; exact (Untouched.put rfl rfl List.mem_cons_self).flags none
  | shiftCl op sz dst => cases h; exact (Untouched.put rfl rfl List.mem_cons_self).flags none
  | neg sz dst => cases h; exact (Untouched.put rfl rfl List.mem_cons_self).flags none
  | not sz dst => cases h; exact .put rfl rfl List.mem_cons_self
  | popcnt sz src dst => cases h; exact (Untouched.put rfl rfl List.mem_cons_self).flags none
  | bswap sz dst => cases h; exact .put rfl rfl List.mem_cons_self
  | cdq => cases h; exact .put rfl rfl List.mem_cons_self
  | cqo => cases h; exact .put rfl rfl List.mem_cons_self
  | bsr sz src dst =>
    simp only [step] at h
    split at h
    · cases h
    · cases h
      exact (Untouched.put rfl rfl List.mem_cons_self).flags none
  | bsf sz src dst =>
    simp only [step] at h
    split at h
    · cases h
    · cases h
      exact (Untouched.put rfl rfl List.mem_cons_self).flags none
  | mul signed sz src =>
    cases h
    exact ((Untouched.put rfl rfl (by simp [Instr.writes])).trans
      (Untouched.put rfl rfl (by simp [Instr.writes]))).flags none
  | div signed sz src =>
    simp only [step, stepDiv] at h
    split at h <;> split at h
    all_goals first
      | cases h; done
      | cases h
        exact ((Untouched.put rfl rfl (by simp [Instr.writes])).trans
          (Untouched.put rfl rfl (by simp [Instr.writes]))).flags none
  | store sz src dst =>
    cases h
    refine ⟨fun g _ => by simp, fun f hf => ?_⟩
    cases dst with
    | state f' disp =>
      have hne : f ≠ f' := by
        rintro rfl
        exact hf rfl
      exact Function.update_of_ne hne ..
    | slot i => rfl
    | guest => rfl

/-- A line that calls nothing and writes only the given registers and fields. -/
def Confined (S : Set Reg) (F : Set Field) : Line Label Instr → Prop
  | .label _ => True
  | .ins i => i.isCall = false ∧ (∀ g ∈ i.writes, g ∈ S) ∧ ∀ f, i.stores = some f → f ∈ F

/-- What confined code leaves alone. -/
structure Within (S : Set Reg) (F : Set Field) (σ σ' : State) : Prop where
  regs : ∀ g ∉ S, σ'.regs g = σ.regs g
  field : ∀ f ∉ F, σ'.field f = σ.field f

theorem exec_within {S : Set Reg} {F : Set Field} {env : Env} {α : Type} {m : Em α} {e : St}
    {c c' : State × Option Label} (hm : Emit.Lines (Confined S F) m e)
    (h : (machine env).exec (m.code e) c = some c') : Within S F c.1 c'.1 := by
  refine Machine.exec_rel (R := Within S F) (machine env) ?_ ?_ ?_ h
  · exact fun σ => ⟨fun _ _ => rfl, fun _ _ => rfl⟩
  · exact fun h h' => ⟨fun g hg => (h'.regs g hg).trans (h.regs g hg),
      fun f hf => (h'.field f hf).trans (h.field f hf)⟩
  · intro i hi σ σ' l hstep
    obtain ⟨hcall, hregs, hfields⟩ := hm _ hi
    have hsame := untouched_step hstep hcall
    exact ⟨fun g hg => hsame.regs g fun hw => hg (hregs g hw),
      fun f hf => hsame.field f fun hs => hf (hfields f hs)⟩

/-! ## Symbolic execution -/

attribute [simp] step next encodable Operand.fits immFits State.unflagged State.read State.get
  State.touchOperand State.touch Size.bits

section Runs

variable {env : Env} {e : St} {σ : State} {Q : Unit → St → State × Option Label → Prop}

@[simp] theorem runs_ins :
    (machine env).Runs (ins i) e (σ, none) Q ↔
      encodable i = true ∧ ∃ c', step env i σ = some c' ∧ Q () e c' := Asm.Machine.runs_ins

@[simp] theorem runs_ins_wanted {l : Label} :
    (machine env).Runs (ins i) e (σ, some l) Q ↔ encodable i = true ∧ Q () e (σ, some l) :=
  Asm.Machine.runs_ins_wanted

@[simp] theorem runs_emitLabel {l : Label} {wanted : Option Label} :
    (machine env).Runs (emitLabel l) e (σ, wanted) Q ↔
      Q () e (σ, if wanted = some l then none else wanted) := Asm.Machine.runs_label

@[simp] theorem runs_nextLabel {stem : String} {c : State × Option Label}
    {Q : Label → St → State × Option Label → Prop} :
    (machine env).Runs (nextLabel stem) e c Q ↔
      Q (.loc stem (e.labelCounter + 1)) { e with labelCounter := e.labelCounter + 1 } c := by
  simp [nextLabel]

@[simp] theorem emits_ins {i' : Instr} : Emit.Emits i (ins i') e ↔ i = i' := by
  rw [ins, Emit.emits_line, Line.ins.injEq]

end Runs

/-! ## Condition codes -/

section Conditions

variable {n : ℕ} (x y : BitVec n)

@[simp] theorem holds_ofSub_e : Cond.e.holds (.ofSub x y) = decide (x = y) := by
  rw [← decide_eq_decide.2 (sub_eq_zero (a := x) (b := y))]
  rfl

@[simp] theorem holds_ofSub_ne : Cond.ne.holds (.ofSub x y) = !decide (x = y) := by
  rw [← holds_ofSub_e]
  rfl

@[simp] theorem holds_ofSub_l : Cond.l.holds (.ofSub x y) = x.slt y := by
  have hneg : ∀ z : BitVec n, z.msb = decide (z.toInt < 0) := fun z => BitVec.msb_eq_toInt
  rw [BitVec.slt_eq_decide]
  by_cases hxy : x.msb = y.msb
  · -- operands of one sign: the difference does not overflow
    have hsub : (x - y).toInt = x.toInt - y.toInt := by
      refine BitVec.toInt_sub_of_not_ssubOverflow ?_
      rw [BitVec.ssubOverflow_eq, hxy]
      cases y.msb <;> simp
    simp only [Cond.holds, Flags.ofSub, hxy, bne_self_eq_false, Bool.false_and, Bool.bne_false,
      hneg (x - y), hsub, sub_neg]
  · -- operands of different signs: the sign of the left one decides
    have hym : y.msb = !x.msb := by
      revert hxy
      cases x.msb <;> cases y.msb <;> decide
    have hlt : decide (x.toInt < y.toInt) = x.msb := by
      rw [hneg x, hneg y, decide_eq_decide] at hxy
      rw [hneg x, decide_eq_decide]
      omega
    simp only [Flags.ofSub, hym, hlt]
    cases x.msb <;> cases (x - y).msb <;> rfl

@[simp] theorem holds_ofSub_ge : Cond.ge.holds (.ofSub x y) = !x.slt y := by
  rw [← holds_ofSub_l, Cond.holds, Cond.holds]
  cases (Flags.ofSub x y).sf <;> cases (Flags.ofSub x y).of <;> rfl

@[simp] theorem holds_ofSub_b : Cond.b.holds (.ofSub x y) = x.ult y := rfl

@[simp] theorem holds_ofSub_ae : Cond.ae.holds (.ofSub x y) = !x.ult y := rfl

@[simp] theorem holds_ofAnd_self_e : Cond.e.holds (.ofAnd x x) = decide (x = 0) := by
  rw [Flags.ofAnd, BitVec.and_self]
  rfl

@[simp] theorem holds_ofAnd_self_ne : Cond.ne.holds (.ofAnd x x) = !decide (x = 0) := by
  rw [← holds_ofAnd_self_e]
  rfl

@[simp] theorem holds_ofAnd_self_ns : Cond.ns.holds (.ofAnd x x) = !x.msb := by
  rw [Cond.holds, Flags.ofAnd, BitVec.and_self]

end Conditions

end Rvr.X64
