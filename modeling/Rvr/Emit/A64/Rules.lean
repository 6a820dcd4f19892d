import Rvr.Emit.A64.Lower
import Rvr.Lib.Jumps

/-!
# Reasoning about emitted arm64 code

The guest state that a machine state stands for and the rules by which a text is executed
symbolically while it is emitted, as for x86-64.
-/

namespace Rvr.A64

open Asm Asm.Machine BitVec
open X64 (Field Label)

namespace State

variable (σ : State)

/-- The guest value in a register. -/
def val (X : Xlen) (g : Reg) : X.Reg := (σ.regs g).setWidth X.value

/-- The guest value in a field of the state structure. -/
def fieldVal (X : Xlen) (f : Field) : X.Reg := (σ.field f).setWidth X.value

end State

/-! ## The guest state of a machine state -/

section Guest

variable {X : Xlen} (em : Emitter) (σ : State)

/-- The value of a guest register: in its machine register if it is hot, in the state structure if
it is cold. -/
def Emitter.guestReg (r : ℕ) : X.Reg :=
  match em.regMap.mapping r with
  | some g => σ.val X g
  | none => σ.fieldVal X (.reg r)

/-- The retired-instruction count, which lives in `x18` if it is counted. -/
def Emitter.guestInstret : U64 :=
  if em.instretMode.counts then σ.regs 18 else σ.field .instret

end Guest

/-- The machine state in which everything is zero. -/
def State.zero : State where
  regs _ := 0
  flags := none
  field _ := 0
  slot _ := 0
  mem _ := 0
  touched := []
  calls := []

/-- A host whose calls do nothing. -/
def Env.idle : Env := ⟨fun _ σ => σ⟩

/-- An emitter for given hot registers that counts and traces nothing. -/
def Emitter.plain (mode : AddressMode) (memoryBits : ℕ) (hotRegs : List ℕ) : Emitter where
  addressMode := mode
  memoryBits := memoryBits
  instretMode := .off
  perfMode := false
  diffTracer := false
  htifEnabled := false
  regMap := .new hotRegs
  inputs := ⟨0, 0, ∅, ∅⟩
  labelPcs := ∅

/-- The state of the emitter at the start. -/
def St.start : St := ⟨0, none, 0⟩

/-! ## Symbolic execution -/

section Runs

variable {env : Env} {e : St} {σ : State} {Q : Unit → St → State × Option Label → Prop}

@[simp] theorem runs_ins {i : Instr} :
    (machine env).Runs (ins i) e (σ, none) Q ↔
      encodable i = true ∧ ∃ c', step env i σ = some c' ∧ Q () e c' := Asm.Machine.runs_ins

@[simp] theorem runs_ins_wanted {i : Instr} {l : Label} :
    (machine env).Runs (ins i) e (σ, some l) Q ↔ encodable i = true ∧ Q () e (σ, some l) :=
  Asm.Machine.runs_ins_wanted

theorem exec_ins {i : Instr} {ls : List (Line Label Instr)} {c : State × Option Label}
    (henc : encodable i = true) (hstep : step env i σ = some c) :
    (machine env).exec (.ins i :: ls) (σ, none) = (machine env).exec ls c :=
  Asm.Machine.exec_ins henc hstep

@[simp] theorem runs_nextLabel {stem : String} {c : State × Option Label}
    {Q : Label → St → State × Option Label → Prop} :
    (machine env).Runs (nextLabel stem) e c Q ↔
      Q (.loc stem (e.labelCounter + 1)) { e with labelCounter := e.labelCounter + 1 } c := by
  simp [nextLabel]

end Runs

/-! ## Immediates -/

section Immediates

variable {k : ℕ}

/-- The bits of a value below a chunk, in a register of `k` bits. -/
def lowBits (k : ℕ) (value : U64) (s : ℕ) : BitVec k := (value.setWidth s).setWidth k

theorem getLsbD_lowBits {value : U64} {s i : ℕ} (hi : i < k) :
    (lowBits k value s).getLsbD i = (decide (i < s) && value.getLsbD i) := by
  simp [lowBits, hi]

theorem getLsbD_chunk {value : U64} {s i : ℕ} (hi : i < k) :
    (BitVec.ofNat k ((value.toNat >>> s % 2 ^ 16) <<< s)).getLsbD i =
      (decide (s ≤ i) && decide (i < s + 16) && value.getLsbD i) := by
  simp only [getLsbD_ofNat, Nat.testBit_shiftLeft, Nat.testBit_mod_two_pow,
    Nat.testBit_shiftRight, testBit_toNat]
  by_cases hs : s ≤ i
  · have hlt : (i - s < 16) = (i < s + 16) := by simp; omega
    simp [hs, hlt, hi]
  · simp [hs]

theorem getLsbD_chunkMask {s i : ℕ} (hi : i < k) :
    (BitVec.ofNat k (0xffff <<< s)).getLsbD i = (decide (s ≤ i) && decide (i < s + 16)) := by
  have hmask : (0xffff : ℕ) = 2 ^ 16 - 1 := rfl
  simp only [getLsbD_ofNat, hmask, Nat.testBit_shiftLeft, Nat.testBit_two_pow_sub_one]
  by_cases hs : s ≤ i
  · have hlt : (i - s < 16) = (i < s + 16) := by simp; omega
    simp [hlt, hi]
  · simp [hs]

/-- `movz` of a chunk, if nothing is below it. -/
theorem movz_chunk {value : U64} {s : ℕ} (hlow : lowBits k value s = 0) :
    BitVec.ofNat k ((value.toNat >>> s % 2 ^ 16) <<< s) = lowBits k value (s + 16) := by
  refine eq_of_getLsbD_eq fun i hi => ?_
  have hbit := congrArg (fun v : BitVec k => v.getLsbD i) hlow
  simp only [getLsbD_lowBits hi] at hbit
  rw [getLsbD_chunk hi, getLsbD_lowBits hi]
  by_cases hs : s ≤ i
  · simp [hs]
  · have hlt : i < s := by omega
    simp [hlt] at hbit
    simp [hbit]

/-- `movk` of a chunk over what is below it. -/
theorem movk_chunk (value : U64) (s : ℕ) :
    lowBits k value s &&& ~~~(BitVec.ofNat k (0xffff <<< s)) |||
      BitVec.ofNat k ((value.toNat >>> s % 2 ^ 16) <<< s) = lowBits k value (s + 16) := by
  refine eq_of_getLsbD_eq fun i hi => ?_
  rw [getLsbD_or, getLsbD_and, getLsbD_not, getLsbD_chunk hi, getLsbD_lowBits hi,
    getLsbD_lowBits hi, getLsbD_chunkMask hi]
  by_cases hs : s ≤ i
  · simp [hs]
  · have hlt : i < s := by omega
    have hlt' : i < s + 16 := by omega
    simp [hs, hlt, hlt', hi]

/-- A chunk of zeros need not be loaded. -/
theorem lowBits_of_chunk_eq_zero {value : U64} {s : ℕ} (h : value.toNat >>> s % 2 ^ 16 = 0) :
    lowBits k value (s + 16) = lowBits k value s := by
  refine eq_of_getLsbD_eq fun i hi => ?_
  have hbit := @getLsbD_chunk k value s i hi
  rw [h] at hbit
  rw [getLsbD_lowBits hi, getLsbD_lowBits hi]
  by_cases hs : s ≤ i
  · have hlt : ¬ i < s := by omega
    simpa [hs, hlt] using hbit.symm
  · have hlt : i < s := by omega
    have hlt' : i < s + 16 := by omega
    simp [hlt, hlt']

variable {env : Env} {e : St} {σ τ : State} {g : Reg} {value : U64}

/-- What the loop of `load_imm` has done below a shift: it has loaded the bits there, or there was
nothing to load. -/
def Loaded (g : Reg) (value : U64) (σ : State) (s : ℕ) : Bool → State → Prop
  | true, τ => τ = { σ with regs := Function.update σ.regs g (lowBits 64 value s) }
  | false, τ => τ = σ ∧ lowBits 64 value s = 0

theorem runs_loadChunks_cons {s : ℕ} {shifts : List ℕ} {emitted : Bool}
    {Q : Bool → St → State × Option Label → Prop} (hs : s % 16 = 0 ∧ s < 64)
    (hτ : Loaded g value σ s emitted τ)
    (h : ∀ emitted' τ', Loaded g value σ (s + 16) emitted' τ' →
      (machine env).Runs (loadChunks ⟨g, .x⟩ value emitted' shifts) e (τ', none) Q) :
    (machine env).Runs (loadChunks ⟨g, .x⟩ value emitted (s :: shifts)) e (τ, none) Q := by
  rw [loadChunks]
  split
  case isTrue hzero =>
    refine h emitted τ ?_
    cases emitted with
    | true => rw [Loaded, lowBits_of_chunk_eq_zero hzero]; exact hτ
    | false => exact ⟨hτ.1, by rw [lowBits_of_chunk_eq_zero hzero]; exact hτ.2⟩
  case isFalse =>
    have hfits : chunkFits .x (value.toNat >>> s % 2 ^ 16) s = true := by
      simp [chunkFits, hs.1, hs.2, Nat.mod_lt]
    rw [Machine.runs_bind, runs_ins]
    cases emitted with
    | true =>
      refine ⟨hfits, _, rfl, h true _ ?_⟩
      obtain rfl := hτ
      simp only [Loaded, State.put, State.get, Function.update_self, Function.update_idem,
        setWidth_eq, movk_chunk]
    | false =>
      refine ⟨hfits, _, rfl, h true _ ?_⟩
      obtain ⟨rfl, hlow⟩ := hτ
      simp only [Loaded, State.put, movz_chunk hlow, setWidth_eq]

theorem lowBits_64 (value : U64) : lowBits 64 value 64 = value := by
  simp [lowBits]

theorem lowBits_32 (value : U64) (h : value.toNat < 2 ^ 32) :
    (lowBits 32 value 32).setWidth 64 = value := by
  apply eq_of_toNat_eq
  simp [lowBits]
  omega

/-- `load_imm` loads the value, and zero in the upper half of a `w` register. -/
theorem runs_loadImm (dest : Name) (hwidth : dest.width = .w → value.toNat < 2 ^ 32) :
    (machine env).Runs (loadImm dest value) e (σ, none) fun _ e' c =>
      e' = e ∧ c = ({ σ with regs := Function.update σ.regs dest.reg value }, none) := by
  obtain ⟨g, wd⟩ := dest
  have hsmall : ∀ wd, value.toNat ≤ 0xffff →
      (machine env).Runs (ins (.movImm ⟨g, wd⟩ value.toNat)) e (σ, none) fun _ e' c =>
        e' = e ∧ c = ({ σ with regs := Function.update σ.regs g value }, none) := by
    intro wd h
    have hput : (BitVec.ofInt wd.bits value.toNat).setWidth 64 = value := by
      apply eq_of_toNat_eq
      cases wd with
      | w =>
        simp [Width.bits]
        omega
      | x => simp [Width.bits]
    refine runs_ins.2 ⟨by simp [encodable]; omega, _, rfl, rfl, ?_⟩
    simp only [State.put, hput]
  unfold loadImm
  split
  case isTrue hzero =>
    subst hzero
    exact hsmall wd (by simp)
  case isFalse hne =>
    cases wd with
    | w =>
      have hlt := hwidth rfl
      dsimp only
      rw [if_pos hlt]
      split
      case isTrue h => exact hsmall .w h
      case isFalse h =>
        have hhigh : value.toNat >>> 16 ≠ 0 := by
          rw [Nat.shiftRight_eq_div_pow]
          omega
        have hlow : BitVec.ofNat 32 ((value.toNat % 2 ^ 16) <<< 0) = lowBits 32 value (0 + 16) :=
          movz_chunk (s := 0) (by simp [lowBits, of_length_zero])
        rw [decide_eq_true hhigh, Machine.runs_bind]
        refine runs_ins.2 ⟨by simp [encodable, chunkFits, Nat.mod_lt], _, rfl, ?_⟩
        refine runs_ins.2 ⟨by simp [encodable, chunkFits, Nat.mod_lt, Width.bits], _, rfl, rfl, ?_⟩
        have hreg : ((((lowBits 32 value (0 + 16)).setWidth 64).setWidth 32 &&&
            ~~~(BitVec.ofNat 32 (0xffff <<< 16)) |||
            BitVec.ofNat 32 ((value.toNat >>> 16 % 2 ^ 16) <<< 16)).setWidth 64 : U64) = value := by
          rw [setWidth_setWidth_of_le _ (by decide), setWidth_eq, movk_chunk]
          exact lowBits_32 value hlt
        simp only [State.put, State.get, Function.update_self, Function.update_idem, hlow]
        exact congrArg (fun v => (({ σ with regs := Function.update σ.regs g v }, none) :
          State × Option Label)) hreg
    | x =>
      dsimp only
      split
      case isTrue h => exact hsmall .x h
      case isFalse =>
        rw [Machine.runs_bind]
        refine runs_loadChunks_cons (by decide) (show Loaded g value σ 0 false σ from ⟨rfl, ?_⟩) ?_
        · simp [lowBits, of_length_zero]
        intro b₁ τ₁ h₁
        refine runs_loadChunks_cons (by decide) h₁ fun b₂ τ₂ h₂ => ?_
        refine runs_loadChunks_cons (by decide) h₂ fun b₃ τ₃ h₃ => ?_
        refine runs_loadChunks_cons (by decide) h₃ fun b₄ τ₄ h₄ => ?_
        rw [loadChunks]
        cases b₄ with
        | true =>
          rw [Loaded, lowBits_64] at h₄
          simp [h₄]
        | false => exact absurd ((lowBits_64 value).symm.trans h₄.2) hne

end Immediates

/-- Every value that fits the destination is there after `load_imm`, whatever was there before. -/
theorem loadImm_exact (env : Env) (e : St) (σ : State) (dest : Name) (value : U64)
    (hwidth : dest.width = .w → value.toNat < 2 ^ 32) :
    (machine env).Runs (loadImm dest value) e (σ, none) fun _ _ c =>
      c.2 = none ∧ c.1.regs dest.reg = value := by
  refine (runs_loadImm dest hwidth).mono ?_
  rintro _ _ _ ⟨-, rfl⟩
  exact ⟨rfl, Function.update_self ..⟩

/-- A value with a zero chunk between two others. -/
theorem loadImm_exact_chunks :
    (machine .idle).Runs (loadImm ⟨3, .x⟩ 0x1234000056780000) .start (.zero, none) fun _ _ c =>
      c.2 = none ∧ c.1.regs 3 = 0x1234000056780000 :=
  loadImm_exact .idle .start .zero ⟨3, .x⟩ 0x1234000056780000 nofun

end Rvr.A64
