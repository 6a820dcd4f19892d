import Rvr.Emit.X64.Rules
import Rvr.Spec.Translation

/-!
# Addresses in x86-64 code

The host index that emitted x86-64 code accesses, in closed form, and what it is for the three users
of an address: loads, stores and indirect jumps.

All three evaluate the base with `emit_expr_as_addr` and go on with `%rax`, whatever register the
base was left in.  On RV64 `load_rv_as_addr` returns the machine register of a hot base and emits
nothing, so that the code then uses what `%rax` happened to hold (`usedBase`).
-/

namespace Rvr.X64

open Asm Asm.Machine

/-! ## Translation -/

/-- Where emitted code accesses guest memory: a run that falls through is about to use `%rax`. -/
def accessOf : Option (State × Option Label) → Access
  | none => .rejected
  | some (σ, none) => .index (σ.regs .rax).toNat
  | some (_, some .trap) => .trap
  | some (_, some _) => .undefined

/-- Whether the low `memory_bits` bits of an address, sign-extended, give the address back. -/
def boundsPass (X : Xlen) (memoryBits : ℕ) (addr : U64) : Prop :=
  addr.toNat % 2 ^ X.value < 2 ^ (memoryBits - 1) ∨
    2 ^ X.value - 2 ^ (memoryBits - 1) ≤ addr.toNat % 2 ^ X.value

instance (X : Xlen) (memoryBits : ℕ) (addr : U64) : Decidable (boundsPass X memoryBits addr) :=
  inferInstanceAs (Decidable (_ ∨ _))

/-- The access that the translation code makes for the sum of base and offset.  On RV32 a mask below
`2 ^ 31` is applied by `andl` to the 64-bit name of the register, which no assembler accepts. -/
def hostAccess (X : Xlen) (mode : AddressMode) (memoryBits : ℕ) (addr : U64) : Access :=
  if mode.needsMask ∧ X = .rv32 ∧ memoryBits < 32 then .rejected
  else
    match mode with
    | .unchecked => .index addr.toNat
    | .wrap => .index (addr.toNat % 2 ^ memoryBits : ℕ)
    | .bounds =>
      if boundsPass X memoryBits addr then .index (addr.toNat % 2 ^ memoryBits : ℕ) else .trap

theorem toNat_and_mask (a : U64) {k : ℕ} (h : k ≤ 32) :
    a.toNat &&& (2 ^ k - 1) % 2 ^ 64 = a.toNat % 2 ^ k := by
  have hpow : 2 ^ k ≤ 2 ^ 32 := Nat.pow_le_pow_right (by omega) h
  rw [Nat.mod_eq_of_lt (by omega), Nat.and_two_pow_sub_one_eq_mod]

section Translate

variable {env : Env} {em : Emitter} {e : St} {σ : State}

theorem runs_emitMask_rv64 (hmb : em.memoryBits ≤ 32) :
    (machine env).Runs (emitMask .rv64 em rax) e (σ, none) fun _ _ c' =>
      c'.2 = none ∧ (c'.1.regs .rax).toNat = (σ.regs .rax).toNat % 2 ^ em.memoryBits := by
  have hmask : em.memoryMask = 2 ^ em.memoryBits - 1 := rfl
  by_cases h32 : em.memoryBits = 32
  · simp [emitMask, hmask, h32, rax, tempDword, tempSized]
    omega
  · have hpow : 2 ^ em.memoryBits ≤ 2 ^ 31 := Nat.pow_le_pow_right (by omega) (by omega)
    have hne : ¬ em.memoryMask = 4294967295 := by omega
    have hle : em.memoryMask ≤ 2147483647 := by omega
    simp [emitMask, hne, hle, rax, suffix]
    exact ⟨by omega, hmask ▸ toNat_and_mask _ hmb⟩

theorem runs_emitMask_rv32 (hmb : em.memoryBits = 32) :
    (machine env).Runs (emitMask .rv32 em rax) e (σ, none) fun _ _ c' =>
      c'.2 = none ∧ (c'.1.regs .rax).toNat = (σ.regs .rax).toNat % 2 ^ em.memoryBits := by
  have hmask : em.memoryMask = 2 ^ em.memoryBits - 1 := rfl
  simp [emitMask, hmask, hmb, rax, rdx, edx]
  exact Nat.and_two_pow_sub_one_eq_mod _ 32

/-- Control that has left for the trap handler passes over the mask. -/
theorem runs_emitMask_wanted {X : Xlen} (hX : X = .rv32 → em.memoryBits = 32)
    (hmb : em.memoryBits ≤ 32) {l : Label} :
    (machine env).Runs (emitMask X em rax) e (σ, some l) fun _ _ c' => c' = (σ, some l) := by
  have hmask : em.memoryMask = 2 ^ em.memoryBits - 1 := rfl
  by_cases h32 : em.memoryBits = 32
  · rw [h32] at hmask
    cases X <;> simp [emitMask, hmask, rax, rdx, edx, tempDword, tempSized]
  · have hpow : 2 ^ em.memoryBits ≤ 2 ^ 31 := Nat.pow_le_pow_right (by omega) (by omega)
    have hne : ¬ em.memoryMask = 4294967295 := by omega
    have hle : em.memoryMask ≤ 2147483647 := by omega
    cases X with
    | rv32 => exact absurd (hX rfl) h32
    | rv64 =>
      simp [emitMask, hne, hle, rax, suffix]
      omega

variable {Q : Unit → St → State × Option Label → Prop}

/-- Below 32 memory bits the mask of RV32 code cannot be encoded. -/
theorem not_runs_emitMask_rv32 (hmb : em.memoryBits < 32) {wanted : Option Label} :
    ¬ (machine env).Runs (emitMask .rv32 em rax) e (σ, wanted) Q := by
  have hmask : em.memoryMask = 2 ^ em.memoryBits - 1 := rfl
  have hpow : 2 ^ em.memoryBits ≤ 2 ^ 31 := Nat.pow_le_pow_right (by omega) (by omega)
  have hle : em.memoryMask ≤ 2147483647 := by omega
  cases wanted <;> simp [emitMask, hle, rax, suffix]

theorem runs_emitBoundsCheck {X : Xlen} (hmb : 0 < em.memoryBits) (hle : em.memoryBits ≤ 32) :
    (machine env).Runs (emitBoundsCheck X em rax) e (σ, none) fun _ _ c' =>
      c'.1.regs .rax = σ.regs .rax ∧
        c'.2 = if boundsPass X em.memoryBits (σ.regs .rax) then none else some .trap := by
  cases X with
  | rv32 =>
    have hmod : (32 - em.memoryBits) % 32 = 32 - em.memoryBits := Nat.mod_eq_of_lt (by omega)
    have hpass : boundsPass .rv32 em.memoryBits (σ.regs .rax) ↔
        (((σ.regs .rax).setWidth 32 : BitVec 32) <<< (32 - em.memoryBits)).sshiftRight
          (32 - em.memoryBits) = (σ.regs .rax).setWidth 32 := by
      rw [Word.sshiftRight_shiftLeft_eq_self_iff hmb hle]
      rfl
    by_cases hp : boundsPass .rv32 em.memoryBits (σ.regs .rax)
    · simp [emitBoundsCheck, rax, edx, tempDword, tempSized, ShiftOp.val, Xlen.value, hmod, hp,
        hpass.1 hp]
      omega
    · simp [emitBoundsCheck, rax, edx, tempDword, tempSized, ShiftOp.val, Xlen.value, hmod, hp,
        mt hpass.2 hp]
      omega
  | rv64 =>
    have hmod : (64 - em.memoryBits) % 64 = 64 - em.memoryBits := Nat.mod_eq_of_lt (by omega)
    have hpass : boundsPass .rv64 em.memoryBits (σ.regs .rax) ↔
        ((σ.regs .rax) <<< (64 - em.memoryBits)).sshiftRight (64 - em.memoryBits) =
          σ.regs .rax := by
      rw [Word.sshiftRight_shiftLeft_eq_self_iff hmb (by omega), boundsPass,
        show Xlen.rv64.value = 64 from rfl, Nat.mod_eq_of_lt (σ.regs .rax).isLt]
    by_cases hp : boundsPass .rv64 em.memoryBits (σ.regs .rax)
    · simp [emitBoundsCheck, rax, rdx, ShiftOp.val, Xlen.value, hmod, hp, hpass.1 hp]
      omega
    · simp [emitBoundsCheck, rax, rdx, ShiftOp.val, Xlen.value, hmod, hp, mt hpass.2 hp]
      omega

/-- Adding the offset, which the source leaves out if it is zero. -/
theorem runs_addOffset {offset : BitVec 16} :
    (machine env).Runs (Emit.when (offset ≠ 0) (ins (.lea .q offset.toInt (some rax) none rax)))
        e (σ, none) Q ↔
      Q () e ({ σ with regs := Function.update σ.regs .rax (σ.regs .rax + offset.signExtend 64) },
        none) := by
  by_cases h : offset = 0
  · subst h
    simp
  · have hlo := offset.le_toInt
    have hhi := offset.toInt_lt
    rw [decide_eq_true (p := offset ≠ 0) h]
    simp [rax, BitVec.add_comm, BitVec.signExtend]
    omega

/-- The translation of the base in `%rax`, from the sum on. -/
theorem runs_applyAddressMode {X : Xlen} (hmb : 0 < em.memoryBits) (hle : em.memoryBits ≤ 32)
    (hX : em.addressMode.needsMask = true → X = .rv32 → em.memoryBits = 32) :
    (machine env).Runs (applyAddressMode X em rax) e (σ, none) fun _ _ c' =>
      accessOf (some c') = hostAccess X em.addressMode em.memoryBits (σ.regs .rax) := by
  have hmask (hX : X = .rv32 → em.memoryBits = 32) (e' : St) (τ : State)
      (hτ : τ.regs .rax = σ.regs .rax) :
      (machine env).Runs (emitMask X em rax) e' (τ, none) fun _ _ c' =>
        accessOf (some c') = .index ((σ.regs .rax).toNat % 2 ^ em.memoryBits : ℕ) := by
    have hrun : (machine env).Runs (emitMask X em rax) e' (τ, none) fun _ _ c' =>
        c'.2 = none ∧ (c'.1.regs .rax).toNat = (τ.regs .rax).toNat % 2 ^ em.memoryBits := by
      cases X with
      | rv32 => exact runs_emitMask_rv32 (hX rfl)
      | rv64 => exact runs_emitMask_rv64 hle
    refine hrun.mono ?_
    rintro _ _ ⟨τ', _⟩ ⟨rfl, hreg⟩
    rw [accessOf, hreg, hτ]
  cases hmode : em.addressMode with
  | unchecked =>
    simp [applyAddressMode, hmode, AddressMode.needsBoundsCheck, AddressMode.needsMask, hostAccess,
      accessOf]
  | wrap =>
    have hX' : X = .rv32 → em.memoryBits = 32 := hX (by rw [hmode]; rfl)
    have hacc : hostAccess X .wrap em.memoryBits (σ.regs .rax) =
        .index ((σ.regs .rax).toNat % 2 ^ em.memoryBits : ℕ) :=
      if_neg fun h => absurd (hX' h.2.1) (by omega)
    rw [hacc]
    simpa [applyAddressMode, hmode, AddressMode.needsBoundsCheck, AddressMode.needsMask] using
      hmask hX' e σ rfl
  | bounds =>
    have hX' : X = .rv32 → em.memoryBits = 32 := hX (by rw [hmode]; rfl)
    have hacc : hostAccess X .bounds em.memoryBits (σ.regs .rax) =
        if boundsPass X em.memoryBits (σ.regs .rax) then
          .index ((σ.regs .rax).toNat % 2 ^ em.memoryBits : ℕ) else .trap :=
      if_neg fun h => absurd (hX' h.2.1) (by omega)
    rw [hacc]
    simp only [applyAddressMode, hmode, runs_bind]
    refine (runs_emitBoundsCheck hmb hle).mono ?_
    rintro _ e' ⟨τ, wanted⟩ ⟨hτ, hw⟩
    subst hw
    by_cases hp : boundsPass X em.memoryBits (σ.regs .rax)
    · rw [if_pos hp, if_pos hp]
      exact hmask hX' e' τ hτ
    · rw [if_neg hp, if_neg hp]
      refine (runs_emitMask_wanted hX' hle).mono ?_
      rintro _ _ _ rfl
      rfl

/-- The text of a translation, with its offset, makes the access of the closed form. -/
theorem runs_emitTranslate {X : Xlen} (hmb : 0 < em.memoryBits) (hle : em.memoryBits ≤ 32)
    (hX : em.addressMode.needsMask = true → X = .rv32 → em.memoryBits = 32) (offset : BitVec 16) :
    (machine env).Runs (emitTranslate X em offset) e (σ, none) fun _ _ c' =>
      accessOf (some c') =
        hostAccess X em.addressMode em.memoryBits (σ.regs .rax + offset.signExtend 64) := by
  rw [emitTranslate, runs_bind, runs_addOffset]
  refine (runs_applyAddressMode hmb hle hX).mono ?_
  simp

/-- A text with the mask that cannot be encoded does not run. -/
theorem not_runs_emitTranslate (hmode : em.addressMode.needsMask = true) (hmb : em.memoryBits < 32)
    (offset : BitVec 16) :
    ¬ (machine env).Runs (emitTranslate .rv32 em offset) e (σ, none) Q := by
  rw [emitTranslate, runs_bind, runs_addOffset, applyAddressMode, runs_bind, hmode]
  rintro ⟨c', -, h⟩
  exact not_runs_emitMask_rv32 hmb h

end Translate

/-! ## Loads and stores -/

/-- The index that a text last accessed, if it was not left for the trap handler. -/
def touchAccess : Option (State × Option Label) → Access
  | some (σ, none) =>
    match σ.touched with
    | a :: _ => .index a.toNat
    | [] => .undefined
  | c => accessOf c

/-- The access widths of guest instructions. -/
def ValidWidth (X : Xlen) (width : ℕ) : Prop :=
  width = 1 ∨ width = 2 ∨ width = 4 ∨ width = 8 ∧ X = .rv64

section Access

variable {env : Env} {em : Emitter} {e : St} {X : Xlen} {width : ℕ}

/-- The tracer's stores can be encoded and touch no guest memory. -/
theorem runs_emitTraceMemAccess {addrReg valReg : Name} {isWrite : Bool} (hw : ValidWidth X width)
    (c : State × Option Label) :
    (machine env).Runs (emitTraceMemAccess X em addrReg valReg width isWrite) e c fun _ _ c' =>
      c'.2 = c.2 ∧ c'.1.touched = c.1.touched ∧ c'.1.regs .rax = c.1.regs .rax := by
  obtain ⟨σ, wanted⟩ := c
  cases htracer : em.diffTracer with
  | false => simp [emitTraceMemAccess, htracer]
  | true =>
    cases X <;> cases wanted <;> cases isWrite <;> rcases hw with rfl | rfl | rfl | ⟨rfl, h⟩ <;>
      simp_all [emitTraceMemAccess, storeTracer, storeField, temp3, regDword, regQword, regByte,
        regWord, State.write]

/-- The load itself touches the index in `%rax`. -/
theorem runs_emitLoadFromMem {dest : Name} {signed : Bool} (hw : ValidWidth X width)
    (hdest : dest.size = suffix X) (c : State × Option Label) :
    (machine env).Runs (emitLoadFromMem X dest width signed) e c fun _ _ c' =>
      touchAccess (some c') = accessOf (some c) ∧ c'.2 = c.2 := by
  obtain ⟨σ, wanted⟩ := c
  cases wanted with
  | none =>
    cases X <;> rcases hw with rfl | rfl | rfl | ⟨rfl, h⟩ <;> cases signed <;>
      simp_all [emitLoadFromMem, regDword, suffix, touchAccess, accessOf, State.put]
  | some l =>
    cases X <;> rcases hw with rfl | rfl | rfl | ⟨rfl, h⟩ <;> cases signed <;>
      simp_all [emitLoadFromMem, regDword, suffix, touchAccess]

end Access

/-! ## The base -/

section Base

variable {X : Xlen} (rt : Runtime X) (em : Emitter) (σ : State)

/-- The bases that an address is made of: a register, an immediate or a temp. -/
inductive AddrBase : Expr X → Prop
  | reg (r : ℕ) : AddrBase (.reg r)
  | imm (v : X.Reg) : AddrBase (.imm v)
  | temp (i : ℕ) : AddrBase (.temp i)

/-- Whether a base is a hot register. -/
def hotBase : Expr X → Bool
  | .reg r => (em.regMap.mapping r).isSome
  | _ => false

/-- The base that emitted code works with. -/
def usedBase (base : Expr X) : U64 :=
  if X = .rv64 ∧ hotBase em base = true then σ.regs .rax
  else Xlen.toU64 (base.eval rt (em.guest σ))

variable {em σ} {env : Env} {e : St} {base : Expr X}

/-- After the base is evaluated, `%rax` holds what the code goes on with. -/
theorem runs_emitExprAsAddr (hbase : AddrBase base) :
    (machine env).Runs (emitExprAsAddr em base (emitExpr em base)) e (σ, none) fun _ _ c' =>
      c'.2 = none ∧ c'.1.regs .rax = usedBase rt em σ base := by
  cases hbase with
  | reg r =>
    by_cases hr : r = 0
    · subst hr
      cases X <;>
        simp [emitExprAsAddr, loadRvAsAddr, rax, usedBase, hotBase, em.regMap.zero, Expr.eval,
          GuestState.readReg, Xlen.toU64, AluOp.val]
    · cases hmap : em.regMap.mapping r <;> cases X <;>
        simp [emitExprAsAddr, loadRvAsAddr, hr, hmap, RegMap.get, rax, tempDword, tempQword,
          tempSized, suffix,
          usedBase, hotBase, Expr.eval, GuestState.readReg, Xlen.toU64, Emitter.guest,
          Emitter.guestReg, State.val, State.fieldVal, Xlen.value, fieldOperand]
  | imm v =>
    have hnat := Xlen.toNat_toU64 v
    cases X with
    | rv32 =>
      have hv : v.toNat < 2 ^ 32 := v.isLt
      have hword : BitVec.ofInt 32 (v.toNat : ℤ) = v := by
        rw [BitVec.ofInt_natCast, BitVec.ofNat_toNat]
        exact BitVec.setWidth_eq v
      simp [emitExprAsAddr, emitExprPcConst, temp1, suffix, hnat]
      exact ⟨by omega, rfl⟩
    | rv64 =>
      by_cases hlarge : v.toNat > 0x7fffffff
      · simp [emitExprAsAddr, emitExprPcConst, temp1, suffix, usedBase, hotBase, Expr.eval, hnat,
          hlarge]
      · simp [emitExprAsAddr, emitExprPcConst, temp1, suffix, hnat, hlarge]
        refine ⟨by omega, ?_⟩
        exact (BitVec.setWidth_eq v).symm
  | temp i =>
    by_cases hi : i < 8 <;> cases X <;>
      simp [emitExprAsAddr, emitExpr, emitExprTemp, tempSlot, hi, narrowed, regDword, eax, rax,
        clear, suffix, usedBase,
        hotBase, Expr.eval, Xlen.toU64, Emitter.guest, Xlen.value, AluOp.val]

end Base

/-! ## The three users of an address -/

section Users

variable {X : Xlen} (rt : Runtime X) {em : Emitter} {σ : State} {env : Env} {e : St} {base : Expr X}
  {offset : BitVec 16} {width : ℕ}

/-- Whatever follows the address and keeps its access makes it. -/
theorem touchAccess_address {α : Type} {rest : Em α} (hbase : AddrBase base)
    (hmb : 0 < em.memoryBits)
    (hle : em.memoryBits ≤ 32) (hrest : ∀ e' c, (machine env).Runs rest e' c fun _ _ c' =>
      touchAccess (some c') = accessOf (some c)) :
    touchAccess ((machine env).exec
        ((do emitAddress em base (emitExpr em base) offset; rest : Em α).code e) (σ, none)) =
      hostAccess X em.addressMode em.memoryBits
        (usedBase rt em σ base + offset.signExtend 64) := by
  by_cases hrej : em.addressMode.needsMask = true ∧ X = .rv32 ∧ em.memoryBits < 32
  · obtain ⟨hmask, rfl, hlt⟩ := hrej
    have hnone : ¬ (machine env).Runs (do emitAddress em base (emitExpr em base) offset; rest) e
        (σ, none) fun _ _ _ => True := by
      rw [runs_bind, emitAddress, runs_bind]
      intro hrun
      obtain ⟨⟨τ, _⟩, -, ⟨rfl, -⟩, hτ⟩ := (runs_emitExprAsAddr rt hbase).and hrun
      exact not_runs_emitTranslate hmask hlt offset hτ
    rw [exec_eq_none hnone]
    exact (if_pos ⟨hmask, rfl, hlt⟩).symm
  · have hX : em.addressMode.needsMask = true → X = .rv32 → em.memoryBits = 32 := by
      intro hmask hX
      by_contra h
      exact hrej ⟨hmask, hX, by omega⟩
    have hrun : (machine env).Runs (do emitAddress em base (emitExpr em base) offset; rest) e
        (σ, none) fun _ _ c' => touchAccess (some c') = hostAccess X em.addressMode em.memoryBits
          (usedBase rt em σ base + offset.signExtend 64) := by
      rw [runs_bind, emitAddress, runs_bind]
      refine (runs_emitExprAsAddr rt hbase).mono ?_
      rintro _ e₁ ⟨τ, _⟩ ⟨rfl, hτ⟩
      refine (runs_emitTranslate hmb hle hX offset).mono ?_
      intro _ e₂ c hc
      refine (hrest e₂ c).mono ?_
      intro _ _ c' hc'
      rw [hc', hc, hτ]
    obtain ⟨c', hexec, hc'⟩ := hrun
    rw [hexec, hc']

/-- A load accesses the translation of the base that the code works with. -/
theorem touchAccess_emitExprMem {dest : Name} {signed : Bool} (hbase : AddrBase base)
    (hmb : 0 < em.memoryBits) (hle : em.memoryBits ≤ 32) (hw : ValidWidth X width)
    (hdest : dest.size = suffix X) :
    touchAccess ((machine env).exec
        ((emitExprMem em base (emitExpr em base) offset width signed dest).code e) (σ, none)) =
      hostAccess X em.addressMode em.memoryBits (usedBase rt em σ base + offset.signExtend 64) := by
  refine touchAccess_address rt hbase hmb hle ?_
  intro e' c
  rw [runs_bind]
  refine (runs_emitLoadFromMem hw hdest c).mono ?_
  rintro _ e₁ c₁ ⟨hc₁, -⟩
  rw [runs_bind]
  refine (runs_emitTraceMemAccess hw c₁).mono ?_
  rintro _ _ c₂ ⟨hwanted, htouched, hrax⟩
  rw [runs_pure, ← hc₁]
  obtain ⟨σ₂, w₂⟩ := c₂
  obtain ⟨σ₁, w₁⟩ := c₁
  dsimp only at hwanted htouched
  subst hwanted
  cases w₂ with
  | none => simp only [touchAccess, htouched]
  | some l => cases l <;> rfl

/-- The base does not change with registers that hold no guest value. -/
theorem usedBase_congr {σ' : State} (h : SameGuest σ σ') (hrax : σ'.regs .rax = σ.regs .rax) :
    usedBase rt em σ' base = usedBase rt em σ base := by
  rw [usedBase, usedBase, h.guest, hrax]

/-- The value of a store goes to `%rcx`, which no base lives in. -/
theorem runs_moveToRcx {n : Name} (hsize : n.size = suffix X) (e : St) (σ : State) :
    (machine env).Runs (Emit.when (n.reg ≠ .rcx) (ins (.mov (suffix X) (.reg n) (temp2 X))))
      e (σ, none) fun _ _ c' =>
        c'.2 = none ∧ SameGuest σ c'.1 ∧ c'.1.regs .rax = σ.regs .rax := by
  have hrcx : (temp2 X).reg = .rcx := rfl
  by_cases hn : n.reg = .rcx
  · simp [hn, SameGuest.refl]
  · rw [decide_eq_true (p := n.reg ≠ .rcx) hn, Emit.when_true, runs_ins]
    refine ⟨by simp [hsize, temp2], _, rfl, rfl, ?_, ?_⟩
    · exact .put (by rw [hrcx]; decide) (by rw [hrcx]; decide)
    · exact State.put_regs_of_ne _ _ (by rw [hrcx]; decide)

/-- A store, once the value is evaluated, accesses the translation of the base that the code works
with. -/
theorem touchAccess_emitWriteMem {value : Expr X} {e₀ : St} {σ₀ : State} (hbase : AddrBase base)
    (hmb : 0 < em.memoryBits) (hle : em.memoryBits ≤ 32) (hw : ValidWidth X width)
    (hvalue : (machine env).Runs (emitExpr em value (temp2 X)) e₀ (σ₀, none) fun n _ c' =>
      n.size = suffix X ∧ c' = (σ, none)) :
    touchAccess ((machine env).exec ((emitWriteMem em base offset width value).code e₀)
      (σ₀, none)) =
      hostAccess X em.addressMode em.memoryBits (usedBase rt em σ base + offset.signExtend 64) := by
  obtain ⟨c₀, hexec, hsize, rfl⟩ := hvalue
  rw [emitWriteMem, exec_bind, hexec, Option.bind_some, exec_bind]
  obtain ⟨⟨σ₁, _⟩, hmove, rfl, hsame, hrax⟩ := runs_moveToRcx hsize
    (emitExpr em value (temp2 X) e₀).st σ
  rw [hmove, ← usedBase_congr rt hsame hrax]
  refine touchAccess_address rt hbase hmb hle ?_
  intro e' c
  rw [runs_bind]
  refine (runs_emitTraceMemAccess hw c).mono ?_
  rintro _ e₁ ⟨σ₂, w₂⟩ ⟨hwanted, -, hrax₂⟩
  obtain ⟨σ₃, w₃⟩ := c
  dsimp only at hwanted hrax₂
  subst hwanted
  cases w₂ with
  | none => simp [touchAccess, accessOf, hrax₂, State.write]
  | some l => cases l <;> simp [touchAccess, accessOf]

/-- An indirect jump goes to the base that the code works with, with bit 0 cleared. -/
theorem exec_jumpDyn (env : Env) (em : Emitter) (e : St) (σ : State) (fallPc : U64)
    (resolved : Option (List X.Reg)) (hbase : AddrBase base) :
    (machine env).Runs (emitTerminator em fallPc (.jumpDyn base resolved)) e (σ, none) fun _ _ c' =>
      c'.2 = some (.dispatch (usedBase rt em σ base &&& BitVec.ofInt 64 (-2))) := by
  rw [emitTerminator, runs_bind]
  refine (runs_emitExprAsAddr rt hbase).mono ?_
  rintro _ e₁ ⟨τ, _⟩ ⟨rfl, hτ⟩
  simp [rax, AluOp.val, ← hτ]

/-- The target that a text looks up in the jump table. -/
def dispatchTarget : Option (State × Option Label) → Option U64
  | some (_, some (.dispatch target)) => some target
  | _ => none

/-- The base that the code works with leads to the promised access and, without its lowest bit, to
the promised jump. -/
def AddressOk (rt : Runtime X) (em : Emitter) (σ : State) (base : Expr X) (offset : BitVec 16) :
    Prop :=
  hostAccess X em.addressMode em.memoryBits (usedBase rt em σ base + offset.signExtend 64) =
      em.addressMode.translate em.memoryBits
        (base.eval rt (em.guest σ) + offset.signExtend X.value) ∧
    usedBase rt em σ base &&& BitVec.ofInt 64 (-2) =
      Xlen.toU64 (base.eval rt (em.guest σ)) &&& BitVec.ofInt 64 (-2)

/-- Loads, stores and indirect jumps use the address that the IR gives exactly if the base that the
code works with stands in for it.  `σ` is the state in which the base is evaluated; for the store
this is the state after the code of the stored value. -/
theorem addressing_iff (rt : Runtime X) (env : Env) (em : Emitter) (e e₀ : St) (σ σ₀ : State)
    (base value : Expr X) (offset : BitVec 16) (width : ℕ) (signed : Bool) (dest : Name)
    (fallPc : U64) (resolved : Option (List X.Reg)) (hbase : AddrBase base)
    (hmb : 0 < em.memoryBits) (hle : em.memoryBits ≤ 32) (hw : ValidWidth X width)
    (hdest : dest.size = suffix X)
    (hvalue : (machine env).Runs (emitExpr em value (temp2 X)) e₀ (σ₀, none) fun n _ c' =>
      n.size = suffix X ∧ c' = (σ, none)) :
    (touchAccess ((machine env).exec
          ((emitExprMem em base (emitExpr em base) offset width signed dest).code e) (σ, none)) =
        em.addressMode.translate em.memoryBits
          (base.eval rt (em.guest σ) + offset.signExtend X.value) ∧
      touchAccess ((machine env).exec
          ((emitWriteMem em base offset width value).code e₀) (σ₀, none)) =
        em.addressMode.translate em.memoryBits
          (base.eval rt (em.guest σ) + offset.signExtend X.value) ∧
      dispatchTarget ((machine env).exec
          ((emitTerminator em fallPc (.jumpDyn base resolved)).code e) (σ, none)) =
        some (Xlen.toU64 (base.eval rt (em.guest σ)) &&& BitVec.ofInt 64 (-2))) ↔
      AddressOk rt em σ base offset := by
  rw [touchAccess_emitExprMem rt hbase hmb hle hw hdest,
    touchAccess_emitWriteMem rt hbase hmb hle hw hvalue]
  obtain ⟨⟨σ', _⟩, hjump, rfl⟩ := exec_jumpDyn rt env em e σ fallPc resolved hbase
  rw [hjump, dispatchTarget, Option.some.injEq]
  constructor
  · rintro ⟨haccess, -, htarget⟩
    exact ⟨haccess, htarget⟩
  · rintro ⟨haccess, htarget⟩
    exact ⟨haccess, haccess, htarget⟩

end Users

/-- The premises of `addressing_iff` hold at a load through the cold register `a0`. -/
theorem addressing_cold_base :
    touchAccess ((machine .idle).exec ((emitExprMem (X := .rv64) (.plain .wrap 32 [5]) (.reg 10)
        (emitExpr (X := .rv64) (.plain .wrap 32 [5]) (.reg 10)) 4 8 false rax).code .start)
          (.zero, none)) =
      AddressMode.wrap.translate 32 (4 : Xlen.rv64.Reg) :=
  ((addressing_iff (.idle .rv64) .idle (.plain .wrap 32 [5]) .start .start .zero .zero (.reg 10)
    (.reg 5) 4 8 false rax 0 none (.reg 10) (by decide) (by decide) (.inr (.inr (.inr ⟨rfl, rfl⟩)))
    rfl ⟨_, rfl, rfl, rfl⟩).2 ⟨by decide +kernel, by decide +kernel⟩).1

/-- The state of the counterexample: `a0` is hot in `%r14` and holds 0x1000. -/
def hotBaseState : State := { State.zero with regs := Function.update State.zero.regs .r14 0x1000 }

/-- `ld a1, 0(a0)` with a hot `a0` on RV64: the address is 0x1000 and the code accesses the index
that `%rax` was left with. -/
theorem addressing_hot_base :
    touchAccess ((machine .idle).exec ((emitExprMem (X := .rv64) (.plain .wrap 32 [10]) (.reg 10)
        (emitExpr (X := .rv64) (.plain .wrap 32 [10]) (.reg 10)) 0 8 false rax).code .start)
        (hotBaseState, none)) = .index 0 ∧
      AddressMode.wrap.translate 32 ((Expr.reg 10 : Expr .rv64).eval (.idle .rv64)
        ((Emitter.plain .wrap 32 [10]).guest hotBaseState)) = .index 0x1000 := by
  decide +kernel

end Rvr.X64
