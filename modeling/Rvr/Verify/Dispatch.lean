import Rvr.Emit.Dispatch
import Rvr.Ir.Fold

/-!
# Where indirect jumps go

The generated `dispatch_index` is the position of an address in the dispatch table for all addresses
of the text range exactly if the text starts at an even address and, where that address is a power
of two, the range is not larger than it (`dispatchIndex_position_iff`).  An indirect jump reads the
table inside its bounds and stops on targets outside the text under the conditions of
`DispatchGuarded`, and only then (`dispatchSafe_iff`); each backend's code is reduced first to the
offset it computes and the check it makes.
-/

namespace Rvr

open CLang BitVec Xlen Arm64

variable {X : Xlen}

/-! ## The generated index function -/

theorem isPowerOfTwo_iff {v : U64} : isPowerOfTwo v = true ↔ ∃ k < 64, v.toNat = 2 ^ k := by
  simp only [isPowerOfTwo, List.any_eq_true, List.mem_range, decide_eq_true_iff]
  refine exists_congr fun k => and_congr_right fun hk => ?_
  rw [← toNat_inj, toNat_twoPow,
    Nat.mod_eq_of_lt (Nat.pow_lt_pow_right (by decide) hk)]

/-- The type of a register: unsigned, not promoted, and the type of its operations with a literal
that fits in it. -/
theorem cType_common_hexType (X : Xlen) {n : ℕ} (h : n < 2 ^ X.value) :
    X.cType.common (hexType n) = X.cType := by
  unfold hexType
  cases X with
  | rv64 => split_ifs <;> rfl
  | rv32 =>
    split_ifs with h31
    · rfl
    · rfl
    · exact absurd h ‹_›
    · exact absurd h ‹_›

variable {textStart : U64}

theorem eval_dispatchBody {t : CType} {env : Env} {x : BitVec t.width}
    (henv : env.vars ⟨"pc", []⟩ = some (.int (.ofBits t x))) (hpromote : t.promote = t)
    (hunsigned : t.signed = false) (hwide : 1 < t.width)
    (hlit : ∀ n ≤ textStart.toNat, t.common (hexType n) = t) :
    (dispatchBody textStart).eval env = some (.ofBits t
      ((if isPowerOfTwo textStart then x &&& BitVec.ofInt _ (textStart - 1).toNat
        else x - BitVec.ofInt _ textStart.toNat) >>> 1)) := by
  have hpc : pcParam.eval env = some (.ofBits t x) := by
    unfold pcParam CExpr.eval
    rw [henv]
  have hshift (y : BitVec t.width) :
      CBinary.shr.apply (.ofBits t y) (.ofInt .i32 1) = some (.ofBits t (y >>> 1)) :=
    CBinary.apply_shr_ofBits y hpromote hunsigned rfl hwide
  have hliteral (n : U64) : (hexLiteral n).eval env = some (.ofInt (hexType n.toNat) n.toNat) := rfl
  have hbits (n : U64) : (CInt.ofInt (hexType n.toNat) n.toNat).bits t =
      BitVec.ofInt _ n.toNat := by
    exact congrArg (BitVec.ofInt t.width) (wrap_hexType n.isLt)
  refine (CExpr.eval_binary (a := .ofBits t _) ?_ rfl).trans (hshift _)
  split_ifs with hpow
  · obtain ⟨k, -, hk⟩ := isPowerOfTwo_iff.1 hpow
    have hle : (textStart - 1).toNat ≤ textStart.toNat := by
      have hpos := Nat.two_pow_pos k
      rw [toNat_sub_of_le (le_def.2 (by rw [hk]; exact hpos))]
      omega
    rw [CExpr.eval_binary hpc (hliteral _), CBinary.apply_band (hlit _ hle), CInt.bits_ofBits,
      hbits]
  · rw [CExpr.eval_binary hpc (hliteral _), CBinary.apply_sub (hlit _ le_rfl) hunsigned,
      CInt.bits_ofBits, hbits]

theorem bits_dispatchBody {t : CType} {env : Env} {x : BitVec t.width}
    (henv : env.vars ⟨"pc", []⟩ = some (.int (.ofInt t x.toNat))) (hpromote : t.promote = t)
    (hunsigned : t.signed = false) (hwide : 1 < t.width)
    (hlit : ∀ n ≤ textStart.toNat, t.common (hexType n) = t) :
    ((dispatchBody textStart).eval env).map (fun v => v.bits .u64) = some (setWidth _
      ((if isPowerOfTwo textStart then x &&& (textStart - 1).setWidth _
        else x - textStart.setWidth _) >>> 1)) := by
  have hlow (v : U64) : BitVec.ofInt t.width v.toNat = v.setWidth _ := by
    rw [ofInt_natCast, ofNat_toNat]
  rw [CInt.ofInt_toNat] at henv
  rw [eval_dispatchBody henv hpromote hunsigned hwide hlit, Option.map_some,
    CInt.bits_ofBits_of_unsigned hunsigned, hlow, hlow]

/-- The offset from the start of the text that the C code computes. -/
def maskedOffset (textStart : U64) (pc : X.Reg) : X.Reg :=
  if isPowerOfTwo textStart then pc &&& X.fromU64 (textStart - 1) else pc - X.fromU64 textStart

/-- The generated function computes in the width of a register. -/
theorem dispatchIndex_eq (hstart : textStart.toNat < 2 ^ X.value) (pc : X.Reg) :
    dispatchIndex textStart pc = some (toU64 (maskedOffset textStart pc >>> 1)) := by
  have hlit (n : ℕ) (hn : n ≤ textStart.toNat) : X.cType.common (hexType n) = X.cType :=
    cType_common_hexType X (Nat.lt_of_le_of_lt hn hstart)
  cases X with
  | rv32 => exact bits_dispatchBody (t := .u32) (x := pc) rfl rfl rfl (by decide) hlit
  | rv64 => exact bits_dispatchBody (t := .u64) (x := pc) rfl rfl rfl (by decide) hlit

/-- As a number, for addresses from the start of the text on. -/
theorem toNat_maskedOffset {pc : X.Reg} (h : textStart.toNat ≤ pc.toNat) :
    (maskedOffset textStart pc).toNat = if isPowerOfTwo textStart then pc.toNat % textStart.toNat
      else pc.toNat - textStart.toNat := by
  have hstart : textStart.toNat < 2 ^ X.value := Nat.lt_of_le_of_lt h pc.isLt
  unfold maskedOffset
  split_ifs with hpow
  · obtain ⟨k, -, hk⟩ := isPowerOfTwo_iff.1 hpow
    have hmask : (textStart - 1).toNat = 2 ^ k - 1 := by
      have hpos := Nat.two_pow_pos k
      rw [toNat_sub_of_le (le_def.2 (by rw [hk]; exact hpos)), hk]
      rfl
    have hfits : (textStart - 1).toNat < 2 ^ X.value := by omega
    rw [toNat_and, toNat_fromU64_of_lt hfits, hmask, Nat.and_two_pow_sub_one_eq_mod, hk]
  · have hfrom := toNat_fromU64_of_lt hstart
    rw [toNat_sub_of_le (le_def.2 (hfrom.symm ▸ h)), hfrom]

theorem toNat_toU64_half (v : X.Reg) : (toU64 (v >>> 1)).toNat = v.toNat / 2 := by
  rw [toNat_toU64, toNat_ushiftRight, Nat.shiftRight_eq_div_pow]

/-- The index of an even address of the text range is its position in the table if the text starts
at an even address and, should the mask be used, the address is below the double of the start. -/
theorem dispatchIndex_position_iff (inputs : EmitInputs) (pc : X.Reg)
    (hstart : inputs.textStart ≤ toU64 pc) (hend : toU64 pc < inputs.pcEnd)
    (heven : pc.toNat % 2 = 0) :
    (∃ index, dispatchIndex inputs.textStart pc = some index ∧
      index.toNat = ((toU64 pc).toNat - inputs.textStart.toNat) / 2 ∧
      inputs.slots[index.toNat]? = some (toU64 pc)) ↔
    inputs.textStart.toNat % 2 = 0 ∧
      (isPowerOfTwo inputs.textStart → pc.toNat < 2 * inputs.textStart.toNat) := by
  rw [le_def, toNat_toU64] at hstart
  rw [lt_def, toNat_toU64] at hend
  rw [dispatchIndex_eq (Nat.lt_of_le_of_lt hstart pc.isLt), toNat_toU64]
  have hval : (toU64 (maskedOffset inputs.textStart pc >>> 1)).toNat = _ :=
    (toNat_toU64_half _).trans (congrArg (· / 2) (toNat_maskedOffset hstart))
  generalize toU64 (maskedOffset inputs.textStart pc >>> 1) = index at hval ⊢
  -- the slot at the wanted position is at `pc` only if it is an even number of bytes away
  have hslot : inputs.slots[(pc.toNat - inputs.textStart.toNat) / 2]? = some (toU64 pc) ↔
      inputs.textStart.toNat % 2 = 0 := by
    rw [inputs.getElem?_slots (by omega), Option.some_inj, ← toNat_inj, toNat_add, toNat_ofNat,
      toNat_toU64, Nat.mod_eq_of_lt (by have := inputs.pcEnd.isLt; omega)]
    omega
  constructor
  · rintro ⟨_, ⟨⟩, hpos, hentry⟩
    rw [hpos, hslot] at hentry
    refine ⟨hentry, fun hpow => ?_⟩
    rw [hval, if_pos hpow] at hpos
    obtain ⟨k, -, hk⟩ := isPowerOfTwo_iff.1 hpow
    have hlt : pc.toNat % inputs.textStart.toNat < inputs.textStart.toNat :=
      Nat.mod_lt _ (hk ▸ Nat.two_pow_pos k)
    omega
  · rintro ⟨hts, hsmall⟩
    have hpos : index.toNat = (pc.toNat - inputs.textStart.toNat) / 2 := by
      rw [hval]
      split_ifs with hpow
      · rw [Nat.mod_eq_sub_mod hstart, Nat.mod_eq_of_lt (by have := hsmall hpow; omega)]
      · rfl
    exact ⟨index, rfl, hpos, by rw [hpos]; exact hslot.2 hts⟩

/-- Two pages of text from 0x1000 on, without blocks. -/
def twoPages : EmitInputs := ⟨0x1000, 0x3000, ∅, ∅⟩

theorem dispatchIndex_position_first_page :
    ∃ index, dispatchIndex (X := .rv64) 0x1000 0x1004 = some index ∧
      index.toNat = (0x1004 - 0x1000) / 2 ∧ twoPages.slots[index.toNat]? = some 0x1004 :=
  (dispatchIndex_position_iff (X := .rv64) twoPages 0x1004 (by decide) (by decide)
    (by decide)).2 ⟨by decide, fun _ => by decide⟩

/-- On the second page the mask drops the bit that tells it from the first. -/
theorem dispatchIndex_second_page_fails :
    dispatchIndex (X := .rv64) twoPages.textStart 0x2000 = some 0 ∧
      twoPages.slots[0]? = some 0x1000 ∧
      ¬ ∃ index, dispatchIndex (X := .rv64) twoPages.textStart 0x2000 = some index ∧
        index.toNat = (0x2000 - 0x1000) / 2 := by
  have hindex : dispatchIndex (X := .rv64) twoPages.textStart 0x2000 = some 0 := by decide +kernel
  refine ⟨hindex, twoPages.getElem?_slots (by decide), ?_⟩
  rintro ⟨index, hsome, hpos⟩
  rw [hindex, Option.some_inj] at hsome
  rw [← hsome] at hpos
  exact absurd hpos (by decide)

/-! ## Targets outside the text -/

/-- A text range whose bounds and size the backends can hold in 32 bits. -/
structure EmitInputs.FitsWord (inputs : EmitInputs) : Prop where
  start_lt : inputs.textStart.toNat < 2 ^ 32
  start_le : inputs.textStart.toNat ≤ inputs.pcEnd.toNat
  end_le : inputs.pcEnd.toNat ≤ 2 ^ 32
  size_lt : inputs.pcEnd.toNat - inputs.textStart.toNat < 2 ^ 32

/-- The target of an indirect jump is an address of the text. -/
def EmitInputs.InText (inputs : EmitInputs) (target : X.Reg) : Prop :=
  inputs.textStart ≤ toU64 target ∧ toU64 target < inputs.pcEnd

/-- An indirect jump reads the table inside its bounds if at all, and a target outside the text ends
in the trap handler, which leaves exit code 1. -/
def DispatchSafe (backend : Backend) (mode : AddressMode) (inputs : EmitInputs) (target : X.Reg)
    (s : ExitState) : Prop :=
  ∃ e, backend.dispatch mode inputs target = .reached e ∧
    (¬ inputs.InText target → e = .trap ∧ backend.trapHandler s = ⟨true, 1⟩)

/-- What is read from the table for a byte offset from the start of the text. -/
def EmitInputs.entryAtOffset (inputs : EmitInputs) (offset : ℕ) : Option DispatchEntry :=
  inputs.dispatchTable[offset / 2]?

/-- The offset that the assembly computes: of the target without its low bit. -/
def EmitInputs.evenOffset (inputs : EmitInputs) (target : X.Reg) : X.Reg :=
  (target &&& X.fromU64 (-2)) - X.fromU64 inputs.textStart

/-- The jump to what was read from the table. -/
def DispatchResult.ofEntry : Option DispatchEntry → DispatchResult
  | some e => .reached e
  | none => .outOfBounds

variable {inputs : EmitInputs} {target : X.Reg}

theorem EmitInputs.FitsWord.start_lt_reg (h : inputs.FitsWord) (X : Xlen) :
    inputs.textStart.toNat < 2 ^ X.value :=
  Nat.lt_of_lt_of_le h.start_lt (Nat.pow_le_pow_right (by decide) X.thirtyTwo_le_value)

theorem EmitInputs.FitsWord.toNat_size (h : inputs.FitsWord) :
    (inputs.pcEnd - inputs.textStart).toNat = inputs.pcEnd.toNat - inputs.textStart.toNat :=
  toNat_sub_of_le (le_def.2 h.start_le)

theorem dispatchC_eq (h : inputs.FitsWord) (target : X.Reg) :
    dispatchC inputs target =
      .ofEntry (inputs.entryAtOffset (maskedOffset inputs.textStart target).toNat) := by
  unfold dispatchC EmitInputs.entryAtOffset
  rw [dispatchIndex_eq (h.start_lt_reg X), ← toNat_toU64_half]
  rfl

theorem setWidth_even (target : X.Reg) :
    (toU64 target &&& -2).setWidth X.value = target &&& X.fromU64 (-2) := by
  rw [setWidth_and]
  congr 1
  exact fromU64_toU64 target

theorem runAsm_next {σ ι : Type} {step : ι → σ → AsmStep σ} {label? : ι → Option String} {i : ι}
    {is : List ι} {s s' : σ} (h : step i s = .next s') :
    runAsm step label? none (i :: is) s = runAsm step label? none is s' := by
  rw [runAsm, h]

variable (table : List DispatchEntry)

/-- The end of the x86-64 code: jump to the entry at the index in rax. -/
theorem X86.run_tail {s : X86.State} {v : U64} (hs : s.rax = .word v) :
    runAsm (X86.step table) (fun _ => none) none
      [.leaqTableRcx, .movslqTableRax, .addqRcxRax, .jmpRax] s = .ofEntry table[v.toNat]? := by
  simp only [runAsm, X86.step, hs, AsmStep.load]
  cases table[v.toNat]? with
  | none => rfl
  | some e => rfl

theorem X86.run_jaeTrap (is : List X86.Instr) (s : X86.State) :
    runAsm (X86.step table) (fun _ => none) none (.jaeTrap :: is) s =
      if s.carry then runAsm (X86.step table) (fun _ => none) none is s else .reached .trap := by
  rw [runAsm, X86.step]
  split_ifs <;> rfl

/-- x86-64: the table is read if the offset is below the size of the text. -/
theorem X86.dispatch_eq (h : inputs.FitsWord) (target : X.Reg) :
    X86.dispatch inputs target =
      if (inputs.evenOffset target).toNat < inputs.pcEnd.toNat - inputs.textStart.toNat then
        .ofEntry (inputs.entryAtOffset (inputs.evenOffset target).toNat)
      else .reached .trap := by
  have hsize : ((inputs.pcEnd - inputs.textStart).setWidth 32 : BitVec 32).toNat
      = inputs.pcEnd.toNat - inputs.textStart.toNat := by
    rw [toNat_setWidth, h.toNat_size, Nat.mod_eq_of_lt h.size_lt]
  have hword (v : BitVec 32) : (v.setWidth 64 : U64).setWidth 32 = v := by
    rw [setWidth_setWidth_of_le _ (by decide), setWidth_eq]
  cases X with
  | rv32 =>
    have hoff : (toU64 target &&& -2).setWidth 32 - inputs.textStart.setWidth 32
        = inputs.evenOffset target := congrArg (· - _) (setWidth_even target)
    refine (runAsm_next rfl).trans ((runAsm_next rfl).trans ((runAsm_next rfl).trans
      ((X86.run_jaeTrap _ _ _).trans
        (if_congr ?_ ((runAsm_next rfl).trans ((X86.run_tail _ rfl).trans ?_)) rfl))))
    · rw [decide_eq_true_iff, lt_def, hsize]
      rw [hword, hoff]
      exact Iff.rfl
    · beta_reduce
      rw [hword, hoff]
      rfl
  | rv64 =>
    have hstart : ((inputs.textStart.setWidth 32 : BitVec 32).setWidth 64 : U64) =
        inputs.textStart := by
      apply eq_of_toNat_eq
      rw [toNat_setWidth_of_le (by decide), toNat_setWidth,
        Nat.mod_eq_of_lt h.start_lt]
    have hoff : (toU64 target &&& -2) - (inputs.textStart.setWidth 32 : BitVec 32).setWidth 64
        = inputs.evenOffset target := by
      rw [hstart]
      rfl
    refine (runAsm_next rfl).trans ((runAsm_next rfl).trans ((runAsm_next rfl).trans
      ((runAsm_next rfl).trans ((runAsm_next rfl).trans ((X86.run_jaeTrap _ _ _).trans
        (if_congr ?_ ((runAsm_next rfl).trans ((X86.run_tail _ rfl).trans ?_)) rfl))))))
    · rw [decide_eq_true_iff, lt_def, toNat_setWidth_of_le (by decide), hsize, ← hoff]
      rfl
    · beta_reduce
      rw [hoff]
      rfl

theorem Arm64.toNat_chunkAt (value : U64) (shift : ℕ) :
    (chunkAt value shift).toNat = value.toNat / 2 ^ shift % 2 ^ 16 := by
  rw [chunkAt, toNat_setWidth, toNat_ushiftRight, Nat.shiftRight_eq_div_pow]

theorem Arm64.narrow_of_lt {v : U64} (hv : v.toNat < 2 ^ 32) (wide : Bool) :
    narrow wide v = v := by
  unfold narrow
  split_ifs
  · rfl
  · apply eq_of_toNat_eq
    rw [toNat_setWidth_of_le (by decide), toNat_setWidth, Nat.mod_eq_of_lt hv]

/-- The low half of a word of 32 bits, before the high half is put in. -/
theorem Arm64.toNat_movz_low (value : U64) (wide : Bool) :
    (narrow wide ((chunkAt value 0).setWidth 64 <<< 0)).toNat = value.toNat % 2 ^ 16 := by
  have hlow : ((chunkAt value 0).setWidth 64 <<< 0 : U64).toNat = value.toNat % 2 ^ 16 := by
    rw [shiftLeft_zero, toNat_setWidth_of_le (by decide), toNat_chunkAt, pow_zero,
      Nat.div_one]
  rw [narrow_of_lt (by rw [hlow]; omega), hlow]

/-- The high half alone. -/
theorem Arm64.toNat_high {value : U64} (hvalue : value.toNat < 2 ^ 32) :
    ((chunkAt value 16).setWidth 64 <<< 16 : U64).toNat = value.toNat / 2 ^ 16 * 2 ^ 16 := by
  have hchunk : ((chunkAt value 16).setWidth 64 : U64).toNat = value.toNat / 2 ^ 16 := by
    rw [toNat_setWidth_of_le (by decide), toNat_chunkAt, Nat.mod_eq_of_lt (by omega)]
  rw [Word.toNat_shiftLeft_of_lt (by rw [hchunk]; omega), hchunk]

/-- `movz` of the low half, `movk` of the high half. -/
theorem Arm64.movk_movz {value : U64} (hvalue : value.toNat < 2 ^ 32) (wide : Bool) :
    narrow wide (narrow wide ((chunkAt value 0).setWidth 64 <<< 0)
        &&& ~~~ ((0xFFFF : U64) <<< 16) ||| (chunkAt value 16).setWidth 64 <<< 16) = value := by
  have hlow := toNat_movz_low value wide
  generalize narrow wide ((chunkAt value 0).setWidth 64 <<< 0) = x at hlow ⊢
  have hkept : (x &&& ~~~ ((0xFFFF : U64) <<< 16)).toNat = value.toNat % 2 ^ 16 := by
    have hx : x.toNat = x.toNat &&& (2 ^ 16 - 1) := by
      rw [Nat.and_two_pow_sub_one_eq_mod, hlow, Nat.mod_mod]
    rw [toNat_and, hx, Nat.and_assoc, ← hlow]
    exact hx.symm
  have hor : (x &&& ~~~ ((0xFFFF : U64) <<< 16) ||| (chunkAt value 16).setWidth 64 <<< 16).toNat
      = value.toNat := by
    rw [BitVec.or_comm, Word.toNat_or_of_disjoint 16, toNat_high hvalue]
    · omega
    · rw [toNat_high hvalue, Nat.mul_mod_left]
    · omega
  rw [narrow_of_lt (hor ▸ hvalue)]
  exact eq_of_toNat_eq hor

/-- `load_imm` of a value of 32 bits leaves it in x2. -/
theorem Arm64.run_loadImm {table : List DispatchEntry} {wide : Bool} {value : U64}
    (hvalue : value.toNat < 2 ^ 32) {rest : List Arm64.Instr} {s : Arm64.State} {v : U64}
    (hs : s.x0 = .word v) :
    runAsm (Arm64.step table) Arm64.Instr.label? none (loadImm wide value ++ rest) s =
      runAsm (Arm64.step table) Arm64.Instr.label? none rest { s with x2 := .word value } := by
  have hpair : runAsm (Arm64.step table) Arm64.Instr.label? none
      (.movz2 wide (chunkAt value 0) 0 :: .movk2 wide (chunkAt value 16) 16 :: rest) s
      = runAsm (Arm64.step table) Arm64.Instr.label? none rest { s with x2 := .word value } := by
    refine (runAsm_next rfl).trans (runAsm_next ?_)
    simp only [Arm64.step, Arm64.State.map02, hs, movk_movz hvalue]
  have hchunk (shift : ℕ) : chunkAt value shift = 0 ↔ value.toNat / 2 ^ shift % 2 ^ 16 = 0 := by
    rw [← toNat_inj, toNat_chunkAt]
    exact Iff.rfl
  unfold loadImm
  split_ifs with hsmall hwide hbig
  · refine runAsm_next ?_
    have hsame : ((value.setWidth 16 : BitVec 16).setWidth 64 : U64) = value := by
      apply eq_of_toNat_eq
      exact Nat.mod_eq_of_lt (Nat.lt_succ_of_le hsmall)
    rw [Arm64.step, hsame]
  · -- of the four parts only the lower two can be set, and the second one is
    have hsecond : chunkAt value 16 ≠ 0 := fun h0 => hsmall (by
      have h0' := (hchunk 16).1 h0
      change value.toNat ≤ 65535
      omega)
    have hthird : chunkAt value 32 = 0 := (hchunk 32).2 (by omega)
    have hfourth : chunkAt value 48 = 0 := (hchunk 48).2 (by omega)
    by_cases hfirst : chunkAt value 0 = 0
    · simp only [List.filter, hfirst, hsecond, hthird, hfourth, ne_eq]
      refine runAsm_next ?_
      have hsame : (chunkAt value 16).setWidth 64 <<< 16 = value := by
        apply eq_of_toNat_eq
        rw [toNat_high hvalue]
        have h0 := (hchunk 0).1 hfirst
        omega
      rw [Arm64.step, hsame, narrow_of_lt hvalue]
    · simp only [List.filter, hfirst, hsecond, hthird, hfourth, ne_eq]
      exact hpair
  · exact hpair
  · refine absurd ?_ hsmall
    have h0 : (value >>> 16).toNat = 0 := by rw [not_not.1 hbig]; rfl
    rw [toNat_ushiftRight] at h0
    change value.toNat ≤ 65535
    omega

/-- The end of the ARM64 code: jump to the entry at the index that the low half of half of x0 is. -/
theorem Arm64.run_tail (wide : Bool) {s : Arm64.State} {v d : U64}
    (hs : s.x0 = .word v) (hd : s.x2 = .word d) :
    runAsm (Arm64.step table) Arm64.Instr.label? none
      [.adrpX1, .addLo12X1, .lsr0 wide, .ldrTable, .addX0, .brX0] s
      = .ofEntry table[(narrow wide v).toNat / 2 % 2 ^ 32]? := by
  have hindex : ((narrow wide v >>> 1).setWidth 32 : BitVec 32).toNat
      = (narrow wide v).toNat / 2 % 2 ^ 32 := by
    rw [toNat_setWidth, toNat_ushiftRight, Nat.shiftRight_eq_div_pow]
  simp only [runAsm, Arm64.step, Arm64.State.map02, hs, hd, AsmStep.load, hindex]
  cases table[(narrow wide v).toNat / 2 % 2 ^ 32]? with
  | none => rfl
  | some e => rfl

/-- The range check of the ARM64 code. -/
theorem Arm64.run_check (wide : Bool) (is : List Arm64.Instr)
    {s : Arm64.State} {v d : U64} (hs : s.x0 = .word v) (hd : s.x2 = .word d) :
    runAsm (Arm64.step table) Arm64.Instr.label? none
      (.cmp02 wide :: .bLo "valid_pc" :: .bTrap :: .label "valid_pc" :: is) s =
      if (narrow wide v).toNat < (narrow wide d).toNat then
        runAsm (Arm64.step table) Arm64.Instr.label? none is { s with lower := true }
      else .reached .trap := by
  have hcmp : Arm64.step table (.cmp02 wide) s
      = .next { s with lower := narrow wide v < narrow wide d } := by
    simp only [Arm64.step, Arm64.State.map02, hs, hd]
  rw [runAsm_next hcmp]
  by_cases hlt : (narrow wide v).toNat < (narrow wide d).toNat
  · rw [if_pos hlt, decide_eq_true (lt_def.2 hlt)]
    rfl
  · rw [if_neg hlt, decide_eq_false (mt lt_def.1 hlt)]
    rfl

/-- The offset in x0, in the register form of the guest. -/
theorem Arm64.narrow_offset (inputs : EmitInputs) (target : X.Reg) :
    narrow (X = .rv64) ((toU64 target &&& -2) - inputs.textStart)
      = toU64 (inputs.evenOffset target) := by
  cases X with
  | rv32 =>
    change (setWidth 32 _).setWidth 64 = _
    rw [sub_eq_add_neg, setWidth_add _ _ (by decide),
      setWidth_neg_of_le (by decide), ← sub_eq_add_neg]
    exact congrArg (fun x : BitVec 32 => (x - inputs.textStart.setWidth 32).setWidth 64)
      (setWidth_even target)
  | rv64 =>
    rfl

theorem Arm64.narrow_toU64 (v : X.Reg) : narrow (X = .rv64) (toU64 v) = toU64 v := by
  cases X with
  | rv32 => exact narrow_of_lt (toNat_toU64 v ▸ v.isLt) _
  | rv64 => rfl

/-- ARM64: in bounds mode as on x86-64; in the other modes the table is read at the low half of the
index, whatever it is. -/
theorem Arm64.dispatch_eq (h : inputs.FitsWord) (mode : AddressMode) (target : X.Reg) :
    dispatch mode inputs target =
      if mode = .bounds ∧
          ¬ (inputs.evenOffset target).toNat < inputs.pcEnd.toNat - inputs.textStart.toNat then
        .reached .trap
      else .ofEntry inputs.dispatchTable[(inputs.evenOffset target).toNat / 2 % 2 ^ 32]? := by
  have hsize : (inputs.pcEnd - inputs.textStart).toNat < 2 ^ 32 := by
    rw [h.toNat_size]
    exact h.size_lt
  unfold dispatch emitDispatchJump
  rw [runAsm_next rfl, List.append_assoc, List.append_assoc,
    run_loadImm h.start_lt rfl, List.singleton_append, runAsm_next rfl]
  beta_reduce
  rw [narrow_offset]
  by_cases hmode : mode = .bounds
  · subst hmode
    rw [if_pos (by decide), List.append_assoc, run_loadImm hsize rfl]
    simp only [List.cons_append, List.nil_append]
    rw [run_check _ _ _ rfl rfl, narrow_of_lt hsize, h.toNat_size, run_tail _ _ rfl rfl,
      narrow_toU64, toNat_toU64]
    simp only [true_and, ite_not]
  · rw [AddressMode.needsBoundsCheck, if_neg (by simpa using hmode), List.nil_append,
      run_tail _ _ rfl rfl, narrow_toU64, toNat_toU64, if_neg (fun hb => hmode hb.1)]

/-- In bounds mode the index is below the size of the table, so its low half is all of it. -/
theorem Arm64.dispatch_bounds (h : inputs.FitsWord) (target : X.Reg) :
    dispatch .bounds inputs target =
      if (inputs.evenOffset target).toNat < inputs.pcEnd.toNat - inputs.textStart.toNat then
        .ofEntry (inputs.entryAtOffset (inputs.evenOffset target).toNat)
      else .reached .trap := by
  rw [dispatch_eq h]
  simp only [true_and, ite_not]
  refine ite_congr rfl (fun hlt => ?_) fun _ => rfl
  have hsize := h.size_lt
  rw [EmitInputs.entryAtOffset, Nat.mod_eq_of_lt (by omega)]

theorem EmitInputs.exists_entryAtOffset (inputs : EmitInputs) {offset : ℕ}
    (h : offset < inputs.pcEnd.toNat - inputs.textStart.toNat) :
    ∃ e, inputs.entryAtOffset offset = some e := by
  rw [entryAtOffset, dispatchTable, List.getElem?_map, inputs.getElem?_slots (by omega)]
  exact ⟨_, rfl⟩

/-- When an indirect jump is safe.  The C code checks nothing, so a target outside the text must
happen to be mapped to a slot without a block.  The assembly leaves the exit code alone in the trap
handler; where it checks the range, it checks the target without its low bit. -/
def DispatchGuarded (backend : Backend) (mode : AddressMode) (inputs : EmitInputs) (target : X.Reg)
    (s : ExitState) : Prop :=
  let offset := (inputs.evenOffset target).toNat
  let checked := inputs.InText target ∨ s.exitCode = 1 ∧
    (offset < inputs.pcEnd.toNat - inputs.textStart.toNat →
      inputs.entryAtOffset offset = some .trap)
  match backend with
  | .c => inputs.InText target ∨
      inputs.entryAtOffset (maskedOffset inputs.textStart target).toNat = some .trap
  | .x86Asm => checked
  | .arm64Asm =>
    if mode = .bounds then checked
    else ∃ e, inputs.dispatchTable[offset / 2 % 2 ^ 32]? = some e ∧
      (inputs.InText target ∨ e = .trap ∧ s.exitCode = 1)

theorem DispatchResult.ofEntry_eq_reached {o : Option DispatchEntry} {e : DispatchEntry} :
    DispatchResult.ofEntry o = .reached e ↔ o = some e := by
  cases o with
  | none => simp [DispatchResult.ofEntry]
  | some a => simp [DispatchResult.ofEntry]

/-- An address of the text has a slot in the table at the offset that the C code computes. -/
theorem EmitInputs.InText.exists_entry (h : inputs.InText target) :
    ∃ e, inputs.entryAtOffset (maskedOffset inputs.textStart target).toNat = some e := by
  obtain ⟨hstart, hend⟩ := h
  rw [le_def, toNat_toU64] at hstart
  rw [lt_def, toNat_toU64] at hend
  apply inputs.exists_entryAtOffset
  rw [toNat_maskedOffset hstart]
  split_ifs with hpow
  · have hle : target.toNat % inputs.textStart.toNat ≤ target.toNat - inputs.textStart.toNat := by
      rw [Nat.mod_eq_sub_mod hstart]
      exact Nat.mod_le _ _
    omega
  · omega

theorem trapHandler_asm (s : ExitState) :
    ({ s with hasExited := true } : ExitState) = ⟨true, 1⟩ ↔ s.exitCode = 1 := by
  rw [ExitState.mk.injEq, eq_self_iff_true, true_and]

/-- A jump that compares the offset with the size of the text. -/
theorem safe_of_checked {offset : ℕ} (P : Prop) (s : ExitState) :
    (∃ e, (if offset < inputs.pcEnd.toNat - inputs.textStart.toNat then
          DispatchResult.ofEntry (inputs.entryAtOffset offset) else .reached .trap) = .reached e ∧
        (¬ P → e = .trap ∧ ({ s with hasExited := true } : ExitState) = ⟨true, 1⟩)) ↔
      P ∨ s.exitCode = 1 ∧ (offset < inputs.pcEnd.toNat - inputs.textStart.toNat →
        inputs.entryAtOffset offset = some .trap) := by
  by_cases hlt : offset < inputs.pcEnd.toNat - inputs.textStart.toNat
  · obtain ⟨e, he⟩ := inputs.exists_entryAtOffset hlt
    simp only [hlt, if_true, he, DispatchResult.ofEntry_eq_reached, trapHandler_asm,
      Option.some_inj, exists_eq_left']
    tauto
  · simp only [hlt, if_false, trapHandler_asm, DispatchResult.reached.injEq, exists_eq_left']
    tauto

/-- An indirect jump is safe exactly in these cases. -/
theorem dispatchSafe_iff (h : inputs.FitsWord) (backend : Backend) (mode : AddressMode)
    (target : X.Reg) (s : ExitState) :
    DispatchSafe backend mode inputs target s ↔ DispatchGuarded backend mode inputs target s := by
  unfold DispatchSafe DispatchGuarded
  cases backend with
  | c =>
    simp only [Backend.dispatch, dispatchC_eq h, DispatchResult.ofEntry_eq_reached,
      Backend.trapHandler]
    constructor
    · rintro ⟨e, he, hsafe⟩
      by_cases hin : inputs.InText target
      · exact .inl hin
      · exact .inr (he.trans (congrArg some (hsafe hin).1))
    · rintro (hin | htrap)
      · obtain ⟨e, he⟩ := hin.exists_entry
        exact ⟨e, he, fun hout => absurd hin hout⟩
      · exact ⟨.trap, htrap, fun _ => ⟨rfl, trivial⟩⟩
  | x86Asm =>
    simp only [Backend.dispatch, X86.dispatch_eq h]
    exact safe_of_checked _ s
  | arm64Asm =>
    simp only [Backend.dispatch, dispatch_eq h, Backend.trapHandler]
    by_cases hmode : mode = .bounds
    · subst hmode
      rw [← dispatch_eq h, dispatch_bounds h]
      exact safe_of_checked _ s
    · simp only [hmode, false_and, if_false, DispatchResult.ofEntry_eq_reached, trapHandler_asm]
      refine exists_congr fun e => and_congr_right fun _ => ?_
      tauto

/-- One block of four bytes at 0x1000. -/
def oneBlock : EmitInputs := ⟨0x1000, 0x1004, {0x1000}, ∅⟩

theorem oneBlock_fitsWord : oneBlock.FitsWord :=
  ⟨by decide, by decide, by decide, by decide⟩

theorem dispatchSafe_oneBlock_x86 :
    DispatchSafe (X := .rv64) .x86Asm .bounds oneBlock 0x1000 ⟨false, 0⟩ :=
  (dispatchSafe_iff oneBlock_fitsWord .x86Asm .bounds 0x1000 ⟨false, 0⟩).2
    (.inl ⟨by decide, by decide⟩)

/-- A return to address 0: the C code enters the block at 0x1000, the x86-64 code traps with the
exit code unchanged, and the ARM64 code without bounds check reads outside the table. -/
theorem dispatchSafe_return_to_zero_fails :
    (Backend.c.dispatch (X := .rv64) .bounds oneBlock 0 = .reached (.block 0x1000) ∧
      ¬ DispatchSafe (X := .rv64) .c .bounds oneBlock 0 ⟨false, 0⟩) ∧
    (Backend.x86Asm.dispatch (X := .rv64) .bounds oneBlock 0 = .reached .trap ∧
      Backend.x86Asm.trapHandler ⟨false, 0⟩ = ⟨true, 0⟩ ∧
      ¬ DispatchSafe (X := .rv64) .x86Asm .bounds oneBlock 0 ⟨false, 0⟩) ∧
    (Backend.arm64Asm.dispatch (X := .rv64) .unchecked oneBlock 0 = .outOfBounds ∧
      ¬ DispatchSafe (X := .rv64) .arm64Asm .unchecked oneBlock 0 ⟨false, 0⟩) := by
  have hout : ¬ oneBlock.InText (X := .rv64) 0 := fun hin => absurd hin.1 (by decide)
  have hc : Backend.c.dispatch (X := .rv64) .bounds oneBlock 0 = .reached (.block 0x1000) := by
    decide +kernel
  have hx86 : Backend.x86Asm.dispatch (X := .rv64) .bounds oneBlock 0 = .reached .trap := by
    decide +kernel
  have harm : Backend.arm64Asm.dispatch (X := .rv64) .unchecked oneBlock 0 = .outOfBounds := by
    decide +kernel
  refine ⟨⟨hc, ?_⟩, ⟨hx86, rfl, ?_⟩, harm, ?_⟩
  · rintro ⟨e, he, hsafe⟩
    rw [(hsafe hout).1] at he
    cases he
  · rintro ⟨e, -, hsafe⟩
    exact absurd (hsafe hout).2 (by decide)
  · rintro ⟨e, he, -⟩
    cases he

end Rvr
