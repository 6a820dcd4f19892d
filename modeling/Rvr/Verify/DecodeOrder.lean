import Rvr.Verify.BitmanipValues
import Rvr.Verify.Encoding

/-!
# The order of the extensions does not matter

The 32-bit decoders of the standard extensions accept disjoint sets of words, with one exception:
ZEXT.H of Zbb is also PACK (RV32) or PACKW (RV64) of Zbkb with `x0`.  To see this each word is given
to one extension, by its opcode, its funct3 and its upper twelve bits (`codeSpace`); every decoder
only accepts words of its own part, except that Zbb accepts ZEXT.H.  Both readings of that word have
the same effect, so a registry with the standard extensions in any order executes a word in the same
way (`standard_decode_order`).
-/

namespace Rvr

open ExtensionRegistry

variable {X : Xlen}

/-! ## Parts of the code space -/

/-- Register-register operations. -/
def opSpace (funct3 funct7 : ℕ) : ℕ :=
  if funct7 = 0x01 then 1
  else if funct7 = 0x07 then 10
  else if funct7 = 0x10 then 6
  else if funct7 = 0x05 ∨ funct7 = 0x30 ∨ funct7 = 0x20 ∧ (funct3 = 4 ∨ funct3 = 6 ∨ funct3 = 7)
    then 7
  else if funct7 = 0x14 ∨ funct7 = 0x24 ∨ funct7 = 0x34 then 8
  else if funct7 = 0x04 then 9
  else 0

/-- Register-register operations on words. -/
def op32Space (funct3 funct7 : ℕ) : ℕ :=
  if funct7 = 0x01 then 1
  else if funct7 = 0x04 ∧ funct3 = 4 then 9
  else if funct7 = 0x04 ∨ funct7 = 0x10 then 6
  else if funct7 = 0x30 then 7
  else 0

/-- Register-immediate operations. -/
def opImmSpace (funct3 imm12 : ℕ) : ℕ :=
  if funct3 = 1 ∨ funct3 = 5 then
    if imm12 / 64 = 0x18 ∨ funct3 = 5 ∧ (imm12 = 0x287 ∨ imm12 = 0x698 ∨ imm12 = 0x6B8) then 7
    else if imm12 = 0x08F ∨ funct3 = 5 ∧ imm12 = 0x687 then 9
    else if imm12 / 64 = 0x0A ∨ imm12 / 64 = 0x12 ∨ imm12 / 64 = 0x1A then 8
    else 0
  else 0

/-- Register-immediate operations on words. -/
def opImm32Space (funct3 imm12 : ℕ) : ℕ :=
  if funct3 ≠ 0 ∧ imm12 / 32 = 0x30 then 7
  else if funct3 = 1 ∧ imm12 / 64 = 0x02 then 6
  else 0

/-- The number of the extension that a word belongs to.  The upper twelve bits are funct7 and rs2,
or the immediate. -/
def codeSpace (opcode funct3 imm12 : ℕ) : ℕ :=
  match opcode with
  | 0x33 => opSpace funct3 (imm12 / 32)
  | 0x3B => op32Space funct3 (imm12 / 32)
  | 0x13 => opImmSpace funct3 imm12
  | 0x1B => opImm32Space funct3 imm12
  | 0x2F => 2
  | 0x73 => if funct3 = 0 then 0 else 4
  | 0x0F => if funct3 = 0 then 0 else 5
  | _ => 0

/-- The upper twelve bits of a word. -/
def upper (raw : BitVec 32) : ℕ := raw.toNat / 2 ^ 20

/-- The extension that a word belongs to. -/
def wordSpace (raw : BitVec 32) : ℕ := codeSpace (decodeOpcode raw) (decodeFunct3 raw) (upper raw)

section Fields

variable (raw : BitVec 32)

theorem upper_lt : upper raw < 4096 := by
  unfold upper
  omega

theorem decodeFunct7_eq_upper : decodeFunct7 raw = upper raw / 32 := by
  rw [(fields_toNat raw).funct7, upper]
  omega

theorem decodeRs2_eq_upper : decodeRs2 raw = upper raw % 32 := by
  rw [(fields_toNat raw).rs2, upper]
  norm_num

theorem imm12_eq_upper : ((raw >>> 20) &&& 0xFFF).toNat = upper raw := by
  rw [Word.toNat_field raw 20 12 rfl, upper]
  omega

theorem funct6_eq_upper : ((raw >>> 26) &&& 0x3F).toNat = upper raw / 64 := by
  rw [Word.toNat_field raw 26 6 rfl, upper]
  omega

end Fields

/-! ## What each decoder accepts -/

section Decoders

variable {raw : BitVec 32} {pc : X.Reg} {d : DecodedInstr X}

theorem decodeM_space (h : decodeM X raw pc = some d) : wordSpace raw = 1 := by
  obtain ⟨op, hop, -⟩ := Option.map_eq_some_iff.1 h
  rw [decodeFunct7_eq_upper] at hop
  unfold wordSpace
  by_cases h7 : upper raw / 32 = 1
  · rw [if_neg (not_not.2 h7)] at hop
    split at hop
    next hcode => rw [hcode]; simp [codeSpace, opSpace, h7]
    next hcode => rw [hcode]; simp [codeSpace, op32Space, h7]
    next => cases hop
  · rw [if_pos h7] at hop
    cases hop

theorem decodeA_space (h : decodeA X raw pc = some d) : wordSpace raw = 2 := by
  unfold decodeA at h
  split_ifs at h with hop
  rw [wordSpace, not_not.1 hop]
  rfl

theorem decodeZicsr_space (h : decodeZicsr X raw pc = some d) : wordSpace raw = 4 := by
  unfold decodeZicsr at h
  simp only at h
  split_ifs at h with hcond
  rw [not_or, not_not] at hcond
  rw [wordSpace, hcond.1]
  exact if_neg hcond.2

theorem decodeZifencei_space (h : decodeZifencei X raw pc = some d) : wordSpace raw = 5 := by
  unfold decodeZifencei at h
  split_ifs at h with hcond
  rw [wordSpace, hcond.1, hcond.2]
  rfl

theorem decodeZicond_space (h : decodeZicond X raw pc = some d) : wordSpace raw = 10 := by
  unfold decodeZicond at h
  simp only [decodeFunct7_eq_upper] at h
  unfold wordSpace
  split_ifs at h with hcond
  · rw [hcond.1]; simp [codeSpace, opSpace, hcond.2]
  · rw [hcond.1]; simp [codeSpace, opSpace, hcond.2]

theorem decodeZba_space (h : decodeZba X raw pc = some d) : wordSpace raw = 6 := by
  unfold decodeZba at h
  simp only [decodeFunct7_eq_upper, funct6_eq_upper] at h
  unfold wordSpace
  split_ifs at h with h1 h2 h3 h4
  · rw [h1.1]; simp [codeSpace, opSpace, h1.2]
  · rw [h2.1]; simp [codeSpace, op32Space, h2.2.2.1, h2.2.2.2]
  · rw [h3.1]; simp [codeSpace, op32Space, h3.2.2]
  · have h7 : upper raw / 32 ≠ 0x30 := by omega
    rw [h4.1]; simp [codeSpace, opImm32Space, h4.2.2.1, h4.2.2.2, h7]

/-- The single-bit instructions with an immediate leave the words of Zbb and of Zbkb alone. -/
theorem opImmSpace_of_bit {funct3 imm12 : ℕ}
    (h : funct3 = 1 ∧ (imm12 / 64 = 0x0A ∨ imm12 / 64 = 0x12 ∨ imm12 / 64 = 0x1A) ∨
      funct3 = 5 ∧ imm12 / 64 = 0x12) : opImmSpace funct3 imm12 = 8 := by
  unfold opImmSpace
  split_ifs <;> omega

theorem decodeZbs_space (h : decodeZbs X raw pc = some d) : wordSpace raw = 8 := by
  obtain ⟨⟨op, args⟩, hfound, -⟩ := Option.map_eq_some_iff.1 h
  generalize (raw >>> 20) &&& (if X.value = 32 then 0x1F else 0x3F) = shamt at hfound
  simp only [decodeFunct7_eq_upper, funct6_eq_upper] at hfound
  unfold wordSpace
  split_ifs at hfound with hop h1 h5 hopi hreserved h1 h5
  · rw [hop]
    split at hfound
    next h7 => simp [codeSpace, opSpace, h7]
    next h7 => simp [codeSpace, opSpace, h7]
    next h7 => simp [codeSpace, opSpace, h7]
    next => cases hfound
  · rw [hop]; simp [codeSpace, opSpace, h5.2]
  · rw [hopi, h1]
    split at hfound
    next h6 => exact opImmSpace_of_bit (.inl ⟨rfl, .inr (.inl h6)⟩)
    next h6 => exact opImmSpace_of_bit (.inl ⟨rfl, .inr (.inr h6)⟩)
    next h6 => exact opImmSpace_of_bit (.inl ⟨rfl, .inl h6⟩)
    next => cases hfound
  · rw [hopi, h5.1]
    exact opImmSpace_of_bit (.inr ⟨rfl, h5.2⟩)

theorem decodeOpImm_space {rd rs1 : ℕ} {p : OpId × InstrArgs}
    (h : decodeOpImm (decodeFunct3 raw) (upper raw / 32) rd rs1 raw = some p) :
    opImmSpace (decodeFunct3 raw) (upper raw) = 0 := by
  obtain ⟨op, hop, -⟩ := Option.map_eq_some_iff.1 h
  have hlow : ∀ f < 128, f &&& 0xFE = 0 → f / 2 = 0 := by decide
  have hhigh : ∀ f < 128, f &&& 0xFE = 0x20 → f / 2 = 0x10 := by decide
  have hf := upper_lt raw
  unfold opImmSpace
  split at hop
  next h3 => simp [h3]
  next h3 =>
    split_ifs at hop with h7
    have h6 := hlow _ (by omega) h7
    split_ifs <;> omega
  next h3 => simp [h3]
  next h3 => simp [h3]
  next h3 => simp [h3]
  next h3 =>
    split_ifs at hop with h7 h7
    · have h6 := hlow _ (by omega) h7
      split_ifs <;> omega
    · have h6 := hhigh _ (by omega) h7
      split_ifs <;> omega
  next h3 => simp [h3]
  next h3 => simp [h3]
  next => cases hop

theorem decodeOp_space {rd rs1 rs2 : ℕ} {p : OpId × InstrArgs}
    (h : decodeOp (decodeFunct3 raw) (upper raw / 32) rd rs1 rs2 = some p) :
    opSpace (decodeFunct3 raw) (upper raw / 32) = 0 := by
  obtain ⟨op, hop, -⟩ := Option.map_eq_some_iff.1 h
  unfold opSpace
  split at hop <;> first | cases hop; done | simp [*]

theorem decodeOp32_space {rd rs1 rs2 : ℕ} {p : OpId × InstrArgs}
    (h : decodeOp32 (decodeFunct3 raw) (upper raw / 32) rd rs1 rs2 = some p) :
    op32Space (decodeFunct3 raw) (upper raw / 32) = 0 := by
  obtain ⟨op, hop, -⟩ := Option.map_eq_some_iff.1 h
  unfold op32Space
  split at hop <;> first | cases hop; done | simp [*]

theorem decodeOpImm32_space {rd rs1 : ℕ} {p : OpId × InstrArgs}
    (h : decodeOpImm32 (decodeFunct3 raw) (upper raw / 32) rd rs1 raw = some p) :
    opImm32Space (decodeFunct3 raw) (upper raw) = 0 := by
  obtain ⟨op, hop, -⟩ := Option.map_eq_some_iff.1 h
  unfold opImm32Space
  split at hop
  next h3 => simp [h3]
  next h3 =>
    split_ifs at hop with h7
    split_ifs <;> omega
  next h3 =>
    split_ifs at hop with h7 h7 <;> split_ifs <;> omega
  next => cases hop

theorem decode32bit_space (h : decode32bit X raw pc = some d) : wordSpace raw = 0 := by
  obtain ⟨⟨opid, args⟩, hfound, -⟩ := Option.map_eq_some_iff.1 h
  rw [decodeFunct7_eq_upper] at hfound
  unfold wordSpace
  split at hfound
  next hop => rw [hop]; rfl
  next hop => rw [hop]; rfl
  next hop => rw [hop]; rfl
  next hop => rw [hop]; rfl
  next hop => rw [hop]; rfl
  next hop => rw [hop]; rfl
  next hop => rw [hop]; rfl
  next hop => rw [hop]; exact decodeOpImm_space hfound
  next hop =>
    rw [hop]
    split_ifs at hfound
    exact decodeOpImm32_space hfound
  next hop =>
    rw [hop]
    split_ifs at hfound
    exact decodeOp_space hfound
  next hop =>
    rw [hop]
    split_ifs at hfound
    exact decodeOp32_space hfound
  next hop =>
    rw [hop]
    split_ifs at hfound with h3
    exact if_pos h3
  next hop =>
    rw [hop]
    split_ifs at hfound with h3
    exact if_pos h3
  next => cases hfound

theorem decodeZbkb_space (h : decodeZbkb X raw pc = some d) : wordSpace raw = 9 := by
  unfold decodeZbkb at h
  simp only [decodeFunct7_eq_upper, imm12_eq_upper] at h
  unfold wordSpace
  split_ifs at h with h1 h2 h3 h4 h5 h6
  · rw [h1.1]; simp [codeSpace, opSpace, h1.2.1]
  · rw [h2.1]; simp [codeSpace, opSpace, h2.2.1]
  · rw [h3.1]; simp [codeSpace, opImmSpace, h3.2.1, h3.2.2]
  · rw [h4.1]; simp [codeSpace, opImmSpace, h4.2.2.1, h4.2.2.2]
  · rw [h5.1]; simp [codeSpace, opImmSpace, h5.2.2.1, h5.2.2.2]
  · rw [h6.1]; simp [codeSpace, op32Space, h6.2.2.1, h6.2.2.2]

/-- The opcode of ZEXT.H. -/
def zextHOpcode : Xlen → ℕ
  | .rv32 => 0x33
  | .rv64 => 0x3B

/-- The pack that ZEXT.H is a case of. -/
def zextHPack : Xlen → ZbkbOp
  | .rv32 => .pack
  | .rv64 => .packw

/-- The words of ZEXT.H. -/
structure ZextHWord (X : Xlen) (raw : BitVec 32) : Prop where
  funct7 : upper raw / 32 = 4
  rs2 : upper raw % 32 = 0
  funct3 : decodeFunct3 raw = 4
  opcode : decodeOpcode raw = zextHOpcode X

/-- What Zbb makes of a ZEXT.H word. -/
def zextHInstr (raw : BitVec 32) (pc : X.Reg) : DecodedInstr X :=
  ⟨.zbb .zextH, pc, 4, raw, .I (decodeRd raw) (decodeRs1 raw) 0⟩

/-- What Zbkb makes of it. -/
def packInstr (raw : BitVec 32) (pc : X.Reg) : DecodedInstr X :=
  ⟨.zbkb (zextHPack X), pc, 4, raw, .R (decodeRd raw) (decodeRs1 raw) 0⟩

variable {p : ZbbOp × InstrArgs}

theorem decodeZbbRtype_space {rd rs1 : ℕ}
    (h : decodeZbbRtype X (decodeFunct3 raw) (upper raw / 32) (upper raw % 32) rd rs1 = some p)
    (hop : decodeOpcode raw = 0x33) :
    opSpace (decodeFunct3 raw) (upper raw / 32) = 7 ∨
      ZextHWord X raw ∧ p = (.zextH, .I rd rs1 0) := by
  unfold decodeZbbRtype at h
  split_ifs at h with hz
  · obtain ⟨h7, h3, h2, hX⟩ := hz
    cases h
    cases X with
    | rv32 => exact .inr ⟨⟨h7, h2, h3, hop⟩, rfl⟩
    | rv64 => cases hX
  · obtain ⟨o, ho, -⟩ := Option.map_eq_some_iff.1 h
    unfold opSpace
    split at ho
    next h7 => split at ho <;> first | cases ho; done | simp [*]
    next h7 => simp [h7]
    next h7 => simp [h7]
    next => cases ho

theorem decodeZbbOp32_space {rd rs1 : ℕ} (hX : X.value = 64)
    (h : decodeZbbOp32 (decodeFunct3 raw) (upper raw / 32) (upper raw % 32) rd rs1 = some p)
    (hop : decodeOpcode raw = 0x3B) :
    op32Space (decodeFunct3 raw) (upper raw / 32) = 7 ∨
      ZextHWord X raw ∧ p = (.zextH, .I rd rs1 0) := by
  unfold decodeZbbOp32 at h
  split_ifs at h with hz h7
  · obtain ⟨h7, h3, h2⟩ := hz
    cases h
    cases X with
    | rv32 => cases hX
    | rv64 => exact .inr ⟨⟨h7, h2, h3, hop⟩, rfl⟩
  · simp [op32Space, not_not.1 h7]

theorem decodeZbbOpImm_space {rd rs1 : ℕ}
    (h : decodeZbbOpImm X raw (decodeFunct3 raw) (upper raw) rd rs1 = some p) :
    opImmSpace (decodeFunct3 raw) (upper raw) = 7 := by
  unfold decodeZbbOpImm at h
  rw [funct6_eq_upper] at h
  split at h
  next h3 =>
    obtain ⟨o, ho, -⟩ := Option.map_eq_some_iff.1 h
    split at ho <;> first | cases ho; done | simp [opImmSpace, *]
  next h1 =>
    have hspace (hmem : upper raw / 64 = 0x18 ∨ upper raw = 0x287 ∨ upper raw = 0x698 ∨
        upper raw = 0x6B8) (h5 : decodeFunct3 raw = 5) :
        opImmSpace (decodeFunct3 raw) (upper raw) = 7 := by
      rw [h5, opImmSpace, if_pos (.inr rfl), if_pos (by omega)]
    split_ifs at h with h5 horc hX hrev h6 hbit hrev h6
    · exact hspace (.inr (.inl horc)) (not_not.1 h5)
    · exact hspace (.inr (.inr (.inl hrev))) (not_not.1 h5)
    · exact hspace (.inl (not_not.1 h6)) (not_not.1 h5)
    · exact hspace (.inr (.inr (.inr hrev))) (not_not.1 h5)
    · exact hspace (.inl (not_not.1 h6)) (not_not.1 h5)

theorem decodeZbbOpImm32_space {rd rs1 : ℕ}
    (h : decodeZbbOpImm32 raw (decodeFunct3 raw) (upper raw / 32) rd rs1 = some p) :
    opImm32Space (decodeFunct3 raw) (upper raw) = 7 := by
  unfold decodeZbbOpImm32 at h
  split_ifs at h with h7 h1 h5
  · exact if_pos ⟨by omega, not_not.1 h7⟩
  · exact if_pos ⟨by omega, not_not.1 h7⟩

/-- Zbb accepts words of its own part of the code space and ZEXT.H. -/
theorem decodeZbb_space (h : decodeZbb X raw pc = some d) :
    wordSpace raw = 7 ∨ ZextHWord X raw ∧ d = zextHInstr raw pc := by
  obtain ⟨⟨op, args⟩, hfound, rfl⟩ := Option.map_eq_some_iff.1 h
  rw [decodeFunct7_eq_upper, decodeRs2_eq_upper, imm12_eq_upper] at hfound
  unfold wordSpace
  split at hfound
  next hop =>
    obtain hspace | ⟨hword, hp⟩ := decodeZbbRtype_space hfound hop
    · rw [hop]; exact .inl hspace
    · cases hp; exact .inr ⟨hword, rfl⟩
  next hop => rw [hop]; exact .inl (decodeZbbOpImm_space hfound)
  next hop =>
    split_ifs at hfound with hX
    obtain hspace | ⟨hword, hp⟩ := decodeZbbOp32_space hX hfound hop
    · rw [hop]; exact .inl hspace
    · cases hp; exact .inr ⟨hword, rfl⟩
  next hop =>
    split_ifs at hfound
    rw [hop]; exact .inl (decodeZbbOpImm32_space hfound)
  next => cases hfound

/-- Zbkb reads ZEXT.H as a pack with `x0`. -/
theorem ZextHWord.decodeZbkb (h : ZextHWord X raw) :
    decodeZbkb X raw pc = some (packInstr raw pc) := by
  have hop := h.opcode
  unfold Rvr.decodeZbkb packInstr
  rw [decodeFunct7_eq_upper, decodeRs2_eq_upper, h.funct7, h.rs2, h.funct3]
  cases X with
  | rv32 => simp [hop, zextHOpcode, zextHPack]
  | rv64 => simp [hop, zextHOpcode, zextHPack, Xlen.value]

theorem ZextHWord.space (h : ZextHWord X raw) : wordSpace raw = 9 := by
  have hop := h.opcode
  unfold wordSpace
  rw [h.funct3]
  cases X with
  | rv32 => rw [hop]; simp [zextHOpcode, codeSpace, opSpace, h.funct7]
  | rv64 => rw [hop]; simp [zextHOpcode, codeSpace, op32Space, h.funct7]

end Decoders

/-! ## Two readings of one word -/

theorem pack_zero (v : Xlen.rv32.Reg) : BinaryOp.pack.val v 0 = (v.setWidth 16).setWidth 32 := by
  exact BitVec.or_zero

theorem packw_zero (v : Xlen.rv64.Reg) : BinaryOp.pack16.val v 0 = (v.setWidth 16).setWidth 64 := by
  have hmsb : ((v.setWidth 16).setWidth 32).msb = false := by
    rw [BitVec.msb_setWidth, BitVec.getLsbD_of_ge _ _ (by decide), Bool.and_false]
  change (Ops.pack16 (v.setWidth 32) 0).signExtend 64 = _
  rw [pack16_eq, BitVec.setWidth_setWidth_of_le _ (by decide)]
  change (0#16 ++ v.setWidth 16 : BitVec 32).signExtend 64 = _
  rw [zero_append_eq, BitVec.signExtend_eq_setWidth_of_msb_false hmsb]
  exact BitVec.setWidth_setWidth (by decide)

theorem exec_zextH_eq_pack (handler : DecodedInstr X → InstrIR X) (rt : Runtime X)
    (raw : BitVec 32) (pc : X.Reg) (s : GuestState X) :
    ((standardWith X handler).lift (zextHInstr raw pc)).exec rt s =
      ((standardWith X handler).lift (packInstr raw pc)).exec rt s := by
  have hzext : WritesRd rt (standardBody (zextHInstr raw pc)) (decodeRd raw) fun s =>
      ((s.readReg (decodeRs1 raw)).setWidth 16).setWidth X.value := by
    refine (WritesRd.of_writeReg _ (Expr.isCall_zext16 _)).congr fun s => ?_
    rfl
  have hpack : WritesRd rt (standardBody (packInstr raw pc)) (decodeRd raw) fun s =>
      ((s.readReg (decodeRs1 raw)).setWidth 16).setWidth X.value := by
    cases X with
    | rv32 =>
      exact (WritesRd.liftBinary _ _ (Expr.denotes_binary .pack) 0).congr fun s => pack_zero _
    | rv64 =>
      exact (WritesRd.liftBinary _ _ (Expr.denotes_binary .pack16) 0).congr fun s => packw_zero _
  have hne : (packInstr raw pc : DecodedInstr X).opid ≠ .i .ecall := fun h => by cases h
  have hne' : (zextHInstr raw pc : DecodedInstr X).opid ≠ .i .ecall := fun h => by cases h
  rw [standard_lift handler rfl hne', standard_lift handler rfl hne, hzext _ s, hpack _ s]
  rfl

/-! ## Any order -/

section Order

variable {bytes : List (BitVec 8)} {pc : X.Reg} {d d₁ d₂ : DecodedInstr X}
  {e e₁ e₂ : InstructionExtension X}

/-- The bytes alone decide which decoder of an extension is asked, and on what. -/
theorem decode_path (bytes : List (BitVec 8)) (pc : X.Reg) :
    (∃ low, ∀ e : InstructionExtension X, e.decode bytes pc = e.decode16 low pc) ∨
      (∃ raw, ∀ e : InstructionExtension X, e.decode bytes pc = e.decode32 raw pc) ∨
      ∀ e : InstructionExtension X, e.decode bytes pc = none := by
  match bytes with
  | [] => exact .inr (.inr fun e => rfl)
  | [b0] => exact .inr (.inr fun e => rfl)
  | b0 :: b1 :: rest =>
    by_cases hlow : (b1 ++ b0 : BitVec 16) &&& 0x3 ≠ 0x3
    · exact .inl ⟨b1 ++ b0, fun e => if_pos hlow⟩
    · match rest with
      | b2 :: b3 :: _ => exact .inr (.inl ⟨b3 ++ b2 ++ b1 ++ b0, fun e => if_neg hlow⟩)
      | [] => exact .inr (.inr fun e => if_neg hlow)
      | [b2] => exact .inr (.inr fun e => if_neg hlow)

/-- The numbers of the standard extensions are distinct. -/
theorem eq_of_extId_eq (h₁ : e₁ ∈ standardExtensions X) (h₂ : e₂ ∈ standardExtensions X)
    (h : e₁.extId = e₂.extId) : e₁ = e₂ := by
  have hnodup : ((standardExtensions X).map InstructionExtension.extId).Nodup := by
    change [3, 0, 1, 2, 4, 5, 6, 7, 8, 9, 10].Nodup
    decide
  exact List.inj_on_of_nodup_map hnodup h₁ h₂ h

/-- Only the C extension decodes halfwords. -/
theorem extId_of_decode16 {low : BitVec 16} (he : e ∈ standardExtensions X)
    (h : e.decode16 low pc = some d) : e.extId = 3 := by
  simp only [standardExtensions, List.mem_cons, List.not_mem_nil, or_false] at he
  rcases he with rfl | rfl | rfl | rfl | rfl | rfl | rfl | rfl | rfl | rfl | rfl
  · rfl
  all_goals cases h

/-- A standard extension accepts words of its own part of the code space, and Zbb also ZEXT.H. -/
theorem space_of_decode32 {raw : BitVec 32} (he : e ∈ standardExtensions X)
    (h : e.decode32 raw pc = some d) :
    wordSpace raw = e.extId ∨ e.extId = 7 ∧ ZextHWord X raw ∧ d = zextHInstr raw pc := by
  simp only [standardExtensions, List.mem_cons, List.not_mem_nil, or_false] at he
  rcases he with rfl | rfl | rfl | rfl | rfl | rfl | rfl | rfl | rfl | rfl | rfl
  · cases h
  · exact .inl (decode32bit_space h)
  · exact .inl (decodeM_space h)
  · exact .inl (decodeA_space h)
  · exact .inl (decodeZicsr_space h)
  · exact .inl (decodeZifencei_space h)
  · exact .inl (decodeZba_space h)
  · exact (decodeZbb_space h).imp_right fun hz => ⟨rfl, hz⟩
  · exact .inl (decodeZbs_space h)
  · exact .inl (decodeZbkb_space h)
  · exact .inl (decodeZicond_space h)

/-- A word with two readings is ZEXT.H, and the readings are those of Zbb and of Zbkb. -/
theorem readings_of_decode32 {raw : BitVec 32} (he₁ : e₁ ∈ standardExtensions X)
    (he₂ : e₂ ∈ standardExtensions X) (h₁ : e₁.decode32 raw pc = some d₁)
    (h₂ : e₂.decode32 raw pc = some d₂) :
    d₁ = d₂ ∨ d₁ = zextHInstr raw pc ∧ d₂ = packInstr raw pc ∨
      d₁ = packInstr raw pc ∧ d₂ = zextHInstr raw pc := by
  have hsame (h : e₁.extId = e₂.extId) : d₁ = d₂ := by
    rw [eq_of_extId_eq he₁ he₂ h, h₂] at h₁
    exact (Option.some_inj.1 h₁).symm
  -- the owner of a ZEXT.H word is Zbkb
  have hpack {e : InstructionExtension X} {d : DecodedInstr X} (he : e ∈ standardExtensions X)
      (h : e.decode32 raw pc = some d) (hz : ZextHWord X raw) (hspace : wordSpace raw = e.extId) :
      d = packInstr raw pc := by
    have hzbkb : zbkbExtension X ∈ standardExtensions X := by simp [standardExtensions]
    rw [eq_of_extId_eq he hzbkb (hspace.symm.trans hz.space)] at h
    exact Option.some_inj.1 (h.symm.trans hz.decodeZbkb)
  obtain hs₁ | ⟨hid₁, hz, hd₁⟩ := space_of_decode32 he₁ h₁ <;>
    obtain hs₂ | ⟨hid₂, hz', hd₂⟩ := space_of_decode32 he₂ h₂
  · exact .inl (hsame (hs₁.symm.trans hs₂))
  · exact .inr (.inr ⟨hpack he₁ h₁ hz' hs₁, hd₂⟩)
  · exact .inr (.inl ⟨hd₁, hpack he₂ h₂ hz hs₂⟩)
  · exact .inl (hsame (hid₁.trans hid₂.symm))

/-- Two extensions that decode the same bytes give instructions with the same effect. -/
theorem exec_eq_of_decode (handler : DecodedInstr X → InstrIR X) (rt : Runtime X)
    (he₁ : e₁ ∈ standardExtensions X) (he₂ : e₂ ∈ standardExtensions X)
    (h₁ : e₁.decode bytes pc = some d₁) (h₂ : e₂.decode bytes pc = some d₂) (s : GuestState X) :
    ((standardWith X handler).lift d₁).exec rt s =
      ((standardWith X handler).lift d₂).exec rt s := by
  obtain ⟨low, hpath⟩ | ⟨raw, hpath⟩ | hpath := decode_path bytes pc
  · rw [hpath] at h₁ h₂
    have hid := (extId_of_decode16 he₁ h₁).trans (extId_of_decode16 he₂ h₂).symm
    rw [eq_of_extId_eq he₁ he₂ hid, h₂, Option.some_inj] at h₁
    rw [h₁]
  · rw [hpath] at h₁ h₂
    obtain rfl | ⟨rfl, rfl⟩ | ⟨rfl, rfl⟩ := readings_of_decode32 he₁ he₂ h₁ h₂
    · rfl
    · exact exec_zextH_eq_pack handler rt raw pc s
    · exact (exec_zextH_eq_pack handler rt raw pc s).symm
  · rw [hpath] at h₁
    cases h₁

/-- The standard extensions in another order. -/
def ExtensionRegistry.reordered (X : Xlen) (handler : DecodedInstr X → InstrIR X)
    (exts : List (InstructionExtension X)) : ExtensionRegistry X :=
  { standardWith X handler with extensions := exts }

/-- Lifting looks extensions up by their numbers, so the order does not matter for it. -/
theorem lift_reordered (handler : DecodedInstr X → InstrIR X) {exts : List (InstructionExtension X)}
    (hperm : exts.Perm (standardExtensions X)) (d : DecodedInstr X) :
    (reordered X handler exts).lift d =
      (standardWith X handler).lift d := by
  have hfind : exts.find? (fun e => e.extId = d.opid.ext) =
      (standardExtensions X).find? fun e => e.extId = d.opid.ext := by
    cases hstd : (standardExtensions X).find? fun e => e.extId = d.opid.ext with
    | none =>
      rw [List.find?_eq_none] at hstd ⊢
      exact fun e he => hstd e (hperm.mem_iff.1 he)
    | some e =>
      have hmem := List.mem_of_find?_eq_some hstd
      have hid := List.find?_some hstd
      have hsome : (exts.find? fun e => e.extId = d.opid.ext).isSome :=
        List.find?_isSome.2 ⟨e, hperm.mem_iff.2 hmem, hid⟩
      obtain ⟨e', he'⟩ := Option.isSome_iff_exists.1 hsome
      have hmem' := hperm.mem_iff.1 (List.mem_of_find?_eq_some he')
      have hid' := List.find?_some he'
      rw [decide_eq_true_iff] at hid hid'
      rw [he', eq_of_extId_eq hmem' hmem (hid'.trans hid.symm)]
  have hdefault : (reordered X handler exts).liftDefault d =
      (standardWith X handler).liftDefault d := by
    unfold ExtensionRegistry.liftDefault
    exact hfind ▸ rfl
  change (if d.opid = .i .ecall then _ else _) = (if d.opid = .i .ecall then _ else _)
  rw [hdefault]
  rfl

/-- Two standard extensions that decode the same bytes give instructions with the same effect, and
the standard extensions in any order decode and execute the bytes as the standard registry does. -/
theorem standard_decode_order (handler : DecodedInstr X → InstrIR X) (rt : Runtime X)
    {exts : List (InstructionExtension X)} (hperm : exts.Perm (standardExtensions X))
    (bytes : List (BitVec 8)) (pc : X.Reg) (s : GuestState X) :
    (∀ e₁ ∈ standardExtensions X, ∀ e₂ ∈ standardExtensions X, ∀ d₁ d₂,
      e₁.decode bytes pc = some d₁ → e₂.decode bytes pc = some d₂ →
        ((standardWith X handler).lift d₁).exec rt s =
          ((standardWith X handler).lift d₂).exec rt s) ∧
    ((reordered X handler exts).decode bytes pc).map
        (fun d => ((reordered X handler exts).lift d).exec rt s) =
      ((standardWith X handler).decode bytes pc).map
        fun d => ((standardWith X handler).lift d).exec rt s := by
  have hagree {e₁ e₂ : InstructionExtension X} {d₁ d₂ : DecodedInstr X}
      (he₁ : e₁ ∈ standardExtensions X) (he₂ : e₂ ∈ standardExtensions X)
      (h₁ : e₁.decode bytes pc = some d₁) (h₂ : e₂.decode bytes pc = some d₂) :=
    exec_eq_of_decode handler rt he₁ he₂ h₁ h₂ s
  refine ⟨fun e₁ he₁ e₂ he₂ d₁ d₂ => hagree he₁ he₂, ?_⟩
  cases hstd : (standardWith X handler).decode bytes pc with
  | none =>
    have hnone : (reordered X handler exts).decode bytes pc = none := by
      have hall := List.findSome?_eq_none_iff.1 hstd
      exact List.findSome?_eq_none_iff.2 fun e he => hall e (hperm.mem_iff.1 he)
    rw [hnone]
    rfl
  | some d =>
    obtain ⟨e, he, hd⟩ := List.exists_of_findSome?_eq_some hstd
    have hsome : ((reordered X handler exts).decode bytes pc).isSome :=
      List.findSome?_isSome_iff.2 ⟨e, hperm.mem_iff.2 he, hd ▸ rfl⟩
    obtain ⟨d', hd'⟩ := Option.isSome_iff_exists.1 hsome
    obtain ⟨e', he', hdec⟩ := List.exists_of_findSome?_eq_some hd'
    rw [hd', Option.map_some, lift_reordered handler hperm]
    exact congrArg some (hagree (hperm.mem_iff.1 he') he hdec hd)

end Order

/-- `zext.h x1, x1` on RV32: with the extensions in the opposite order Zbkb comes first, and the
word is read as a pack. -/
theorem standard_decode_order_zextH :
    (reordered .rv32 bareMetalHandler (standardExtensions .rv32).reverse).decode
        [0xB3, 0xC0, 0x00, 0x08] 0x1000 = some ⟨.zbkb .pack, 0x1000, 4, 0x0800C0B3, .R 1 1 0⟩ ∧
    (standard .rv32).decode [0xB3, 0xC0, 0x00, 0x08] 0x1000 =
      some ⟨.zbb .zextH, 0x1000, 4, 0x0800C0B3, .I 1 1 0⟩ ∧
    ((reordered .rv32 bareMetalHandler (standardExtensions .rv32).reverse).decode
        [0xB3, 0xC0, 0x00, 0x08] 0x1000).map (fun d =>
          ((reordered .rv32 bareMetalHandler
            (standardExtensions .rv32).reverse).lift d).exec (Runtime.idle .rv32)
              (GuestState.zero .rv32)) =
      ((standard .rv32).decode [0xB3, 0xC0, 0x00, 0x08] 0x1000).map fun d =>
        ((standard .rv32).lift d).exec (Runtime.idle .rv32)
          (GuestState.zero .rv32) :=
  ⟨by decide +kernel, by decide +kernel,
    (standard_decode_order bareMetalHandler (Runtime.idle .rv32) (List.reverse_perm _)
      [0xB3, 0xC0, 0x00, 0x08] 0x1000 (GuestState.zero .rv32)).2⟩

end Rvr
