import Rvr.Verify.Encoding

/-!
# Decoding the I and M extensions

Every legal encoding of an I or M instruction is decoded to the instruction it encodes
(`decode_encode`).
-/

namespace Rvr

open Spec ExtensionRegistry

variable {X : Xlen}

/-! ## The decoded form of a specified instruction -/

namespace Spec

def BranchOp.opid : BranchOp → OpId
  | .beq => .i .beq
  | .bne => .i .bne
  | .blt => .i .blt
  | .bge => .i .bge
  | .bltu => .i .bltu
  | .bgeu => .i .bgeu

def LoadOp.opid : LoadOp → OpId
  | .lb => .i .lb
  | .lh => .i .lh
  | .lw => .i .lw
  | .ld => .i .ld
  | .lbu => .i .lbu
  | .lhu => .i .lhu
  | .lwu => .i .lwu

def StoreOp.opid : StoreOp → OpId
  | .sb => .i .sb
  | .sh => .i .sh
  | .sw => .i .sw
  | .sd => .i .sd

def ImmOp.opid : ImmOp → OpId
  | .addi => .i .addi
  | .slti => .i .slti
  | .sltiu => .i .sltiu
  | .xori => .i .xori
  | .ori => .i .ori
  | .andi => .i .andi

def ShiftOp.immOpid : ShiftOp → OpId
  | .sll => .i .slli
  | .srl => .i .srli
  | .sra => .i .srai

def ShiftOp.immWOpid : ShiftOp → OpId
  | .sll => .i .slliw
  | .srl => .i .srliw
  | .sra => .i .sraiw

def RegOp.opid : RegOp → OpId
  | .add => .i .add
  | .sub => .i .sub
  | .sll => .i .sll
  | .slt => .i .slt
  | .sltu => .i .sltu
  | .xor => .i .xor
  | .srl => .i .srl
  | .sra => .i .sra
  | .or => .i .or
  | .and => .i .and
  | .mul => .m .mul
  | .mulh => .m .mulh
  | .mulhsu => .m .mulhsu
  | .mulhu => .m .mulhu
  | .div => .m .div
  | .divu => .m .divu
  | .rem => .m .rem
  | .remu => .m .remu

def WordOp.opid : WordOp → OpId
  | .addw => .i .addw
  | .subw => .i .subw
  | .sllw => .i .sllw
  | .srlw => .i .srlw
  | .sraw => .i .sraw
  | .mulw => .m .mulw
  | .divw => .m .divw
  | .divuw => .m .divuw
  | .remw => .m .remw
  | .remuw => .m .remuw

def Instr.opid : Instr → OpId
  | .lui .. => .i .lui
  | .auipc .. => .i .auipc
  | .jal .. => .i .jal
  | .jalr .. => .i .jalr
  | .branch op .. => op.opid
  | .load op .. => op.opid
  | .store op .. => op.opid
  | .opImm op .. => op.opid
  | .shiftImm op .. => op.immOpid
  | .addiw .. => .i .addiw
  | .shiftImmW op .. => op.immWOpid
  | .reg op .. => op.opid
  | .regW op .. => op.opid

def Instr.args : Instr → InstrArgs
  | .lui rd imm => .U rd.toNat (imm ++ 0#12)
  | .auipc rd imm => .U rd.toNat (imm ++ 0#12)
  | .jal rd offset => .J rd.toNat ((offset ++ 0#1).signExtend 32)
  | .jalr rd rs1 imm => .I rd.toNat rs1.toNat (imm.signExtend 32)
  | .branch _ rs1 rs2 offset => .B rs1.toNat rs2.toNat ((offset ++ 0#1).signExtend 32)
  | .load _ rd rs1 imm => .I rd.toNat rs1.toNat (imm.signExtend 32)
  | .store _ rs1 rs2 imm => .S rs1.toNat rs2.toNat (imm.signExtend 32)
  | .opImm _ rd rs1 imm => .I rd.toNat rs1.toNat (imm.signExtend 32)
  | .shiftImm _ rd rs1 shamt => .I rd.toNat rs1.toNat (shamt.setWidth 32)
  | .addiw rd rs1 imm => .I rd.toNat rs1.toNat (imm.signExtend 32)
  | .shiftImmW _ rd rs1 shamt => .I rd.toNat rs1.toNat (shamt.setWidth 32)
  | .reg _ rd rs1 rs2 => .R rd.toNat rs1.toNat rs2.toNat
  | .regW _ rd rs1 rs2 => .R rd.toNat rs1.toNat rs2.toNat

/-- What the decoder makes of an instruction. -/
def Instr.decoded (i : Instr) (pc : X.Reg) : DecodedInstr X := ⟨i.opid, pc, 4, i.encode, i.args⟩

end Spec

/-! ## Decoding -/

section Selection

variable {word : BitVec 32} {rd funct3 rs1 rs2 funct7 : ℕ} (pc : X.Reg)

/-- The decoded instruction with the given operation and arguments. -/
def instrOf (word : BitVec 32) (pc : X.Reg) (p : OpId × InstrArgs) : DecodedInstr X :=
  ⟨p.1, pc, 4, word, p.2⟩

theorem decode32bit_op (h : Fields word 0x33 rd funct3 rs1 rs2 funct7) :
    decode32bit X word pc =
      (if funct7 ≠ 0x01 then decodeOp funct3 funct7 rd rs1 rs2 else none).map
        (instrOf word pc) := by
  unfold decode32bit
  simp only [h.opcode, h.rd, h.funct3, h.rs1, h.rs2, h.funct7]
  rfl

theorem decode32bit_op32 (h : Fields word 0x3B rd funct3 rs1 rs2 funct7) :
    decode32bit X word pc =
      (if X.value = 64 ∧ funct7 ≠ 0x01 then decodeOp32 funct3 funct7 rd rs1 rs2 else none).map
        (instrOf word pc) := by
  unfold decode32bit
  simp only [h.opcode, h.rd, h.funct3, h.rs1, h.rs2, h.funct7]
  rfl

theorem decode32bit_opImm (h : Fields word 0x13 rd funct3 rs1 rs2 funct7) :
    decode32bit X word pc =
      (decodeOpImm funct3 funct7 rd rs1 word).map (instrOf word pc) := by
  unfold decode32bit
  simp only [h.opcode, h.rd, h.funct3, h.rs1, h.funct7]
  rfl

theorem decode32bit_opImm32 (h : Fields word 0x1B rd funct3 rs1 rs2 funct7) :
    decode32bit X word pc =
      (if X.value = 64 then decodeOpImm32 funct3 funct7 rd rs1 word else none).map
        (instrOf word pc) := by
  unfold decode32bit
  simp only [h.opcode, h.rd, h.funct3, h.rs1, h.funct7]
  rfl

theorem decode32bit_load (h : Fields word 0x03 rd funct3 rs1 rs2 funct7) :
    decode32bit X word pc = (decodeLoad X funct3 rd rs1 word).map (instrOf word pc) := by
  unfold decode32bit
  simp only [h.opcode, h.rd, h.funct3, h.rs1]
  rfl

theorem decode32bit_store (h : Fields word 0x23 rd funct3 rs1 rs2 funct7) :
    decode32bit X word pc = (decodeStore X funct3 rs1 rs2 word).map (instrOf word pc) := by
  unfold decode32bit
  simp only [h.opcode, h.funct3, h.rs1, h.rs2]
  rfl

theorem decode32bit_branch (h : Fields word 0x63 rd funct3 rs1 rs2 funct7) :
    decode32bit X word pc = (decodeBranch funct3 rs1 rs2 word).map (instrOf word pc) := by
  unfold decode32bit
  simp only [h.opcode, h.funct3, h.rs1, h.rs2]
  rfl

end Selection

section Decode

variable {handler : DecodedInstr X → InstrIR X} {pc : X.Reg} (rest : List (BitVec 8))

theorem mod_four_of_opcode {word : BitVec 32} {opcode : ℕ} (h : decodeOpcode word = opcode)
    (hop : opcode % 4 = 3) : word.toNat % 4 = 3 := by
  have hquot := (fields_toNat word).opcode
  omega

/-- A word that the base decoder accepts. -/
theorem decode_of_base {word : BitVec 32} {d : DecodedInstr X} {opcode : ℕ}
    (hopcode : decodeOpcode word = opcode) (hop : opcode % 4 = 3)
    (h : decode32bit X word pc = some d) :
    (standardWith X handler).decode (wordBytes word ++ rest) pc = some d :=
  standard_decode_word [cExtension X] (baseExtension X) (mod_four_of_opcode hopcode hop) rest rfl
    (by simp [cExtension]) h

/-- A word that the base decoder leaves to the M extension. -/
theorem decode_of_m {word : BitVec 32} {d : DecodedInstr X} {opcode : ℕ}
    (hopcode : decodeOpcode word = opcode) (hop : opcode % 4 = 3)
    (hbase : decode32bit X word pc = none) (h : decodeM X word pc = some d) :
    (standardWith X handler).decode (wordBytes word ++ rest) pc = some d :=
  standard_decode_word [cExtension X, baseExtension X] (mExtension X)
    (mod_four_of_opcode hopcode hop) rest rfl (by simp [cExtension, baseExtension, hbase]) h

theorem decode_reg (op : RegOp) (rd rs1 rs2 : RegId) :
    (standardWith X handler).decode
      (wordBytes (Instr.reg op rd rs1 rs2).encode ++ rest) pc =
        some ((Instr.reg op rd rs1 rs2).decoded pc) := by
  have h : Fields (Instr.reg op rd rs1 rs2).encode 0x33 rd.toNat op.funct3.toNat rs1.toNat rs2.toNat
      op.funct7.toNat := fields_rType op.funct7 0b0110011 rs2 rs1 rd op.funct3
  have hbase := decode32bit_op pc h
  cases op
  case mul | mulh | mulhsu | mulhu | div | divu | rem | remu =>
    refine decode_of_m rest h.opcode rfl hbase ?_
    unfold decodeM
    simp only [h.opcode, h.rd, h.funct3, h.rs1, h.rs2, h.funct7]
    rfl
  all_goals exact decode_of_base rest h.opcode rfl hbase

theorem decode_regW (op : WordOp) (rd rs1 rs2 : RegId) {pc : Xlen.rv64.Reg}
    {handler : DecodedInstr .rv64 → InstrIR .rv64} :
    (standardWith .rv64 handler).decode
      (wordBytes (Instr.regW op rd rs1 rs2).encode ++ rest) pc =
        some ((Instr.regW op rd rs1 rs2).decoded pc) := by
  have h : Fields (Instr.regW op rd rs1 rs2).encode 0x3B rd.toNat op.funct3.toNat rs1.toNat
      rs2.toNat op.funct7.toNat := fields_rType op.funct7 0b0111011 rs2 rs1 rd op.funct3
  have hbase := decode32bit_op32 pc h
  cases op
  case mulw | divw | divuw | remw | remuw =>
    refine decode_of_m rest h.opcode rfl hbase ?_
    unfold decodeM
    simp only [h.opcode, h.rd, h.funct3, h.rs1, h.rs2, h.funct7]
    rfl
  all_goals exact decode_of_base rest h.opcode rfl hbase

theorem decode_opImm (op : ImmOp) (rd rs1 : RegId) (imm : BitVec 12) :
    (standardWith X handler).decode
      (wordBytes (Instr.opImm op rd rs1 imm).encode ++ rest) pc =
        some ((Instr.opImm op rd rs1 imm).decoded pc) := by
  have h : Fields (Instr.opImm op rd rs1 imm).encode 0x13 rd.toNat op.funct3.toNat rs1.toNat _ _ :=
    fields_iType 0b0010011 rs1 rd op.funct3 imm
  have himm : decodeIImm (Instr.opImm op rd rs1 imm).encode = imm.signExtend 32 :=
    decodeIImm_iType 0b0010011 rs1 rd op.funct3 imm
  refine decode_of_base rest h.opcode rfl ((decode32bit_opImm pc h).trans ?_)
  unfold decodeOpImm
  rw [himm]
  cases op <;> rfl

/-- The shift amount of an immediate shift. -/
theorem shamt_iType (funct6 shamt : BitVec 6) (rs1 rd : RegId) (funct3 : BitVec 3)
    (opcode : BitVec 7) :
    (iType (funct6 ++ shamt) rs1 funct3 rd opcode >>> 20) &&& 0x3F = shamt.setWidth 32 := by
  have h5 := shamt.isLt
  apply BitVec.eq_of_toNat_eq
  rw [BitVec.toNat_setWidth_of_le (by decide)]
  refine Word.toNat_field_of_bounds _ 20 6 funct6.toNat rfl h5 ?_ ?_ <;>
    rw [iType_toNat, Word.toNat_append] <;> omega

theorem decode_shiftImm (op : ShiftOp) (rd rs1 : RegId) (shamt : BitVec 6) :
    (standardWith X handler).decode
      (wordBytes (Instr.shiftImm op rd rs1 shamt).encode ++ rest) pc =
        some ((Instr.shiftImm op rd rs1 shamt).decoded pc) := by
  have h : Fields (Instr.shiftImm op rd rs1 shamt).encode 0x13 rd.toNat op.funct3.toNat rs1.toNat _
      _ :=
    fields_iType 0b0010011 rs1 rd op.funct3 (op.funct7.extractLsb' 1 6 ++ shamt)
  have hshamt : ((Instr.shiftImm op rd rs1 shamt).encode >>> 20) &&& 0x3F = shamt.setWidth 32 :=
    shamt_iType (op.funct7.extractLsb' 1 6) shamt rs1 rd op.funct3 0b0010011
  refine decode_of_base rest h.opcode rfl ((decode32bit_opImm pc h).trans ?_)
  unfold decodeOpImm
  rw [hshamt]
  -- The decoder ignores the lowest bit of funct7, which is the top bit of the amount.
  have hhigh : shamt.toNat / 32 = 0 ∨ shamt.toNat / 32 = 1 := by
    omega
  have hfunct7 : (op.funct7.extractLsb' 1 6 ++ shamt).toNat / 32 =
      (op.funct7.extractLsb' 1 6).toNat * 2 + shamt.toNat / 32 := by
    rw [Word.toNat_append]
    omega
  rw [hfunct7]
  cases op <;> rcases hhigh with hhigh | hhigh <;> rw [hhigh] <;> rfl

theorem decode_load (op : LoadOp) (rd rs1 : RegId) (imm : BitVec 12)
    (hlegal : (Instr.load op rd rs1 imm).Legal X) :
    (standardWith X handler).decode
      (wordBytes (Instr.load op rd rs1 imm).encode ++ rest) pc =
        some ((Instr.load op rd rs1 imm).decoded pc) := by
  have h : Fields (Instr.load op rd rs1 imm).encode 0x03 rd.toNat op.funct3.toNat rs1.toNat _ _ :=
    fields_iType 0b0000011 rs1 rd op.funct3 imm
  have himm : decodeIImm (Instr.load op rd rs1 imm).encode = imm.signExtend 32 :=
    decodeIImm_iType 0b0000011 rs1 rd op.funct3 imm
  refine decode_of_base rest h.opcode rfl ((decode32bit_load pc h).trans ?_)
  unfold decodeLoad
  rw [himm]
  cases op
  case ld | lwu =>
    cases hlegal
    rfl
  all_goals rfl

theorem decode_store (op : StoreOp) (rs1 rs2 : RegId) (imm : BitVec 12)
    (hlegal : (Instr.store op rs1 rs2 imm).Legal X) :
    (standardWith X handler).decode
      (wordBytes (Instr.store op rs1 rs2 imm).encode ++ rest) pc =
        some ((Instr.store op rs1 rs2 imm).decoded pc) := by
  have h : Fields (Instr.store op rs1 rs2 imm).encode 0x23 _ op.funct3.toNat rs1.toNat rs2.toNat
      _ :=
    fields_rType (imm.extractLsb' 5 7) 0b0100011 rs2 rs1 (imm.extractLsb' 0 5) op.funct3
  have himm : decodeSImm (Instr.store op rs1 rs2 imm).encode = imm.signExtend 32 :=
    decodeSImm_sType 0b0100011 rs2 rs1 op.funct3 imm
  refine decode_of_base rest h.opcode rfl ((decode32bit_store pc h).trans ?_)
  unfold decodeStore
  rw [himm]
  cases op
  case sd =>
    cases hlegal
    rfl
  all_goals rfl

theorem decode_branch (op : BranchOp) (rs1 rs2 : RegId) (offset : BitVec 12) :
    (standardWith X handler).decode
      (wordBytes (Instr.branch op rs1 rs2 offset).encode ++ rest) pc =
        some ((Instr.branch op rs1 rs2 offset).decoded pc) := by
  have h : Fields (Instr.branch op rs1 rs2 offset).encode 0x63 _ op.funct3.toNat rs1.toNat rs2.toNat
      _ := fields_bType 0b1100011 rs2 rs1 op.funct3 offset
  have himm : decodeBImm (Instr.branch op rs1 rs2 offset).encode = (offset ++ 0#1).signExtend 32 :=
    decodeBImm_bType 0b1100011 rs2 rs1 op.funct3 offset
  refine decode_of_base rest h.opcode rfl ((decode32bit_branch pc h).trans ?_)
  unfold decodeBranch
  rw [himm]
  cases op <;> rfl

theorem decode_addiw (rd rs1 : RegId) (imm : BitVec 12) {pc : Xlen.rv64.Reg}
    {handler : DecodedInstr .rv64 → InstrIR .rv64} :
    (standardWith .rv64 handler).decode
      (wordBytes (Instr.addiw rd rs1 imm).encode ++ rest) pc =
        some ((Instr.addiw rd rs1 imm).decoded pc) := by
  have h : Fields (Instr.addiw rd rs1 imm).encode 0x1B rd.toNat 0 rs1.toNat _ _ :=
    fields_iType 0b0011011 rs1 rd 0b000 imm
  have himm : decodeIImm (Instr.addiw rd rs1 imm).encode = imm.signExtend 32 :=
    decodeIImm_iType 0b0011011 rs1 rd 0b000 imm
  refine decode_of_base rest h.opcode rfl ((decode32bit_opImm32 pc h).trans ?_)
  unfold decodeOpImm32
  rw [himm]
  rfl

theorem decode_shiftImmW (op : ShiftOp) (rd rs1 : RegId) (shamt : BitVec 5) {pc : Xlen.rv64.Reg}
    {handler : DecodedInstr .rv64 → InstrIR .rv64} :
    (standardWith .rv64 handler).decode
      (wordBytes (Instr.shiftImmW op rd rs1 shamt).encode ++ rest) pc =
        some ((Instr.shiftImmW op rd rs1 shamt).decoded pc) := by
  have h : Fields (Instr.shiftImmW op rd rs1 shamt).encode 0x1B rd.toNat op.funct3.toNat rs1.toNat
      shamt.toNat op.funct7.toNat := fields_rType op.funct7 0b0011011 shamt rs1 rd op.funct3
  have hshamt : ((Instr.shiftImmW op rd rs1 shamt).encode >>> 20) &&& 0x1F = shamt.setWidth 32 := by
    apply BitVec.eq_of_toNat_eq
    exact h.rs2
  refine decode_of_base rest h.opcode rfl ((decode32bit_opImm32 pc h).trans ?_)
  unfold decodeOpImm32
  rw [hshamt]
  cases op <;> rfl

theorem decode_jalr (rd rs1 : RegId) (imm : BitVec 12) :
    (standardWith X handler).decode
      (wordBytes (Instr.jalr rd rs1 imm).encode ++ rest) pc =
        some ((Instr.jalr rd rs1 imm).decoded pc) := by
  have h : Fields (Instr.jalr rd rs1 imm).encode 0x67 rd.toNat 0 rs1.toNat _ _ :=
    fields_iType 0b1100111 rs1 rd 0b000 imm
  have himm : decodeIImm (Instr.jalr rd rs1 imm).encode = imm.signExtend 32 :=
    decodeIImm_iType 0b1100111 rs1 rd 0b000 imm
  refine decode_of_base rest h.opcode rfl ?_
  unfold decode32bit
  simp only [h.opcode, h.rd, h.funct3, h.rs1, himm]
  rfl

theorem decode_jal (rd : RegId) (offset : BitVec 20) :
    (standardWith X handler).decode
      (wordBytes (Instr.jal rd offset).encode ++ rest) pc =
        some ((Instr.jal rd offset).decoded pc) := by
  obtain ⟨hopcode, hrd⟩ : decodeOpcode (Instr.jal rd offset).encode = 0x6F ∧
      decodeRd (Instr.jal rd offset).encode = rd.toNat := fields_uType 0b1101111 rd _
  have himm : decodeJImm (Instr.jal rd offset).encode = (offset ++ 0#1).signExtend 32 :=
    decodeJImm_jType 0b1101111 rd offset
  refine decode_of_base rest hopcode rfl ?_
  unfold decode32bit
  simp only [hopcode, hrd, himm]
  rfl

theorem decode_lui (rd : RegId) (imm : BitVec 20) :
    (standardWith X handler).decode
      (wordBytes (Instr.lui rd imm).encode ++ rest) pc =
        some ((Instr.lui rd imm).decoded pc) := by
  obtain ⟨hopcode, hrd⟩ : decodeOpcode (Instr.lui rd imm).encode = 0x37 ∧
      decodeRd (Instr.lui rd imm).encode = rd.toNat := fields_uType 0b0110111 rd imm
  have himm : decodeUImm (Instr.lui rd imm).encode = imm ++ 0#12 :=
    decodeUImm_uType 0b0110111 rd imm
  refine decode_of_base rest hopcode rfl ?_
  unfold decode32bit
  simp only [hopcode, hrd, himm]
  rfl

theorem decode_auipc (rd : RegId) (imm : BitVec 20) :
    (standardWith X handler).decode
      (wordBytes (Instr.auipc rd imm).encode ++ rest) pc =
        some ((Instr.auipc rd imm).decoded pc) := by
  obtain ⟨hopcode, hrd⟩ : decodeOpcode (Instr.auipc rd imm).encode = 0x17 ∧
      decodeRd (Instr.auipc rd imm).encode = rd.toNat := fields_uType 0b0010111 rd imm
  have himm : decodeUImm (Instr.auipc rd imm).encode = imm ++ 0#12 :=
    decodeUImm_uType 0b0010111 rd imm
  refine decode_of_base rest hopcode rfl ?_
  unfold decode32bit
  simp only [hopcode, hrd, himm]
  rfl

/-- The standard registry decodes every legal encoding to the instruction it encodes. -/
theorem decode_encode (i : Instr) (hlegal : i.Legal X) :
    (standardWith X handler).decode (wordBytes i.encode ++ rest) pc =
      some (i.decoded pc) := by
  cases i with
  | lui rd imm => exact decode_lui rest rd imm
  | auipc rd imm => exact decode_auipc rest rd imm
  | jal rd offset => exact decode_jal rest rd offset
  | jalr rd rs1 imm => exact decode_jalr rest rd rs1 imm
  | branch op rs1 rs2 offset => exact decode_branch rest op rs1 rs2 offset
  | load op rd rs1 imm => exact decode_load rest op rd rs1 imm hlegal
  | store op rs1 rs2 imm => exact decode_store rest op rs1 rs2 imm hlegal
  | opImm op rd rs1 imm => exact decode_opImm rest op rd rs1 imm
  | shiftImm op rd rs1 shamt => exact decode_shiftImm rest op rd rs1 shamt
  | addiw rd rs1 imm =>
    cases hlegal
    exact decode_addiw rest rd rs1 imm
  | shiftImmW op rd rs1 shamt =>
    cases hlegal
    exact decode_shiftImmW rest op rd rs1 shamt
  | reg op rd rs1 rs2 => exact decode_reg rest op rd rs1 rs2
  | regW op rd rs1 rs2 =>
    cases hlegal
    exact decode_regW rest op rd rs1 rs2

end Decode

end Rvr
