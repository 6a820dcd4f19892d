import Rvr.Isa.Registry

/-!
# Accepted instructions are well formed

Every operation has one argument format, and every instruction the standard registry decodes carries
arguments that its operation accepts (`standard_decode_accepts`): they have the operation's format
(`standard_decode_format`), so no lift of a decoded instruction meets arguments it was not written
for, and the few operations that ignore an operand have it fixed.
-/

namespace Rvr

variable {X : Xlen}

/-- Argument formats. -/
inductive Format
  | r | r4 | i | s | b | u | j | csr | csrI | amo | none | custom
  deriving DecidableEq, Repr

def InstrArgs.format : InstrArgs → Format
  | .R .. => .r
  | .R4 .. => .r4
  | .I .. => .i
  | .S .. => .s
  | .B .. => .b
  | .U .. => .u
  | .J .. => .j
  | .Csr .. => .csr
  | .CsrI .. => .csrI
  | .Amo .. => .amo
  | .none => .none
  | .custom _ => .custom

def BaseOp.format : BaseOp → Format
  | .lui | .auipc => .u
  | .jal => .j
  | .beq | .bne | .blt | .bge | .bltu | .bgeu => .b
  | .sb | .sh | .sw | .sd => .s
  | .jalr | .lb | .lh | .lw | .lbu | .lhu | .lwu | .ld | .addi | .slti | .sltiu | .xori | .ori
  | .andi | .slli | .srli | .srai | .addiw | .slliw | .srliw | .sraiw => .i
  | .add | .sub | .sll | .slt | .sltu | .xor | .srl | .sra | .or | .and | .addw | .subw | .sllw
  | .srlw | .sraw => .r
  | .fence | .ecall | .ebreak | .mret => .none

def COp.format : COp → Format
  | .sw | .sd | .swsp | .sdsp => .s
  | .jal | .j => .j
  | .lui => .u
  | .beqz | .bnez => .b
  | .sub | .xor | .or | .and | .subw | .addw | .mv | .add => .r
  | .nop | .ebreak => .none
  | .addi4spn | .lw | .ld | .addi | .addiw | .li | .addi16sp | .srli | .srai | .andi | .slli
  | .lwsp | .ldsp | .jr | .jalr | .invalid => .i

def ZicsrOp.format : ZicsrOp → Format
  | .csrrw | .csrrs | .csrrc => .csr
  | .csrrwi | .csrrsi | .csrrci => .csrI

def ZbaOp.format : ZbaOp → Format
  | .slliUw => .i
  | _ => .r

def ZbbOp.format : ZbbOp → Format
  | .andn | .orn | .xnor | .max | .maxu | .min | .minu | .rol | .ror | .rolw | .rorw => .r
  | _ => .i

def ZbsOp.format : ZbsOp → Format
  | .bclr | .bext | .binv | .bset => .r
  | .bclri | .bexti | .binvi | .bseti => .i

def ZbkbOp.format : ZbkbOp → Format
  | .pack | .packh | .packw => .r
  | .brev8 | .zip | .unzip => .i

/-- The format of an operation; operations outside the standard extensions have no fixed one. -/
def OpId.format : OpId → Option Format
  | .i op => some op.format
  | .m _ => some .r
  | .a _ => some .amo
  | .c op => some op.format
  | .zicsr op => some op.format
  | .zifencei _ => some .none
  | .zba op => some op.format
  | .zbb op => some op.format
  | .zbs op => some op.format
  | .zbkb op => some op.format
  | .zicond _ => some .r
  | .custom _ _ => none

/-- The source register is `x0`. -/
def InstrArgs.SourceZero : InstrArgs → Prop
  | .I _ rs1 _ => rs1 = 0
  | _ => True

/-- The instruction writes no register. -/
def InstrArgs.DestZero : InstrArgs → Prop
  | .I rd _ _ | .J rd _ => rd = 0
  | _ => True

/-- The offset fits in the 16 bits that the IR keeps of it. -/
def InstrArgs.OffsetFits : InstrArgs → Prop
  | .I _ _ imm => (toI16 imm).signExtend 32 = imm
  | _ => True

/-- What holds of the operands of `c.li`, `c.j`, `c.jr` and of loads besides their format. -/
def OpId.OperandsOk (args : InstrArgs) : OpId → Prop
  | .c .li => args.SourceZero
  | .c .j | .c .jr => args.DestZero
  | .i .lb | .i .lbu | .i .lh | .i .lhu | .i .lw | .i .lwu | .i .ld => args.OffsetFits
  | .c .lw | .c .lwsp | .c .ld | .c .ldsp => args.OffsetFits
  | _ => True

/-- Arguments that an operation can have. -/
structure OpId.Accepts (opid : OpId) (args : InstrArgs) : Prop where
  format_eq : opid.format = some args.format
  operands : opid.OperandsOk args

/-- The instruction is at an address and has a size. -/
def DecodedInstr.At (d : DecodedInstr X) (pc : X.Reg) (size : ℕ) : Prop := d.pc = pc ∧ d.size = size

/-- What a decoder says of the instruction that it finds in a word of a size: it keeps the address
that it was decoded for, and its operation accepts the arguments. -/
structure DecodedInstr.Found (d : DecodedInstr X) (pc : X.Reg) (size : ℕ) : Prop where
  place : d.At pc size
  accepts : d.opid.Accepts d.args

/-- The immediate of a load has twelve bits. -/
theorem offsetFits_decodeIImm (instr : BitVec 32) :
    (toI16 (decodeIImm instr)).signExtend 32 = decodeIImm instr := by
  apply BitVec.eq_of_getLsbD_eq
  intro i hi
  simp only [toI16, decodeIImm, BitVec.getLsbD_signExtend, BitVec.getLsbD_setWidth,
    BitVec.msb_eq_getLsbD_last, BitVec.getLsbD_sshiftRight]
  by_cases h : i < 12
  · simp [hi, show i < 16 by omega]
  · by_cases h' : i < 16
    · simp [hi, h']
    · simp [hi, h', show ¬ 20 + i < 32 by omega]

/-- An unsigned offset below `2 ^ 15` fits. -/
theorem offsetFits_setWidth {imm : BitVec 16} (h : imm.msb = false) :
    (toI16 (imm.setWidth 32)).signExtend 32 = imm.setWidth 32 := by
  have hnarrow : toI16 (imm.setWidth 32) = imm := BitVec.setWidth_setWidth_of_le imm (by decide)
  rw [hnarrow, BitVec.signExtend_eq_setWidth_of_msb_false h]

/-! ## The decoders of the base extension -/

section Base

variable {funct3 funct7 rd rs1 rs2 : ℕ} {instr : BitVec 32} {p : OpId × InstrArgs}

theorem decodeBranch_accepts (h : decodeBranch funct3 rs1 rs2 instr = some p) :
    p.1.Accepts p.2 := by
  obtain ⟨op, hop, rfl⟩ := Option.map_eq_some_iff.1 h
  split at hop <;> cases hop <;> exact ⟨rfl, trivial⟩

theorem decodeLoad_accepts (h : decodeLoad X funct3 rd rs1 instr = some p) :
    p.1.Accepts p.2 := by
  obtain ⟨op, hop, rfl⟩ := Option.map_eq_some_iff.1 h
  split at hop <;> (try split_ifs at hop) <;> cases hop <;> exact ⟨rfl, offsetFits_decodeIImm instr⟩

theorem decodeStore_accepts (h : decodeStore X funct3 rs1 rs2 instr = some p) :
    p.1.Accepts p.2 := by
  obtain ⟨op, hop, rfl⟩ := Option.map_eq_some_iff.1 h
  split at hop <;> (try split_ifs at hop) <;> cases hop <;> exact ⟨rfl, trivial⟩

theorem decodeOpImm_accepts (h : decodeOpImm funct3 funct7 rd rs1 instr = some p) :
    p.1.Accepts p.2 := by
  obtain ⟨op, hop, rfl⟩ := Option.map_eq_some_iff.1 h
  split at hop <;> (try split_ifs at hop) <;> cases hop <;> exact ⟨rfl, trivial⟩

theorem decodeOpImm32_accepts (h : decodeOpImm32 funct3 funct7 rd rs1 instr = some p) :
    p.1.Accepts p.2 := by
  obtain ⟨op, hop, rfl⟩ := Option.map_eq_some_iff.1 h
  split at hop <;> (try split_ifs at hop) <;> cases hop <;> exact ⟨rfl, trivial⟩

theorem decodeOp_accepts (h : decodeOp funct3 funct7 rd rs1 rs2 = some p) :
    p.1.Accepts p.2 := by
  obtain ⟨op, hop, rfl⟩ := Option.map_eq_some_iff.1 h
  split at hop <;> cases hop <;> exact ⟨rfl, trivial⟩

theorem decodeOp32_accepts (h : decodeOp32 funct3 funct7 rd rs1 rs2 = some p) :
    p.1.Accepts p.2 := by
  obtain ⟨op, hop, rfl⟩ := Option.map_eq_some_iff.1 h
  split at hop <;> cases hop <;> exact ⟨rfl, trivial⟩

theorem decodeSystem_accepts (h : decodeSystem instr = some p) : p.1.Accepts p.2 := by
  unfold decodeSystem at h
  split_ifs at h <;> cases h <;> exact ⟨rfl, trivial⟩

end Base

theorem decode32bit_found {raw : BitVec 32} {pc : X.Reg} {d : DecodedInstr X}
    (h : decode32bit X raw pc = some d) : d.Found pc 4 := by
  obtain ⟨⟨opid, args⟩, hfound, rfl⟩ := Option.map_eq_some_iff.1 h
  refine ⟨⟨rfl, rfl⟩, ?_⟩
  split at hfound <;> (try split_ifs at hfound)
  · cases hfound; exact ⟨rfl, trivial⟩
  · cases hfound; exact ⟨rfl, trivial⟩
  · cases hfound; exact ⟨rfl, trivial⟩
  · cases hfound; exact ⟨rfl, trivial⟩
  · exact decodeBranch_accepts hfound
  · exact decodeLoad_accepts hfound
  · exact decodeStore_accepts hfound
  · exact decodeOpImm_accepts hfound
  · exact decodeOpImm32_accepts hfound
  · exact decodeOp_accepts hfound
  · exact decodeOp32_accepts hfound
  · cases hfound; exact ⟨rfl, trivial⟩
  · exact decodeSystem_accepts hfound
  · cases hfound

/-! ## The other decoders -/

section Others

variable {raw : BitVec 32} {pc : X.Reg} {d : DecodedInstr X}

theorem decodeM_found (h : decodeM X raw pc = some d) : (∃ op, d.opid = .m op) ∧ d.Found pc 4 := by
  obtain ⟨op, -, rfl⟩ := Option.map_eq_some_iff.1 h
  exact ⟨⟨_, rfl⟩, ⟨rfl, rfl⟩, rfl, trivial⟩

theorem decodeA_found (h : decodeA X raw pc = some d) : (∃ op, d.opid = .a op) ∧ d.Found pc 4 := by
  unfold decodeA at h
  simp only at h
  split_ifs at h
  obtain ⟨op, -, rfl⟩ := Option.map_eq_some_iff.1 h
  exact ⟨⟨_, rfl⟩, ⟨rfl, rfl⟩, rfl, trivial⟩

theorem decodeZicsr_found (h : decodeZicsr X raw pc = some d) :
    (∃ op, d.opid = .zicsr op) ∧ d.Found pc 4 := by
  unfold decodeZicsr at h
  simp only at h
  split_ifs at h
  obtain ⟨⟨op, args⟩, hfound, rfl⟩ := Option.map_eq_some_iff.1 h
  split at hfound <;> cases hfound <;> exact ⟨⟨_, rfl⟩, ⟨rfl, rfl⟩, rfl, trivial⟩

theorem decodeZifencei_found (h : decodeZifencei X raw pc = some d) :
    (∃ op, d.opid = .zifencei op) ∧ d.Found pc 4 := by
  unfold decodeZifencei at h
  split_ifs at h
  cases h
  exact ⟨⟨_, rfl⟩, ⟨rfl, rfl⟩, rfl, trivial⟩

theorem decodeZba_found (h : decodeZba X raw pc = some d) : d.Found pc 4 := by
  unfold decodeZba at h
  simp only at h
  split_ifs at h <;> (try split at h) <;> cases h <;> exact ⟨⟨rfl, rfl⟩, rfl, trivial⟩

variable {p : ZbbOp × InstrArgs}

theorem decodeZbbRtype_accepts {funct3 funct7 rs2 rd rs1 : ℕ}
    (h : decodeZbbRtype X funct3 funct7 rs2 rd rs1 = some p) : (OpId.zbb p.1).Accepts p.2 := by
  unfold decodeZbbRtype at h
  split_ifs at h
  · cases h; exact ⟨rfl, trivial⟩
  · obtain ⟨op, hop, rfl⟩ := Option.map_eq_some_iff.1 h
    split at hop <;> (try split at hop) <;> cases hop <;> exact ⟨rfl, trivial⟩

theorem decodeZbbOpImm_accepts {funct3 imm12 rd rs1 : ℕ}
    (h : decodeZbbOpImm X raw funct3 imm12 rd rs1 = some p) : (OpId.zbb p.1).Accepts p.2 := by
  unfold decodeZbbOpImm at h
  split at h
  · obtain ⟨op, hop, rfl⟩ := Option.map_eq_some_iff.1 h
    split at hop <;> cases hop <;> exact ⟨rfl, trivial⟩
  · split_ifs at h <;> cases h <;> exact ⟨rfl, trivial⟩

theorem decodeZbbOp32_accepts {funct3 funct7 rs2 rd rs1 : ℕ}
    (h : decodeZbbOp32 funct3 funct7 rs2 rd rs1 = some p) : (OpId.zbb p.1).Accepts p.2 := by
  unfold decodeZbbOp32 at h
  split_ifs at h
  · cases h; exact ⟨rfl, trivial⟩
  · obtain ⟨op, hop, rfl⟩ := Option.map_eq_some_iff.1 h
    split at hop <;> cases hop <;> exact ⟨rfl, trivial⟩

theorem decodeZbbOpImm32_accepts {funct3 funct7 rd rs1 : ℕ}
    (h : decodeZbbOpImm32 raw funct3 funct7 rd rs1 = some p) : (OpId.zbb p.1).Accepts p.2 := by
  unfold decodeZbbOpImm32 at h
  split_ifs at h
  · obtain ⟨op, hop, rfl⟩ := Option.map_eq_some_iff.1 h
    split at hop <;> cases hop <;> exact ⟨rfl, trivial⟩
  · cases h; exact ⟨rfl, trivial⟩

theorem decodeZbb_found (h : decodeZbb X raw pc = some d) : d.Found pc 4 := by
  obtain ⟨⟨op, args⟩, hfound, rfl⟩ := Option.map_eq_some_iff.1 h
  refine ⟨⟨rfl, rfl⟩, ?_⟩
  split at hfound <;> (try split_ifs at hfound)
  · exact decodeZbbRtype_accepts hfound
  · exact decodeZbbOpImm_accepts hfound
  · exact decodeZbbOp32_accepts hfound
  · exact decodeZbbOpImm32_accepts hfound
  · cases hfound

theorem decodeZbs_found (h : decodeZbs X raw pc = some d) : d.Found pc 4 := by
  obtain ⟨⟨op, args⟩, hfound, rfl⟩ := Option.map_eq_some_iff.1 h
  -- the shift amount has a mask of its own for each width, which plays no role here
  generalize (raw >>> 20) &&& (if X.value = 32 then 0x1F else 0x3F) = shamt at hfound
  simp only at hfound
  split_ifs at hfound <;> (try split at hfound) <;> cases hfound <;>
    exact ⟨⟨rfl, rfl⟩, rfl, trivial⟩

theorem decodeZbkb_found (h : decodeZbkb X raw pc = some d) :
    (∃ op, d.opid = .zbkb op) ∧ d.Found pc 4 := by
  unfold decodeZbkb at h
  simp only at h
  split_ifs at h <;> cases h <;> exact ⟨⟨_, rfl⟩, ⟨rfl, rfl⟩, rfl, trivial⟩

theorem decodeZicond_found (h : decodeZicond X raw pc = some d) :
    (∃ op, d.opid = .zicond op) ∧ d.Found pc 4 := by
  unfold decodeZicond at h
  split_ifs at h <;> cases h <;> exact ⟨⟨_, rfl⟩, ⟨rfl, rfl⟩, rfl, trivial⟩

end Others

section Compressed

variable {instr : BitVec 16} {funct3 : ℕ} {p : COp × InstrArgs}

theorem decodeQ0_accepts (h : decodeQ0 X instr funct3 = some p) : (OpId.c p.1).Accepts p.2 := by
  unfold decodeQ0 at h
  simp only at h
  split at h
  · split_ifs at h; cases h; exact ⟨rfl, trivial⟩
  · cases h; exact ⟨rfl, offsetFits_setWidth (by simp [decodeClLwOffset])⟩
  · split_ifs at h; cases h; exact ⟨rfl, offsetFits_setWidth (by simp [decodeClLdOffset])⟩
  · cases h; exact ⟨rfl, trivial⟩
  · split_ifs at h; cases h; exact ⟨rfl, trivial⟩
  · cases h

theorem decodeMiscAlu_accepts (h : decodeMiscAlu X instr = some p) : (OpId.c p.1).Accepts p.2 := by
  unfold decodeMiscAlu at h
  split at h
  · cases h; exact ⟨rfl, trivial⟩
  · cases h; exact ⟨rfl, trivial⟩
  · cases h; exact ⟨rfl, trivial⟩
  · obtain ⟨op, hop, rfl⟩ := Option.map_eq_some_iff.1 h
    split_ifs at hop <;> (try split at hop) <;> cases hop <;> exact ⟨rfl, trivial⟩
  · cases h

theorem decodeQ1_accepts (h : decodeQ1 X instr funct3 = some p) : (OpId.c p.1).Accepts p.2 := by
  unfold decodeQ1 at h
  split at h
  · cases h
    unfold decodeQ1Addi
    simp only
    split_ifs <;> exact ⟨rfl, trivial⟩
  · unfold decodeQ1AddiwOrJal at h
    simp only at h
    split_ifs at h <;> cases h <;> exact ⟨rfl, trivial⟩
  · cases h; exact ⟨rfl, rfl⟩
  · unfold decodeQ1Addi16spOrLui at h
    simp only at h
    split_ifs at h <;> cases h <;> exact ⟨rfl, trivial⟩
  · exact decodeMiscAlu_accepts h
  · cases h; exact ⟨rfl, rfl⟩
  · cases h; exact ⟨rfl, trivial⟩
  · cases h; exact ⟨rfl, trivial⟩
  · cases h

theorem decodeQ2_accepts (h : decodeQ2 X instr funct3 = some p) : (OpId.c p.1).Accepts p.2 := by
  unfold decodeQ2 at h
  simp only at h
  split at h
  · split_ifs at h; cases h; exact ⟨rfl, trivial⟩
  · split_ifs at h; cases h; exact ⟨rfl, offsetFits_setWidth (by simp [decodeCiLwspOffset])⟩
  · split_ifs at h; cases h; exact ⟨rfl, offsetFits_setWidth (by simp [decodeCiLdspOffset])⟩
  · unfold decodeQ2Reg at h
    simp only at h
    split_ifs at h <;> cases h <;> first | exact ⟨rfl, trivial⟩ | exact ⟨rfl, rfl⟩
  · cases h; exact ⟨rfl, trivial⟩
  · split_ifs at h; cases h; exact ⟨rfl, trivial⟩
  · cases h

theorem decodeC_found {pc : X.Reg} {d : DecodedInstr X} (h : decodeC X instr pc = some d) :
    d.Found pc 2 := by
  have hquadrants {result : Option (COp × InstrArgs)}
      (hr : ∀ p, result = some p → (OpId.c p.1).Accepts p.2) :
      (OpId.c (result.getD (.invalid, .I 0 0 (instr.setWidth 32))).1).Accepts
        (result.getD (.invalid, .I 0 0 (instr.setWidth 32))).2 := by
    cases result with
    | none => exact ⟨rfl, trivial⟩
    | some p => exact hr p rfl
  cases h
  refine ⟨⟨rfl, rfl⟩, hquadrants fun p hp => ?_⟩
  split at hp
  · exact decodeQ0_accepts hp
  · exact decodeQ1_accepts hp
  · exact decodeQ2_accepts hp
  · cases hp

end Compressed

/-! ## The registry -/

variable {bytes : List (BitVec 8)}

/-- A decoded instruction comes from one of the two decoders of an extension. -/
theorem InstructionExtension.decode_cases {e : InstructionExtension X}
    {pc : X.Reg} {d : DecodedInstr X} (h : e.decode bytes pc = some d) :
    (∃ low, e.decode16 low pc = some d) ∨ ∃ raw, e.decode32 raw pc = some d := by
  unfold InstructionExtension.decode at h
  split at h
  · simp only at h
    split_ifs at h
    · exact .inl ⟨_, h⟩
    · split at h
      · exact .inr ⟨_, h⟩
      · cases h
  · cases h

variable {handler : DecodedInstr X → InstrIR X}

/-- The decoder that a decoded instruction comes from: only the C extension has one for 16-bit
words. -/
theorem standard_decode_cases {pc : X.Reg} {d : DecodedInstr X}
    (h : (ExtensionRegistry.standardWith X handler).decode bytes pc = some d) :
    (∃ low, decodeC X low pc = some d) ∨
      ∃ raw, decode32bit X raw pc = some d ∨ decodeM X raw pc = some d ∨
        decodeA X raw pc = some d ∨ decodeZicsr X raw pc = some d ∨
        decodeZifencei X raw pc = some d ∨ decodeZba X raw pc = some d ∨
        decodeZbb X raw pc = some d ∨ decodeZbs X raw pc = some d ∨
        decodeZbkb X raw pc = some d ∨ decodeZicond X raw pc = some d := by
  obtain ⟨e, he, hd⟩ := List.exists_of_findSome?_eq_some h
  have hmem : e ∈ standardExtensions X := he
  simp only [standardExtensions, List.mem_cons, List.not_mem_nil, or_false] at hmem
  obtain ⟨low, hlow⟩ | ⟨raw, hraw⟩ := InstructionExtension.decode_cases hd
  · refine .inl ⟨low, ?_⟩
    rcases hmem with rfl | rfl | rfl | rfl | rfl | rfl | rfl | rfl | rfl | rfl | rfl
    · exact hlow
    all_goals cases hlow
  · refine .inr ⟨raw, ?_⟩
    rcases hmem with rfl | rfl | rfl | rfl | rfl | rfl | rfl | rfl | rfl | rfl | rfl
    · cases hraw
    · exact .inl hraw
    · exact .inr (.inl hraw)
    · exact .inr (.inr (.inl hraw))
    · exact .inr (.inr (.inr (.inl hraw)))
    · exact .inr (.inr (.inr (.inr (.inl hraw))))
    · exact .inr (.inr (.inr (.inr (.inr (.inl hraw)))))
    · exact .inr (.inr (.inr (.inr (.inr (.inr (.inl hraw))))))
    · exact .inr (.inr (.inr (.inr (.inr (.inr (.inr (.inl hraw)))))))
    · exact .inr (.inr (.inr (.inr (.inr (.inr (.inr (.inr (.inl hraw))))))))
    · exact .inr (.inr (.inr (.inr (.inr (.inr (.inr (.inr (.inr hraw))))))))

/-- The standard registry decodes an instruction of two or four bytes at the given address, with
arguments that its operation can have. -/
theorem standard_decode_found {pc : X.Reg} {d : DecodedInstr X}
    (h : (ExtensionRegistry.standardWith X handler).decode bytes pc = some d) :
    d.Found pc 2 ∨ d.Found pc 4 := by
  obtain ⟨low, h⟩ | ⟨raw, h⟩ := standard_decode_cases h
  · exact .inl (decodeC_found h)
  · right
    rcases h with h | h | h | h | h | h | h | h | h | h
    · exact decode32bit_found h
    · exact (decodeM_found h).2
    · exact (decodeA_found h).2
    · exact (decodeZicsr_found h).2
    · exact (decodeZifencei_found h).2
    · exact decodeZba_found h
    · exact decodeZbb_found h
    · exact decodeZbs_found h
    · exact (decodeZbkb_found h).2
    · exact (decodeZicond_found h).2

theorem standard_decode_accepts {pc : X.Reg} {d : DecodedInstr X}
    (h : (ExtensionRegistry.standardWith X handler).decode bytes pc = some d) :
    d.opid.Accepts d.args := (standard_decode_found h).elim (·.accepts) (·.accepts)

/-- The arguments of an instruction that the standard registry decodes have the format of its
operation. -/
theorem standard_decode_format {pc : X.Reg} {d : DecodedInstr X}
    (h : (ExtensionRegistry.standardWith X handler).decode bytes pc = some d) :
    d.opid.format = some d.args.format := (standard_decode_accepts h).format_eq

theorem standard_decode_at {pc : X.Reg} {d : DecodedInstr X}
    (h : (ExtensionRegistry.standardWith X handler).decode bytes pc = some d) :
    d.At pc 2 ∨ d.At pc 4 := (standard_decode_found h).imp (·.place) (·.place)

end Rvr
