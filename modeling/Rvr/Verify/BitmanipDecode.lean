import Rvr.Spec.Bitmanip
import Rvr.Verify.BaseDecode

/-!
# Decoding the bit-manipulation extensions

Every legal encoding of a Zba, Zbb, Zbs or Zbkb instruction is decoded to the instruction it encodes
(`decode_encode_bit`).  One encoding has two names: PACK on RV32 and PACKW on RV64 with rs2 = `x0`
are ZEXT.H, and the decoder takes them as such.
-/

namespace Rvr

open Spec

variable {X : Xlen}

/-! ## The decoded form of a specified instruction -/

namespace Spec

def BinaryBitOp.opid : BinaryBitOp → OpId
  | .sh1add => .zba .sh1add
  | .sh2add => .zba .sh2add
  | .sh3add => .zba .sh3add
  | .addUw => .zba .addUw
  | .sh1addUw => .zba .sh1addUw
  | .sh2addUw => .zba .sh2addUw
  | .sh3addUw => .zba .sh3addUw
  | .andn => .zbb .andn
  | .orn => .zbb .orn
  | .xnor => .zbb .xnor
  | .max => .zbb .max
  | .maxu => .zbb .maxu
  | .min => .zbb .min
  | .minu => .zbb .minu
  | .rol => .zbb .rol
  | .ror => .zbb .ror
  | .rolw => .zbb .rolw
  | .rorw => .zbb .rorw
  | .bclr => .zbs .bclr
  | .bext => .zbs .bext
  | .binv => .zbs .binv
  | .bset => .zbs .bset
  | .pack => .zbkb .pack
  | .packh => .zbkb .packh
  | .packw => .zbkb .packw

def UnaryBitOp.opid : UnaryBitOp → OpId
  | .clz => .zbb .clz
  | .ctz => .zbb .ctz
  | .cpop => .zbb .cpop
  | .clzw => .zbb .clzw
  | .ctzw => .zbb .ctzw
  | .cpopw => .zbb .cpopw
  | .sextB => .zbb .sextB
  | .sextH => .zbb .sextH
  | .zextH => .zbb .zextH
  | .orcB => .zbb .orcB
  | .rev8 => .zbb .rev8
  | .brev8 => .zbkb .brev8
  | .zip => .zbkb .zip
  | .unzip => .zbkb .unzip

def ShamtBitOp.opid : ShamtBitOp → OpId
  | .slliUw => .zba .slliUw
  | .rori => .zbb .rori
  | .roriw => .zbb .roriw
  | .bclri => .zbs .bclri
  | .bexti => .zbs .bexti
  | .binvi => .zbs .binvi
  | .bseti => .zbs .bseti

def BitInstr.opid : BitInstr → OpId
  | .binary op .. => op.opid
  | .unary op .. => op.opid
  | .shift op .. => op.opid

def BitInstr.args : BitInstr → InstrArgs
  | .binary _ rd rs1 rs2 => .R rd.toNat rs1.toNat rs2.toNat
  | .unary _ rd rs1 => .I rd.toNat rs1.toNat 0
  | .shift _ rd rs1 shamt => .I rd.toNat rs1.toNat (shamt.setWidth 32)

/-- What the decoder makes of an instruction. -/
def BitInstr.decoded (i : BitInstr) (pc : X.Reg) : DecodedInstr X :=
  ⟨i.opid, pc, 4, i.encode X, i.args⟩

/-- The packs with `x0` that are encoded as ZEXT.H. -/
def BitInstr.IsZextH (X : Xlen) : BitInstr → Prop
  | .binary .pack _ _ rs2 => X = .rv32 ∧ rs2 = 0
  | .binary .packw _ _ rs2 => rs2 = 0
  | _ => False

end Spec

/-! ## The registry on words of the OP spaces -/

section Decode

variable {handler : DecodedInstr X → InstrIR X} {pc : X.Reg} (rest : List (BitVec 8))

/-- A word of an OP space that neither the base nor the M decoder accepts is left to the
bit-manipulation decoders. -/
theorem decode_of_bitmanip {word : BitVec 32} {d : DecodedInstr X} {opcode : ℕ}
    (hopcode : decodeOpcode word = opcode)
    (hspace : opcode ∈ [0x13, 0x1B, 0x33, 0x3B]) (hbase : decode32bit X word pc = none)
    (hm : decodeM X word pc = none)
    (h : ((decodeZba X word pc).or ((decodeZbb X word pc).or
      ((decodeZbs X word pc).or (decodeZbkb X word pc)))) = some d) :
    (ExtensionRegistry.standardWith X handler).decode (wordBytes word ++ rest) pc = some d := by
  have hword : word.toNat % 4 = 3 := by
    refine mod_four_of_opcode hopcode ?_
    revert hspace
    simp only [List.mem_cons, List.not_mem_nil, or_false]
    omega
  have ha : decodeA X word pc = none := by
    unfold decodeA
    rw [hopcode]
    exact if_pos (by rintro rfl; simp at hspace)
  have hzicsr : decodeZicsr X word pc = none := by
    unfold decodeZicsr
    rw [hopcode]
    exact if_pos (Or.inl (by rintro rfl; simp at hspace))
  have hzifencei : decodeZifencei X word pc = none := by
    unfold decodeZifencei
    rw [hopcode]
    exact if_neg (by rintro ⟨rfl, -⟩; simp at hspace)
  change (standardExtensions X).findSome? _ = some d
  simp only [standardExtensions, List.findSome?_cons, InstructionExtension.decode_word _ hword,
    cExtension, baseExtension, mExtension, aExtension, zicsrExtension, zifenceiExtension,
    zbaExtension, zbbExtension, zbsExtension, zbkbExtension, hbase, hm, ha, hzicsr, hzifencei]
  cases hzba : decodeZba X word pc <;> rw [hzba] at h
  · cases hzbb : decodeZbb X word pc <;> rw [hzbb] at h
    · cases hzbs : decodeZbs X word pc <;> rw [hzbs] at h
      · rw [Option.none_or, Option.none_or, Option.none_or] at h
        rw [h]
      · exact h
    · exact h
  · exact h

theorem decode_binary (op : BinaryBitOp) (rd rs1 rs2 : RegId)
    (hlegal : (BitInstr.binary op rd rs1 rs2).Legal X)
    (hzextH : ¬ (BitInstr.binary op rd rs1 rs2).IsZextH X) :
    (ExtensionRegistry.standardWith X handler).decode
      (wordBytes ((BitInstr.binary op rd rs1 rs2).encode X) ++ rest) pc =
        some ((BitInstr.binary op rd rs1 rs2).decoded pc) := by
  have h : Fields ((BitInstr.binary op rd rs1 rs2).encode X)
    (if op.isWord then 0b0111011#7 else 0b0110011).toNat rd.toNat op.funct3.toNat rs1.toNat
    rs2.toNat op.funct7.toNat := fields_rType ..
  have hm : decodeM X ((BitInstr.binary op rd rs1 rs2).encode X) pc = none := by
    unfold decodeM
    rw [h.funct7]
    cases op <;> rfl
  cases op
  case addUw | sh1addUw | sh2addUw | sh3addUw | rolw | rorw =>
    cases hlegal
    refine decode_of_bitmanip rest h.opcode (by decide) (decode32bit_op32 pc h) hm ?_
    unfold decodeZba decodeZbb decodeZbs decodeZbkb
    simp only [h.opcode, h.rd, h.funct3, h.rs1, h.rs2, h.funct7]
    rfl
  case packw =>
    cases hlegal
    refine decode_of_bitmanip rest h.opcode (by decide) (decode32bit_op32 pc h) hm ?_
    have hrs2 : rs2.toNat ≠ 0 := fun h0 => hzextH (BitVec.eq_of_toNat_eq h0)
    unfold decodeZba decodeZbb decodeZbs decodeZbkb decodeZbbOp32
    simp only [h.opcode, h.rd, h.funct3, h.rs1, h.rs2, h.funct7, hrs2]
    rfl
  case pack =>
    refine decode_of_bitmanip rest h.opcode (by decide) (decode32bit_op pc h) hm ?_
    have hrs2 : ¬ (rs2.toNat = 0 ∧ X.value = 32) := by
      rintro ⟨h0, hX⟩
      refine hzextH ⟨?_, BitVec.eq_of_toNat_eq h0⟩
      cases X
      · rfl
      · exact absurd hX (by decide)
    unfold decodeZba decodeZbb decodeZbs decodeZbkb decodeZbbRtype
    simp only [h.opcode, h.rd, h.funct3, h.rs1, h.rs2, h.funct7, hrs2]
    rfl
  all_goals
    refine decode_of_bitmanip rest h.opcode (by decide) (decode32bit_op pc h) hm ?_
    unfold decodeZba decodeZbb decodeZbs decodeZbkb
    simp only [h.opcode, h.rd, h.funct3, h.rs1, h.rs2, h.funct7]
    rfl

/-- The parts of the immediate that the bit-manipulation decoders read. -/
structure ImmFields (word : BitVec 32) (imm : ℕ) : Prop where
  imm12 : ((word >>> 20) &&& 0xFFF).toNat = imm
  funct6 : ((word >>> 26) &&& 0x3F).toNat = imm / 64
  bit25 : (word >>> 25) &&& 1 = BitVec.ofNat 32 (imm / 32 % 2)
  shamt6 : (word >>> 20) &&& 0x3F = BitVec.ofNat 32 (imm % 64)
  shamt5 : (word >>> 20) &&& 0x1F = BitVec.ofNat 32 (imm % 32)

theorem immFields_iType (imm : BitVec 12) (rs1 rd : RegId) (funct3 : BitVec 3)
    (opcode : BitVec 7) : ImmFields (iType imm rs1 funct3 rd opcode) imm.toNat := by
  have hword : (iType imm rs1 funct3 rd opcode).toNat / 2 ^ 20 = imm.toNat := by
    rw [iType_toNat]
    omega
  set word := iType imm rs1 funct3 rd opcode
  have hfield (lo len : ℕ) {mask : BitVec 32} (hmask : mask.toNat = 2 ^ len - 1) :
      (word >>> lo) &&& mask = BitVec.ofNat 32 (word.toNat / 2 ^ lo % 2 ^ len) := by
    rw [← Word.toNat_field word lo len hmask, BitVec.ofNat_toNat, BitVec.setWidth_eq]
  refine ⟨(Word.toNat_field word 20 12 rfl).trans (by omega),
    (Word.toNat_field word 26 6 rfl).trans (by omega), (hfield 25 1 rfl).trans ?_,
    (hfield 20 6 rfl).trans ?_, (hfield 20 5 rfl).trans ?_⟩
  · congr 1
    omega
  · rw [hword]
    rfl
  · rw [hword]
    rfl

theorem decode_unary (op : UnaryBitOp) (rd rs1 : RegId)
    (hlegal : (BitInstr.unary op rd rs1).Legal X) :
    (ExtensionRegistry.standardWith X handler).decode
      (wordBytes ((BitInstr.unary op rd rs1).encode X) ++ rest) pc =
        some ((BitInstr.unary op rd rs1).decoded pc) := by
  have h : Fields ((BitInstr.unary op rd rs1).encode X) (op.opcode X).toNat rd.toNat
    op.funct3.toNat rs1.toNat _ _ := fields_iType (op.opcode X) rs1 rd op.funct3 (op.imm X)
  have himm : ImmFields ((BitInstr.unary op rd rs1).encode X) (op.imm X).toNat :=
    immFields_iType ..
  have hspace : (op.opcode X).toNat ∈ [0x13, 0x1B, 0x33, 0x3B] := by
    cases X <;> cases op <;> decide
  have hm : decodeM X ((BitInstr.unary op rd rs1).encode X) pc = none := by
    unfold decodeM
    rw [h.funct7]
    cases X <;> cases op <;> rfl
  cases op
  case clzw | ctzw | cpopw =>
    cases hlegal
    refine decode_of_bitmanip rest h.opcode hspace (decode32bit_opImm32 pc h) hm ?_
    unfold decodeZba decodeZbb decodeZbbOpImm32
    simp only [h.opcode, h.rd, h.funct3, h.rs1, h.funct7, himm.funct6, himm.shamt5]
    rfl
  case zip | unzip =>
    cases hlegal
    refine decode_of_bitmanip rest h.opcode hspace (decode32bit_opImm pc h) hm ?_
    unfold decodeZba decodeZbb decodeZbs decodeZbkb decodeZbbOpImm
    simp only [h.opcode, h.rd, h.funct3, h.rs1, himm.imm12, himm.funct6, himm.bit25]
    rfl
  case zextH =>
    cases X
    · refine decode_of_bitmanip rest h.opcode hspace (decode32bit_op pc h) hm ?_
      unfold decodeZba decodeZbb
      simp only [h.opcode, h.rd, h.funct3, h.rs1, h.rs2, h.funct7]
      rfl
    · refine decode_of_bitmanip rest h.opcode hspace (decode32bit_op32 pc h) hm ?_
      unfold decodeZba decodeZbb
      simp only [h.opcode, h.rd, h.funct3, h.rs1, h.rs2, h.funct7]
      rfl
  case brev8 =>
    refine decode_of_bitmanip rest h.opcode hspace
      ((decode32bit_opImm pc h).trans (by cases X <;> rfl)) hm ?_
    unfold decodeZba decodeZbb decodeZbs decodeZbkb decodeZbbOpImm
    simp only [h.opcode, h.rd, h.funct3, h.rs1, himm.imm12, himm.funct6, himm.bit25]
    cases X <;> rfl
  all_goals
    refine decode_of_bitmanip rest h.opcode hspace
      ((decode32bit_opImm pc h).trans (by cases X <;> rfl)) hm ?_
    unfold decodeZba decodeZbb decodeZbbOpImm
    simp only [h.opcode, h.rd, h.funct3, h.rs1, himm.imm12]
    cases X <;> rfl

section OpImm

variable {word : BitVec 32} {rd funct3 rs1 rs2 funct7 : ℕ} (pc)
  (h : Fields word 0x13 rd funct3 rs1 rs2 funct7)
include h

theorem decodeZba_opImm : decodeZba X word pc = none := by
  unfold decodeZba
  simp only [h.opcode]
  rfl

theorem decodeZbb_opImm :
    decodeZbb X word pc =
      (decodeZbbOpImm X word funct3 ((word >>> 20) &&& 0xFFF).toNat rd rs1).map
        fun (op, args) => ⟨.zbb op, pc, 4, word, args⟩ := by
  unfold decodeZbb
  simp only [h.opcode, h.funct3, h.rd, h.rs1]

end OpImm

/-- The parts of the immediate of a shift. -/
structure ShiftFields (word : BitVec 32) (funct6 : ℕ) (shamt : BitVec 6) : Prop where
  imm12 : ((word >>> 20) &&& 0xFFF).toNat / 64 = funct6
  funct6 : ((word >>> 26) &&& 0x3F).toNat = funct6
  bit25 : shamt.toNat < 32 → (word >>> 25) &&& 1 = 0
  shamt6 : (word >>> 20) &&& 0x3F = shamt.setWidth 32
  shamt5 : shamt.toNat < 32 → (word >>> 20) &&& 0x1F = shamt.setWidth 32

theorem shiftFields_iType (funct6 shamt : BitVec 6) (rs1 rd : RegId) (funct3 : BitVec 3)
    (opcode : BitVec 7) :
    ShiftFields (iType (funct6 ++ shamt) rs1 funct3 rd opcode) funct6.toNat shamt := by
  have h := immFields_iType (funct6 ++ shamt) rs1 rd funct3 opcode
  rw [Word.toNat_append] at h
  refine ⟨?_, ?_, fun hs => ?_, ?_, fun hs => ?_⟩
  · rw [h.imm12]
    omega
  · rw [h.funct6]
    omega
  · rw [h.bit25, show (funct6.toNat * 2 ^ 6 + shamt.toNat) / 32 % 2 = 0 by omega]
    rfl
  · rw [h.shamt6, ← BitVec.ofNat_toNat]
    congr 1
    omega
  · rw [h.shamt5, ← BitVec.ofNat_toNat]
    congr 1
    omega

section Shamt

variable {word : BitVec 32} {funct6 : ℕ} {shamt : BitVec 6} (h : ShiftFields word funct6 shamt)
  (hs : shamt.toNat < X.value)
include h hs

/-- A shift amount below XLEN passes the check of the RV32 decoders. -/
theorem ShiftFields.not_reserved : ¬ (X.value = 32 ∧ (word >>> 25) &&& 1 ≠ 0) := by
  rintro ⟨hX, hbit⟩
  exact hbit (h.bit25 (hX ▸ hs))

/-- The decoders of the single-bit instructions extract the shift amount. -/
theorem ShiftFields.shamt_eq :
    (word >>> 20) &&& (if X.value = 32 then 0x1F else 0x3F) = shamt.setWidth 32 := by
  split_ifs with hX
  · exact h.shamt5 (hX ▸ hs)
  · exact h.shamt6

end Shamt

section Zbb

variable {word : BitVec 32} {rd rs1 rs2 funct6 funct7 : ℕ} {shamt : BitVec 6} (pc)
  (hshift : ShiftFields word funct6 shamt)
include hshift

/-- The count and extension instructions of Zbb share one funct6. -/
theorem decodeZbb_one (h : Fields word 0x13 rd 1 rs1 rs2 funct7) (hne : funct6 ≠ 0b011000) :
    decodeZbb X word pc = none := by
  have himm := hshift.imm12
  rw [decodeZbb_opImm pc h]
  unfold decodeZbbOpImm
  simp only [if_true]
  split <;> first | omega | rfl

/-- Apart from ORC.B and REV8, only RORI has funct3 5. -/
theorem decodeZbb_five (h : Fields word 0x13 rd 5 rs1 rs2 funct7) (horc : funct6 ≠ 0b001010)
    (hrev : funct6 ≠ 0b011010) :
    decodeZbb X word pc =
      if funct6 ≠ 0b011000 ∨ X.value = 32 ∧ (word >>> 25) &&& 1 ≠ 0 then none
      else some ⟨.zbb .rori, pc, 4, word, .I rd rs1
        ((word >>> 20) &&& (if X.value = 32 then 0x1F else 0x3F))⟩ := by
  have himm := hshift.imm12
  set imm := ((word >>> 20) &&& 0xFFF).toNat
  have hrev' : imm ≠ (if X.value = 32 then 0b011010011000 else 0b011010111000) := by
    split_ifs <;> omega
  rw [decodeZbb_opImm pc h]
  unfold decodeZbbOpImm
  rw [if_neg (by decide), if_neg (by decide), if_neg (by omega), if_neg hrev', hshift.funct6]
  by_cases hfunct6 : funct6 = 0b011000
  · by_cases hbit : X.value = 32 ∧ (word >>> 25) &&& 1 ≠ 0
    · rw [if_neg (not_not.2 hfunct6), if_pos hbit, if_pos (Or.inr hbit)]
      rfl
    · rw [if_neg (not_not.2 hfunct6), if_neg hbit, if_neg (not_or.2 ⟨not_not.2 hfunct6, hbit⟩)]
      cases X <;> rfl
  · rw [if_pos hfunct6, if_pos (Or.inl hfunct6)]
    rfl

end Zbb

theorem decode_shift (op : ShamtBitOp) (rd rs1 : RegId) (shamt : BitVec 6)
    (hlegal : (BitInstr.shift op rd rs1 shamt).Legal X) :
    (ExtensionRegistry.standardWith X handler).decode
      (wordBytes ((BitInstr.shift op rd rs1 shamt).encode X) ++ rest) pc =
        some ((BitInstr.shift op rd rs1 shamt).decoded pc) := by
  have h : Fields ((BitInstr.shift op rd rs1 shamt).encode X) op.opcode.toNat rd.toNat
    op.funct3.toNat rs1.toNat _ _ := fields_iType op.opcode rs1 rd op.funct3 (op.funct6 ++ shamt)
  have hshift : ShiftFields ((BitInstr.shift op rd rs1 shamt).encode X) op.funct6.toNat shamt :=
    shiftFields_iType ..
  have hspace : op.opcode.toNat ∈ [0x13, 0x1B, 0x33, 0x3B] := by
    cases op <;> decide
  have hfunct7 : (op.funct6 ++ shamt).toNat / 32 = op.funct6.toNat * 2 + shamt.toNat / 32 := by
    rw [Word.toNat_append]
    omega
  have hhigh : shamt.toNat / 32 = 0 ∨ shamt.toNat / 32 = 1 := by omega
  rw [hfunct7] at h
  have hm : decodeM X ((BitInstr.shift op rd rs1 shamt).encode X) pc = none := by
    unfold decodeM
    rw [h.funct7]
    cases op <;> rcases hhigh with hhigh | hhigh <;> rw [hhigh] <;> rfl
  cases op
  case slliUw =>
    cases hlegal
    refine decode_of_bitmanip rest h.opcode hspace ((decode32bit_opImm32 pc h).trans ?_) hm ?_
    · rcases hhigh with hhigh | hhigh <;> rw [hhigh] <;> rfl
    · unfold decodeZba
      simp only [h.opcode, h.rd, h.funct3, h.rs1, hshift.funct6, hshift.shamt6]
      rfl
  case roriw =>
    obtain ⟨rfl, hs⟩ := hlegal
    have hzero : shamt.toNat / 32 = 0 := by omega
    rw [hzero] at h
    refine decode_of_bitmanip rest h.opcode hspace (decode32bit_opImm32 pc h) hm ?_
    unfold decodeZba decodeZbb decodeZbbOpImm32
    simp only [h.opcode, h.rd, h.funct3, h.rs1, h.funct7, hshift.shamt5 hs]
    rfl
  all_goals
    refine decode_of_bitmanip rest h.opcode hspace ((decode32bit_opImm pc h).trans ?_) hm ?_
    · rcases hhigh with hhigh | hhigh <;> rw [hhigh] <;> rfl
  case rori =>
    have hs : shamt.toNat < X.value := hlegal
    have hzbb := decodeZbb_five pc hshift h (by decide) (by decide)
    have hrori : ShamtBitOp.rori.funct6.toNat = 0b011000 := rfl
    rw [if_neg (not_or.2 ⟨not_not.2 hrori, hshift.not_reserved hs⟩), hshift.shamt_eq hs] at hzbb
    rw [decodeZba_opImm pc h, hzbb]
    rfl
  case bexti =>
    have hs : shamt.toNat < X.value := hlegal
    rw [decodeZba_opImm pc h, decodeZbb_five pc hshift h (by decide) (by decide)]
    unfold decodeZbs
    simp only [h.opcode, h.rd, h.funct3, h.rs1, hshift.not_reserved hs, hshift.shamt_eq hs,
      hshift.funct6]
    rfl
  all_goals
    have hs : shamt.toNat < X.value := hlegal
    rw [decodeZba_opImm pc h, decodeZbb_one pc hshift h (by decide)]
    unfold decodeZbs
    simp only [h.opcode, h.rd, h.funct3, h.rs1, hshift.not_reserved hs, hshift.shamt_eq hs,
      hshift.funct6]
    rfl

/-- The standard registry decodes every legal bit-manipulation encoding to the instruction it
encodes. -/
theorem decode_encode_bit (i : BitInstr) (hlegal : i.Legal X) (hzextH : ¬ i.IsZextH X) :
    (ExtensionRegistry.standardWith X handler).decode (wordBytes (i.encode X) ++ rest) pc =
      some (i.decoded pc) := by
  cases i with
  | binary op rd rs1 rs2 => exact decode_binary rest op rd rs1 rs2 hlegal hzextH
  | unary op rd rs1 => exact decode_unary rest op rd rs1 hlegal
  | shift op rd rs1 shamt => exact decode_shift rest op rd rs1 shamt hlegal

end Decode

end Rvr
