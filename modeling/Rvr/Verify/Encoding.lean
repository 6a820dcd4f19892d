import Rvr.Isa.Exec
import Rvr.Lib.Word
import Rvr.Spec.Isa

/-!
# What the decoders see of an encoded instruction

The fields and immediates that the decoders extract from a word of each format, and the decoding of
a word by the standard registry: the first extension whose 32-bit decoder accepts it.
-/

namespace Rvr

open Spec Word

variable {X : Xlen}

/-! ## Fields -/

/-- The fields that the decoders read from a word. -/
structure Fields (word : BitVec 32) (opcode rd funct3 rs1 rs2 funct7 : ℕ) : Prop where
  opcode : decodeOpcode word = opcode
  rd : decodeRd word = rd
  funct3 : decodeFunct3 word = funct3
  rs1 : decodeRs1 word = rs1
  rs2 : decodeRs2 word = rs2
  funct7 : decodeFunct7 word = funct7

/-- The fields of a word as quotients and remainders. -/
theorem fields_toNat (word : BitVec 32) :
    Fields word (word.toNat % 128) (word.toNat / 128 % 32) (word.toNat / 4096 % 8)
      (word.toNat / 32768 % 32) (word.toNat / 1048576 % 32) (word.toNat / 33554432 % 128) := by
  have hopcode : (word &&& 0x7F).toNat = word.toNat % 128 := by
    exact Nat.and_two_pow_sub_one_eq_mod _ 7
  exact ⟨hopcode, toNat_field word 7 5 rfl, toNat_field word 12 3 rfl,
    toNat_field word 15 5 rfl, toNat_field word 20 5 rfl, toNat_field word 25 7 rfl⟩

theorem rType_toNat (funct7 : BitVec 7) (rs2 rs1 : RegId) (funct3 : BitVec 3) (rd : RegId)
    (opcode : BitVec 7) :
    (rType funct7 rs2 rs1 funct3 rd opcode).toNat =
      ((((funct7.toNat * 2 ^ 5 + rs2.toNat) * 2 ^ 5 + rs1.toNat) * 2 ^ 3 + funct3.toNat) * 2 ^ 5 +
        rd.toNat) * 2 ^ 7 + opcode.toNat := by
  simp only [rType, toNat_append]

theorem iType_toNat (imm : BitVec 12) (rs1 : RegId) (funct3 : BitVec 3) (rd : RegId)
    (opcode : BitVec 7) :
    (iType imm rs1 funct3 rd opcode).toNat =
      (((imm.toNat * 2 ^ 5 + rs1.toNat) * 2 ^ 3 + funct3.toNat) * 2 ^ 5 + rd.toNat) * 2 ^ 7 +
        opcode.toNat := by
  simp only [iType, toNat_append]

theorem uType_toNat (imm : BitVec 20) (rd : RegId) (opcode : BitVec 7) :
    (uType imm rd opcode).toNat = (imm.toNat * 2 ^ 5 + rd.toNat) * 2 ^ 7 + opcode.toNat := by
  simp only [uType, toNat_append]

theorem bType_toNat (offset : BitVec 12) (rs2 rs1 : RegId) (funct3 : BitVec 3)
    (opcode : BitVec 7) :
    (bType offset rs2 rs1 funct3 opcode).toNat =
      (((((((offset.extractLsb' 11 1).toNat * 2 ^ 6 + (offset.extractLsb' 4 6).toNat) * 2 ^ 5 +
        rs2.toNat) * 2 ^ 5 + rs1.toNat) * 2 ^ 3 + funct3.toNat) * 2 ^ 4 +
          (offset.extractLsb' 0 4).toNat) * 2 ^ 1 + (offset.extractLsb' 10 1).toNat) * 2 ^ 7 +
            opcode.toNat := by
  simp only [bType, toNat_append]

theorem jType_toNat (offset : BitVec 20) (rd : RegId) (opcode : BitVec 7) :
    (jType offset rd opcode).toNat =
      (((((offset.extractLsb' 19 1).toNat * 2 ^ 10 + (offset.extractLsb' 0 10).toNat) * 2 ^ 1 +
        (offset.extractLsb' 10 1).toNat) * 2 ^ 8 + (offset.extractLsb' 11 8).toNat) * 2 ^ 5 +
          rd.toNat) * 2 ^ 7 + opcode.toNat := by
  simp only [jType, toNat_append]

section Bounds

variable (funct7 opcode : BitVec 7) (rs2 rs1 rd : RegId) (funct3 : BitVec 3)

theorem fields_rType :
    Fields (rType funct7 rs2 rs1 funct3 rd opcode) opcode.toNat rd.toNat funct3.toNat rs1.toNat
      rs2.toNat funct7.toNat := by
  have h := fields_toNat (rType funct7 rs2 rs1 funct3 rd opcode)
  rw [rType_toNat] at h
  convert h using 1 <;> omega

theorem fields_iType (imm : BitVec 12) :
    Fields (iType imm rs1 funct3 rd opcode) opcode.toNat rd.toNat funct3.toNat rs1.toNat
      (imm.toNat % 32) (imm.toNat / 32) := by
  have h := fields_toNat (iType imm rs1 funct3 rd opcode)
  rw [iType_toNat] at h
  convert h using 1 <;> omega

theorem sType_eq_rType (imm : BitVec 12) :
    sType imm rs2 rs1 funct3 opcode =
      rType (imm.extractLsb' 5 7) rs2 rs1 funct3 (imm.extractLsb' 0 5) opcode := rfl

theorem bType_eq_rType (offset : BitVec 12) :
    bType offset rs2 rs1 funct3 opcode =
      rType (offset.extractLsb' 11 1 ++ offset.extractLsb' 4 6) rs2 rs1 funct3
        (offset.extractLsb' 0 4 ++ offset.extractLsb' 10 1) opcode := by
  apply BitVec.eq_of_toNat_eq
  simp only [bType, rType, toNat_append]
  omega

theorem fields_bType (offset : BitVec 12) :
    Fields (bType offset rs2 rs1 funct3 opcode) opcode.toNat
      (offset.extractLsb' 0 4 ++ offset.extractLsb' 10 1).toNat funct3.toNat rs1.toNat rs2.toNat
      (offset.extractLsb' 11 1 ++ offset.extractLsb' 4 6).toNat := by
  rw [bType_eq_rType]
  exact fields_rType _ opcode rs2 rs1 _ funct3

theorem fields_uType (imm : BitVec 20) :
    decodeOpcode (uType imm rd opcode) = opcode.toNat ∧
      decodeRd (uType imm rd opcode) = rd.toNat := by
  have h := fields_toNat (uType imm rd opcode)
  rw [uType_toNat] at h
  exact ⟨h.opcode.trans (by omega), h.rd.trans (by omega)⟩

/-! ## Immediates -/

theorem decodeIImm_iType (imm : BitVec 12) :
    decodeIImm (iType imm rs1 funct3 rd opcode) = imm.signExtend 32 := by
  apply sshiftRight_eq_signExtend (w := 32) (n := 12) (by decide) (by decide)
  rw [iType_toNat]
  omega

/-- The two parts of a store offset. -/
theorem decodeSImm_rType :
    decodeSImm (rType funct7 rs2 rs1 funct3 rd opcode) = (funct7 ++ rd).signExtend 32 := by
  have hfields := fields_rType funct7 opcode rs2 rs1 rd funct3
  apply sshiftRight_shiftLeft_of_toNat_eq (w := 32) (n := 12) (by decide) (by decide)
  have hhigh : (((rType funct7 rs2 rs1 funct3 rd opcode >>> 25) &&& 0x7F) <<< 5).toNat =
      funct7.toNat * 2 ^ 5 := by
    have hf : ((rType funct7 rs2 rs1 funct3 rd opcode >>> 25) &&& 0x7F).toNat = funct7.toNat :=
      hfields.funct7
    rw [toNat_shiftLeft_of_lt (by omega), hf]
  have hlow : ((rType funct7 rs2 rs1 funct3 rd opcode >>> 7) &&& 0x1F).toNat = rd.toNat :=
    hfields.rd
  rw [toNat_or_of_disjoint 5 (by omega) (by omega), hhigh, hlow, toNat_append]

theorem decodeSImm_sType (imm : BitVec 12) :
    decodeSImm (sType imm rs2 rs1 funct3 opcode) = imm.signExtend 32 := by
  rw [sType_eq_rType, decodeSImm_rType]
  congr 1
  apply BitVec.eq_of_toNat_eq
  rw [toNat_append, toNat_extractLsb', toNat_extractLsb']
  omega

/-- A branch offset from its scattered parts. -/
theorem toNat_branchOffset (offset : BitVec 12) :
    offset.toNat = (offset.extractLsb' 11 1).toNat * 2 ^ 11 + (offset.extractLsb' 10 1).toNat *
      2 ^ 10
      + (offset.extractLsb' 4 6).toNat * 2 ^ 4 + (offset.extractLsb' 0 4).toNat := by
  simp only [toNat_extractLsb']
  omega

theorem decodeBImm_bType (offset : BitVec 12) :
    decodeBImm (bType offset rs2 rs1 funct3 opcode) = (offset ++ 0#1).signExtend 32 := by
  have hparts := toNat_branchOffset offset
  have h6 := (offset.extractLsb' 10 1).isLt
  have h7 := (offset.extractLsb' 0 4).isLt
  have h8 := (offset.extractLsb' 4 6).isLt
  have h9 := (offset.extractLsb' 11 1).isLt
  have hnat := bType_toNat offset rs2 rs1 funct3 opcode
  set word := bType offset rs2 rs1 funct3 opcode
  have hbit12 : ((word >>> 31) &&& 0x1).toNat = (offset.extractLsb' 11 1).toNat :=
    toNat_field_of_bounds word 31 1 0 rfl h9 (by omega) (by omega)
  have hbit11 : ((word >>> 7) &&& 0x1).toNat = (offset.extractLsb' 10 1).toNat :=
    (toNat_field word 7 1 rfl).trans (by omega)
  have hbits10 : ((word >>> 25) &&& 0x3F).toNat = (offset.extractLsb' 4 6).toNat :=
    toNat_field_of_bounds word 25 6 (offset.extractLsb' 11 1).toNat rfl h8 (by omega)
      (by omega)
  have hbits4 : ((word >>> 8) &&& 0xF).toNat = (offset.extractLsb' 0 4).toNat :=
    toNat_field_of_bounds word 8 4
      (((((offset.extractLsb' 11 1).toNat * 2 ^ 6 + (offset.extractLsb' 4 6).toNat) * 2 ^ 5 +
        rs2.toNat) * 2 ^ 5 + rs1.toNat) * 2 ^ 3 + funct3.toNat) rfl h7 (by omega) (by omega)
  apply sshiftRight_shiftLeft_of_toNat_eq (w := 32) (n := 13) (by decide) (by decide)
  have hfirst : (((word >>> 31) &&& 0x1) <<< 12).toNat = _ * 2 ^ 12 :=
    (toNat_shiftLeft_of_lt (by omega)).trans (by rw [hbit12])
  have hsecond := toNat_or_shiftLeft 11 1 hfirst hbit11 (by omega) h6 (by decide)
  have hthird := toNat_or_shiftLeft 5 6 hsecond hbits10 (by omega) h8 (by decide)
  have hfourth := toNat_or_shiftLeft 1 4 hthird hbits4 (by omega) h7 (by decide)
  rw [toNat_append, BitVec.toNat_zero]
  omega

/-- A jump offset from its scattered parts. -/
theorem toNat_jumpOffset (offset : BitVec 20) :
    offset.toNat = (offset.extractLsb' 19 1).toNat * 2 ^ 19 + (offset.extractLsb' 11 8).toNat *
      2 ^ 11
      + (offset.extractLsb' 10 1).toNat * 2 ^ 10 + (offset.extractLsb' 0 10).toNat := by
  have hoffset := offset.isLt
  simp only [toNat_extractLsb']
  omega

theorem decodeJImm_jType (offset : BitVec 20) :
    decodeJImm (jType offset rd opcode) = (offset ++ 0#1).signExtend 32 := by
  have hparts := toNat_jumpOffset offset
  have h6 := (offset.extractLsb' 10 1).isLt
  have h7 := (offset.extractLsb' 0 10).isLt
  have h8 := (offset.extractLsb' 11 8).isLt
  have h9 := (offset.extractLsb' 19 1).isLt
  have hnat := jType_toNat offset rd opcode
  set word := jType offset rd opcode
  have hbit20 : ((word >>> 31) &&& 0x1).toNat = (offset.extractLsb' 19 1).toNat :=
    toNat_field_of_bounds word 31 1 0 rfl h9 (by omega) (by omega)
  have hbits19 : ((word >>> 12) &&& 0xFF).toNat = (offset.extractLsb' 11 8).toNat :=
    toNat_field_of_bounds word 12 8
      (((offset.extractLsb' 19 1).toNat * 2 ^ 10 + (offset.extractLsb' 0 10).toNat) * 2 ^ 1 +
        (offset.extractLsb' 10 1).toNat) rfl h8 (by omega) (by omega)
  have hbit11 : ((word >>> 20) &&& 0x1).toNat = (offset.extractLsb' 10 1).toNat :=
    toNat_field_of_bounds word 20 1
      ((offset.extractLsb' 19 1).toNat * 2 ^ 10 + (offset.extractLsb' 0 10).toNat) rfl h6 (by omega)
      (by omega)
  have hbits10 : ((word >>> 21) &&& 0x3FF).toNat = (offset.extractLsb' 0 10).toNat :=
    toNat_field_of_bounds word 21 10 (offset.extractLsb' 19 1).toNat rfl h7 (by omega)
      (by omega)
  apply sshiftRight_shiftLeft_of_toNat_eq (w := 32) (n := 21) (by decide) (by decide)
  have hfirst : (((word >>> 31) &&& 0x1) <<< 20).toNat = _ * 2 ^ 20 :=
    (toNat_shiftLeft_of_lt (by omega)).trans (by rw [hbit20])
  have hsecond := toNat_or_shiftLeft 12 8 hfirst hbits19 (by omega) h8 (by decide)
  have hthird := toNat_or_shiftLeft 11 1 hsecond hbit11 (by omega) h6 (by decide)
  have hfourth := toNat_or_shiftLeft 1 10 hthird hbits10 (by omega) h7 (by decide)
  rw [hfourth, toNat_append, BitVec.toNat_zero]
  omega

theorem decodeUImm_uType (imm : BitVec 20) :
    decodeUImm (uType imm rd opcode) = imm ++ 0#12 := by
  apply BitVec.eq_of_toNat_eq
  refine (toNat_and_highMask (uType imm rd opcode) 12).trans ?_
  rw [uType_toNat, toNat_append, BitVec.toNat_zero]
  omega

end Bounds

/-! ## The registry -/

/-- A word is put together again from its bytes. -/
theorem word_of_bytes (word : BitVec 32) :
    (word.extractLsb' 24 8 ++ word.extractLsb' 16 8 ++ word.extractLsb' 8 8 ++
      word.extractLsb' 0 8 : BitVec 32) = word := by
  apply BitVec.eq_of_toNat_eq
  simp only [toNat_append, toNat_extractLsb']
  have hword := word.isLt
  omega

/-- A word whose two low bits are set goes to the 32-bit decoder. -/
theorem InstructionExtension.decode_word (e : InstructionExtension X) {word : BitVec 32}
    (hword : word.toNat % 4 = 3) (rest : List (BitVec 8)) (pc : X.Reg) :
    e.decode (wordBytes word ++ rest) pc = e.decode32 word pc := by
  have hlow : ((word.extractLsb' 8 8 ++ word.extractLsb' 0 8 : BitVec 16) &&& 0x3) = 0x3 := by
    apply BitVec.eq_of_toNat_eq
    rw [BitVec.toNat_and, toNat_append, toNat_extractLsb', toNat_extractLsb']
    refine (Nat.and_two_pow_sub_one_eq_mod _ 2).trans ?_
    change _ = 3
    omega
  change (if (word.extractLsb' 8 8 ++ word.extractLsb' 0 8 : BitVec 16) &&& 0x3 ≠ 0x3 then _
    else e.decode32 (word.extractLsb' 24 8 ++ word.extractLsb' 16 8 ++ word.extractLsb' 8 8 ++
      word.extractLsb' 0 8) pc) = _
  rw [if_neg (not_not.2 hlow), word_of_bytes]

/-- The standard registry decodes a word as the first extension that accepts it does. -/
theorem standard_decode_word {handler : DecodedInstr X → InstrIR X} {word : BitVec 32}
    (pre : List (InstructionExtension X)) (e : InstructionExtension X)
    {post : List (InstructionExtension X)} {pc : X.Reg} {d : DecodedInstr X}
    (hword : word.toNat % 4 = 3) (rest : List (BitVec 8))
    (hext : standardExtensions X = pre ++ e :: post)
    (hpre : ∀ e' ∈ pre, e'.decode32 word pc = none) (he : e.decode32 word pc = some d) :
    (ExtensionRegistry.standardWith X handler).decode (wordBytes word ++ rest) pc = some d := by
  change (standardExtensions X).findSome? _ = some d
  have hnone : pre.findSome? (fun e => e.decode (wordBytes word ++ rest) pc) = none := by
    rw [List.findSome?_eq_none_iff]
    intro e' he'
    rw [InstructionExtension.decode_word e' hword]
    exact hpre e' he'
  rw [hext, List.findSome?_append, hnone, Option.none_or, List.findSome?_cons,
    InstructionExtension.decode_word e hword, he]

end Rvr
