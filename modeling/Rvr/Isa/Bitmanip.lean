import Rvr.Isa.Extensions

/-!
# The Zba, Zbb, Zbs and Zbkb extensions

Decoding and lifting of the bit-manipulation extensions (`zba.rs`, `zbb.rs`, `zbs.rs` and `zbkb.rs`
under `rvr-isa/src/extensions`).  Rotates are lifted to two shifts and an `or`, single-bit
operations to a shifted one and a mask.  `u8::try_from(imm).expect(..)` is `shamtOf`; the decoder
only produces shift amounts below 64.
-/

namespace Rvr

variable {X : Xlen}

/-- `u64::from(u8::try_from(imm).expect(..))`. -/
def shamtOf (imm : BitVec 32) : U64 := (imm.setWidth 8).setWidth 64

/-- An R-type instruction that writes a function of its two operands to rd. -/
def liftBinary (args : InstrArgs) (op : Expr X → Expr X → Expr X) : Lifted X :=
  match args with
  | .R rd rs1 rs2 => ([.writeReg rd (op (.reg rs1) (.reg rs2))], .fall none)
  | _ => badArgs

/-- An I-type instruction that writes a function of its operand to rd and ignores the immediate. -/
def liftUnary (args : InstrArgs) (op : Expr X → Expr X) : Lifted X :=
  match args with
  | .I rd rs1 _ => ([.writeReg rd (op (.reg rs1))], .fall none)
  | _ => badArgs

/-- An I-type instruction that writes a function of its operand and its shift amount to rd. -/
def liftShamtOp (args : InstrArgs) (op : Expr X → U64 → Expr X) : Lifted X :=
  match args with
  | .I rd rs1 imm => ([.writeReg rd (op (.reg rs1) (shamtOf imm))], .fall none)
  | _ => badArgs

/-! ## Zba -/

def decodeZba (X : Xlen) (raw : BitVec 32) (pc : X.Reg) : Option (DecodedInstr X) :=
  let opcode := decodeOpcode raw
  let funct3 := decodeFunct3 raw
  let funct7 := decodeFunct7 raw
  let rd := decodeRd raw
  let rs1 := decodeRs1 raw
  let rs2 := decodeRs2 raw
  let found (op : ZbaOp) (args : InstrArgs) : Option (DecodedInstr X) :=
    some ⟨.zba op, pc, 4, raw, args⟩
  if opcode = 0b0110011 ∧ funct7 = 0b0010000 then
    match funct3 with
    | 0b010 => found .sh1add (.R rd rs1 rs2)
    | 0b100 => found .sh2add (.R rd rs1 rs2)
    | 0b110 => found .sh3add (.R rd rs1 rs2)
    | _ => none
  else if opcode = 0b0111011 ∧ X.value = 64 ∧ funct7 = 0b0000100 ∧ funct3 = 0b000 then
    found .addUw (.R rd rs1 rs2)
  else if opcode = 0b0111011 ∧ X.value = 64 ∧ funct7 = 0b0010000 then
    match funct3 with
    | 0b010 => found .sh1addUw (.R rd rs1 rs2)
    | 0b100 => found .sh2addUw (.R rd rs1 rs2)
    | 0b110 => found .sh3addUw (.R rd rs1 rs2)
    | _ => none
  else if opcode = 0b0011011 ∧ X.value = 64 ∧ funct3 = 0b001 ∧
      ((raw >>> 26) &&& 0x3F).toNat = 0b000010 then
    found .slliUw (.I rd rs1 ((raw >>> 20) &&& 0x3F))
  else none

/-- `rd = rs2 + (rs1 << shift)`. -/
def liftShxadd (args : InstrArgs) (shift : U64) : Lifted X :=
  liftBinary args fun a b => .add b (.sll a (.imm (X.fromU64 shift)))

/-- `rd = rs2 + zext32(rs1)`. -/
def liftAddUw (args : InstrArgs) : Lifted X :=
  liftBinary args fun a b => .add b (.zext32 a)

/-- `rd = rs2 + (zext32(rs1) << shift)`. -/
def liftShxaddUw (args : InstrArgs) (shift : U64) : Lifted X :=
  liftBinary args fun a b => .add b (.sll (.zext32 a) (.imm (X.fromU64 shift)))

/-- `rd = zext32(rs1) << shamt`. -/
def liftSlliUw (args : InstrArgs) : Lifted X :=
  liftShamtOp args fun a shamt => .sll (.zext32 a) (.imm (X.fromU64 shamt))

def liftZba (args : InstrArgs) (opid : OpId) : Lifted X :=
  match opid with
  | .zba .sh1add => liftShxadd args 1
  | .zba .sh2add => liftShxadd args 2
  | .zba .sh3add => liftShxadd args 3
  | .zba .addUw => liftAddUw args
  | .zba .sh1addUw => liftShxaddUw args 1
  | .zba .sh2addUw => liftShxaddUw args 2
  | .zba .sh3addUw => liftShxaddUw args 3
  | .zba .slliUw => liftSlliUw args
  | _ => ([], .trap "unknown Zba opid")

/-! ## Zbb -/

def decodeZbbRtype (X : Xlen) (funct3 funct7 rs2 rd rs1 : ℕ) : Option (ZbbOp × InstrArgs) :=
  if funct7 = 0b0000100 ∧ funct3 = 0b100 ∧ rs2 = 0 ∧ X.value = 32 then
    some (.zextH, .I rd rs1 0)
  else
    let op : Option ZbbOp :=
      match funct7 with
      | 0b0100000 =>
        match funct3 with
        | 0b111 => some .andn
        | 0b110 => some .orn
        | 0b100 => some .xnor
        | _ => none
      | 0b0000101 =>
        match funct3 with
        | 0b100 => some .min
        | 0b101 => some .minu
        | 0b110 => some .max
        | 0b111 => some .maxu
        | _ => none
      | 0b0110000 =>
        match funct3 with
        | 0b001 => some .rol
        | 0b101 => some .ror
        | _ => none
      | _ => none
    op.map fun op => (op, .R rd rs1 rs2)

def decodeZbbOpImm (X : Xlen) (raw : BitVec 32) (funct3 imm12 rd rs1 : ℕ) :
    Option (ZbbOp × InstrArgs) :=
  if funct3 = 0b001 then
    let op : Option ZbbOp :=
      match imm12 with
      | 0b011000000000 => some .clz
      | 0b011000000001 => some .ctz
      | 0b011000000010 => some .cpop
      | 0b011000000100 => some .sextB
      | 0b011000000101 => some .sextH
      | _ => none
    op.map fun op => (op, .I rd rs1 0)
  else if funct3 ≠ 0b101 then none
  else if imm12 = 0b001010000111 then some (.orcB, .I rd rs1 0)
  else if imm12 = (if X.value = 32 then 0b011010011000 else 0b011010111000) then
    some (.rev8, .I rd rs1 0)
  else if ((raw >>> 26) &&& 0x3F).toNat ≠ 0b011000 then none
  else if X.value = 32 ∧ (raw >>> 25) &&& 1 ≠ 0 then none
  else
    let shamt := if X.value = 32 then (raw >>> 20) &&& 0x1F else (raw >>> 20) &&& 0x3F
    some (.rori, .I rd rs1 shamt)

def decodeZbbOp32 (funct3 funct7 rs2 rd rs1 : ℕ) : Option (ZbbOp × InstrArgs) :=
  if funct7 = 0b0000100 ∧ funct3 = 0b100 ∧ rs2 = 0 then some (.zextH, .I rd rs1 0)
  else if funct7 ≠ 0b0110000 then none
  else
    let op : Option ZbbOp :=
      match funct3 with
      | 0b001 => some .rolw
      | 0b101 => some .rorw
      | _ => none
    op.map fun op => (op, .R rd rs1 rs2)

def decodeZbbOpImm32 (raw : BitVec 32) (funct3 funct7 rd rs1 : ℕ) : Option (ZbbOp × InstrArgs) :=
  if funct7 ≠ 0b0110000 then none
  else if funct3 = 0b001 then
    let op : Option ZbbOp :=
      match ((raw >>> 20) &&& 0x1F).toNat with
      | 0b00000 => some .clzw
      | 0b00001 => some .ctzw
      | 0b00010 => some .cpopw
      | _ => none
    op.map fun op => (op, .I rd rs1 0)
  else if funct3 = 0b101 then some (.roriw, .I rd rs1 ((raw >>> 20) &&& 0x1F))
  else none

def decodeZbb (X : Xlen) (raw : BitVec 32) (pc : X.Reg) : Option (DecodedInstr X) :=
  let funct3 := decodeFunct3 raw
  let funct7 := decodeFunct7 raw
  let rd := decodeRd raw
  let rs1 := decodeRs1 raw
  let rs2 := decodeRs2 raw
  let imm12 := ((raw >>> 20) &&& 0xFFF).toNat
  let found : Option (ZbbOp × InstrArgs) :=
    match decodeOpcode raw with
    | 0b0110011 => decodeZbbRtype X funct3 funct7 rs2 rd rs1
    | 0b0010011 => decodeZbbOpImm X raw funct3 imm12 rd rs1
    | 0b0111011 => if X.value = 64 then decodeZbbOp32 funct3 funct7 rs2 rd rs1 else none
    | 0b0011011 => if X.value = 64 then decodeZbbOpImm32 raw funct3 funct7 rd rs1 else none
    | _ => none
  found.map fun (op, args) => ⟨.zbb op, pc, 4, raw, args⟩

/-- The mask XLEN-1 of a register shift amount. -/
def xlenMask : Expr X := .imm (X.fromU64 (BitVec.ofNat 64 (X.value - 1)))

/-- `rd = (rs1 << (rs2 & mask)) | (rs1 >> ((XLEN - rs2) & mask))`. -/
def liftRol (args : InstrArgs) : Lifted X :=
  liftBinary args fun a b =>
    let xlen : Expr X := .imm (X.fromU64 (BitVec.ofNat 64 X.value))
    let shamt := Expr.and b xlenMask
    let complement := Expr.and (.sub xlen b) xlenMask
    .or (.sll a shamt) (.srl a complement)

/-- `rd = (rs1 >> (rs2 & mask)) | (rs1 << ((XLEN - rs2) & mask))`. -/
def liftRor (args : InstrArgs) : Lifted X :=
  liftBinary args fun a b =>
    let xlen : Expr X := .imm (X.fromU64 (BitVec.ofNat 64 X.value))
    let shamt := Expr.and b xlenMask
    let complement := Expr.and (.sub xlen b) xlenMask
    .or (.srl a shamt) (.sll a complement)

def liftRori (args : InstrArgs) : Lifted X :=
  liftShamtOp args fun a shamt =>
    let xlen : U64 := BitVec.ofNat 64 X.value
    let complement := (xlen - shamt) &&& (xlen - 1)
    .or (.srl a (.imm (X.fromU64 shamt))) (.sll a (.imm (X.fromU64 complement)))

/-- 32-bit rotate left of the zero-extended low word, sign-extended. -/
def liftRolw (args : InstrArgs) : Lifted X :=
  liftBinary args fun a b =>
    let val := Expr.zext32 a
    let shamt := Expr.and b (.imm (X.fromU64 0x1F))
    let complement := Expr.and (.sub (.imm (X.fromU64 32)) b) (.imm (X.fromU64 0x1F))
    .sext32 (.or (.sll val shamt) (.srl val complement))

def liftRorw (args : InstrArgs) : Lifted X :=
  liftBinary args fun a b =>
    let val := Expr.zext32 a
    let shamt := Expr.and b (.imm (X.fromU64 0x1F))
    let complement := Expr.and (.sub (.imm (X.fromU64 32)) b) (.imm (X.fromU64 0x1F))
    .sext32 (.or (.srl val shamt) (.sll val complement))

def liftRoriw (args : InstrArgs) : Lifted X :=
  liftShamtOp args fun a shamt =>
    let complement := (32 - shamt) &&& 0x1F
    let val := Expr.zext32 a
    .sext32 (.or (.srl val (.imm (X.fromU64 shamt))) (.sll val (.imm (X.fromU64 complement))))

def liftZbb (args : InstrArgs) (opid : OpId) : Lifted X :=
  match opid with
  | .zbb .andn => liftBinary args fun a b => .and a (.not b)
  | .zbb .orn => liftBinary args fun a b => .or a (.not b)
  | .zbb .xnor => liftBinary args fun a b => .not (.xor a b)
  | .zbb .clz => liftUnary args .clz
  | .zbb .ctz => liftUnary args .ctz
  | .zbb .cpop => liftUnary args .cpop
  | .zbb .clzw => liftUnary args .clz32
  | .zbb .ctzw => liftUnary args .ctz32
  | .zbb .cpopw => liftUnary args .cpop32
  | .zbb .max => liftBinary args .max
  | .zbb .maxu => liftBinary args .maxu
  | .zbb .min => liftBinary args .min
  | .zbb .minu => liftBinary args .minu
  | .zbb .sextB => liftUnary args .sext8
  | .zbb .sextH => liftUnary args .sext16
  | .zbb .zextH => liftUnary args .zext16
  | .zbb .rol => liftRol args
  | .zbb .ror => liftRor args
  | .zbb .rori => liftRori args
  | .zbb .rolw => liftRolw args
  | .zbb .rorw => liftRorw args
  | .zbb .roriw => liftRoriw args
  | .zbb .orcB => liftUnary args .orc8
  | .zbb .rev8 => liftUnary args .rev8
  | _ => ([], .trap "unknown Zbb opid")

/-! ## Zbs -/

def decodeZbs (X : Xlen) (raw : BitVec 32) (pc : X.Reg) : Option (DecodedInstr X) :=
  let opcode := decodeOpcode raw
  let funct3 := decodeFunct3 raw
  let funct7 := decodeFunct7 raw
  let rd := decodeRd raw
  let rs1 := decodeRs1 raw
  let rs2 := decodeRs2 raw
  let found : Option (ZbsOp × InstrArgs) :=
    if opcode = 0b0110011 then
      if funct3 = 0b001 then
        match funct7 with
        | 0b0100100 => some (.bclr, .R rd rs1 rs2)
        | 0b0110100 => some (.binv, .R rd rs1 rs2)
        | 0b0010100 => some (.bset, .R rd rs1 rs2)
        | _ => none
      else if funct3 = 0b101 ∧ funct7 = 0b0100100 then some (.bext, .R rd rs1 rs2)
      else none
    else if opcode = 0b0010011 then
      if X.value = 32 ∧ (raw >>> 25) &&& 1 ≠ 0 then none
      else
        let shamt := (raw >>> 20) &&& (if X.value = 32 then 0x1F else 0x3F)
        let funct6 := ((raw >>> 26) &&& 0x3F).toNat
        if funct3 = 0b001 then
          match funct6 with
          | 0b010010 => some (.bclri, .I rd rs1 shamt)
          | 0b011010 => some (.binvi, .I rd rs1 shamt)
          | 0b001010 => some (.bseti, .I rd rs1 shamt)
          | _ => none
        else if funct3 = 0b101 ∧ funct6 = 0b010010 then some (.bexti, .I rd rs1 shamt)
        else none
    else none
  found.map fun (op, args) => ⟨.zbs op, pc, 4, raw, args⟩

/-- `1 << (rs2 & (XLEN-1))`. -/
def bitAt (b : Expr X) : Expr X := .sll (.imm (X.fromU64 1)) (.and b xlenMask)

/-- `1 << shamt`. -/
def bitAtImm (shamt : U64) : Expr X := .sll (.imm (X.fromU64 1)) (.imm (X.fromU64 shamt))

def liftZbs (args : InstrArgs) (opid : OpId) : Lifted X :=
  match opid with
  | .zbs .bclr => liftBinary args fun a b => .and a (.not (bitAt b))
  | .zbs .bclri => liftShamtOp args fun a shamt => .and a (.not (bitAtImm shamt))
  | .zbs .bext => liftBinary args fun a b => .and (.srl a (.and b xlenMask)) (.imm (X.fromU64 1))
  | .zbs .bexti =>
    liftShamtOp args fun a shamt => .and (.srl a (.imm (X.fromU64 shamt))) (.imm (X.fromU64 1))
  | .zbs .binv => liftBinary args fun a b => .xor a (bitAt b)
  | .zbs .binvi => liftShamtOp args fun a shamt => .xor a (bitAtImm shamt)
  | .zbs .bset => liftBinary args fun a b => .or a (bitAt b)
  | .zbs .bseti => liftShamtOp args fun a shamt => .or a (bitAtImm shamt)
  | _ => ([], .trap "unknown Zbs opid")

/-! ## Zbkb -/

def decodeZbkb (X : Xlen) (raw : BitVec 32) (pc : X.Reg) : Option (DecodedInstr X) :=
  let opcode := decodeOpcode raw
  let funct3 := decodeFunct3 raw
  let funct7 := decodeFunct7 raw
  let rd := decodeRd raw
  let rs1 := decodeRs1 raw
  let rs2 := decodeRs2 raw
  let imm12 := ((raw >>> 20) &&& 0xFFF).toNat
  let found (op : ZbkbOp) (args : InstrArgs) : Option (DecodedInstr X) :=
    some ⟨.zbkb op, pc, 4, raw, args⟩
  if opcode = 0b0110011 ∧ funct7 = 0b0000100 ∧ funct3 = 0b100 then found .pack (.R rd rs1 rs2)
  else if opcode = 0b0110011 ∧ funct7 = 0b0000100 ∧ funct3 = 0b111 then
    found .packh (.R rd rs1 rs2)
  else if opcode = 0b0010011 ∧ funct3 = 0b101 ∧ imm12 = 0b011010000111 then
    found .brev8 (.I rd rs1 0)
  else if opcode = 0b0010011 ∧ X.value = 32 ∧ funct3 = 0b101 ∧ imm12 = 0b000010001111 then
    found .unzip (.I rd rs1 0)
  else if opcode = 0b0010011 ∧ X.value = 32 ∧ funct3 = 0b001 ∧ imm12 = 0b000010001111 then
    found .zip (.I rd rs1 0)
  else if opcode = 0b0111011 ∧ X.value = 64 ∧ funct7 = 0b0000100 ∧ funct3 = 0b100 then
    found .packw (.R rd rs1 rs2)
  else none

def liftZbkb (args : InstrArgs) (opid : OpId) : Lifted X :=
  match opid with
  | .zbkb .pack => liftBinary args .pack
  | .zbkb .packh => liftBinary args .pack8
  | .zbkb .packw => liftBinary args .pack16
  | .zbkb .brev8 => liftUnary args .brev8
  | .zbkb .zip => liftUnary args .zip
  | .zbkb .unzip => liftUnary args .unzip
  | _ => ([], .trap "unknown Zbkb opid")

end Rvr
