import Rvr.Isa.Base

/-!
# The M, A, Zicsr, Zifencei and Zicond extensions

Decoding and lifting of the smaller standard extensions (`m.rs`, `a.rs`, `zicsr.rs`, `zifencei.rs`
and `zicond.rs` under `rvr-isa/src/extensions`).
-/

namespace Rvr

variable {X : Xlen}

/-! ## M -/

def decodeM (X : Xlen) (raw : BitVec 32) (pc : X.Reg) : Option (DecodedInstr X) :=
  let op : Option MOp :=
    if decodeFunct7 raw ≠ 0x01 then none
    else
      match decodeOpcode raw with
      | 0x33 =>
        match decodeFunct3 raw with
        | 0 => some .mul
        | 1 => some .mulh
        | 2 => some .mulhsu
        | 3 => some .mulhu
        | 4 => some .div
        | 5 => some .divu
        | 6 => some .rem
        | 7 => some .remu
        | _ => none
      | 0x3B =>
        if X.value = 64 then
          match decodeFunct3 raw with
          | 0 => some .mulw
          | 4 => some .divw
          | 5 => some .divuw
          | 6 => some .remw
          | 7 => some .remuw
          | _ => none
        else none
      | _ => none
  op.map fun op => ⟨.m op, pc, 4, raw, .R (decodeRd raw) (decodeRs1 raw) (decodeRs2 raw)⟩

def liftMOp (args : InstrArgs) (op : MOp) : Lifted X :=
  match op with
  | .mul => liftR args .mul
  | .mulh => liftR args .mulh
  | .mulhsu => liftR args .mulhsu
  | .mulhu => liftR args .mulhu
  | .div => liftR args .div
  | .divu => liftR args .divu
  | .rem => liftR args .rem
  | .remu => liftR args .remu
  | .mulw => liftR args .mulw
  | .divw => liftR args .divw
  | .divuw => liftR args .divuw
  | .remw => liftR args .remw
  | .remuw => liftR args .remuw

/-- `lift_m`. -/
def liftM (args : InstrArgs) (opid : OpId) : Lifted X :=
  match opid with
  | .m op => liftMOp args op
  | _ => ([], .trap "unknown M instruction")

/-! ## A -/

/-- `decode_a_opid`: funct5 selects the operation, `is64` its width. -/
def decodeAOpid (funct5 : ℕ) (is64 : Bool) : Option AOp :=
  match funct5 with
  | 0x02 => some (if is64 then .lrD else .lrW)
  | 0x03 => some (if is64 then .scD else .scW)
  | 0x01 => some (if is64 then .amoswapD else .amoswapW)
  | 0x00 => some (if is64 then .amoaddD else .amoaddW)
  | 0x04 => some (if is64 then .amoxorD else .amoxorW)
  | 0x0C => some (if is64 then .amoandD else .amoandW)
  | 0x08 => some (if is64 then .amoorD else .amoorW)
  | 0x10 => some (if is64 then .amominD else .amominW)
  | 0x14 => some (if is64 then .amomaxD else .amomaxW)
  | 0x18 => some (if is64 then .amominuD else .amominuW)
  | 0x1C => some (if is64 then .amomaxuD else .amomaxuW)
  | _ => none

def decodeA (X : Xlen) (raw : BitVec 32) (pc : X.Reg) : Option (DecodedInstr X) :=
  let funct3 := decodeFunct3 raw
  if decodeOpcode raw ≠ 0x2F then none
  else if funct3 ≠ 2 ∧ ¬(funct3 = 3 ∧ X.value = 64) then none
  else
    (decodeAOpid ((raw >>> 27) &&& 0x1F).toNat (funct3 == 3)).map fun op =>
      ⟨.a op, pc, 4, raw,
        .Amo (decodeRd raw) (decodeRs1 raw) (decodeRs2 raw)
          ((raw >>> 26) &&& 1 != 0) ((raw >>> 25) &&& 1 != 0)⟩

/-- The `.D` operations. -/
def AOp.is64 : AOp → Bool
  | .lrD | .scD | .amoswapD | .amoaddD | .amoxorD | .amoandD | .amoorD
  | .amominD | .amomaxD | .amominuD | .amomaxuD => true
  | _ => false

/-- LR: set the reservation and load. -/
def liftLr (rd rs1 width : ℕ) (is64 : Bool) : Lifted X :=
  let memRead : Expr X := if is64 then .memU (.read rs1) width else .memS (.read rs1) width
  ([.writeResAddr (.read rs1), .writeResValid (.imm (X.fromU64 1)), .writeReg rd memRead],
    .fall none)

/-- SC: store if the reservation is valid for the address; clear it either way. -/
def liftSc (rd rs1 rs2 width : ℕ) : Lifted X :=
  let cond : Expr X :=
    .and (.ne .resValid (.imm (X.fromU64 0))) (.eq .resAddr (.read rs1))
  let thenStmts : List (Stmt X) :=
    [.writeMem (.read rs1) 0 (.read rs2) width, .writeReg rd (.imm (X.fromU64 0)),
      .writeResValid (.imm (X.fromU64 0))]
  let elseStmts : List (Stmt X) :=
    [.writeReg rd (.imm (X.fromU64 1)), .writeResValid (.imm (X.fromU64 0))]
  ([.ite cond thenStmts elseStmts], .fall none)

/-- The address and source operand are saved in temporaries when rd would overwrite them; the old
value is read once into a third temporary. -/
def liftAmo (rd rs1 rs2 width : ℕ) (signed : Bool) (op : Expr X → Expr X → Expr X) : Lifted X :=
  let saveAddr : List (Stmt X) := if rd = rs1 then [.writeTemp 1 (.read rs1)] else []
  let addr : Expr X := if rd = rs1 then .temp 1 else .read rs1
  let saveSrc : List (Stmt X) := if rd = rs2 then [.writeTemp 3 (.read rs2)] else []
  let src : Expr X := if rd = rs2 then .temp 3 else .read rs2
  let memRead : Expr X := if signed then .memS addr width else .memU addr width
  let old : Expr X := .temp 2
  (saveAddr ++ saveSrc ++
    [.writeTemp 2 memRead, .writeReg rd old, .writeMem addr 0 (op old src) width,
      .writeResValid (.imm (X.fromU64 0))],
    .fall none)

def liftAOp (rd rs1 rs2 : ℕ) (op : AOp) : Lifted X :=
  let width := if op.is64 then 8 else 4
  let signed := !op.is64
  match op with
  | .lrW | .lrD => liftLr rd rs1 width op.is64
  | .scW | .scD => liftSc rd rs1 rs2 width
  | .amoswapW | .amoswapD => liftAmo rd rs1 rs2 width signed fun _ b => b
  | .amoaddW | .amoaddD => liftAmo rd rs1 rs2 width signed .add
  | .amoxorW | .amoxorD => liftAmo rd rs1 rs2 width signed .xor
  | .amoandW | .amoandD => liftAmo rd rs1 rs2 width signed .and
  | .amoorW | .amoorD => liftAmo rd rs1 rs2 width signed .or
  | .amominW => liftAmo rd rs1 rs2 width signed .min32
  | .amomaxW => liftAmo rd rs1 rs2 width signed .max32
  | .amominuW => liftAmo rd rs1 rs2 width signed .minu32
  | .amomaxuW => liftAmo rd rs1 rs2 width signed .maxu32
  | .amominD => liftAmo rd rs1 rs2 width signed .min
  | .amomaxD => liftAmo rd rs1 rs2 width signed .max
  | .amominuD => liftAmo rd rs1 rs2 width signed .minu
  | .amomaxuD => liftAmo rd rs1 rs2 width signed .maxu

/-- `lift_a`. -/
def liftA (args : InstrArgs) (opid : OpId) : Lifted X :=
  match args with
  | .Amo rd rs1 rs2 _ _ =>
    match opid with
    | .a op => liftAOp rd rs1 rs2 op
    | _ => ([], .trap "unknown A instruction")
  | _ => invalidArgs

/-! ## Zicsr -/

def decodeZicsr (X : Xlen) (raw : BitVec 32) (pc : X.Reg) : Option (DecodedInstr X) :=
  let funct3 := decodeFunct3 raw
  if decodeOpcode raw ≠ 0x73 ∨ funct3 = 0 then none
  else
    let rd := decodeRd raw
    let rs1 := decodeRs1 raw
    let csr := ((raw >>> 20) &&& 0xFFF).toNat
    let found : Option (ZicsrOp × InstrArgs) :=
      match funct3 with
      | 1 => some (.csrrw, .Csr rd rs1 csr)
      | 2 => some (.csrrs, .Csr rd rs1 csr)
      | 3 => some (.csrrc, .Csr rd rs1 csr)
      | 5 => some (.csrrwi, .CsrI rd rs1 csr)
      | 6 => some (.csrrsi, .CsrI rd rs1 csr)
      | 7 => some (.csrrci, .CsrI rd rs1 csr)
      | _ => none
    found.map fun (op, args) => ⟨.zicsr op, pc, 4, raw, args⟩

def liftCsrrw (args : InstrArgs) : Lifted X :=
  match args with
  | .Csr rd rs1 csr => (writeRd rd (.csr csr) ++ [.writeCsr csr (.read rs1)], .fall none)
  | _ => invalidArgs

def liftCsrrs (args : InstrArgs) : Lifted X :=
  match args with
  | .Csr rd rs1 csr =>
    (writeRd rd (.csr csr) ++
      (if rs1 ≠ 0 then [.writeCsr csr (.or (.csr csr) (.read rs1))] else []), .fall none)
  | _ => invalidArgs

def liftCsrrc (args : InstrArgs) : Lifted X :=
  match args with
  | .Csr rd rs1 csr =>
    (writeRd rd (.csr csr) ++
      (if rs1 ≠ 0 then [.writeCsr csr (.and (.csr csr) (.not (.read rs1)))] else []), .fall none)
  | _ => invalidArgs

def liftCsrrwi (args : InstrArgs) : Lifted X :=
  match args with
  | .CsrI rd imm csr =>
    (writeRd rd (.csr csr) ++ [.writeCsr csr (.imm (X.fromU64 (BitVec.ofNat 64 imm)))], .fall none)
  | _ => invalidArgs

def liftCsrrsi (args : InstrArgs) : Lifted X :=
  match args with
  | .CsrI rd imm csr =>
    (writeRd rd (.csr csr) ++
      (if imm ≠ 0 then [.writeCsr csr (.or (.csr csr) (.imm (X.fromU64 (BitVec.ofNat 64 imm))))]
        else []), .fall none)
  | _ => invalidArgs

def liftCsrrci (args : InstrArgs) : Lifted X :=
  match args with
  | .CsrI rd imm csr =>
    (writeRd rd (.csr csr) ++
      (if imm ≠ 0 then
        [.writeCsr csr (.and (.csr csr) (.not (.imm (X.fromU64 (BitVec.ofNat 64 imm)))))]
        else []), .fall none)
  | _ => invalidArgs

/-- `lift_zicsr`. -/
def liftZicsr (args : InstrArgs) (opid : OpId) : Lifted X :=
  match opid with
  | .zicsr .csrrw => liftCsrrw args
  | .zicsr .csrrs => liftCsrrs args
  | .zicsr .csrrc => liftCsrrc args
  | .zicsr .csrrwi => liftCsrrwi args
  | .zicsr .csrrsi => liftCsrrsi args
  | .zicsr .csrrci => liftCsrrci args
  | _ => ([], .trap "unknown zicsr instruction")

/-! ## Zifencei -/

def decodeZifencei (X : Xlen) (raw : BitVec 32) (pc : X.Reg) : Option (DecodedInstr X) :=
  if decodeOpcode raw = 0x0F ∧ decodeFunct3 raw = 1 then
    some ⟨.zifencei .fenceI, pc, 4, raw, .none⟩
  else none

/-! ## Zicond -/

def decodeZicond (X : Xlen) (raw : BitVec 32) (pc : X.Reg) : Option (DecodedInstr X) :=
  let args : InstrArgs := .R (decodeRd raw) (decodeRs1 raw) (decodeRs2 raw)
  if decodeOpcode raw = 0b0110011 ∧ decodeFunct7 raw = 0b0000111 then
    if decodeFunct3 raw = 0b101 then some ⟨.zicond .czeroEqz, pc, 4, raw, args⟩
    else if decodeFunct3 raw = 0b111 then some ⟨.zicond .czeroNez, pc, 4, raw, args⟩
    else none
  else none

/-- The body of an instruction of the newer extensions whose arguments have the wrong format. -/
def badArgs : Lifted X := ([], .trap "bad args")

def liftCzeroEqz (args : InstrArgs) : Lifted X :=
  match args with
  | .R rd rs1 rs2 =>
    let cond : Expr X := .eq (.reg rs2) (.imm (X.fromU64 0))
    ([.writeReg rd (.select cond (.imm (X.fromU64 0)) (.reg rs1))], .fall none)
  | _ => badArgs

def liftCzeroNez (args : InstrArgs) : Lifted X :=
  match args with
  | .R rd rs1 rs2 =>
    let cond : Expr X := .ne (.reg rs2) (.imm (X.fromU64 0))
    ([.writeReg rd (.select cond (.imm (X.fromU64 0)) (.reg rs1))], .fall none)
  | _ => badArgs

def liftZicond (args : InstrArgs) (opid : OpId) : Lifted X :=
  match opid with
  | .zicond .czeroEqz => liftCzeroEqz args
  | .zicond .czeroNez => liftCzeroNez args
  | _ => ([], .trap "unknown Zicond opid")

end Rvr
