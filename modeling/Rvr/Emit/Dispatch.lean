import Rvr.Emit.Inputs
import Rvr.Lib.CLang

/-!
# Indirect jumps in the three backends

How the emitted code finds the block of an indirect jump target: `dispatch_index` of the C header
(`rvr-emit/src/c/header/dispatch.rs`) with the table lookup of `render_jump_dynamic_impl`, and
`emit_dispatch_jump` of the x86-64 and ARM64 backends after the mask that their indirect jumps
apply.  The C text is an expression of the C library; the assembly is a list of instructions with a
machine of its own that has the registers used there.

The lookup reads the table by index, so the machines keep the table base, an entry's offset from it
and the address of an entry's code symbolic.  Each backend's trap handler is modelled by what it
does to the exit flag and the exit code.
-/

namespace Rvr

open CLang

/-- How memory addresses are treated; of the dispatch code only the ARM64 one looks at it. -/
inductive AddressMode
  | unchecked | wrap | bounds
  deriving DecidableEq, Repr

def AddressMode.needsBoundsCheck (mode : AddressMode) : Bool := mode = .bounds

/-- Code generation backend. -/
inductive Backend
  | c | x86Asm | arm64Asm
  deriving DecidableEq, Repr

/-- The exit flag and the exit code of the guest state. -/
structure ExitState where
  hasExited : Bool
  exitCode : BitVec 8
  deriving DecidableEq

/-- `rv_trap` sets the exit code; `asm_trap` of the assembly backends only sets the flag. -/
def Backend.trapHandler : Backend → ExitState → ExitState
  | .c, _ => ⟨true, 1⟩
  | .x86Asm, s | .arm64Asm, s => { s with hasExited := true }

/-- Where an indirect jump ends: at an entry of the table or in the trap handler, or at no defined
place because the table was read outside its bounds or a register did not hold what the code
needs. -/
inductive DispatchResult
  | reached (e : DispatchEntry)
  | outOfBounds
  | stuck
  deriving DecidableEq

/-! ## C -/

/-- `uN_t` with the register width: the type of guest registers. -/
def Xlen.cType : Xlen → CType
  | .rv32 => .u32
  | .rv64 => .u64

/-- `is_power_of_two`. -/
def isPowerOfTwo (v : U64) : Bool := (List.range 64).any fun k => v = BitVec.twoPow 64 k

/-- `{n:#x}` as a C literal. -/
def hexLiteral (n : U64) : CExpr := .lit (.ofInt (hexType n.toNat) n.toNat)

/-- The parameter `pc` of `dispatch_index`. -/
def pcParam : CExpr := .place ⟨"pc", []⟩

/-- The returned expression of `dispatch_index`: a mask if `text_start` is a power of two, a
subtraction otherwise. -/
def dispatchBody (textStart : U64) : CExpr :=
  .binary .shr
    (if isPowerOfTwo textStart then .binary .band pcParam (hexLiteral (textStart - 1))
     else .binary .sub pcParam (hexLiteral textStart))
    (.lit (.ofInt .i32 1))

/-- `dispatch_index`, which returns a `uint64_t`. -/
def dispatchIndex {X : Xlen} (textStart : U64) (pc : X.Reg) : Option U64 :=
  let env : Env :=
    { vars := fun p => if p = ⟨"pc", []⟩ then some (.int (.ofInt X.cType pc.toNat)) else none
      fns := fun _ => none }
  ((dispatchBody textStart).eval env).map fun v => v.bits .u64

/-- `dispatch_table[dispatch_index(target)]`. -/
def dispatchC {X : Xlen} (inputs : EmitInputs) (target : X.Reg) : DispatchResult :=
  match dispatchIndex inputs.textStart target with
  | some index =>
    match inputs.dispatchTable[index.toNat]? with
    | some e => .reached e
    | none => .outOfBounds
  | none => .stuck

/-! ## Assembly -/

/-- What a machine register holds. -/
inductive AsmValue
  | word (v : U64)
  | page
  | table
  | offset (e : DispatchEntry)
  | code (e : DispatchEntry)
  deriving DecidableEq

/-- What an instruction does: go on, skip to a label, or end the jump. -/
inductive AsmStep (σ : Type)
  | next (s : σ)
  | skip (label : String) (s : σ)
  | done (r : DispatchResult)

/-- Run straight-line code with forward jumps; `skipping` is the label that is looked for. -/
def runAsm {σ ι : Type} (step : ι → σ → AsmStep σ) (label? : ι → Option String) :
    Option String → List ι → σ → DispatchResult
  | _, [], _ => .stuck
  | some l, i :: is, s =>
    if label? i = some l then runAsm step label? none is s else runAsm step label? (some l) is s
  | none, i :: is, s =>
    match step i s with
    | .next s' => runAsm step label? none is s'
    | .skip l s' => runAsm step label? (some l) is s'
    | .done r => r

/-- Read the table at an index. -/
def AsmStep.load {σ : Type} (table : List DispatchEntry) (index : ℕ) (k : DispatchEntry → σ) :
    AsmStep σ :=
  match table[index]? with
  | some e => .next (k e)
  | none => .done .outOfBounds

/-! ### x86-64 -/

namespace X86

/-- The registers that the dispatch code uses, and the carry flag of the last comparison. -/
structure State where
  rax : AsmValue
  rcx : AsmValue
  rdx : AsmValue
  carry : Bool

/-- The instructions of the dispatch code, in AT&T operand order. -/
inductive Instr
  | andqRax (imm : U64)
  | sublEax (imm : BitVec 32)
  | cmplEax (imm : BitVec 32)
  | movlEdx (imm : BitVec 32)
  | subqRdxRax
  | cmpqRdxRax
  | jaeTrap
  | shrlEax
  | shrqRax
  | leaqTableRcx
  | movslqTableRax
  | addqRcxRax
  | jmpRax

/-- Apply a word operation to rax; a 32-bit operation clears the upper half. -/
def State.mapRax (s : State) (f : U64 → U64) : AsmStep State :=
  match s.rax with
  | .word v => .next { s with rax := .word (f v) }
  | _ => .done .stuck

def step (table : List DispatchEntry) : Instr → State → AsmStep State
  | .andqRax imm, s => s.mapRax (· &&& imm)
  | .sublEax imm, s => s.mapRax fun v => ((v.setWidth 32 : BitVec 32) - imm).setWidth 64
  | .cmplEax imm, s =>
    match s.rax with
    | .word v => .next { s with carry := (v.setWidth 32 : BitVec 32) < imm }
    | _ => .done .stuck
  | .movlEdx imm, s => .next { s with rdx := .word (imm.setWidth 64) }
  | .subqRdxRax, s =>
    match s.rdx with
    | .word d => s.mapRax (· - d)
    | _ => .done .stuck
  | .cmpqRdxRax, s =>
    match s.rax, s.rdx with
    | .word v, .word d => .next { s with carry := v < d }
    | _, _ => .done .stuck
  | .jaeTrap, s => if s.carry then .next s else .done (.reached .trap)
  | .shrlEax, s => s.mapRax fun v => ((v.setWidth 32 : BitVec 32) >>> 1).setWidth 64
  | .shrqRax, s => s.mapRax (· >>> 1)
  | .leaqTableRcx, s => .next { s with rcx := .table }
  | .movslqTableRax, s =>
    match s.rcx, s.rax with
    | .table, .word v => .load table v.toNat fun e => { s with rax := .offset e }
    | _, _ => .done .stuck
  | .addqRcxRax, s =>
    match s.rcx, s.rax with
    | .table, .offset e => .next { s with rax := .code e }
    | _, _ => .done .stuck
  | .jmpRax, s =>
    match s.rax with
    | .code e => .done (.reached e)
    | _ => .done .stuck

/-- `emit_dispatch_jump`. -/
def emitDispatchJump (X : Xlen) (inputs : EmitInputs) : List Instr :=
  let textStart := (inputs.textStart.setWidth 32 : BitVec 32)
  let textSize := ((inputs.pcEnd - inputs.textStart).setWidth 32 : BitVec 32)
  (match X with
   | .rv32 => [.sublEax textStart, .cmplEax textSize, .jaeTrap, .shrlEax]
   | .rv64 => [.movlEdx textStart, .subqRdxRax, .movlEdx textSize, .cmpqRdxRax, .jaeTrap, .shrqRax])
  ++ [.leaqTableRcx, .movslqTableRax, .addqRcxRax, .jmpRax]

/-- An indirect jump to a target in rax: the low bit is cleared first. -/
def dispatch {X : Xlen} (inputs : EmitInputs) (target : X.Reg) : DispatchResult :=
  runAsm (step inputs.dispatchTable) (fun _ => none) none
    (.andqRax (-2) :: emitDispatchJump X inputs)
    ⟨.word (Xlen.toU64 target), .word 0, .word 0, false⟩

end X86

/-! ### ARM64 -/

namespace Arm64

/-- The registers that the dispatch code uses, and whether the last comparison was unsigned
lower. -/
structure State where
  x0 : AsmValue
  x1 : AsmValue
  x2 : AsmValue
  lower : Bool

/-- The instructions of the dispatch code.  `wide` selects the 64-bit form of a register; the 32-bit
form clears the upper half. -/
inductive Instr
  | andX0 (imm : U64)
  | mov2 (wide : Bool) (imm : BitVec 16)
  | movz2 (wide : Bool) (chunk : BitVec 16) (shift : ℕ)
  | movk2 (wide : Bool) (chunk : BitVec 16) (shift : ℕ)
  | sub02 (wide : Bool)
  | cmp02 (wide : Bool)
  | bLo (label : String)
  | bTrap
  | label (name : String)
  | adrpX1
  | addLo12X1
  | lsr0 (wide : Bool)
  | ldrTable
  | addX0
  | brX0

def Instr.label? : Instr → Option String
  | .label name => some name
  | _ => none

/-- The result of an operation as the register form keeps it. -/
def narrow (wide : Bool) (v : U64) : U64 :=
  if wide then v else (v.setWidth 32 : BitVec 32).setWidth 64

/-- Apply an operation of the given form to x0 and x2. -/
def State.map02 (s : State) (f : U64 → U64 → State) : AsmStep State :=
  match s.x0, s.x2 with
  | .word v, .word d => .next (f v d)
  | _, _ => .done .stuck

def step (table : List DispatchEntry) : Instr → State → AsmStep State
  | .andX0 imm, s => s.map02 fun v _ => { s with x0 := .word (v &&& imm) }
  | .mov2 _ imm, s => .next { s with x2 := .word (imm.setWidth 64) }
  | .movz2 wide chunk shift, s =>
    .next { s with x2 := .word (narrow wide ((chunk.setWidth 64 : U64) <<< shift)) }
  | .movk2 wide chunk shift, s =>
    s.map02 fun _ d =>
      { s with x2 := .word (narrow wide
          (d &&& ~~~ ((0xFFFF : U64) <<< shift) ||| (chunk.setWidth 64 : U64) <<< shift)) }
  | .sub02 wide, s => s.map02 fun v d => { s with x0 := .word (narrow wide (v - d)) }
  | .cmp02 wide, s => s.map02 fun v d => { s with lower := narrow wide v < narrow wide d }
  | .bLo l, s => if s.lower then .skip l s else .next s
  | .bTrap, _ => .done (.reached .trap)
  | .label _, s => .next s
  | .adrpX1, s => .next { s with x1 := .page }
  | .addLo12X1, s =>
    match s.x1 with
    | .page => .next { s with x1 := .table }
    | _ => .done .stuck
  | .lsr0 wide, s => s.map02 fun v _ => { s with x0 := .word (narrow wide v >>> 1) }
  | .ldrTable, s =>
    match s.x1, s.x0 with
    | .table, .word v =>
      .load table (v.setWidth 32 : BitVec 32).toNat fun e => { s with x0 := .offset e }
    | _, _ => .done .stuck
  | .addX0, s =>
    match s.x1, s.x0 with
    | .table, .offset e => .next { s with x0 := .code e }
    | _, _ => .done .stuck
  | .brX0, s =>
    match s.x0 with
    | .code e => .done (.reached e)
    | _ => .done .stuck

/-- The 16-bit part of a value at a bit position. -/
def chunkAt (value : U64) (shift : ℕ) : BitVec 16 := (value >>> shift).setWidth 16

/-- `load_imm` into x2 or w2; the 32-bit form is only used for values that fit. -/
def loadImm (wide : Bool) (value : U64) : List Instr :=
  if value ≤ 0xFFFF then [.mov2 wide (value.setWidth 16)]
  else if wide then
    let shifts := [0, 16, 32, 48].filter fun shift => chunkAt value shift ≠ 0
    match shifts with
    | [] => [.mov2 wide 0]
    | first :: rest =>
      .movz2 wide (chunkAt value first) first ::
        rest.map fun shift => .movk2 wide (chunkAt value shift) shift
  else
    .movz2 wide (chunkAt value 0) 0 ::
      if value >>> 16 ≠ 0 then [.movk2 wide (chunkAt value 16) 16] else []

/-- `emit_dispatch_jump`. -/
def emitDispatchJump (X : Xlen) (mode : AddressMode) (inputs : EmitInputs) : List Instr :=
  let wide := X = .rv64
  loadImm wide inputs.textStart ++ [.sub02 wide]
  ++ (if mode.needsBoundsCheck then
        loadImm wide (inputs.pcEnd - inputs.textStart) ++
          [.cmp02 wide, .bLo "valid_pc", .bTrap, .label "valid_pc"]
      else [])
  ++ [.adrpX1, .addLo12X1, .lsr0 wide, .ldrTable, .addX0, .brX0]

/-- An indirect jump to a target in x0: the low bit is cleared first. -/
def dispatch {X : Xlen} (mode : AddressMode) (inputs : EmitInputs) (target : X.Reg) :
    DispatchResult :=
  runAsm (step inputs.dispatchTable) Instr.label? none
    (.andX0 (-2) :: emitDispatchJump X mode inputs)
    ⟨.word (Xlen.toU64 target), .word 0, .word 0, false⟩

end Arm64

/-- An indirect jump in the code that a backend emits. -/
def Backend.dispatch {X : Xlen} (backend : Backend) (mode : AddressMode) (inputs : EmitInputs)
    (target : X.Reg) : DispatchResult :=
  match backend with
  | .c => dispatchC inputs target
  | .x86Asm => X86.dispatch inputs target
  | .arm64Asm => Arm64.dispatch mode inputs target

end Rvr
