import Rvr.Ir.Instr
import Rvr.Ir.Ops
import Rvr.Lib.ByteMemory

/-!
# Executing lifted instructions

The guest state and the meaning of expressions, statements and terminators, as the C backend gives
them (`rvr-emit/src/c/emitter`): `x0` reads as zero and ignores writes, an `If` is taken when its
condition is non-zero, the counter CSRs read `instret` and ignore writes, and an instruction whose
statements write the exit flag leaves the program as soon as the flag is set.

Guest memory is a byte memory over the whole `X.value`-bit address space.  What the host runtime
supplies (the value of a C variable, the result and memory effect of a runtime call) is a parameter,
`Runtime`.
-/

namespace Rvr

open ByteMemory

/-- The machine state (`RvState`): `temps` are the C locals `_tN` of the current instruction. -/
structure GuestState (X : Xlen) where
  regs : ℕ → X.Reg
  pc : X.Reg
  mem : X.Reg → BitVec 8
  csrs : ℕ → X.Reg
  instret : BitVec 64
  resAddr : X.Reg
  resValid : BitVec 8
  hasExited : BitVec 8
  exitCode : BitVec 8
  cycle : X.Reg
  traceIdx : X.Reg
  pcIdx : X.Reg
  temps : ℕ → X.Reg

/-- What generated code gets from its host: C variables, and for every runtime function its return
value and the guest memory it leaves behind. -/
structure Runtime (X : Xlen) where
  var : String → X.Reg
  ret : String → List X.Reg → GuestState X → X.Reg
  mem : String → List X.Reg → GuestState X → X.Reg → BitVec 8

/-- The all-zero state that the host allocates. -/
def GuestState.zero (X : Xlen) : GuestState X where
  regs _ := 0
  pc := 0
  mem _ := 0
  csrs _ := 0
  instret := 0
  resAddr := 0
  resValid := 0
  hasExited := 0
  exitCode := 0
  cycle := 0
  traceIdx := 0
  pcIdx := 0
  temps _ := 0

/-- A host whose variables and runtime functions are all zero and which never touches memory. -/
def Runtime.idle (X : Xlen) : Runtime X where
  var _ := 0
  ret _ _ _ := 0
  mem _ _ s := s.mem

/-- The CSRs whose low half is the retired-instruction count. -/
def isCounter (csr : ℕ) : Bool := csr ∈ [0xB00, 0xC00, 0xB02, 0xC02]

/-- The CSRs whose value is the high half of the retired-instruction count. -/
def isCounterHigh (csr : ℕ) : Bool := csr ∈ [0xB80, 0xC80, 0xB82, 0xC82]

namespace GuestState

variable {X : Xlen}

/-- Read a general-purpose register; `x0` is zero. -/
def readReg (s : GuestState X) (r : ℕ) : X.Reg := if r = 0 then 0 else s.regs r

/-- Write a general-purpose register; writes to `x0` are dropped. -/
def writeReg (s : GuestState X) (r : ℕ) (v : X.Reg) : GuestState X :=
  { s with regs := if r = 0 then s.regs else Function.update s.regs r v }

/-- `rd_csr`. -/
def readCsr (s : GuestState X) (csr : ℕ) : X.Reg :=
  if isCounter csr then s.instret.setWidth X.value
  else if isCounterHigh csr then (s.instret >>> 32).setWidth X.value
  else s.csrs csr

/-- `wr_csr`: the counters are read-only. -/
def writeCsr (s : GuestState X) (csr : ℕ) (v : X.Reg) : GuestState X :=
  { s with csrs := if isCounter csr || isCounterHigh csr then s.csrs
                   else Function.update s.csrs csr v }

/-- `rd_mem_*`: the access selected by the width and signedness of the read. -/
def loadMem (s : GuestState X) (addr : X.Reg) (width : ℕ) (signed : Bool) : X.Reg :=
  match width, signed with
  | 1, true => (BitVec.ofNat 8 (readLE s.mem addr 1)).signExtend X.value
  | 1, false => BitVec.ofNat X.value (readLE s.mem addr 1)
  | 2, true => (BitVec.ofNat 16 (readLE s.mem addr 2)).signExtend X.value
  | 2, false => BitVec.ofNat X.value (readLE s.mem addr 2)
  | 4, true => (BitVec.ofNat 32 (readLE s.mem addr 4)).signExtend X.value
  | 8, _ => BitVec.ofNat X.value (readLE s.mem addr 8)
  | _, _ => BitVec.ofNat X.value (readLE s.mem addr 4)

/-- The number of bytes `wr_mem_*` stores for a width: widths other than 1, 2 and 8 store a word. -/
def storeBytes : ℕ → ℕ
  | 1 => 1
  | 2 => 2
  | 8 => 8
  | _ => 4

/-- `wr_mem_*`. -/
def storeMem (s : GuestState X) (addr : X.Reg) (width : ℕ) (v : X.Reg) : GuestState X :=
  { s with mem := writeLE s.mem addr (storeBytes width) v.toNat }

end GuestState

/-! ## Expressions -/

section Expressions

variable {X : Xlen} (rt : Runtime X) (s : GuestState X)

mutual

/-- The value of an expression in a guest state. -/
def Expr.eval : Expr X → X.Reg
  | .imm v => v
  | .reg r => s.readReg r
  | .csr c => s.readCsr c
  | .mem base offset width signed =>
    s.loadMem (base.eval + offset.signExtend X.value) width signed
  | .memAddr addr width signed => s.loadMem addr.eval width signed
  | .pc => s.pc
  | .cycle => s.cycle
  | .instret => s.instret.setWidth X.value
  | .temp i => s.temps i
  | .traceIdx => s.traceIdx
  | .pcIdx => s.pcIdx
  | .resAddr => s.resAddr
  | .resValid => s.resValid.setWidth X.value
  | .exited => s.hasExited.setWidth X.value
  | .exitCode => s.exitCode.setWidth X.value
  | .pcConst v => v
  | .var name => rt.var name
  | .unary op e => op.val e.eval
  | .binary op l r => op.val l.eval r.eval
  | .ternary op c t e => op.val c.eval t.eval e.eval
  | .externCall name args _ => rt.ret name (Expr.evalArgs args) s

/-- The values of the arguments of a runtime call. -/
def Expr.evalArgs : List (Expr X) → List X.Reg
  | [] => []
  | e :: es => e.eval :: Expr.evalArgs es

end

/-- The guest memory after evaluating an expression: a runtime call may have changed it.  The lifts
place such calls only at the root of a written value. -/
def Expr.memAfter : Expr X → X.Reg → BitVec 8
  | .externCall name args _ => rt.mem name (Expr.evalArgs rt s args) s
  | _ => s.mem

end Expressions

/-! ## Statements and terminators -/

section Statements

variable {X : Xlen} (rt : Runtime X)

/-- Write a value to a target; a memory target evaluates its base in the state before the write. -/
def WriteTarget.write (s : GuestState X) (v : X.Reg) : WriteTarget X → GuestState X
  | .reg r => s.writeReg r v
  | .csr c => s.writeCsr c v
  | .mem base offset width =>
    s.storeMem (base.eval rt s + offset.signExtend X.value) width v
  | .pc => { s with pc := v }
  | .temp i => { s with temps := Function.update s.temps i v }
  | .resAddr => { s with resAddr := v }
  | .resValid => { s with resValid := v.setWidth 8 }
  | .exited => { s with hasExited := v.setWidth 8 }
  | .exitCode => { s with exitCode := v.setWidth 8 }

mutual

/-- Execute one statement. -/
def Stmt.exec : Stmt X → GuestState X → GuestState X
  | .write target value, s =>
    target.write rt { s with mem := value.memAfter rt s } (value.eval rt s)
  | .ite cond thenStmts elseStmts, s =>
    if cond.eval rt s = 0 then Stmt.execAll elseStmts s else Stmt.execAll thenStmts s
  | .externCall fnName args, s => { s with mem := rt.mem fnName (Expr.evalArgs rt s args) s }

/-- Execute statements in order. -/
def Stmt.execAll : List (Stmt X) → GuestState X → GuestState X
  | [], s => s
  | st :: sts, s => Stmt.execAll sts (st.exec s)

end

mutual

/-- Whether a statement can write the exit flag or code. -/
def Stmt.writesExit : Stmt X → Bool
  | .write target _ =>
    match target with
    | .exited => true
    | .exitCode => true
    | _ => false
  | .ite _ thenStmts elseStmts =>
    Stmt.statementsWriteExit thenStmts || Stmt.statementsWriteExit elseStmts
  | .externCall _ _ => false

/-- `statements_write_exit`. -/
def Stmt.statementsWriteExit : List (Stmt X) → Bool
  | [] => false
  | st :: sts => st.writesExit || Stmt.statementsWriteExit sts

end

/-- How an instruction passes control on. -/
inductive Control (X : Xlen)
  | goto (pc : X.Reg)
  | exit (code : BitVec 8)
  deriving DecidableEq

/-- Where a terminator sends control; `nextPc` is the fall-through of the instruction. -/
def Terminator.control (s : GuestState X) (nextPc : X.Reg) : Terminator X → Control X
  | .fall target => .goto (target.getD nextPc)
  | .jump target => .goto target
  | .jumpDyn addr _ => .goto (addr.eval rt s)
  | .branch cond target fallPc _ =>
    if cond.eval rt s = 0 then .goto (fallPc.getD nextPc) else .goto target
  | .exit code => .exit ((code.eval rt s).setWidth 8)
  | .trap _ => .exit 1

/-- Execute a lifted instruction: the statements in order, the exit check if one of them can write
the exit flag, then the terminator. -/
def InstrIR.exec (i : InstrIR X) (s : GuestState X) : GuestState X × Control X :=
  let s' := Stmt.execAll rt i.statements s
  if Stmt.statementsWriteExit i.statements && s'.hasExited != 0 then (s', .exit s'.exitCode)
  else (s', i.terminator.control rt s' i.nextPc)

end Statements

end Rvr
