import Rvr.Ir.Expr

/-!
# Statements, terminators, instructions and blocks

The statement-level IR of `rvr-ir`: `stmt.rs`, `terminator.rs`, `instr.rs` and `block.rs`.  A lifted
instruction is a list of statements followed by one terminator; a lifted block is a list of lifted
instructions.
-/

namespace Rvr

/-- Write target for statements. -/
inductive WriteTarget (X : Xlen)
  | reg (idx : ℕ)
  | csr (csr : ℕ)
  | mem (base : Expr X) (offset : BitVec 16) (width : ℕ)
  | pc
  | temp (idx : ℕ)
  | resAddr
  | resValid
  | exited
  | exitCode

/-- Statement kinds. -/
inductive Stmt (X : Xlen) : Type
  | write (target : WriteTarget X) (value : Expr X)
  | ite (cond : Expr X) (thenStmts elseStmts : List (Stmt X))
  | externCall (fnName : String) (args : List (Expr X))

namespace Stmt

variable {X : Xlen}

def writeReg (reg : ℕ) (value : Expr X) : Stmt X := .write (.reg reg) value

def writeMem (base : Expr X) (offset : BitVec 16) (value : Expr X) (width : ℕ) : Stmt X :=
  .write (.mem base offset width) value

def writeCsr (csr : ℕ) (value : Expr X) : Stmt X := .write (.csr csr) value

def writeTemp (idx : ℕ) (value : Expr X) : Stmt X := .write (.temp idx) value

def writeResAddr (value : Expr X) : Stmt X := .write .resAddr value

def writeResValid (value : Expr X) : Stmt X := .write .resValid value

def writeExited (value : Expr X) : Stmt X := .write .exited value

def writeExitCode (value : Expr X) : Stmt X := .write .exitCode value

def ifThen (cond : Expr X) (thenStmts : List (Stmt X)) : Stmt X := .ite cond thenStmts []

end Stmt

/-- Branch hint for static prediction. -/
inductive BranchHint
  | none | taken | notTaken
  deriving DecidableEq, Repr

/-- Where control goes after the statements of an instruction. -/
inductive Terminator (X : Xlen)
  | fall (target : Option X.Reg)
  | jump (target : X.Reg)
  | jumpDyn (addr : Expr X) (resolved : Option (List X.Reg))
  | branch (cond : Expr X) (target : X.Reg) (fall : Option X.Reg) (hint : BranchHint)
  | exit (code : Expr X)
  | trap (message : String)

namespace Terminator

variable {X : Xlen}

/-- Any control flow other than a fall-through. -/
def isControlFlow : Terminator X → Bool
  | .fall _ => false
  | _ => true

end Terminator

/-- IR for a single instruction.  `op` is the packed `OpId` and `raw` the instruction bytes. -/
structure InstrIR (X : Xlen) where
  pc : X.Reg
  size : ℕ
  op : ℕ
  raw : BitVec 32
  statements : List (Stmt X)
  terminator : Terminator X

namespace InstrIR

variable {X : Xlen}

/-- The pc of the instruction that follows in memory. -/
def nextPc (i : InstrIR X) : X.Reg := X.fromU64 (Xlen.toU64 i.pc + BitVec.ofNat 64 i.size)

end InstrIR

/-- IR for a block: a start, the end of the last instruction pushed, and the instructions. -/
structure BlockIR (X : Xlen) where
  startPc : X.Reg
  endPc : X.Reg
  instructions : List (InstrIR X)

namespace BlockIR

variable {X : Xlen}

def new (startPc : X.Reg) : BlockIR X := ⟨startPc, startPc, []⟩

/-- Append an instruction; the block now ends where that instruction ends. -/
def push (b : BlockIR X) (instr : InstrIR X) : BlockIR X :=
  { b with endPc := instr.nextPc, instructions := b.instructions ++ [instr] }

end BlockIR

end Rvr
