import Rvr.Isa.Types

/-!
# Syscall handlers

ECALL is lifted by the handler of the registry, not by an extension: `BareMetalHandler` exits with
`a0`, and a `SyscallTable` dispatches on the syscall register (`rvr-isa/src/syscalls`).
-/

namespace Rvr

/-- Which register holds the syscall number. -/
inductive SyscallAbi
  | standard
  | embedded
  deriving DecidableEq, Repr

def SyscallAbi.syscallReg : SyscallAbi → ℕ
  | .standard => REG_A7
  | .embedded => REG_T0

/-- What a syscall does: exit, call a runtime function on `args` registers, or return a constant. -/
inductive SyscallAction
  | exit
  | runtime (name : String) (args : ℕ)
  | returnConst (value : BitVec 64)
  deriving DecidableEq, Repr

structure SyscallEntry where
  num : U64
  action : SyscallAction
  deriving DecidableEq, Repr

structure SyscallTable where
  abi : SyscallAbi
  entries : List SyscallEntry
  defaultError : BitVec 64

namespace SyscallTable

variable {X : Xlen}

/-- Entries in the order of their numbers (a stable sort). -/
def sortedEntries (t : SyscallTable) : List SyscallEntry :=
  t.entries.insertionSort fun a b => a.num.toNat ≤ b.num.toNat

def exitEntries (t : SyscallTable) : List SyscallEntry :=
  t.sortedEntries.filter fun e => e.action = .exit

def nonExitEntries (t : SyscallTable) : List SyscallEntry :=
  t.sortedEntries.filter fun e => e.action ≠ .exit

/-- The test for one syscall number. -/
def numEq (t : SyscallTable) (num : U64) : Expr X :=
  .eq (.read t.abi.syscallReg) (.imm (X.fromU64 num))

/-- The arguments of a runtime call: the state pointer and the first `args` argument registers. -/
def callArgs (args : ℕ) : List (Expr X) :=
  .var "state" :: (List.range args).map fun i => .read (REG_A0 + i)

/-- One link of the dispatch chain: the entry if its number matches, the rest otherwise. -/
def dispatchEntry (t : SyscallTable) (entry : SyscallEntry) (rest : Stmt X) : Stmt X :=
  match entry.action with
  | .runtime name args =>
    .ite (t.numEq entry.num)
      [.writeReg REG_A0 (.externCall name (callArgs args) (X.regBytes * 8))] [rest]
  | .returnConst value =>
    .ite (t.numEq entry.num) [.writeReg REG_A0 (.imm (X.fromU64 value))] [rest]
  | .exit => rest

/-- The chain of all non-exit entries, ending in the default error. -/
def dispatch (t : SyscallTable) : Stmt X :=
  t.nonExitEntries.foldr t.dispatchEntry (.writeReg REG_A0 (.imm (X.fromU64 t.defaultError)))

/-- The exit tests: each sets the exit flag and code if its number matches. -/
def exitStmts (t : SyscallTable) : List (Stmt X) :=
  t.exitEntries.map fun entry =>
    .ifThen (t.numEq entry.num)
      [.writeExited (.imm (X.fromU64 1)), .writeExitCode (.read REG_A0)]

/-- The dispatch chain, guarded by the negation of the exit tests when there are any. -/
def dispatchStmts (t : SyscallTable) : List (Stmt X) :=
  if t.nonExitEntries = [] then []
  else
    match t.exitEntries with
    | [] => [t.dispatch]
    | e :: es =>
      let isExit := es.foldl (fun acc entry => Expr.or acc (t.numEq entry.num)) (t.numEq e.num)
      [.ifThen (.not isExit) [t.dispatch]]

/-- `build_ir`. -/
def buildIr (t : SyscallTable) (instr : DecodedInstr X) : InstrIR X :=
  instr.ir (t.exitStmts ++ t.dispatchStmts) (.fall (some (instr.pc + BitVec.ofNat _ instr.size)))

end SyscallTable

/-- `BareMetalHandler`: every ECALL exits with `a0`. -/
def bareMetalHandler {X : Xlen} (instr : DecodedInstr X) : InstrIR X :=
  instr.ir [] (.exit (.read REG_A0))

/-- The table of the Linux handler. -/
def linuxTable (abi : SyscallAbi) : SyscallTable where
  abi := abi
  defaultError := -38
  entries :=
    [⟨93, .exit⟩, ⟨94, .exit⟩,
      ⟨64, .runtime "rv_sys_write" 3⟩, ⟨63, .runtime "rv_sys_read" 3⟩,
      ⟨214, .runtime "rv_sys_brk" 1⟩, ⟨222, .runtime "rv_sys_mmap" 6⟩,
      ⟨80, .runtime "rv_sys_fstat" 2⟩, ⟨278, .runtime "rv_sys_getrandom" 3⟩,
      ⟨113, .runtime "rv_sys_clock_gettime" 2⟩, ⟨403, .runtime "rv_sys_clock_gettime" 2⟩,
      ⟨258, .returnConst (-38)⟩, ⟨293, .returnConst (-38)⟩, ⟨96, .returnConst 1⟩,
      ⟨172, .returnConst 1⟩, ⟨178, .returnConst 1⟩, ⟨125, .returnConst 99⟩,
      ⟨126, .returnConst 1⟩, ⟨17, .returnConst (-1)⟩, ⟨56, .returnConst (-1)⟩,
      ⟨179, .returnConst (-1)⟩, ⟨216, .returnConst (-1)⟩, ⟨25, .returnConst (-1)⟩,
      ⟨57, .returnConst 0⟩, ⟨61, .returnConst (-1)⟩, ⟨67, .returnConst (-1)⟩,
      ⟨99, .returnConst (-1)⟩, ⟨119, .returnConst (-1)⟩, ⟨120, .returnConst (-1)⟩,
      ⟨121, .returnConst (-1)⟩, ⟨131, .returnConst (-1)⟩, ⟨215, .returnConst 0⟩,
      ⟨226, .returnConst 0⟩, ⟨233, .returnConst 0⟩, ⟨261, .returnConst (-1)⟩]

/-- `LinuxHandler`. -/
def linuxHandler {X : Xlen} (abi : SyscallAbi) (instr : DecodedInstr X) : InstrIR X :=
  (linuxTable abi).buildIr instr

end Rvr
