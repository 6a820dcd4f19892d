import Rvr.Ir.Ops
import Rvr.Lib.Asm
import Rvr.Lib.ByteMemory

/-!
# The x86-64 machine

The instructions that the x86-64 backend prints (`rvr-emit/src/x86`), in AT&T operand order, and
what they do.  A register is printed under a name that fixes the width of the access, and the suffix
of the mnemonic fixes it again; where the two differ, or an immediate does not fit its field, the
assembler rejects the text (`encodable`).

The three memories that emitted code addresses are separate: the `RvState` structure behind `%rbx`,
the temp slots above `%rsp` and the guest memory behind `%r15`.  A field of the structure and a temp
slot are 64-bit cells, an access takes the low bits of the cell.  Only comparisons leave flags that
can be used: an instruction that sets the flags in any other way leaves them unknown here, and code
that reads unknown flags is stuck.  `touched` is the history of accesses to guest memory and `calls`
the history of calls with the registers that the callee finds.
-/

namespace Rvr.X64

open ByteMemory

/-! ## Registers and operands -/

inductive Reg
  | rax | rcx | rdx | rbx | rsp | rbp | rsi | rdi | r8 | r9 | r10 | r11 | r12 | r13 | r14 | r15
  deriving DecidableEq, Repr

/-- Operand sizes, under the letters of the mnemonic suffixes. -/
inductive Size
  | b | w | l | q
  deriving DecidableEq, Repr

@[reducible] def Size.bits : Size → ℕ
  | .b => 8
  | .w => 16
  | .l => 32
  | .q => 64

/-- A register under the name of one of its sizes: `eax` is `⟨.rax, .l⟩`. -/
structure Name where
  reg : Reg
  size : Size
  deriving DecidableEq, Repr

/-- Fields of the diff tracer's record. -/
inductive TracerField
  | pc | opcode | rd | rdValue | memAddr | memValue | memWidth | isWrite | hasRd | hasMem | valid
  deriving DecidableEq, Repr

/-- Fields of the `RvState` structure that emitted code uses. -/
inductive Field
  | reg (r : ℕ)
  | pc | instret | targetInstret | resAddr | resValid | hasExited | exitCode
  | tracer (f : TracerField)
  deriving DecidableEq, Repr

/-- Memory operands: a field behind `%rbx` (`disp` bytes into it), a temp slot above `%rsp`, and
`(%r15, %rax)`. -/
inductive Mem
  | state (f : Field) (disp : ℕ)
  | slot (i : ℕ)
  | guest
  deriving DecidableEq, Repr

inductive Operand
  | imm (v : ℤ)
  | reg (n : Name)
  | mem (m : Mem)
  deriving DecidableEq, Repr

/-- Condition codes of conditional instructions. -/
inductive Cond
  | e | ne | l | ge | b | ae | ns
  deriving DecidableEq, Repr

inductive AluOp
  | add | sub | and | or | xor | imul
  deriving DecidableEq, Repr

inductive ShiftOp
  | shl | shr | sar
  deriving DecidableEq, Repr

/-- Labels: the trap handler, the epilogue, the code of a guest pc, the code that the jump table
gives for a target, and the local labels `.L{stem}_{n}`. -/
inductive Label
  | trap | exit
  | pc (addr : U64)
  | dispatch (target : U64)
  | loc (stem : String) (n : ℕ)
  deriving DecidableEq, Repr

/-- Instructions.  `dispatchJump` is the code of `emit_dispatch_jump`, which looks up the target in
`%rax`; `malformed` is text that no x86-64 assembler accepts. -/
inductive Instr
  | mov (sz : Size) (src : Operand) (dst : Name)
  | movabs (v : U64) (dst : Name)
  | store (sz : Size) (src : Operand) (dst : Mem)
  | movzx (ssz dsz : Size) (src : Operand) (dst : Name)
  | movsx (ssz dsz : Size) (src : Operand) (dst : Name)
  | lea (sz : Size) (disp : ℤ) (base : Option Name) (index : Option (Name × ℕ)) (dst : Name)
  | alu (op : AluOp) (sz : Size) (src : Operand) (dst : Name)
  | cmp (sz : Size) (src : Operand) (dst : Name)
  | test (sz : Size) (src dst : Name)
  | setcc (c : Cond) (dst : Name)
  | cmov (c : Cond) (sz : Size) (src dst : Name)
  | jcc (c : Cond) (l : Label)
  | jmp (l : Label)
  | shiftImm (op : ShiftOp) (sz : Size) (count : ℕ) (dst : Name)
  | shiftCl (op : ShiftOp) (sz : Size) (dst : Name)
  | neg (sz : Size) (dst : Name)
  | not (sz : Size) (dst : Name)
  | mul (signed : Bool) (sz : Size) (src : Name)
  | div (signed : Bool) (sz : Size) (src : Name)
  | cdq
  | cqo
  | bsr (sz : Size) (src dst : Name)
  | bsf (sz : Size) (src dst : Name)
  | popcnt (sz : Size) (src dst : Name)
  | bswap (sz : Size) (dst : Name)
  | call (fn : String)
  | dispatchJump
  | malformed (text : String)

/-! ## State -/

structure Flags where
  zf : Bool
  sf : Bool
  cf : Bool
  of : Bool
  deriving DecidableEq, Repr

structure State where
  regs : Reg → U64
  flags : Option Flags
  field : Field → U64
  slot : ℕ → U64
  mem : U64 → BitVec 8
  touched : List U64
  calls : List (String × (Reg → U64))

/-- What the host does in a call. -/
structure Env where
  call : String → State → State

/-- Write the low part of a 64-bit cell of memory. -/
def Size.insert (sz : Size) (old : U64) (v : BitVec sz.bits) : U64 :=
  old >>> sz.bits <<< sz.bits ||| v.setWidth 64

/-- Write a register under a size: a 32-bit write clears the upper half, narrower ones keep the
rest. -/
def Size.merge (sz : Size) (old : U64) (v : BitVec sz.bits) : U64 :=
  match sz with
  | .q => v.setWidth 64
  | .l => v.setWidth 64
  | .w | .b => Size.insert _ old v

namespace State

variable (σ : State)

def get (n : Name) (sz : Size) : BitVec sz.bits := (σ.regs n.reg).setWidth sz.bits

def put (n : Name) {sz : Size} (v : BitVec sz.bits) : State :=
  { σ with regs := Function.update σ.regs n.reg (sz.merge (σ.regs n.reg) v) }

/-- The value of an operand at a size. -/
def read (sz : Size) : Operand → BitVec sz.bits
  | .imm v => BitVec.ofInt _ v
  | .reg n => σ.get n sz
  | .mem (.state f disp) => (σ.field f >>> (8 * disp)).setWidth _
  | .mem (.slot i) => (σ.slot i).setWidth _
  | .mem .guest => BitVec.ofNat _ (readLE σ.mem (σ.regs .rax) (sz.bits / 8))

/-- Note an access to guest memory. -/
def touch : Mem → State
  | .guest => { σ with touched := σ.regs .rax :: σ.touched }
  | _ => σ

def touchOperand : Operand → State
  | .mem m => σ.touch m
  | _ => σ

def write (sz : Size) (v : BitVec sz.bits) : Mem → State
  | .state f _ => { σ with field := Function.update σ.field f (sz.insert (σ.field f) v) }
  | .slot i => { σ with slot := Function.update σ.slot i (sz.insert (σ.slot i) v) }
  | .guest => { σ with mem := writeLE σ.mem (σ.regs .rax) (sz.bits / 8) v.toNat }

end State

/-! ## Flags -/

/-- The flags of the subtraction `x - y`. -/
def Flags.ofSub {n : ℕ} (x y : BitVec n) : Flags where
  zf := x - y == 0
  sf := (x - y).msb
  cf := x.ult y
  of := x.msb != y.msb && (x - y).msb != x.msb

/-- The flags of the conjunction of two words. -/
def Flags.ofAnd {n : ℕ} (x y : BitVec n) : Flags where
  zf := x &&& y == 0
  sf := (x &&& y).msb
  cf := false
  of := false

def Cond.holds (f : Flags) : Cond → Bool
  | .e => f.zf
  | .ne => !f.zf
  | .l => f.sf != f.of
  | .ge => f.sf == f.of
  | .b => f.cf
  | .ae => !f.cf
  | .ns => !f.sf

/-! ## Steps -/

def AluOp.val {n : ℕ} (dst src : BitVec n) : AluOp → BitVec n
  | .add => dst + src
  | .sub => dst - src
  | .and => dst &&& src
  | .or => dst ||| src
  | .xor => dst ^^^ src
  | .imul => dst * src

/-- Shift counts are taken modulo the width, as the processor takes them for words and above. -/
def ShiftOp.val {n : ℕ} (dst : BitVec n) (count : ℕ) : ShiftOp → BitVec n
  | .shl => dst <<< (count % n)
  | .shr => dst >>> (count % n)
  | .sar => dst.sshiftRight (count % n)

def State.unflagged (σ : State) : State := { σ with flags := none }

/-- Go on to the next line. -/
def next (σ : State) : Option (State × Option Label) := some (σ, none)

/-- `mul`/`imul` with one operand: the double-width product in the rdx and rax of the size. -/
def stepMul (signed : Bool) (sz : Size) (src : Name) (σ : State) : Option (State × Option Label) :=
  let a := σ.get ⟨.rax, sz⟩ sz
  let b := σ.get src sz
  let p : BitVec (2 * sz.bits) :=
    if signed then a.signExtend _ * b.signExtend _ else a.setWidth _ * b.setWidth _
  next (((σ.put ⟨.rdx, sz⟩ (p.extractLsb' sz.bits sz.bits)).put ⟨.rax, sz⟩
    (p.setWidth sz.bits)).unflagged)

/-- `div`/`idiv`: the double-width dividend in rdx and rax; a zero divisor or a quotient that does
not fit raises an exception. -/
def stepDiv (signed : Bool) (sz : Size) (src : Name) (σ : State) : Option (State × Option Label) :=
  let a := σ.get ⟨.rdx, sz⟩ sz ++ σ.get ⟨.rax, sz⟩ sz
  let d := σ.get src sz
  let half : ℤ := 2 ^ (sz.bits - 1)
  if signed then
    let quot := a.toInt.tdiv d.toInt
    if d = 0 ∨ quot < -half ∨ half ≤ quot then none
    else next (((σ.put ⟨.rax, sz⟩ (BitVec.ofInt sz.bits quot)).put ⟨.rdx, sz⟩
      (BitVec.ofInt sz.bits (a.toInt.tmod d.toInt))).unflagged)
  else
    let quot := a.toNat / d.toNat
    if d = 0 ∨ 2 ^ sz.bits ≤ quot then none
    else next (((σ.put ⟨.rax, sz⟩ (BitVec.ofNat sz.bits quot)).put ⟨.rdx, sz⟩
      (BitVec.ofNat sz.bits (a.toNat % d.toNat))).unflagged)

def step (env : Env) : Instr → State → Option (State × Option Label)
  | .mov sz src dst, σ => next ((σ.touchOperand src).put dst (σ.read sz src))
  | .movabs v dst, σ => next (σ.put dst (show BitVec Size.q.bits from v))
  | .store sz src dst, σ => next ((σ.touch dst).write sz (σ.read sz src) dst)
  | .movzx ssz dsz src dst, σ =>
    next ((σ.touchOperand src).put dst ((σ.read ssz src).setWidth dsz.bits))
  | .movsx ssz dsz src dst, σ =>
    next ((σ.touchOperand src).put dst ((σ.read ssz src).signExtend dsz.bits))
  | .lea sz disp base index dst, σ =>
    let b := (base.map fun n => σ.get n sz).getD 0
    let i := (index.map fun p => σ.get p.1 sz * BitVec.ofNat _ p.2).getD 0
    next (σ.put dst (BitVec.ofInt sz.bits disp + b + i))
  | .alu op sz src dst, σ => next ((σ.put dst (op.val (σ.get dst sz) (σ.read sz src))).unflagged)
  | .cmp sz src dst, σ =>
    next { σ with flags := some (.ofSub (σ.get dst sz) (σ.read sz src)) }
  | .test sz src dst, σ =>
    next { σ with flags := some (.ofAnd (σ.get dst sz) (σ.get src sz)) }
  | .setcc c dst, σ =>
    σ.flags.bind fun f => next (σ.put dst (Ops.ofBool Size.b.bits (c.holds f)))
  | .cmov c sz src dst, σ =>
    σ.flags.bind fun f =>
      next (σ.put dst (if c.holds f then σ.get src sz else σ.get dst sz))
  | .jcc c l, σ => σ.flags.bind fun f => some (σ, if c.holds f then some l else none)
  | .jmp l, σ => some (σ, some l)
  | .shiftImm op sz count dst, σ => next ((σ.put dst (op.val (σ.get dst sz) count)).unflagged)
  | .shiftCl op sz dst, σ =>
    next ((σ.put dst (op.val (σ.get dst sz) (σ.get ⟨.rcx, .b⟩ .b).toNat)).unflagged)
  | .neg sz dst, σ => next ((σ.put dst (-σ.get dst sz)).unflagged)
  | .not sz dst, σ => next (σ.put dst (~~~σ.get dst sz))
  | .mul signed sz src, σ => stepMul signed sz src σ
  | .div signed sz src, σ => stepDiv signed sz src σ
  | .cdq, σ =>
    next (σ.put ⟨.rdx, .l⟩
      (show BitVec Size.l.bits from (σ.get ⟨.rax, .l⟩ .l).sshiftRight 31))
  | .cqo, σ =>
    next (σ.put ⟨.rdx, .q⟩
      (show BitVec Size.q.bits from (σ.get ⟨.rax, .q⟩ .q).sshiftRight 63))
  | .bsr sz src dst, σ =>
    let v := σ.get src sz
    if v = 0 then none
    else next ((σ.put dst (BitVec.ofNat sz.bits (sz.bits - 1) - v.clz)).unflagged)
  | .bsf sz src dst, σ =>
    let v := σ.get src sz
    if v = 0 then none else next ((σ.put dst v.ctz).unflagged)
  | .popcnt sz src dst, σ => next ((σ.put dst (σ.get src sz).cpop).unflagged)
  | .bswap sz dst, σ => next (σ.put dst (Ops.rev8 (σ.get dst sz)))
  | .call fn, σ => next (env.call fn { σ with calls := (fn, σ.regs) :: σ.calls })
  | .dispatchJump, σ => some (σ, some (.dispatch (σ.regs .rax)))
  | .malformed _, _ => none

/-! ## Encoding -/

/-- Immediates of arithmetic instructions and of stores: up to 32 bits, sign-extended to 64. -/
def immFits : Size → ℤ → Bool
  | .b, v => -2 ^ 7 ≤ v ∧ v < 2 ^ 8
  | .w, v => -2 ^ 15 ≤ v ∧ v < 2 ^ 16
  | .l, v => -2 ^ 31 ≤ v ∧ v < 2 ^ 32
  | .q, v => -2 ^ 31 ≤ v ∧ v < 2 ^ 31

def Operand.fits (sz : Size) : Operand → Bool
  | .imm v => immFits sz v
  | .reg n => n.size = sz
  | .mem _ => true

/-- Whether the operands of an instruction agree with its suffix.  A `movq` of a wide immediate to a
register is assembled as `movabsq`. -/
def encodable : Instr → Bool
  | .mov sz (.imm v) dst =>
    dst.size = sz ∧ (immFits sz v ∨ sz = .q ∧ -2 ^ 63 ≤ v ∧ v < 2 ^ 64)
  | .mov sz src dst => src.fits sz ∧ dst.size = sz
  | .movabs _ dst => dst.size = .q
  | .store sz src _ => src.fits sz
  | .movzx ssz dsz src dst | .movsx ssz dsz src dst =>
    src.fits ssz ∧ dst.size = dsz ∧ ssz.bits < dsz.bits
  | .lea sz disp base index dst =>
    -2 ^ 31 ≤ disp ∧ disp < 2 ^ 31 ∧ (∀ n ∈ base, n.size = sz) ∧ (∀ p ∈ index, p.1.size = sz) ∧
      dst.size = sz
  | .alu _ sz src dst => src.fits sz ∧ dst.size = sz
  | .cmp sz src dst => src.fits sz ∧ dst.size = sz
  | .test sz src dst => src.size = sz ∧ dst.size = sz
  | .setcc _ dst => dst.size = .b
  | .cmov _ sz src dst => src.size = sz ∧ dst.size = sz
  | .shiftImm _ sz count dst => count < 2 ^ 8 ∧ dst.size = sz
  | .shiftCl _ sz dst | .neg sz dst | .not sz dst | .bswap sz dst => dst.size = sz
  | .mul _ sz src | .div _ sz src => src.size = sz
  | .bsr sz src dst | .bsf sz src dst | .popcnt sz src dst => src.size = sz ∧ dst.size = sz
  | .jcc _ _ | .jmp _ | .cdq | .cqo | .call _ | .dispatchJump => true
  | .malformed _ => false

/-- The machine. -/
def machine (env : Env) : Asm.Machine Label Instr State where
  encodable := encodable
  step := step env

end Rvr.X64
