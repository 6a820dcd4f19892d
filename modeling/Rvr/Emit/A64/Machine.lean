import Rvr.Emit.X64.Machine

/-!
# The arm64 machine

The instructions that the arm64 backend prints (`rvr-emit/src/arm64`) and what they do.  A register
is printed as `w` or `x`, and the name fixes the width of the access; where the names of one
instruction do not go together, or an immediate has no encoding, the assembler rejects the text
(`encodable`).

As on x86-64 the three memories that emitted code addresses are separate: the `RvState` structure
behind `x19`, the temp slots above `sp` and the guest memory behind `x20`.  Only comparisons set the
flags.  The ranges of branches and the offsets of fields are not modelled: the structure is small
enough for every offset.
-/

namespace Rvr.A64

open ByteMemory
open X64 (Field TracerField Label)

/-! ## Registers and operands -/

/-- General registers: `n` is `x{n}`. -/
abbrev Reg := Fin 31

instance Reg.neZero : NeZero 31 := ⟨by decide⟩

/-- Register widths, under the letters of the names. -/
inductive Width
  | w | x
  deriving DecidableEq, Repr

@[reducible] def Width.bits : Width → ℕ
  | .w => 32
  | .x => 64

/-- A register under the name of one of its widths: `w0` is `⟨0, .w⟩`. -/
structure Name where
  reg : Reg
  width : Width
  deriving DecidableEq, Repr

/-- Sizes of memory accesses: `strb`, `strh`, `str` of a `w` and of an `x` register. -/
inductive Access
  | b | h | w | x
  deriving DecidableEq, Repr

@[reducible] def Access.bits : Access → ℕ
  | .b => 8
  | .h => 16
  | .w => 32
  | .x => 64

/-- Memory operands: a field behind `x19` (`disp` bytes into it), a temp slot above `sp`, and
`[x20, x0]`. -/
inductive Mem
  | state (f : Field) (disp : ℕ)
  | slot (i : ℕ)
  | guest
  deriving DecidableEq, Repr

/-- Second operands: a register, `#v`, `#v, lsl #12` and a register with `sxtw`. -/
inductive Operand
  | reg (n : Name)
  | imm (v : ℕ)
  | immLsl12 (v : ℕ)
  | sxtw (n : Name)
  deriving DecidableEq, Repr

inductive Cond
  | eq | ne | lt | ge | lo | hs
  deriving DecidableEq, Repr

inductive AluOp
  | add | sub | and | orr | eor | mul | sdiv | udiv | smulh | umulh
  deriving DecidableEq, Repr

inductive ShiftOp
  | lsl | lsr | asr
  deriving DecidableEq, Repr

inductive UnOp
  | neg | mvn | clz | rbit | rev
  deriving DecidableEq, Repr

/-- Instructions.  `zr` in place of a register is `xzr` or `wzr`; `dispatchJump` is the code of
`emit_dispatch_jump`, which looks up the target in `x0` or `w0`; `panicked` stands for a panic of
the emitter, after which there is no text. -/
inductive Instr
  | mov (dst src : Name)
  | movImm (dst : Name) (v : ℤ)
  | movz (dst : Name) (chunk shift : ℕ)
  | movk (dst : Name) (chunk shift : ℕ)
  | ldr (sz : Access) (signed : Bool) (dst : Name) (src : Mem)
  | str (sz : Access) (src : Name) (dst : Mem)
  | strZr (dst : Mem)
  | alu (op : AluOp) (dst a : Name) (b : Operand)
  | shift (op : ShiftOp) (dst a : Name) (b : Operand)
  | un (op : UnOp) (dst src : Name)
  | ext (signed : Bool) (sz : Access) (dst src : Name)
  | msub (dst a b c : Name)
  | mull (signed : Bool) (dst a b : Name)
  | cmp (a : Name) (b : Operand)
  | cmn (a : Name) (b : Operand)
  | tst (a : Name) (b : Operand)
  | cset (dst : Name) (c : Cond)
  | csel (dst a b : Name) (c : Cond)
  | cselZr (dst a : Name) (c : Cond)
  | b (l : Label)
  | bcond (c : Cond) (l : Label)
  | cbz (n : Name) (l : Label)
  | cbnz (n : Name) (l : Label)
  | bl (fn : String)
  | dispatchJump (wd : Width)
  | panicked

/-! ## State -/

structure Flags where
  n : Bool
  z : Bool
  c : Bool
  v : Bool
  deriving DecidableEq, Repr

structure State where
  regs : Reg → U64
  flags : Option Flags
  field : Field → U64
  slot : ℕ → U64
  mem : U64 → BitVec 8
  touched : List U64
  calls : List (String × (Reg → U64))

/-- What the host does in a call. -/
structure Env where
  call : String → State → State

/-- Write the low part of a 64-bit cell of memory. -/
def Access.insert (sz : Access) (old : U64) (v : BitVec sz.bits) : U64 :=
  old >>> sz.bits <<< sz.bits ||| v.setWidth 64

namespace State

variable (σ : State)

def get (n : Name) (wd : Width) : BitVec wd.bits := (σ.regs n.reg).setWidth wd.bits

/-- Write a register: the upper half is cleared by a `w` write. -/
def put (n : Name) {k : ℕ} (v : BitVec k) : State :=
  { σ with regs := Function.update σ.regs n.reg (v.setWidth 64) }

/-- The value of a second operand at a width. -/
def operand (wd : Width) : Operand → BitVec wd.bits
  | .reg n => σ.get n wd
  | .imm v => BitVec.ofNat _ v
  | .immLsl12 v => BitVec.ofNat _ (v * 2 ^ 12)
  | .sxtw n => (σ.get n .w).signExtend _

/-- The value of a memory operand. -/
def load (sz : Access) : Mem → BitVec sz.bits
  | .state f disp => (σ.field f >>> (8 * disp)).setWidth _
  | .slot i => (σ.slot i).setWidth _
  | .guest => BitVec.ofNat _ (readLE σ.mem (σ.regs 0) (sz.bits / 8))

/-- Note an access to guest memory. -/
def touch : Mem → State
  | .guest => { σ with touched := σ.regs 0 :: σ.touched }
  | _ => σ

def store (sz : Access) (v : BitVec sz.bits) : Mem → State
  | .state f _ => { σ with field := Function.update σ.field f (sz.insert (σ.field f) v) }
  | .slot i => { σ with slot := Function.update σ.slot i (sz.insert (σ.slot i) v) }
  | .guest => { σ with mem := writeLE σ.mem (σ.regs 0) (sz.bits / 8) v.toNat }

end State

/-! ## Flags -/

/-- The flags of the sum `x + y`. -/
def Flags.ofAdd {k : ℕ} (x y : BitVec k) : Flags where
  n := (x + y).msb
  z := x + y == 0
  c := 2 ^ k ≤ x.toNat + y.toNat
  v := x.msb == y.msb && (x + y).msb != x.msb

/-- The flags of the difference `x - y`; the carry says that there was no borrow. -/
def Flags.ofSub {k : ℕ} (x y : BitVec k) : Flags where
  n := (x - y).msb
  z := x - y == 0
  c := y.ule x
  v := x.msb != y.msb && (x - y).msb != x.msb

/-- The flags of the conjunction of two words. -/
def Flags.ofAnd {k : ℕ} (x y : BitVec k) : Flags where
  n := (x &&& y).msb
  z := x &&& y == 0
  c := false
  v := false

def Cond.holds (f : Flags) : Cond → Bool
  | .eq => f.z
  | .ne => !f.z
  | .lt => f.n != f.v
  | .ge => f.n == f.v
  | .lo => !f.c
  | .hs => f.c

/-! ## Steps -/

/-- The high half of a double-width product. -/
def highHalf {k : ℕ} (p : BitVec (2 * k)) : BitVec k := p.extractLsb' k k

/-- Division by zero gives zero on this machine. -/
def AluOp.val {k : ℕ} (a b : BitVec k) : AluOp → BitVec k
  | .add => a + b
  | .sub => a - b
  | .and => a &&& b
  | .orr => a ||| b
  | .eor => a ^^^ b
  | .mul => a * b
  | .sdiv => a.sdiv b
  | .udiv => a.udiv b
  | .smulh => highHalf (a.signExtend _ * b.signExtend _)
  | .umulh => highHalf (a.setWidth _ * b.setWidth _)

/-- Shift counts are taken modulo the width. -/
def ShiftOp.val {k : ℕ} (a : BitVec k) (count : ℕ) : ShiftOp → BitVec k
  | .lsl => a <<< (count % k)
  | .lsr => a >>> (count % k)
  | .asr => a.sshiftRight (count % k)

def UnOp.val {k : ℕ} (a : BitVec k) : UnOp → BitVec k
  | .neg => -a
  | .mvn => ~~~a
  | .clz => a.clz
  | .rbit => a.reverse
  | .rev => Ops.rev8 a

/-- Go on to the next line. -/
def next (σ : State) : Option (State × Option Label) := some (σ, none)

/-- Extend the low part of a word. -/
def extend {k : ℕ} (signed : Bool) (v : BitVec k) (wd : Width) : BitVec wd.bits :=
  if signed then v.signExtend _ else v.setWidth _

def step (env : Env) : Instr → State → Option (State × Option Label)
  | .mov dst src, σ => next (σ.put dst (σ.get src dst.width))
  | .movImm dst v, σ => next (σ.put dst (BitVec.ofInt dst.width.bits v))
  | .movz dst chunk shift, σ => next (σ.put dst (BitVec.ofNat dst.width.bits (chunk <<< shift)))
  | .movk dst chunk shift, σ =>
    next (σ.put dst (σ.get dst dst.width &&& ~~~(BitVec.ofNat _ (0xffff <<< shift)) |||
      BitVec.ofNat _ (chunk <<< shift)))
  | .ldr sz signed dst src, σ =>
    next ((σ.touch src).put dst (extend signed (σ.load sz src) dst.width))
  | .str sz src dst, σ => next ((σ.touch dst).store sz ((σ.regs src.reg).setWidth _) dst)
  | .strZr dst, σ => next ((σ.touch dst).store .x 0 dst)
  | .alu op dst a b, σ => next (σ.put dst (op.val (σ.get a dst.width) (σ.operand dst.width b)))
  | .shift op dst a b, σ =>
    next (σ.put dst (op.val (σ.get a dst.width) (σ.operand dst.width b).toNat))
  | .un op dst src, σ => next (σ.put dst (op.val (σ.get src dst.width)))
  | .ext signed sz dst src, σ =>
    next (σ.put dst (extend signed ((σ.regs src.reg).setWidth sz.bits) dst.width))
  | .msub dst a b c, σ =>
    next (σ.put dst (σ.get c dst.width - σ.get a dst.width * σ.get b dst.width))
  | .mull signed dst a b, σ =>
    next (σ.put dst (extend signed (σ.get a .w) .x * extend signed (σ.get b .w) .x))
  | .cmp a b, σ => next { σ with flags := some (.ofSub (σ.get a a.width) (σ.operand a.width b)) }
  | .cmn a b, σ => next { σ with flags := some (.ofAdd (σ.get a a.width) (σ.operand a.width b)) }
  | .tst a b, σ => next { σ with flags := some (.ofAnd (σ.get a a.width) (σ.operand a.width b)) }
  | .cset dst c, σ =>
    σ.flags.bind fun f => next (σ.put dst (Ops.ofBool dst.width.bits (c.holds f)))
  | .csel dst a b c, σ =>
    σ.flags.bind fun f =>
      next (σ.put dst (if c.holds f then σ.get a dst.width else σ.get b dst.width))
  | .cselZr dst a c, σ =>
    σ.flags.bind fun f => next (σ.put dst (if c.holds f then σ.get a dst.width else 0))
  | .b l, σ => some (σ, some l)
  | .bcond c l, σ => σ.flags.bind fun f => some (σ, if c.holds f then some l else none)
  | .cbz n l, σ => some (σ, if σ.get n n.width = 0 then some l else none)
  | .cbnz n l, σ => some (σ, if σ.get n n.width = 0 then none else some l)
  | .bl fn, σ => next (env.call fn { σ with calls := (fn, σ.regs) :: σ.calls })
  | .dispatchJump wd, σ => some (σ, some (.dispatch ((σ.get ⟨0, wd⟩ wd).setWidth 64)))
  | .panicked, _ => none

/-! ## Encoding -/

/-- A word of `size` bits rotated to the right. -/
def rotateRight (size v rot : ℕ) : ℕ := (v >>> rot ||| v <<< (size - rot)) % 2 ^ size

/-- A word of `size` bits that is a run of ones, but neither empty nor full, up to rotation. -/
def rotatedRun (size v : ℕ) : Bool :=
  (List.range size).any fun rot => (List.range (size - 1)).any fun k =>
    rotateRight size v rot = 2 ^ (k + 1) - 1

/-- A word of `bits` bits that repeats its low `size` bits. -/
def replicated (bits size v : ℕ) : ℕ :=
  (List.range (bits / size)).foldl (fun acc i => acc ||| (v % 2 ^ size) <<< (i * size)) 0

/-- The immediates of logical instructions: a rotated run of ones in an element of 2, 4, ..., 64
bits that is repeated over the register. -/
def bitmaskImm (bits v : ℕ) : Bool :=
  [2, 4, 8, 16, 32, 64].any fun size =>
    size ≤ bits ∧ replicated bits size v = v ∧ rotatedRun size (v % 2 ^ size)

/-- Operands of additions, subtractions and comparisons. -/
def Operand.fitsArith (wd : Width) : Operand → Bool
  | .reg n => n.width = wd
  | .imm v | .immLsl12 v => v < 2 ^ 12
  | .sxtw n => n.width = .w ∧ wd = .x

/-- Operands of logical instructions. -/
def Operand.fitsLogical (wd : Width) : Operand → Bool
  | .reg n => n.width = wd
  | .imm v => bitmaskImm wd.bits v
  | .immLsl12 _ | .sxtw _ => false

/-- Operands that have to be registers. -/
def Operand.fitsReg (wd : Width) : Operand → Bool
  | .reg n => n.width = wd
  | _ => false

def AluOp.fits (wd : Width) (b : Operand) : AluOp → Bool
  | .add | .sub => b.fitsArith wd
  | .and | .orr | .eor => b.fitsLogical wd
  | .mul | .sdiv | .udiv => b.fitsReg wd
  | .smulh | .umulh => b.fitsReg wd ∧ wd = .x

/-- Shift counts: a register, or an immediate below the width. -/
def Operand.fitsShift (wd : Width) : Operand → Bool
  | .reg n => n.width = wd
  | .imm v => v < wd.bits
  | .immLsl12 _ | .sxtw _ => false

/-- Whether a load exists for a register width: only `ldrs*` of less than the width are signed, and
unsigned loads of less than a word are printed with a `w` register. -/
def Access.loads (sz : Access) (signed : Bool) (wd : Width) : Bool :=
  match sz, signed with
  | .b, false | .h, false | .w, false => wd = .w
  | .b, true | .h, true => true
  | .w, true => wd = .x
  | .x, false => wd = .x
  | .x, true => false

/-- Whether a store exists for a register width. -/
def Access.stores (sz : Access) (wd : Width) : Bool :=
  match sz with
  | .b | .h | .w => wd = .w
  | .x => wd = .x

/-- Whether an extension exists for a register width; `uxtw` is accepted as an alias. -/
def Access.extends (sz : Access) (signed : Bool) (wd : Width) : Bool :=
  match sz, signed with
  | .b, true | .h, true => true
  | .b, false | .h, false => wd = .w
  | .w, _ => wd = .x
  | .x, _ => false

/-- Shifts of `movz` and `movk`. -/
def chunkFits (wd : Width) (chunk shift : ℕ) : Bool :=
  chunk < 2 ^ 16 ∧ shift % 16 = 0 ∧ shift < wd.bits

def encodable : Instr → Bool
  | .mov dst src => src.width = dst.width
  | .movImm _ v => -2 ^ 16 ≤ v ∧ v < 2 ^ 16
  | .movz dst chunk shift | .movk dst chunk shift => chunkFits dst.width chunk shift
  | .ldr sz signed dst _ => sz.loads signed dst.width
  | .str sz src _ => sz.stores src.width
  | .strZr _ => true
  | .alu op dst a b => a.width = dst.width ∧ op.fits dst.width b
  | .shift _ dst a b => a.width = dst.width ∧ b.fitsShift dst.width
  | .un _ dst src => src.width = dst.width
  | .ext signed sz dst src => src.width = .w ∧ sz.extends signed dst.width
  | .msub dst a b c => a.width = dst.width ∧ b.width = dst.width ∧ c.width = dst.width
  | .mull _ dst a b => dst.width = .x ∧ a.width = .w ∧ b.width = .w
  | .cmp a b | .cmn a b => b.fitsArith a.width
  | .tst a b => b.fitsLogical a.width
  | .cset _ _ => true
  | .csel dst a b _ => a.width = dst.width ∧ b.width = dst.width
  | .cselZr dst a _ => a.width = dst.width
  | .b _ | .bcond _ _ | .cbz _ _ | .cbnz _ _ | .bl _ | .dispatchJump _ => true
  | .panicked => false

/-- The machine. -/
def machine (env : Env) : Asm.Machine Label Instr State where
  encodable := encodable
  step := step env

end Rvr.A64
