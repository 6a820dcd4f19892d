import Rvr.Isa.Bitmanip
import Rvr.Isa.Compressed
import Rvr.Isa.Syscalls

/-!
# The extension registry

Extensions, overrides and the syscall handler, and the standard registry
(`rvr-isa/src/extensions/mod.rs`).  Decoding asks the extensions in order; lifting goes to an
override of the opcode if there is one, to the syscall handler for ECALL, and otherwise to the first
extension with the opcode's extension number.
-/

namespace Rvr

/-- An instruction set extension. -/
structure InstructionExtension (X : Xlen) where
  extId : ℕ
  decode16 : BitVec 16 → X.Reg → Option (DecodedInstr X) := fun _ _ => none
  decode32 : BitVec 32 → X.Reg → Option (DecodedInstr X) := fun _ _ => none
  lift : DecodedInstr X → InstrIR X

/-- The default `decode`: the two low bits of the first halfword select the length. -/
def InstructionExtension.decode {X : Xlen} (e : InstructionExtension X) (bytes : List (BitVec 8))
    (pc : X.Reg) : Option (DecodedInstr X) :=
  match bytes with
  | b0 :: b1 :: rest =>
    let low : BitVec 16 := b1 ++ b0
    if low &&& 0x3 ≠ 0x3 then e.decode16 low pc
    else
      match rest with
      | b2 :: b3 :: _ => e.decode32 (b3 ++ b2 ++ b1 ++ b0) pc
      | _ => none
  | _ => none

/-- Registered extensions, opcode overrides (which get the default lift) and the ECALL handler. -/
structure ExtensionRegistry (X : Xlen) where
  extensions : List (InstructionExtension X)
  overrides : OpId → Option (DecodedInstr X → (DecodedInstr X → InstrIR X) → InstrIR X)
  syscallHandler : DecodedInstr X → InstrIR X

namespace ExtensionRegistry

variable {X : Xlen}

/-- The first extension that decodes the bytes. -/
def decode (r : ExtensionRegistry X) (bytes : List (BitVec 8)) (pc : X.Reg) :
    Option (DecodedInstr X) :=
  r.extensions.findSome? fun e => e.decode bytes pc

def liftDefault (r : ExtensionRegistry X) (instr : DecodedInstr X) : InstrIR X :=
  match r.extensions.find? fun e => e.extId = instr.opid.ext with
  | some e => e.lift instr
  | none => instr.ir [] (.trap "unhandled extension")

def liftWithoutOverride (r : ExtensionRegistry X) (instr : DecodedInstr X) : InstrIR X :=
  if instr.opid = .i .ecall then r.syscallHandler instr else r.liftDefault instr

def lift (r : ExtensionRegistry X) (instr : DecodedInstr X) : InstrIR X :=
  match r.overrides instr.opid with
  | some handler => handler instr r.liftWithoutOverride
  | none => r.liftWithoutOverride instr

end ExtensionRegistry

/-! ## The standard extensions -/

section Standard

variable (X : Xlen)

/-- The lift of a decoded instruction from the body that an extension computes. -/
def DecodedInstr.liftWith {X : Xlen} (body : InstrArgs → OpId → Lifted X)
    (instr : DecodedInstr X) : InstrIR X :=
  instr.ir (body instr.args instr.opid).1 (body instr.args instr.opid).2

def cExtension : InstructionExtension X where
  extId := 3
  decode16 := decodeC X
  lift i := i.liftWith fun args opid => liftC args opid i.pc i.size

def baseExtension : InstructionExtension X where
  extId := 0
  decode32 := decode32bit X
  lift i := i.liftWith fun args opid => liftBase args opid i.pc i.size

def mExtension : InstructionExtension X where
  extId := 1
  decode32 := decodeM X
  lift i := i.liftWith liftM

def aExtension : InstructionExtension X where
  extId := 2
  decode32 := decodeA X
  lift i := i.liftWith liftA

def zicsrExtension : InstructionExtension X where
  extId := 4
  decode32 := decodeZicsr X
  lift i := i.liftWith liftZicsr

def zifenceiExtension : InstructionExtension X where
  extId := 5
  decode32 := decodeZifencei X
  lift i := i.ir [] (.fall none)

def zbaExtension : InstructionExtension X where
  extId := 6
  decode32 := decodeZba X
  lift i := i.liftWith liftZba

def zbbExtension : InstructionExtension X where
  extId := 7
  decode32 := decodeZbb X
  lift i := i.liftWith liftZbb

def zbsExtension : InstructionExtension X where
  extId := 8
  decode32 := decodeZbs X
  lift i := i.liftWith liftZbs

def zbkbExtension : InstructionExtension X where
  extId := 9
  decode32 := decodeZbkb X
  lift i := i.liftWith liftZbkb

def zicondExtension : InstructionExtension X where
  extId := 10
  decode32 := decodeZicond X
  lift i := i.liftWith liftZicond

/-- The extensions of `ExtensionRegistry::standard`, in registration order. -/
def standardExtensions : List (InstructionExtension X) :=
  [cExtension X, baseExtension X, mExtension X, aExtension X, zicsrExtension X,
    zifenceiExtension X, zbaExtension X, zbbExtension X, zbsExtension X, zbkbExtension X,
    zicondExtension X]

/-- `ExtensionRegistry::standard`. -/
def ExtensionRegistry.standard : ExtensionRegistry X where
  extensions := standardExtensions X
  overrides _ := none
  syscallHandler := bareMetalHandler

/-- The standard registry with another ECALL handler. -/
def ExtensionRegistry.standardWith (handler : DecodedInstr X → InstrIR X) : ExtensionRegistry X :=
  { ExtensionRegistry.standard X with syscallHandler := handler }

end Standard

end Rvr
