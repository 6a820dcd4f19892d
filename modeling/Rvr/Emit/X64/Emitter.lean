import Rvr.Emit.Dispatch
import Rvr.Emit.Emitter
import Rvr.Emit.X64.Machine

/-!
# The x86-64 emitter: registers, cached cold registers, addresses

`rvr-emit/src/x86/registers.rs` and `rvr-emit/src/x86/emitter.rs`.  A guest register is hot, and
then lives in a machine register for the whole run, or cold, and then lives in the state structure;
one cold register at a time is cached in `%r11`, and the emitter remembers which (`coldCache`).

What stays the same during emission is `Emitter`; what changes is `St`.  Comments of the emitted
text are left out, and offsets into the state structure are replaced by the field they stand for.
-/

namespace Rvr

def AddressMode.needsMask (mode : AddressMode) : Bool := mode = .wrap ∨ mode = .bounds

namespace X64

open Asm.Emit

/-! ## Register mapping -/

/-- `AVAILABLE_REGS`. -/
def availableRegs : List Reg := [.r14, .r13, .r12, .rbp, .rdi, .rsi, .r9, .r8]

/-- A mapping of guest registers to machine registers: `x0` has none, nor has anything that is no
register, and no machine register serves twice. -/
structure RegMap where
  mapping : ℕ → Option Reg
  available : ∀ {r g}, mapping r = some g → g ∈ availableRegs
  injective : ∀ {r r' g}, mapping r = some g → mapping r' = some g → r = r'
  zero : mapping 0 = none
  bound : ∀ {r g}, mapping r = some g → r < 32

namespace RegMap

/-- The map of no hot registers. -/
def empty : RegMap where
  mapping _ := none
  available h := by cases h
  injective h := by cases h
  zero := rfl
  bound h := by cases h

/-- One round of the loop in `RegMap::new`: the guest register gets the next machine register. -/
def assign (m : RegMap) (rv : ℕ) (g : Reg) (havail : g ∈ availableRegs)
    (hfree : ∀ r, m.mapping r ≠ some g) : RegMap :=
  if h : rv < 32 ∧ rv ≠ 0 then
    { mapping := Function.update m.mapping rv (some g)
      available := by
        intro r g' hr
        rw [Function.update_apply] at hr
        split at hr
        · exact Option.some.inj hr ▸ havail
        · exact m.available hr
      injective := by
        intro r r' g' hr hr'
        rw [Function.update_apply] at hr hr'
        split at hr <;> split at hr'
        · simp [*]
        · exact absurd hr' (Option.some.inj hr ▸ hfree r')
        · exact absurd hr (Option.some.inj hr' ▸ hfree r)
        · exact m.injective hr hr'
      zero := by rw [Function.update_of_ne h.2.symm]; exact m.zero
      bound := by
        intro r g' hr
        rw [Function.update_apply] at hr
        split at hr
        · simp [*]
        · exact m.bound hr }
  else m

/-- The machine registers of an assigned map are the old ones and the new one. -/
theorem mapping_assign {m : RegMap} {rv : ℕ} {g g' : Reg} {havail hfree} {r : ℕ}
    (h : (m.assign rv g havail hfree).mapping r = some g') : m.mapping r = some g' ∨ g' = g := by
  unfold assign at h
  split at h
  · change Function.update m.mapping rv (some g) r = some g' at h
    rw [Function.update_apply] at h
    split at h
    · exact .inr (Option.some.inj h).symm
    · exact .inl h
  · exact .inl h

/-- The loop of `RegMap::new`: pair the remaining guest registers with the remaining machine
registers. -/
def assignAll (m : RegMap) : (hotRegs : List ℕ) → (regs : List Reg) → (regs.Nodup) →
    (∀ g ∈ regs, g ∈ availableRegs ∧ ∀ r, m.mapping r ≠ some g) → RegMap
  | rv :: hotRegs, g :: regs, hnodup, hregs =>
    assignAll (m.assign rv g (hregs g List.mem_cons_self).1 (hregs g List.mem_cons_self).2)
      hotRegs regs hnodup.of_cons fun g' hg' =>
        ⟨(hregs g' (List.mem_cons_of_mem _ hg')).1, fun r hr => by
          rcases mapping_assign hr with hr | rfl
          · exact (hregs g' (List.mem_cons_of_mem _ hg')).2 r hr
          · exact hnodup.notMem hg'⟩
  | _, _, _, _ => m

/-- `RegMap::new`: the hot registers in order, as long as there are machine registers. -/
def new (hotRegs : List ℕ) : RegMap :=
  assignAll empty hotRegs availableRegs (by decide) fun _ hg => ⟨hg, fun _ h => by cases h⟩

end RegMap

/-- Instruction suffix for the register width; also the size of the names that hold guest values. -/
def suffix : Xlen → Size
  | .rv32 => .l
  | .rv64 => .q

/-- `RegMap::get`. -/
def RegMap.get (m : RegMap) (X : Xlen) (r : ℕ) : Option Name :=
  (m.mapping r).map fun g => ⟨g, suffix X⟩

/-- `RegMap::hot_regs`, in the order of the guest registers. -/
def RegMap.hotRegs (m : RegMap) (X : Xlen) : List (ℕ × Name) :=
  (List.range 32).filterMap fun r => (m.get X r).map fun n => (r, n)

/-! ## Names -/

def rax : Name := ⟨.rax, .q⟩
def rcx : Name := ⟨.rcx, .q⟩
def rdx : Name := ⟨.rdx, .q⟩
def eax : Name := ⟨.rax, .l⟩
def ecx : Name := ⟨.rcx, .l⟩
def edx : Name := ⟨.rdx, .l⟩
def al : Name := ⟨.rax, .b⟩
def ax : Name := ⟨.rax, .w⟩

/-- `reserved::STATE_PTR`. -/
def statePtr : Name := ⟨.rbx, .q⟩

/-- `reserved::INSTRET`. -/
def instretReg : Name := ⟨.r10, .q⟩

def temp1 (X : Xlen) : Name := ⟨.rax, suffix X⟩
def temp2 (X : Xlen) : Name := ⟨.rcx, suffix X⟩
def temp3 (X : Xlen) : Name := ⟨.rdi, suffix X⟩

/-- `temp_dword`, `temp_qword`: only rcx and rdx are known besides rax. -/
def tempSized (sz : Size) (n : Name) : Name :=
  match n.reg with
  | .rcx => ⟨.rcx, sz⟩
  | .rdx => ⟨.rdx, sz⟩
  | _ => ⟨.rax, sz⟩

def tempDword (n : Name) : Name := tempSized .l n
def tempQword (n : Name) : Name := tempSized .q n

def regByte (n : Name) : Name := ⟨n.reg, .b⟩
def regWord (n : Name) : Name := ⟨n.reg, .w⟩
def regDword (n : Name) : Name := ⟨n.reg, .l⟩
def regQword (n : Name) : Name := ⟨n.reg, .q⟩

/-- `cold_cache_reg`. -/
def coldCacheReg (X : Xlen) : Name := ⟨.r11, suffix X⟩

/-! ## The emitter -/

/-- The fields of the emitter that emission does not change. -/
structure Emitter where
  addressMode : AddressMode
  memoryBits : ℕ
  instretMode : InstretMode
  perfMode : Bool
  diffTracer : Bool
  regMap : RegMap
  inputs : EmitInputs
  labelPcs : Finset U64

/-- `memory_mask`. -/
def Emitter.memoryMask (em : Emitter) : ℕ := 2 ^ em.memoryBits - 1

/-- The fields of the emitter that emission changes. -/
structure St where
  labelCounter : ℕ
  coldCache : Option ℕ
  deriving DecidableEq

/-- An emission of the backend. -/
abbrev Em := Asm.Emit St Label Instr

def ins (i : Instr) : Em Unit := line (.ins i)

def emitLabel (l : Label) : Em Unit := line (.label l)

/-- `next_label`. -/
def nextLabel (stem : String) : Em Label := do
  modify fun s => { s with labelCounter := s.labelCounter + 1 }
  let s ← get
  pure (.loc stem s.labelCounter)

/-- `emit_pc_label`. -/
def emitPcLabel (pc : U64) : Em Unit := emitLabel (.pc pc)

/-- `xor{suffix} %r, %r`. -/
def clear (X : Xlen) (n : Name) : Em Unit := ins (.alu .xor (suffix X) (.reg n) n)

/-- A field of the state structure as an operand. -/
def fieldOperand (f : Field) : Operand := .mem (.state f 0)

def storeField (sz : Size) (src : Operand) (f : Field) : Em Unit := ins (.store sz src (.state f 0))

section

variable (X : Xlen) (em : Emitter)

/-! ### The cached cold register -/

def coldCacheHit (r : ℕ) : Em (Option Name) := do
  let s ← get
  pure (if s.coldCache = some r then some (coldCacheReg X) else none)

def coldCacheSet (r : ℕ) : Em Name := do
  modify fun s => { s with coldCache := some r }
  pure (coldCacheReg X)

def coldCacheInvalidate (r : ℕ) : Em Unit :=
  modify fun s => if s.coldCache = some r then { s with coldCache := none } else s

def coldCacheClear : Em Unit := modify fun s => { s with coldCache := none }

/-- `save_hot_regs_to_state`. -/
def saveHotRegsToState : Em Unit := do
  each (fun p => storeField (suffix X) (.reg p.2) (.reg p.1)) (em.regMap.hotRegs X)
  when em.instretMode.counts (storeField .q (.reg instretReg) .instret)
  coldCacheClear

/-- `restore_hot_regs_from_state`. -/
def restoreHotRegsFromState : Em Unit := do
  each (fun p => ins (.mov (suffix X) (fieldOperand (.reg p.1)) p.2)) (em.regMap.hotRegs X)
  when em.instretMode.counts (ins (.mov .q (fieldOperand .instret) instretReg))
  coldCacheClear

/-! ### The diff tracer -/

def storeTracer (sz : Size) (src : Operand) (f : TracerField) : Em Unit :=
  storeField sz src (.tracer f)

/-- `emit_trace_pc` with its helpers. -/
def emitTracePc (pc : U64) (opcode : BitVec 32) : Em Unit :=
  when em.diffTracer do
    let tmp := temp3 X
    let tmpDword := regDword tmp
    let byte := regByte tmp
    (match X with
     | .rv32 => ins (.mov .l (.imm pc.toNat) tmpDword)
     | .rv64 => ins (.movabs pc tmp))
    storeTracer (suffix X) (.reg tmp) .pc
    ins (.mov .l (.imm opcode.toNat) tmpDword)
    storeTracer .l (.reg tmpDword) .opcode
    ins (.alu .xor .l (.reg tmpDword) tmpDword)
    storeTracer .b (.reg byte) .rd
    storeTracer (suffix X) (.reg tmp) .rdValue
    storeTracer (suffix X) (.reg tmp) .memAddr
    storeTracer (suffix X) (.reg tmp) .memValue
    storeTracer .b (.reg byte) .memWidth
    storeTracer .b (.reg byte) .isWrite
    storeTracer .b (.reg byte) .hasRd
    storeTracer .b (.reg byte) .hasMem
    storeTracer .b (.imm 1) .valid

/-- `emit_trace_reg_write`. -/
def emitTraceRegWrite (r : ℕ) (valReg : Name) : Em Unit :=
  when (em.diffTracer ∧ r ≠ 0) do
    storeTracer .b (.imm r) .rd
    storeTracer (suffix X) (.reg ⟨valReg.reg, suffix X⟩) .rdValue
    storeTracer .b (.imm 1) .hasRd

/-- `emit_trace_mem_access`. -/
def emitTraceMemAccess (addrReg valReg : Name) (width : ℕ) (isWrite : Bool) : Em Unit :=
  when em.diffTracer do
    storeTracer (suffix X) (.reg ⟨addrReg.reg, suffix X⟩) .memAddr
    let tmpDword := regDword (temp3 X)
    (match width with
     | 1 => do
       ins (.movzx .b .l (.reg (regByte valReg)) tmpDword)
       storeTracer .l (.reg tmpDword) .memValue
     | 2 => do
       ins (.movzx .w .l (.reg (regWord valReg)) tmpDword)
       storeTracer .l (.reg tmpDword) .memValue
     | 4 => storeTracer .l (.reg (regDword valReg)) .memValue
     | 8 => storeTracer .q (.reg (regQword valReg)) .memValue
     | _ => pure ())
    storeTracer .b (.imm width) .memWidth
    storeTracer .b (.imm (if isWrite then 1 else 0)) .isWrite
    storeTracer .b (.imm 1) .hasMem

/-! ### Guest registers -/

/-- `load_rv_to_temp`.  The source notes the cached register just before it prints the load; the
load is emitted first here, so that the note is true of the code so far. -/
def loadRvToTemp (r : ℕ) (temp : Name) : Em Name :=
  if r = 0 then do
    clear X temp
    pure temp
  else
    match em.regMap.get X r with
    | some n => pure n
    | none => do
      match ← coldCacheHit X r with
      | some cached => pure cached
      | none =>
        ins (.mov (suffix X) (fieldOperand (.reg r)) (coldCacheReg X))
        coldCacheSet X r

/-- `load_rv_as_addr`. -/
def loadRvAsAddr (r : ℕ) (temp64 : Name) : Em Name :=
  if r = 0 then do
    ins (.alu .xor .q (.reg temp64) temp64)
    pure temp64
  else
    match em.regMap.get X r, X with
    | some n, .rv32 => do
      ins (.mov .l (.reg n) (tempDword temp64))
      pure (tempQword temp64)
    | some n, .rv64 => pure n
    | none, .rv32 => do
      ins (.mov .l (fieldOperand (.reg r)) (tempDword temp64))
      pure temp64
    | none, .rv64 => do
      ins (.mov .q (fieldOperand (.reg r)) temp64)
      pure temp64

/-- `store_to_rv`. -/
def storeToRv (r : ℕ) (value : Name) : Em Unit :=
  if r = 0 then pure ()
  else
    match em.regMap.get X r with
    | some n => if n ≠ value then ins (.mov (suffix X) (.reg value) n) else pure ()
    | none => storeField (suffix X) (.reg value) (.reg r)

/-! ### Address translation -/

/-- The bounds check of `apply_address_mode`: the low `memory_bits` bits, sign-extended, have to
give the address back. -/
def emitBoundsCheck (temp : Name) : Em Unit := do
  let okLabel ← nextLabel "bounds_ok"
  let shiftAmount := X.value - em.memoryBits
  (match X with
   | .rv32 => do
     let temp32 := tempDword temp
     ins (.mov .l (.reg temp32) edx)
     ins (.shiftImm .shl .l shiftAmount edx)
     ins (.shiftImm .sar .l shiftAmount edx)
     ins (.cmp .l (.reg temp32) edx)
   | .rv64 => do
     ins (.mov .q (.reg temp) rdx)
     ins (.shiftImm .shl .q shiftAmount rdx)
     ins (.shiftImm .sar .q shiftAmount rdx)
     ins (.cmp .q (.reg temp) rdx))
  ins (.jcc .e okLabel)
  ins (.jmp .trap)
  emitLabel okLabel

/-- The masking of `apply_address_mode`. -/
def emitMask (temp : Name) : Em Unit :=
  let mask := em.memoryMask
  if X = .rv64 ∧ mask = 0xffffffff then
    ins (.mov .l (.reg (tempDword temp)) (tempDword temp))
  else if mask ≤ 0x7fffffff then
    ins (.alu .and (suffix X) (.imm mask) temp)
  else do
    ins (.mov .l (.imm mask) edx)
    ins (.alu .and .q (.reg rdx) temp)

/-- `apply_address_mode`: `temp` is a 64-bit name. -/
def applyAddressMode (temp : Name) : Em Unit := do
  when em.addressMode.needsBoundsCheck (emitBoundsCheck X em temp)
  when em.addressMode.needsMask (emitMask X em temp)

/-- `emit_instret_increment`; the count is always 1. -/
def emitInstretIncrement : Em Unit :=
  when em.instretMode.counts (ins (.alu .add .q (.imm 1) instretReg))

end

end X64

end Rvr
