import Rvr.Emit.A64.Machine
import Rvr.Emit.X64.Emitter

/-!
# The arm64 emitter: registers, cached cold registers, immediates, addresses

`rvr-emit/src/arm64/registers.rs`, `rvr-emit/src/arm64/emitter.rs` and `rvr-emit/src/arm64/htif.rs`.
Hot guest registers live in `x21`–`x28` and `x3`–`x16`, the others in the state structure; one cold
register at a time is cached in `x17`.  Of the eight temp slots above `sp` the upper four are also
the spill slots of nested operations (`spillDepth`).

What stays the same during emission is `Emitter`; what changes is `St`.  Comments of the emitted
text are left out, and offsets into the state structure are replaced by the field they stand for.
-/

namespace Rvr.A64

open Asm.Emit
open X64 (Field TracerField Label)

/-! ## Register mapping -/

/-- `AVAILABLE_REGS`. -/
def availableRegs : List Reg :=
  [21, 22, 23, 24, 25, 26, 27, 28, 3, 4, 5, 6, 7, 8, 9, 10, 11, 12, 13, 14, 15, 16]

/-- A mapping of guest registers to machine registers: `x0` has none, nor has anything that is no
register, and no machine register serves twice. -/
structure RegMap where
  mapping : ℕ → Option Reg
  available : ∀ {r g}, mapping r = some g → g ∈ availableRegs
  injective : ∀ {r r' g}, mapping r = some g → mapping r' = some g → r = r'
  zero : mapping 0 = none
  bound : ∀ {r g}, mapping r = some g → r < 32

namespace RegMap

/-- One round of the loop in `RegMap::new`. -/
def assign (m : ℕ → Option Reg) (p : ℕ × Reg) : ℕ → Option Reg :=
  if p.1 < 32 ∧ p.1 ≠ 0 then Function.update m p.1 (some p.2) else m

/-- The loop of `RegMap::new` only maps by pairs of its list. -/
theorem mem_of_foldl_assign {ps : List (ℕ × Reg)} {m : ℕ → Option Reg} {r : ℕ} {g : Reg}
    (h : ps.foldl assign m r = some g) : m r = some g ∨ (r, g) ∈ ps ∧ r < 32 ∧ r ≠ 0 := by
  induction ps generalizing m with
  | nil => exact .inl h
  | cons p ps ih =>
    rcases ih h with hm | ⟨hmem, hr⟩
    · unfold assign at hm
      split at hm
      case isTrue hp =>
        by_cases hrp : r = p.1
        · subst hrp
          rw [Function.update_self] at hm
          cases hm
          exact .inr ⟨List.mem_cons_self, hp⟩
        · rw [Function.update_of_ne hrp] at hm
          exact .inl hm
      case isFalse => exact .inl hm
    · exact .inr ⟨List.mem_cons_of_mem _ hmem, hr⟩

/-- In a list of pairs with different second components a second component has one partner. -/
theorem fst_eq_of_mem_zip {rs : List ℕ} {gs : List Reg} (hnodup : gs.Nodup) {r r' : ℕ} {g : Reg}
    (h : (r, g) ∈ rs.zip gs) (h' : (r', g) ∈ rs.zip gs) : r = r' := by
  obtain ⟨i, hi⟩ := List.mem_iff_getElem?.1 h
  obtain ⟨j, hj⟩ := List.mem_iff_getElem?.1 h'
  rw [List.getElem?_zip_eq_some] at hi hj
  have hij : i = j := (List.getElem?_inj (List.getElem?_eq_some_iff.1 hi.2).1 hnodup).1
    (hi.2.trans hj.2.symm)
  subst hij
  exact Option.some.inj (hi.1.symm.trans hj.1)

theorem nodup_availableRegs : availableRegs.Nodup := by decide

/-- `RegMap::new`: the hot registers in order, as long as there are machine registers. -/
def new (hotRegs : List ℕ) : RegMap :=
  have pair {r g} (h : (hotRegs.zip availableRegs).foldl assign (fun _ => none) r = some g) :
      (r, g) ∈ hotRegs.zip availableRegs ∧ r < 32 ∧ r ≠ 0 := by
    rcases mem_of_foldl_assign h with h | h
    · cases h
    · exact h
  { mapping := (hotRegs.zip availableRegs).foldl assign fun _ => none
    available := fun h => (List.of_mem_zip (pair h).1).2
    injective := fun h h' => fst_eq_of_mem_zip nodup_availableRegs (pair h).1 (pair h').1
    zero := by
      rw [Option.eq_none_iff_forall_ne_some]
      intro g h
      exact (pair h).2.2 rfl
    bound := fun h => (pair h).2.1 }

end RegMap

/-- The width of the names that hold guest values. -/
def suffix : Xlen → Width
  | .rv32 => .w
  | .rv64 => .x

/-- `RegMap::get`. -/
def RegMap.get (m : RegMap) (X : Xlen) (r : ℕ) : Option Name :=
  (m.mapping r).map fun g => ⟨g, suffix X⟩

/-- `RegMap::hot_regs`, in the order of the guest registers. -/
def RegMap.hotRegs (m : RegMap) (X : Xlen) : List (ℕ × Name) :=
  (List.range 32).filterMap fun r => (m.get X r).map fun n => (r, n)

/-! ## Names -/

def x0 : Name := ⟨0, .x⟩
def x1 : Name := ⟨1, .x⟩
def x2 : Name := ⟨2, .x⟩
def w0 : Name := ⟨0, .w⟩
def w1 : Name := ⟨1, .w⟩
def w2 : Name := ⟨2, .w⟩

/-- `reserved::STATE_PTR`. -/
def statePtr : Name := ⟨19, .x⟩

/-- `reserved::INSTRET`. -/
def instretReg : Name := ⟨18, .x⟩

def temp1 (X : Xlen) : Name := ⟨0, suffix X⟩
def temp2 (X : Xlen) : Name := ⟨1, suffix X⟩
def temp3 (X : Xlen) : Name := ⟨2, suffix X⟩

def reg32 (n : Name) : Name := ⟨n.reg, .w⟩
def reg64 (n : Name) : Name := ⟨n.reg, .x⟩

/-- How a name is printed where the source narrows it for RV32 only. -/
def narrowed : Xlen → Name → Name
  | .rv32, n => reg32 n
  | .rv64, n => n

/-- `cold_cache_reg`. -/
def coldCacheReg (X : Xlen) : Name := ⟨17, suffix X⟩

/-- The access that a plain `ldr` or `str` of a name makes. -/
def Name.access (n : Name) : Access :=
  match n.width with
  | .w => .w
  | .x => .x

/-! ## The emitter -/

/-- The fields of the emitter that emission does not change. -/
structure Emitter where
  addressMode : AddressMode
  memoryBits : ℕ
  instretMode : InstretMode
  perfMode : Bool
  diffTracer : Bool
  htifEnabled : Bool
  regMap : RegMap
  inputs : EmitInputs
  labelPcs : Finset U64

/-- `memory_mask`. -/
def Emitter.memoryMask (em : Emitter) : ℕ := 2 ^ em.memoryBits - 1

/-- The fields of the emitter that emission changes. -/
structure St where
  labelCounter : ℕ
  coldCache : Option ℕ
  spillDepth : ℕ
  deriving DecidableEq

/-- An emission of the backend. -/
abbrev Em := Asm.Emit St Label Instr

def ins (i : Instr) : Em Unit := line (.ins i)

def emitLabel (l : Label) : Em Unit := line (.label l)

/-- `next_label`. -/
def nextLabel (stem : String) : Em Label := do
  modify fun s => { s with labelCounter := s.labelCounter + 1 }
  let s ← get
  pure (.loc stem s.labelCounter)

def coldCacheClear : Em Unit := modify fun s => { s with coldCache := none }

/-- `emit_pc_label`. -/
def emitPcLabel (pc : U64) : Em Unit := do
  coldCacheClear
  emitLabel (.pc pc)

/-- `ldr n, [x19, #f]`. -/
def loadField (n : Name) (f : Field) : Em Unit := ins (.ldr n.access false n (.state f 0))

/-- `str n, [x19, #f]`. -/
def storeField (n : Name) (f : Field) : Em Unit := ins (.str n.access n (.state f 0))

/-- `ldrb n, [x19, #f]`. -/
def loadByte (n : Name) (f : Field) : Em Unit := ins (.ldr .b false n (.state f 0))

/-- `strb n, [x19, #f]`. -/
def storeByte (n : Name) (f : Field) : Em Unit := ins (.str .b n (.state f 0))

/-- `ldr n, [sp, #8 * i]`. -/
def loadSlot (n : Name) (i : ℕ) : Em Unit := ins (.ldr n.access false n (.slot i))

/-- `str n, [sp, #8 * i]`. -/
def storeSlot (n : Name) (i : ℕ) : Em Unit := ins (.str n.access n (.slot i))

/-- `temp_slot_offset`, in slots. -/
def tempSlot (idx : ℕ) : Option ℕ := if idx < 8 then some idx else none

/-- `alloc_spill_slot`. -/
def allocSpillSlot : Em (Option ℕ) := do
  let s ← get
  if 4 + s.spillDepth < 8 then do
    modify fun s => { s with spillDepth := s.spillDepth + 1 }
    pure (some (4 + s.spillDepth))
  else pure none

/-- `release_spill_slot`. -/
def releaseSpillSlot : Em Unit := modify fun s => { s with spillDepth := s.spillDepth - 1 }

/-! ### Immediates -/

/-- The loop of `load_imm` over the 16-bit chunks of a 64-bit value; it returns whether it has
printed an instruction. -/
def loadChunks (dest : Name) (value : U64) : Bool → List ℕ → Em Bool
  | emitted, [] => pure emitted
  | emitted, shift :: shifts =>
    let chunk := value.toNat >>> shift % 2 ^ 16
    if chunk = 0 then loadChunks dest value emitted shifts
    else do
      ins (if emitted then .movk dest chunk shift else .movz dest chunk shift)
      loadChunks dest value true shifts

/-- `load_imm`: for a `w` register the value has to fit in 32 bits. -/
def loadImm (dest : Name) (value : U64) : Em Unit :=
  if value = 0 then ins (.movImm dest 0)
  else
    match dest.width with
    | .w =>
      if value.toNat < 2 ^ 32 then
        if value.toNat ≤ 0xffff then ins (.movImm dest value.toNat)
        else do
          ins (.movz dest (value.toNat % 2 ^ 16) 0)
          when (value.toNat >>> 16 ≠ 0) (ins (.movk dest (value.toNat >>> 16 % 2 ^ 16) 16))
      else ins .panicked
    | .x =>
      if value.toNat ≤ 0xffff then ins (.movImm dest value.toNat)
      else do
        let emitted ← loadChunks dest value false [0, 16, 32, 48]
        when (!emitted) (ins (.movImm dest 0))

/-- `emit_add_offset`. -/
def emitAddOffset (dest base : Name) (offset : ℤ) : Em Unit :=
  if offset = 0 then when (dest ≠ base) (ins (.mov dest base))
  else if 1 ≤ offset ∧ offset ≤ 4095 then ins (.alu .add dest base (.imm offset.toNat))
  else if -4095 ≤ offset ∧ offset < 0 then ins (.alu .sub dest base (.imm (-offset).toNat))
  else do
    loadImm x2 (BitVec.ofInt 64 offset)
    ins (.alu .add dest base (.reg x2))

/-- `is_rotated_mask`: some rotation of the word is of the form `2 ^ k - 1`. -/
def isRotatedMask (value size : ℕ) : Bool :=
  let v := value % 2 ^ size
  v ≠ 0 ∧ v ≠ 2 ^ size - 1 ∧ (List.range size).any fun rot =>
    let r := if rot = 0 then v else (v >>> rot ||| v <<< (size - rot)) % 2 ^ size
    r &&& (r + 1) = 0

/-- `is_logical_imm`, with its loop over the sizes unrolled; the inner loop replicates the
pattern. -/
def isLogicalImm (v bits : ℕ) : Bool :=
  v ≠ 0 ∧ v ≠ 2 ^ bits - 1 ∧ [2, 4, 8, 16, 32, 64].any fun size =>
    size ≤ bits ∧ replicated bits size v = v ∧ isRotatedMask (v % 2 ^ size) size

section

variable (X : Xlen) (em : Emitter)

/-! ### The cached cold register -/

def coldCacheHit (r : ℕ) : Em (Option Name) := do
  let s ← get
  pure (if s.coldCache = some r then some (coldCacheReg X) else none)

def coldCacheSet (r : ℕ) : Em Name := do
  modify fun s => { s with coldCache := some r }
  pure (coldCacheReg X)

def coldCacheInvalidate (r : ℕ) : Em Unit :=
  modify fun s => if s.coldCache = some r then { s with coldCache := none } else s

/-- `save_hot_regs_to_state`. -/
def saveHotRegsToState : Em Unit := do
  each (fun p => storeField p.2 (.reg p.1)) (em.regMap.hotRegs X)
  when em.instretMode.counts (storeField instretReg .instret)
  coldCacheClear

/-- `restore_hot_regs_from_state`. -/
def restoreHotRegsFromState : Em Unit := do
  each (fun p => loadField p.2 (.reg p.1)) (em.regMap.hotRegs X)
  when em.instretMode.counts (loadField instretReg .instret)
  coldCacheClear

/-! ### The diff tracer -/

/-- `str wzr`-like clearing of a word of the tracer: on RV64 through the zero register. -/
def clearTracer (tmp32 : Name) (f : TracerField) : Em Unit :=
  match X with
  | .rv32 => storeField tmp32 (.tracer f)
  | .rv64 => ins (.strZr (.state (.tracer f) 0))

/-- `emit_trace_pc` with its helpers. -/
def emitTracePc (pc : U64) (opcode : BitVec 32) : Em Unit :=
  when em.diffTracer do
    let tmp := temp1 X
    let tmp32 := reg32 tmp
    loadImm tmp pc
    storeField tmp (.tracer .pc)
    loadImm tmp32 (opcode.setWidth 64)
    storeField tmp32 (.tracer .opcode)
    ins (.movImm tmp32 0)
    storeByte tmp32 (.tracer .rd)
    clearTracer X tmp32 .rdValue
    clearTracer X tmp32 .memAddr
    clearTracer X tmp32 .memValue
    storeByte tmp32 (.tracer .memWidth)
    storeByte tmp32 (.tracer .isWrite)
    storeByte tmp32 (.tracer .hasRd)
    storeByte tmp32 (.tracer .hasMem)
    ins (.movImm tmp32 1)
    storeByte tmp32 (.tracer .valid)

/-- `emit_trace_reg_write`. -/
def emitTraceRegWrite (r : ℕ) (valReg : Name) : Em Unit :=
  when (em.diffTracer ∧ r ≠ 0) do
    let tmp32 := reg32 (temp3 X)
    ins (.movImm tmp32 r)
    storeByte tmp32 (.tracer .rd)
    storeField ⟨valReg.reg, suffix X⟩ (.tracer .rdValue)
    ins (.movImm tmp32 1)
    storeByte tmp32 (.tracer .hasRd)

/-- `emit_trace_mem_access`. -/
def emitTraceMemAccess (addrReg valReg : Name) (width : ℕ) (isWrite : Bool) : Em Unit :=
  when em.diffTracer do
    storeField ⟨addrReg.reg, suffix X⟩ (.tracer .memAddr)
    let tmp := temp3 X
    let tmp32 := reg32 tmp
    (match width with
     | 1 => ins (.ext false .b tmp32 (reg32 valReg))
     | 2 => ins (.ext false .h tmp32 (reg32 valReg))
     | 8 => ins (.mov tmp ⟨valReg.reg, suffix X⟩)
     | _ => ins (.mov tmp32 (reg32 valReg)))
    storeField tmp (.tracer .memValue)
    ins (.movImm tmp32 width)
    storeByte tmp32 (.tracer .memWidth)
    ins (.movImm tmp32 (if isWrite then 1 else 0))
    storeByte tmp32 (.tracer .isWrite)
    ins (.movImm tmp32 1)
    storeByte tmp32 (.tracer .hasMem)

/-! ### Guest registers -/

/-- `load_rv_to_temp`.  The source notes the cached register just before it prints the load; the
load is emitted first here, so that the note is true of the code so far. -/
def loadRvToTemp (r : ℕ) (temp : Name) : Em Name :=
  if r = 0 then do
    ins (.movImm temp 0)
    pure temp
  else
    match em.regMap.get X r with
    | some n => pure n
    | none => do
      match ← coldCacheHit X r with
      | some cached => pure cached
      | none =>
        loadField (coldCacheReg X) (.reg r)
        coldCacheSet X r

/-- `load_rv_as_addr`: on RV32 a hot register is copied with all its 64 bits. -/
def loadRvAsAddr (r : ℕ) (temp64 : Name) : Em Name :=
  if r = 0 then do
    ins (.movImm temp64 0)
    pure temp64
  else
    match em.regMap.get X r, X with
    | some n, .rv32 => do
      ins (.mov temp64 (reg64 n))
      pure temp64
    | some n, .rv64 => pure n
    | none, .rv32 => do
      loadField (reg32 temp64) (.reg r)
      pure temp64
    | none, .rv64 => do
      loadField temp64 (.reg r)
      pure temp64

/-- `store_to_rv`. -/
def storeToRv (r : ℕ) (value : Name) : Em Unit :=
  if r = 0 then pure ()
  else
    match em.regMap.get X r with
    | some n => when (n ≠ value) (ins (.mov n value))
    | none => storeField value (.reg r)

/-! ### Address translation -/

/-- The bounds check of `apply_address_mode`: the bits above `memory_bits` are all zero or all
one. -/
def emitBoundsCheck (addrReg : Name) : Em Unit := do
  let okLabel ← nextLabel "bounds_ok"
  ins (.shift .asr x2 (reg64 addrReg) (.imm em.memoryBits))
  ins (.cbz x2 okLabel)
  ins (.cmn x2 (.imm 1))
  ins (.bcond .eq okLabel)
  ins (.b .trap)
  emitLabel okLabel

/-- The masking of `apply_address_mode`. -/
def emitMask (addrReg : Name) : Em Unit :=
  let mask := em.memoryMask
  let addr64 := reg64 addrReg
  if mask = 0xffffffff then ins (.ext false .w addr64 (reg32 addr64))
  else if mask ≤ 0xfff then ins (.alu .and addr64 addr64 (.imm mask))
  else do
    loadImm x2 (BitVec.ofNat 64 mask)
    ins (.alu .and addr64 addr64 (.reg x2))

/-- `apply_address_mode`. -/
def applyAddressMode (addrReg : Name) : Em Unit := do
  when em.addressMode.needsBoundsCheck (emitBoundsCheck em addrReg)
  when em.addressMode.needsMask (emitMask em addrReg)

/-- `emit_instret_increment`; the count is always 1. -/
def emitInstretIncrement : Em Unit :=
  when em.instretMode.counts (ins (.alu .add instretReg instretReg (.imm 1)))

/-- `TOHOST_ADDR`. -/
def tohostAddr : U64 := 0x80001000

/-- `emit_htif_check`; it returns the label that follows the store. -/
def emitHtifCheck : Em Label := do
  let notTohostLabel ← nextLabel "not_tohost"
  let doneStoreLabel ← nextLabel "done_store"
  loadImm w2 tohostAddr
  ins (.cmp w0 (.reg w2))
  ins (.bcond .ne notTohostLabel)
  let notExitLabel ← nextLabel "not_exit"
  ins (.tst x1 (.imm 1))
  ins (.bcond .eq notExitLabel)
  ins (.shift .lsr x2 x1 (.imm 1))
  ins (.movImm w0 1)
  storeByte w0 .hasExited
  storeByte w2 .exitCode
  ins (.b .exit)
  emitLabel notExitLabel
  applyAddressMode em x1
  saveHotRegsToState X em
  ins (.mov x0 statePtr)
  ins (.bl "handle_tohost_write")
  restoreHotRegsFromState X em
  loadByte w0 .hasExited
  ins (.cbnz w0 .exit)
  ins (.b doneStoreLabel)
  emitLabel notTohostLabel
  pure doneStoreLabel

end

end Rvr.A64
