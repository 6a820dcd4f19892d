import Rvr.Isa.Registry

/-!
# The instruction table

Decoded instructions by address (`rvr-cfg/src/instruction_table.rs`).  The table has one slot for
every two bytes of the code range; a slot is empty or holds the instruction decoded at its address.
Addresses are `u64` and their arithmetic wraps, as it does in the release build.

A slot carries its instruction's size and a table carries the length of its slot vector, which is
fixed by the address range and, being the length of a vector of multi-word slots, far below the size
of the address space.  The raw opcode of a slot is not read by the analysis and is left out.
-/

namespace Rvr

/-- Read-only memory segment for constant propagation. -/
structure RoSegment where
  start : U64
  stop : U64
  data : List (BitVec 8)

namespace RoSegment

def contains (seg : RoSegment) (addr : U64) : Bool := seg.start ≤ addr ∧ addr < seg.stop

/-- The little-endian value of some bytes. -/
def leValue (bytes : List (BitVec 8)) : U64 :=
  bytes.zipIdx.foldl (fun value (byte, i) => value ||| (byte.setWidth 64 : U64) <<< (i * 8))
    (0 : U64)

/-- Read a value from the segment (little-endian, up to 8 bytes). -/
def read (seg : RoSegment) (addr : U64) (size : ℕ) : Option U64 :=
  if !seg.contains addr || addr + BitVec.ofNat 64 size > seg.stop then none
  else
    let offset := (addr - seg.start).toNat
    if offset + size ≤ seg.data.length then some (leValue ((seg.data.drop offset).take size))
    else none

end RoSegment

/-- Slot for a single 2-byte instruction position. -/
structure Slot (X : Xlen) where
  instr : Option (DecodedInstr X)
  size : ℕ
  size_eq : size = (instr.map DecodedInstr.size).getD 0
  size_lt : size < 256

namespace Slot

variable {X : Xlen}

def default : Slot X := ⟨none, 0, rfl, by decide⟩

/-- The slot of a decoded instruction, whose size is a `u8`. -/
def ofInstr (instr : DecodedInstr X) : Slot X :=
  if h : instr.size < 256 then ⟨some instr, instr.size, rfl, h⟩ else default

end Slot

/-- Table of decoded instructions, indexed by pc with 2-byte slots. -/
structure InstructionTable (X : Xlen) where
  slots : List (Slot X)
  baseAddress : U64
  endAddress : U64
  entryPoints : List U64
  roSegments : List RoSegment
  length_slots : slots.length = ((endAddress - baseAddress).toNat + 1) / 2
  length_slots_lt : slots.length < 2 ^ 60

namespace InstructionTable

variable {X : Xlen}

/-- `SLOT_SIZE`. -/
abbrev slotSize : ℕ := 2

/-! ## Accessors -/

/-- Convert a pc to a slot index. -/
def pcToIndex (t : InstructionTable X) (pc : U64) : Option ℕ :=
  if pc < t.baseAddress ∨ t.endAddress ≤ pc then none
  else
    let offset := (pc - t.baseAddress).toNat
    if offset % slotSize ≠ 0 then none else some (offset / slotSize)

def isValidIndex (t : InstructionTable X) (index : ℕ) : Bool :=
  (t.slots[index]?).any fun slot => slot.instr.isSome

/-- Whether a pc points to a decoded instruction. -/
def isValidPc (t : InstructionTable X) (pc : U64) : Bool := (t.pcToIndex pc).any t.isValidIndex

def get (t : InstructionTable X) (index : ℕ) : Option (DecodedInstr X) :=
  (t.slots[index]?).bind Slot.instr

def getAtPc (t : InstructionTable X) (pc : U64) : Option (DecodedInstr X) :=
  (t.pcToIndex pc).bind t.get

def instructionSize (t : InstructionTable X) (index : ℕ) : ℕ :=
  ((t.slots[index]?).map Slot.size).getD 0

def instructionSizeAtPc (t : InstructionTable X) (pc : U64) : ℕ :=
  ((t.pcToIndex pc).map t.instructionSize).getD 0

/-- Read a value from read-only memory: the first segment that has it. -/
def readReadonly (t : InstructionTable X) (addr : U64) (size : ℕ) : Option U64 :=
  t.roSegments.findSome? fun segment => segment.read addr size

/-! ## Construction -/

/-- The slots after decoding `code.drop offset` on; every round consumes at least two bytes, or the
decoder returned a size of zero and the source would not return. -/
def decodeLoop (registry : ExtensionRegistry X) (code : List (BitVec 8)) (startSlot : ℕ)
    (segmentStart : U64) : ℕ → ℕ → List (Slot X) → List (Slot X)
  | 0, _, slots => slots
  | fuel + 1, offset, slots =>
    if offset + slotSize ≤ code.length then
      let pc := segmentStart + BitVec.ofNat 64 offset
      let slot := startSlot + offset / slotSize
      if slots.length ≤ slot then slots
      else
        match registry.decode (code.drop offset) (X.fromU64 pc) with
        | some instr =>
          let slots := slots.set slot (.ofInstr instr)
          let slots := if instr.size = 4 then slots.set (slot + 1) .default else slots
          decodeLoop registry code startSlot segmentStart fuel (offset + instr.size) slots
        | none => decodeLoop registry code startSlot segmentStart fuel (offset + 2) slots
    else slots

theorem length_decodeLoop (registry : ExtensionRegistry X) (code : List (BitVec 8)) (startSlot : ℕ)
    (segmentStart : U64) (fuel offset : ℕ) (slots : List (Slot X)) :
    (decodeLoop registry code startSlot segmentStart fuel offset slots).length = slots.length := by
  induction fuel generalizing offset slots with
  | zero => rfl
  | succ fuel ih =>
    unfold decodeLoop
    dsimp only
    split_ifs
    · rfl
    · split
      · rw [ih]
        split_ifs <;> simp only [List.length_set]
      · exact ih _ _
    · rfl

/-- Decode instructions from a segment. -/
def decodeSegment (t : InstructionTable X) (code : List (BitVec 8)) (startSlot : ℕ)
    (segmentStart : U64) (registry : ExtensionRegistry X) : InstructionTable X :=
  { t with
    slots := decodeLoop registry code startSlot segmentStart (code.length + 1) 0 t.slots
    length_slots := by rw [length_decodeLoop]; exact t.length_slots
    length_slots_lt := by rw [length_decodeLoop]; exact t.length_slots_lt }

/-- Create a table with a specific address range; the slot vector must fit in memory. -/
def new (baseAddress endAddress entryPoint : U64)
    (h : ((endAddress - baseAddress).toNat + 1) / 2 < 2 ^ 60) : InstructionTable X where
  slots := List.replicate (((endAddress - baseAddress).toNat + 1) / 2) .default
  baseAddress := baseAddress
  endAddress := endAddress
  entryPoints := [entryPoint]
  roSegments := []
  length_slots := List.length_replicate
  length_slots_lt := by rwa [List.length_replicate]

/-- Populate from a segment of code at a specific address. -/
def populateSegment (t : InstructionTable X) (code : List (BitVec 8)) (segmentStart : U64)
    (registry : ExtensionRegistry X) : InstructionTable X :=
  if segmentStart < t.baseAddress ∨ t.endAddress ≤ segmentStart then t
  else
    t.decodeSegment code ((segmentStart - t.baseAddress).toNat / slotSize) segmentStart registry

/-- Create a table from raw bytes, which are also its only read-only segment. -/
def fromBytes (code : List (BitVec 8)) (baseAddress : U64) (registry : ExtensionRegistry X)
    (h : (code.length + 1) / 2 < 2 ^ 60) : InstructionTable X :=
  decodeSegment
    { slots := List.replicate ((code.length + 1) / 2) .default
      baseAddress := baseAddress
      endAddress := baseAddress + BitVec.ofNat 64 code.length
      entryPoints := [baseAddress]
      roSegments := [⟨baseAddress, baseAddress + BitVec.ofNat 64 code.length, code⟩]
      length_slots := by
        rw [List.length_replicate, BitVec.add_comm, BitVec.add_sub_cancel, BitVec.toNat_ofNat,
          Nat.mod_eq_of_lt (by omega)]
      length_slots_lt := by rwa [List.length_replicate] }
    code 0 baseAddress registry

def addRoSegment (t : InstructionTable X) (start stop : U64) (data : List (BitVec 8)) :
    InstructionTable X :=
  { t with roSegments := t.roSegments ++ [⟨start, stop, data⟩] }

/-- The little-endian bytes of 32-bit instruction words. -/
def codeBytes (words : List (BitVec 32)) : List (BitVec 8) :=
  words.flatMap fun w => (List.range 4).map fun i => w.extractLsb' (8 * i) 8

/-! ## What the accessors have in common -/

theorem isValidPc_eq (t : InstructionTable X) (pc : U64) :
    t.isValidPc pc = (t.getAtPc pc).isSome := by
  unfold isValidPc getAtPc
  cases t.pcToIndex pc with
  | none => rfl
  | some index =>
    change t.isValidIndex index = (t.get index).isSome
    unfold isValidIndex get
    cases t.slots[index]? <;> rfl

/-- The size recorded for a pc is the size of its instruction. -/
theorem instructionSizeAtPc_eq (t : InstructionTable X) (pc : U64) :
    t.instructionSizeAtPc pc = ((t.getAtPc pc).map DecodedInstr.size).getD 0 := by
  unfold instructionSizeAtPc getAtPc
  cases t.pcToIndex pc with
  | none => rfl
  | some index =>
    change t.instructionSize index = ((t.get index).map DecodedInstr.size).getD 0
    unfold instructionSize get
    cases hslot : t.slots[index]? with
    | none => rfl
    | some slot => exact slot.size_eq

theorem instructionSizeAtPc_of_getAtPc {t : InstructionTable X} {pc : U64} {instr : DecodedInstr X}
    (h : t.getAtPc pc = some instr) : t.instructionSizeAtPc pc = instr.size := by
  rw [instructionSizeAtPc_eq, h]
  rfl

end InstructionTable

end Rvr
