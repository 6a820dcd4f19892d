import Rvr.Cfg.Decoded
import Rvr.Lib.SortedList

/-!
# Candidate control flow targets

The first phase of the analysis (`collect_potential_targets` and `build_call_return_map` of
`rvr-cfg/src/analysis/mod.rs`): code pointers in read-only data, and one linear scan of the code
that tracks constants in registers and collects function entries, other jump targets and return
sites.

A hash set is a finite set and a hash map an association list without duplicate keys.
-/

namespace Rvr

variable {X : Xlen}

/-- A hash map keyed by addresses. -/
abbrev AddrMap (V : Type) := AList fun _ : U64 => V

namespace AddrMap

/-- `entry(key).or_default().extend(set)`. -/
def extend (m : AddrMap (Finset U64)) (key : U64) (set : Finset U64) : AddrMap (Finset U64) :=
  m.insert key ((m.lookup key).getD ∅ ∪ set)

end AddrMap

/-! ## Linear scans -/

/-- Walk the code range from low to high addresses and visit every decoded instruction: where
nothing is decoded the walk advances by one slot.  The address grows in every round, so the length
of the range bounds their number. -/
def linearScan {σ : Type} (t : InstructionTable X)
    (visit : σ → U64 → ℕ → DecodedInstr X → σ) : ℕ → U64 → σ → σ
  | 0, _, acc => acc
  | fuel + 1, pc, acc =>
    if pc < t.endAddress then
      if !t.isValidPc pc then linearScan t visit fuel (nextAddr pc InstructionTable.slotSize) acc
      else
        let size := t.instructionSizeAtPc pc
        if size = 0 then linearScan t visit fuel (nextAddr pc InstructionTable.slotSize) acc
        else
          match t.getAtPc pc with
          | none => linearScan t visit fuel (nextAddr pc size) acc
          | some instr => linearScan t visit fuel (nextAddr pc size) (visit acc pc size instr)
    else acc

/-- The walk over the whole table. -/
def InstructionTable.scan {σ : Type} (t : InstructionTable X)
    (visit : σ → U64 → ℕ → DecodedInstr X → σ) (acc : σ) : σ :=
  linearScan t visit ((t.endAddress - t.baseAddress).toNat + 1) t.baseAddress acc

/-! ## Collecting targets -/

/-- The three sets of targets. -/
structure Targets where
  functionEntries : Finset U64
  internalTargets : Finset U64
  returnSites : Finset U64

/-- The state of the linear scan: the targets so far and the constants in registers.  A register
number out of range would be an index panic in the source. -/
structure TargetScan extends Targets where
  regs : ℕ → Option U64

/-- Add an address to a set if an instruction is decoded there. -/
def InstructionTable.insertValid (t : InstructionTable X) (addr : U64) (set : Finset U64) :
    Finset U64 :=
  if t.isValidPc addr then insert addr set else set

namespace TargetScan

variable (t : InstructionTable X) (c : TargetScan) (d : DecodedInstruction) (pc : U64) (size : ℕ)

def setReg (reg : ℕ) (value : Option U64) : TargetScan :=
  { c with regs := Function.update c.regs reg value }

def handleLui : TargetScan :=
  match d.rd with
  | some rd => c.setReg rd (some (signExtendI32 d.imm))
  | none => c

def handleAuipc : TargetScan :=
  match d.rd with
  | some rd => c.setReg rd (some (addSigned pc d.imm))
  | none => c

def handleAddi : TargetScan :=
  match d.rd, d.rs1 with
  | some rd, some rs1 =>
    match c.regs rs1 with
    | some base =>
      let computed := addSigned base d.imm
      { c.setReg rd (some computed) with
        functionEntries := t.insertValid computed c.functionEntries }
    | none => c.setReg rd none
  | _, _ => c

def handleAdd : TargetScan :=
  match d.rd, d.rs1, d.rs2 with
  | some rd, some rs1, some rs2 =>
    match c.regs rs1, c.regs rs2 with
    | some lhs, some rhs =>
      let computed := lhs + rhs
      { c.setReg rd (some computed) with
        functionEntries := t.insertValid computed c.functionEntries }
    | _, _ => c.setReg rd none
  | _, _, _ => c

def handleMove : TargetScan :=
  match d.rd, d.rs1 with
  | some rd, some rs1 => c.setReg rd (c.regs rs1)
  | _, _ => c

def handleLoad : TargetScan :=
  match d.rd, d.rs1 with
  | some rd, some rs1 =>
    match c.regs rs1 with
    | some base =>
      match t.readReadonly (addSigned base d.imm) d.loadWidthBytes with
      | some raw =>
        let extended := extendLoadedValue raw d.loadWidthBytes d.isUnsigned
        { c.setReg rd (some extended) with
          internalTargets := t.insertValid extended c.internalTargets }
      | none => c.setReg rd none
    | none => c.setReg rd none
  | _, _ => c

def handleJal : TargetScan :=
  let target := addSigned pc d.imm
  let c' : TargetScan :=
    if d.isCall then
      if t.isValidPc target then
        { c with
          functionEntries := insert target c.functionEntries
          returnSites := insert (nextAddr pc size) c.returnSites }
      else c
    else { c with internalTargets := t.insertValid target c.internalTargets }
  match d.rd with
  | some rd => c'.setReg rd (some (nextAddr pc size))
  | none => c'

def handleJalr : TargetScan :=
  let c₁ : TargetScan :=
    match d.rs1.bind c.regs with
    | some base =>
      { c with functionEntries := t.insertValid (addSigned base d.imm &&& ~~~1) c.functionEntries }
    | none => c
  let c₂ : TargetScan :=
    if d.isCall then { c₁ with returnSites := insert (nextAddr pc size) c₁.returnSites } else c₁
  match d.rd with
  | some rd => c₂.setReg rd (some (nextAddr pc size))
  | none => c₂

def handleBranch : TargetScan :=
  { c with
    internalTargets :=
      insert (nextAddr pc size) (t.insertValid (addSigned pc d.imm) c.internalTargets) }

def handleUnknown (args : InstrArgs) : TargetScan :=
  match extractWrittenReg args with
  | some rd => c.setReg rd none
  | none => c

/-- `update_targets_for_decoded`. -/
def update (instr : DecodedInstr X) : TargetScan :=
  let d := DecodedInstruction.fromInstr instr
  match d.kind with
  | .lui => c.handleLui d
  | .auipc => c.handleAuipc d pc
  | .addi => c.handleAddi t d
  | .add => c.handleAdd t d
  | .move => c.handleMove d
  | .load => c.handleLoad t d
  | .jal => c.handleJal t d pc size
  | .jalr => c.handleJalr t d pc size
  | .branch => c.handleBranch t d pc size
  | .unknown => c.handleUnknown instr.args

end TargetScan

/-- The little-endian words of `width` bytes at multiples of `width`. -/
def alignedWords (width : ℕ) (data : List (BitVec 8)) : List U64 :=
  (List.range (data.length / width)).map fun i =>
    RoSegment.leValue ((data.drop (i * width)).take width)

/-- Code pointers in read-only data: 32-bit ones, and on RV64 also 64-bit ones with a high half. -/
def scanRoSegmentsForCodePointers (t : InstructionTable X) (internalTargets : Finset U64) :
    Finset U64 :=
  t.roSegments.foldl (fun targets segment =>
    let targets := (alignedWords 4 segment.data).foldl (fun s v => t.insertValid v s) targets
    if X.value = 64 then
      (alignedWords 8 segment.data).foldl
        (fun s v => if v > 0xFFFFFFFF then t.insertValid v s else s) targets
    else targets) internalTargets

def collectPotentialTargets (t : InstructionTable X) : Targets :=
  let init : TargetScan :=
    { functionEntries := t.entryPoints.toFinset
      internalTargets := scanRoSegmentsForCodePointers t ∅
      returnSites := ∅
      regs := Function.update (fun _ => none) 0 (some 0) }
  (t.scan (fun c pc size instr => c.update t pc size instr) init).toTargets

/-! ## Calls and their return sites -/

/-- Callee entry to return sites, for calls with a static target. -/
def buildCallReturnMap (t : InstructionTable X) : AddrMap (Finset U64) :=
  t.scan (fun m pc size instr =>
    let d := DecodedInstruction.fromInstr instr
    let callee := addSigned pc d.imm
    if d.isStaticCall ∧ t.isValidPc callee then m.extend callee {nextAddr pc size} else m) ∅

/-- The bisection of `binary_search_le`: the number of elements not above the target. -/
def binarySearchLoop (sorted : List U64) (target : U64) : ℕ → ℕ → ℕ → ℕ
  | 0, lo, _ => lo
  | fuel + 1, lo, hi =>
    if lo < hi then
      let mid := (lo + hi) / 2
      if (sorted[mid]?).any (· ≤ target) then binarySearchLoop sorted target fuel (mid + 1) hi
      else binarySearchLoop sorted target fuel lo mid
    else lo

/-- The last element of an ascending list that is not above the target. -/
def binarySearchLe (sorted : List U64) (target : U64) : Option U64 :=
  match binarySearchLoop sorted target (sorted.length + 1) 0 sorted.length with
  | 0 => none
  | lo + 1 => sorted[lo]?

end Rvr
