import Rvr.Elf.File

/-!
# ELF images

`ElfImage::parse` of `rvr-elf/src/image.rs`: the loadable program headers of a file are validated
and become memory segments.  A segment keeps the bytes that are in the file; the rest of its memory
is zero.
-/

namespace Rvr

/-- A memory segment with virtual address and data. -/
structure MemorySegment (X : Xlen) where
  virtualStart : X.Reg
  virtualEnd : X.Reg
  data : List (BitVec 8)
  flags : BitVec 32
  deriving DecidableEq

/-- ELF image ready for loading into memory. -/
structure ElfImage (X : Xlen) where
  entryPoint : X.Reg
  eFlags : BitVec 32
  memorySegments : List (MemorySegment X)
  sections : List (Elf.LoadedSection X)
  symbols : List (Elf.Symbol X)
  deriving DecidableEq

namespace Elf

variable {X : Xlen}

/-- The headers that become segments. -/
def ProgramHeader.isLoadable (phdr : ProgramHeader X) : Bool :=
  phdr.pType = ptLoad ∧ 0 < (Xlen.toU64 phdr.memsz).toNat

/-- The checks on one loadable header. -/
def checkSegment (fileData : Slice) (phdr : ProgramHeader X) : Result (ProgramHeader X) := do
  let stop ← Outcome.add 64 (Xlen.toU64 phdr.offset).toNat (Xlen.toU64 phdr.filesz).toNat
  if fileData.length < stop then .err .segmentBeyondFile
  -- `checked_add`, which does not panic
  else if 2 ^ 64 ≤ (Xlen.toU64 phdr.vaddr).toNat + (Xlen.toU64 phdr.memsz).toNat then
    .err .virtualAddressOverflow
  else pure phdr

/-- The inner loop of the overlap check: one range against the later ones. -/
def checkOverlapsWith (startI endI : ℕ) : List (ProgramHeader X) → Result Unit
  | [] => .ok ()
  | segJ :: rest => do
    let startJ := (Xlen.toU64 segJ.vaddr).toNat
    let endJ ← Outcome.add 64 startJ (Xlen.toU64 segJ.memsz).toNat
    if ¬ (endI ≤ startJ ∨ endJ ≤ startI) then .err .overlappingSegments
    else checkOverlapsWith startI endI rest

/-- Check for overlapping virtual ranges. -/
def checkOverlaps : List (ProgramHeader X) → Result Unit
  | [] => .ok ()
  | segI :: rest => do
    let startI := (Xlen.toU64 segI.vaddr).toNat
    let endI ← Outcome.add 64 startI (Xlen.toU64 segI.memsz).toNat
    let () ← checkOverlapsWith startI endI rest
    checkOverlaps rest

end Elf

namespace ElfImage

open Elf

variable {X : Xlen}

/-- The loadable program headers, if all of them are valid. -/
def validateSegments (elf : ElfFile X) (fileData : Slice) : Result (List (ProgramHeader X)) := do
  let loadable ← Outcome.traverse (checkSegment fileData)
    (elf.programHeaders.filter ProgramHeader.isLoadable)
  if loadable = [] then .err .noLoadableSegments
  else if maxSegments < loadable.length then .err .tooManySegments
  else do
    let () ← checkOverlaps loadable
    pure loadable

/-- The segment of a header.  Only the data in the file is loaded. -/
def loadSegment (fileData : Slice) (phdr : ProgramHeader X) : Result (MemorySegment X) := do
  let offset := (Xlen.toU64 phdr.offset).toNat
  let filesz := (Xlen.toU64 phdr.filesz).toNat
  let stop ← Outcome.add 64 offset filesz
  let data ← Outcome.slice fileData.bytes offset stop
  let last ← Outcome.add 64 (Xlen.toU64 phdr.vaddr).toNat (Xlen.toU64 phdr.memsz).toNat
  pure {
    virtualStart := phdr.vaddr
    virtualEnd := X.fromU64 (BitVec.ofNat 64 last)
    data
    flags := phdr.flags }

def loadSegments (programHeaders : List (ProgramHeader X)) (fileData : Slice) :
    Result (List (MemorySegment X)) :=
  Outcome.traverse (loadSegment fileData) programHeaders

/-- Parse ELF from raw bytes. -/
def parse (X : Xlen) (data : Slice) : Result (ElfImage X) := do
  let elf ← ElfFile.parse X data
  let loadable ← validateSegments elf data
  let segments ← loadSegments loadable data
  pure {
    entryPoint := elf.entryPoint
    eFlags := elf.eFlags
    memorySegments := segments
    sections := elf.sections
    symbols := elf.symbols }

/-- Look up a symbol by name. -/
def lookupSymbol (image : ElfImage X) (name : String) : Option U64 :=
  (image.symbols.find? fun s => s.name = name).map fun s => Xlen.toU64 s.value

/-- Check if ELF uses the E (embedded) extension with 16 registers. -/
def isRve (image : ElfImage X) : Bool := image.eFlags &&& efRiscvRve ≠ 0

/-- The end of the highest memory segment. -/
def getInitialProgramBreak (image : ElfImage X) : X.Reg :=
  image.memorySegments.foldl (fun maxEnd seg =>
    if Xlen.toU64 maxEnd < Xlen.toU64 seg.virtualEnd then seg.virtualEnd else maxEnd) (X.fromU64 0)

end ElfImage

end Rvr
