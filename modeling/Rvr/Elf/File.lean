import Rvr.Ir.Xlen
import Rvr.Lib.LittleEndian
import Rvr.Lib.Outcome

/-!
# The ELF parser

`ElfFile::parse` of `rvr-elf/src/file.rs`, with the structures of `header.rs` and the constants of
`constants.rs` that it uses.  The host has 64-bit addresses: `usize` and `u64` are the same, so the
conversions between them never fail, and a byte slice has fewer than `2 ^ 63` bytes.  Word
arithmetic is checked for overflow, as in a build with overflow checks; an overflow is a panic, and
so are an index out of range and a vector of more than `isize::MAX` bytes.  Allocation itself is
taken to succeed.
-/

namespace Rvr

/-- A `&[u8]` of the host. -/
structure Slice where
  bytes : List (BitVec 8)
  length_lt : bytes.length < 2 ^ 63

/-- The number of bytes. -/
def Slice.length (data : Slice) : ℕ := data.bytes.length

namespace Elf

/-! ## Constants -/

def elfMagic : BitVec 32 := 0x464C457F
def elfClass32 : BitVec 8 := 1
def elfClass64 : BitVec 8 := 2
def elfDataLsb : BitVec 8 := 1
def ptLoad : BitVec 32 := 1
def shtProgbits : BitVec 32 := 1
def shtSymtab : BitVec 32 := 2
def shtNobits : BitVec 32 := 8
def shfAlloc : U64 := 0x2
def efRiscvRve : BitVec 32 := 0x8
def maxSegments : ℕ := 8

/-- The largest number of bytes in a vector, `isize::MAX`. -/
def isizeMax : ℕ := 2 ^ 63 - 1

/-- ELF parsing errors. -/
inductive ElfError
  | tooSmall
  | invalidMagic
  | gitLfsPointer
  | notLittleEndian
  | xlenMismatch (expected actual : ℕ)
  | unsupportedClass (cls : BitVec 8)
  | sectionOutOfBounds
  | programOutOfBounds
  | segmentBeyondFile
  | virtualAddressOverflow
  | noLoadableSegments
  | tooManySegments
  | overlappingSegments
  deriving DecidableEq, Repr

/-- The results of the parser. -/
abbrev Result (α : Type) := Outcome ElfError α

/-! ## Headers -/

/-- ELF header. -/
structure ElfHeader (X : Xlen) where
  magic : BitVec 32
  cls : BitVec 8
  data : BitVec 8
  version : BitVec 8
  abi : BitVec 8
  abiVersion : BitVec 8
  entry : X.Reg
  phoff : X.Reg
  shoff : X.Reg
  flags : BitVec 32
  ehsize : BitVec 16
  phentsize : BitVec 16
  phnum : BitVec 16
  shentsize : BitVec 16
  shnum : BitVec 16
  shstrndx : BitVec 16
  deriving DecidableEq

/-- Program header. -/
structure ProgramHeader (X : Xlen) where
  pType : BitVec 32
  offset : X.Reg
  vaddr : X.Reg
  paddr : X.Reg
  filesz : X.Reg
  memsz : X.Reg
  flags : BitVec 32
  align : X.Reg
  deriving DecidableEq

/-- Section header. -/
structure SectionHeader (X : Xlen) where
  name : BitVec 32
  shType : BitVec 32
  flags : X.Reg
  addr : X.Reg
  offset : X.Reg
  size : X.Reg
  link : BitVec 32
  info : BitVec 32
  addralign : X.Reg
  entsize : X.Reg
  deriving DecidableEq

/-- Loaded section with data. -/
structure LoadedSection (X : Xlen) where
  name : String
  addr : X.Reg
  size : X.Reg
  flags : U64
  data : List (BitVec 8)
  deriving DecidableEq

/-- ELF symbol. -/
structure Symbol (X : Xlen) where
  name : String
  value : X.Reg
  size : X.Reg
  symType : BitVec 8
  binding : BitVec 8
  shndx : BitVec 16
  deriving DecidableEq

/-! ## Reading numbers -/

/-- The number in the `n` bytes from an offset on.  Offsets past the last `usize` are out of range
like those past the end, so the additions `offset + i` need no check of their own. -/
def readLe (n : ℕ) (data : Slice) (offset : ℕ) : Result ℕ := do
  let bytes ← Outcome.traverse (fun i => Outcome.index data.bytes (offset + i)) (List.range n)
  pure (LittleEndian.toNat bytes)

/-- Read little-endian `u16` from bytes. -/
def readLe16 (data : Slice) (offset : ℕ) : Result (BitVec 16) := do
  pure (BitVec.ofNat 16 (← readLe 2 data offset))

/-- Read little-endian `u32` from bytes. -/
def readLe32 (data : Slice) (offset : ℕ) : Result (BitVec 32) := do
  pure (BitVec.ofNat 32 (← readLe 4 data offset))

/-- Read little-endian `u64` from bytes. -/
def readLe64 (data : Slice) (offset : ℕ) : Result (BitVec 64) := do
  pure (BitVec.ofNat 64 (← readLe 8 data offset))

variable (X : Xlen) (data : Slice)

/-- `X::from_u64(u64::from(read_le32(..)))`. -/
def readReg32 (offset : ℕ) : Result X.Reg := do
  pure (X.fromU64 ((← readLe32 data offset).setWidth 64))

/-- `X::from_u64(read_le64(..))`. -/
def readReg64 (offset : ℕ) : Result X.Reg := do
  pure (X.fromU64 (← readLe64 data offset))

/-! ## The header -/

/-- `version https://git-lfs.github.com/spec/v1`, the start of a Git LFS pointer file. -/
def gitLfsPrefix : List (BitVec 8) :=
  "version https://git-lfs.github.com/spec/v1".toList.map fun c => BitVec.ofNat 8 c.toNat

/-- Whether the data looks like a Git LFS pointer file. -/
def isGitLfsPointer : Bool :=
  gitLfsPrefix.length ≤ data.length && gitLfsPrefix.isPrefixOf data.bytes

def parseHeader32 (magic : BitVec 32) (cls dataEncoding version abi abiVersion : BitVec 8) :
    Result (ElfHeader X) := do
  pure {
    magic, cls, data := dataEncoding, version, abi, abiVersion
    entry := ← readReg32 X data 24
    phoff := ← readReg32 X data 28
    shoff := ← readReg32 X data 32
    flags := ← readLe32 data 36
    ehsize := ← readLe16 data 40
    phentsize := ← readLe16 data 42
    phnum := ← readLe16 data 44
    shentsize := ← readLe16 data 46
    shnum := ← readLe16 data 48
    shstrndx := ← readLe16 data 50 }

def parseHeader64 (magic : BitVec 32) (cls dataEncoding version abi abiVersion : BitVec 8) :
    Result (ElfHeader X) := do
  pure {
    magic, cls, data := dataEncoding, version, abi, abiVersion
    entry := ← readReg64 X data 24
    phoff := ← readReg64 X data 32
    shoff := ← readReg64 X data 40
    flags := ← readLe32 data 48
    ehsize := ← readLe16 data 52
    phentsize := ← readLe16 data 54
    phnum := ← readLe16 data 56
    shentsize := ← readLe16 data 58
    shnum := ← readLe16 data 60
    shstrndx := ← readLe16 data 62 }

def parseHeader : Result (ElfHeader X) := do
  let minSize := if X.value = 64 then 64 else 52
  if data.length < minSize then .err .tooSmall
  -- happens when `git lfs pull` wasn't run
  else if isGitLfsPointer data then .err .gitLfsPointer
  else do
    let magic ← readLe32 data 0
    if magic ≠ elfMagic then .err .invalidMagic
    else do
      let cls ← Outcome.index data.bytes 4
      let dataEncoding ← Outcome.index data.bytes 5
      let version ← Outcome.index data.bytes 6
      let abi ← Outcome.index data.bytes 7
      let abiVersion ← Outcome.index data.bytes 8
      if dataEncoding ≠ elfDataLsb then .err .notLittleEndian
      else if X.value = 64 then
        parseHeader64 X data magic cls dataEncoding version abi abiVersion
      else parseHeader32 X data magic cls dataEncoding version abi abiVersion

/-! ## Program and section headers -/

/-- The bytes of a program header. -/
def programHeaderSize : ℕ := if X.value = 64 then 56 else 32

/-- The bytes of a section header. -/
def sectionHeaderSize : ℕ := if X.value = 64 then 64 else 40

/-- The bytes of a symbol. -/
def symbolSize : ℕ := if X.value = 64 then 24 else 16

/-- The fields of a program header, which is inside the data. -/
def readProgramHeader (offset : ℕ) : Result (ProgramHeader X) := do
  if X.value = 64 then
    pure {
      pType := ← readLe32 data offset
      flags := ← readLe32 data (offset + 4)
      offset := ← readReg64 X data (offset + 8)
      vaddr := ← readReg64 X data (offset + 16)
      paddr := ← readReg64 X data (offset + 24)
      filesz := ← readReg64 X data (offset + 32)
      memsz := ← readReg64 X data (offset + 40)
      align := ← readReg64 X data (offset + 48) }
  else
    pure {
      pType := ← readLe32 data offset
      offset := ← readReg32 X data (offset + 4)
      vaddr := ← readReg32 X data (offset + 8)
      paddr := ← readReg32 X data (offset + 12)
      filesz := ← readReg32 X data (offset + 16)
      memsz := ← readReg32 X data (offset + 20)
      flags := ← readLe32 data (offset + 24)
      align := ← readReg32 X data (offset + 28) }

/-- The fields of a section header, which is inside the data. -/
def readSectionHeader (offset : ℕ) : Result (SectionHeader X) := do
  if X.value = 64 then
    pure {
      name := ← readLe32 data offset
      shType := ← readLe32 data (offset + 4)
      flags := ← readReg64 X data (offset + 8)
      addr := ← readReg64 X data (offset + 16)
      offset := ← readReg64 X data (offset + 24)
      size := ← readReg64 X data (offset + 32)
      link := ← readLe32 data (offset + 40)
      info := ← readLe32 data (offset + 44)
      addralign := ← readReg64 X data (offset + 48)
      entsize := ← readReg64 X data (offset + 56) }
  else
    pure {
      name := ← readLe32 data offset
      shType := ← readLe32 data (offset + 4)
      flags := ← readReg32 X data (offset + 8)
      addr := ← readReg32 X data (offset + 12)
      offset := ← readReg32 X data (offset + 16)
      size := ← readReg32 X data (offset + 20)
      link := ← readLe32 data (offset + 24)
      info := ← readLe32 data (offset + 28)
      addralign := ← readReg32 X data (offset + 32)
      entsize := ← readReg32 X data (offset + 36) }

/-- Read an entry of a table if its `size` bytes are inside the data. -/
def parseEntry {α : Type} (size : ℕ) (error : ElfError) (read : ℕ → Result α) (offset : ℕ) :
    Result α := do
  let stop ← Outcome.add 64 offset size
  if data.length < stop then .err error else read offset

def parseProgramHeader (offset : ℕ) : Result (ProgramHeader X) :=
  parseEntry data (programHeaderSize X) .programOutOfBounds (readProgramHeader X data) offset

def parseSectionHeader (offset : ℕ) : Result (SectionHeader X) :=
  parseEntry data (sectionHeaderSize X) .sectionOutOfBounds (readSectionHeader X data) offset

/-- The loop over the entries of a table. -/
def parseTable {α : Type} (start : ℕ) (num entsize : BitVec 16) (parse : ℕ → Result α) :
    Result (List α) :=
  Outcome.traverse (fun i => do
    let step ← Outcome.mul 64 i entsize.toNat
    let offset ← Outcome.add 64 start step
    parse offset) (List.range num.toNat)

variable {X}

def parseProgramHeaders (header : ElfHeader X) : Result (List (ProgramHeader X)) :=
  parseTable (Xlen.toU64 header.phoff).toNat header.phnum header.phentsize
    (parseProgramHeader X data)

def parseAllSections (header : ElfHeader X) : Result (List (SectionHeader X)) :=
  parseTable (Xlen.toU64 header.shoff).toNat header.shnum header.shentsize
    (parseSectionHeader X data)

/-! ## Sections -/

def findStringTable (sections : List (SectionHeader X)) (header : ElfHeader X) :
    Option (SectionHeader X) :=
  sections[header.shstrndx.toNat]?

/-- The bytes up to the next zero byte, each one a character. -/
def extractString (strtabOffset stringOffset : ℕ) : Result String := do
  let start ← Outcome.add 64 strtabOffset stringOffset
  pure (String.ofList (((data.bytes.drop start).takeWhile (· ≠ 0)).map fun b => Char.ofNat b.toNat))

def loadSectionData (sec : SectionHeader X) : Result (List (BitVec 8)) :=
  let size := (Xlen.toU64 sec.size).toNat
  let offset := (Xlen.toU64 sec.offset).toNat
  if sec.shType = shtProgbits then
    if isizeMax < size then .panic
    else
      Outcome.traverse (fun i => do
        let dataOffset ← Outcome.add 64 offset i
        pure (data.bytes.getD dataOffset 0)) (List.range size)
  else if sec.shType = shtNobits then
    if isizeMax < size then .panic else .ok (List.replicate size 0)
  else .ok []

/-- Whether the section is loaded. -/
def SectionHeader.isAlloc (sec : SectionHeader X) : Bool :=
  Xlen.toU64 sec.flags &&& shfAlloc ≠ 0

def loadSection (strtab : Option (SectionHeader X)) (sec : SectionHeader X) :
    Result (LoadedSection X) := do
  let sectionData ← loadSectionData data sec
  let name ← match strtab with
    | none => pure "unknown"
    | some strtab =>
      extractString data (Xlen.toU64 strtab.offset).toNat sec.name.toNat
  pure { name, addr := sec.addr, size := sec.size, flags := Xlen.toU64 sec.flags,
         data := sectionData }

def loadAllocatableSections (sections : List (SectionHeader X))
    (strtab : Option (SectionHeader X)) :
    Result (List (LoadedSection X)) :=
  Outcome.traverse (loadSection data strtab) (sections.filter SectionHeader.isAlloc)

/-! ## Symbols -/

variable (X)

/-- A single symbol entry; `none` if it is not inside the data. -/
def parseSymbol (offset strtabOffset : ℕ) : Result (Option (Symbol X)) := do
  let stop ← Outcome.add 64 offset (symbolSize X)
  if data.length < stop then pure none
  else if X.value = 64 then do
    let nameIdx ← readLe32 data offset
    let info ← Outcome.index data.bytes (offset + 4)
    let _ ← Outcome.index data.bytes (offset + 5)
    let shndx ← readLe16 data (offset + 6)
    let value ← readReg64 X data (offset + 8)
    let size ← readReg64 X data (offset + 16)
    let name ← extractString data strtabOffset nameIdx.toNat
    pure (some { name, value, size, symType := info &&& 0xf, binding := info >>> 4, shndx })
  else do
    let nameIdx ← readLe32 data offset
    let value ← readReg32 X data (offset + 4)
    let size ← readReg32 X data (offset + 8)
    let info ← Outcome.index data.bytes (offset + 12)
    let _ ← Outcome.index data.bytes (offset + 13)
    let shndx ← readLe16 data (offset + 14)
    let name ← extractString data strtabOffset nameIdx.toNat
    pure (some { name, value, size, symType := info &&& 0xf, binding := info >>> 4, shndx })

variable {X}

/-- The symbol table and the string table it links to. -/
def symbolTables (sections : List (SectionHeader X)) :
    Option (SectionHeader X × SectionHeader X) := do
  let symtab ← sections.find? fun s => s.shType = shtSymtab
  let strtab ← sections[symtab.link.toNat]?
  pure (symtab, strtab)

/-- Parse symbol table from ELF sections. -/
def parseSymbols (sections : List (SectionHeader X)) : Result (List (Symbol X)) :=
  match symbolTables sections with
  | none => .ok []
  | some (symtab, strtab) =>
    let strtabOffset := (Xlen.toU64 strtab.offset).toNat
    let symtabOffset := (Xlen.toU64 symtab.offset).toNat
    let symtabSize := (Xlen.toU64 symtab.size).toNat
    let entsize := (Xlen.toU64 symtab.entsize).toNat
    if entsize = 0 then .ok []
    else do
      let symbols ← Outcome.traverse (fun i => do
        let step ← Outcome.mul 64 i entsize
        let offset ← Outcome.add 64 symtabOffset step
        parseSymbol X data offset strtabOffset) (List.range (symtabSize / entsize))
      pure (symbols.filterMap id)

/-! ## The file -/

end Elf

/-- Parsed ELF file. -/
structure ElfFile (X : Xlen) where
  entryPoint : X.Reg
  eFlags : BitVec 32
  sections : List (Elf.LoadedSection X)
  programHeaders : List (Elf.ProgramHeader X)
  symbols : List (Elf.Symbol X)
  deriving DecidableEq

namespace ElfFile

open Elf

/-- Parse ELF file from raw bytes. -/
def parse (X : Xlen) (data : Slice) : Result (ElfFile X) := do
  let header ← parseHeader X data
  let elfXlen := if header.cls = elfClass64 then 64 else 32
  if elfXlen ≠ X.value then .err (.xlenMismatch X.value elfXlen)
  else do
    let programHeaders ← parseProgramHeaders data header
    let allSections ← parseAllSections data header
    let strtab := findStringTable allSections header
    let sections ← loadAllocatableSections data allSections strtab
    let symbols ← parseSymbols data allSections
    pure { entryPoint := header.entry, eFlags := header.flags, sections, programHeaders, symbols }

/-- Peek at ELF header to determine XLEN (32 or 64) without full parsing. -/
def getElfXlen (data : Slice) : Result ℕ := do
  if data.length < 5 then .err .tooSmall
  else if isGitLfsPointer data then .err .gitLfsPointer
  else do
    let b0 ← Outcome.index data.bytes 0
    let b1 ← Outcome.index data.bytes 1
    let b2 ← Outcome.index data.bytes 2
    let b3 ← Outcome.index data.bytes 3
    if b0 ≠ 0x7F ∨ b1 ≠ 0x45 ∨ b2 ≠ 0x4C ∨ b3 ≠ 0x46 then .err .invalidMagic
    else do
      let cls ← Outcome.index data.bytes 4
      if cls = elfClass32 then pure 32
      else if cls = elfClass64 then pure 64
      else .err (.unsupportedClass cls)

end ElfFile

end Rvr
