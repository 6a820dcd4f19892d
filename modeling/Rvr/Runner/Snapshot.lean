import Rvr.Runner.Runner

/-!
# Saved states

`Runner::save_state` and `Runner::load_state` of `rvr/src/runner/mod.rs`.  A file is the list of its
bytes, and reading or writing it succeeds as long as there are bytes left.  The compressor is a
parameter, of which only is known that decompression inverts it.
-/

namespace Rvr

/-- A compressor and its inverse. -/
structure Codec where
  compress : List (BitVec 8) → List (BitVec 8)
  decompress : List (BitVec 8) → List (BitVec 8)
  decompress_compress : ∀ bytes, decompress (compress bytes) = bytes

namespace Snapshot

/-- `RVR\0`. -/
def magic : List (BitVec 8) := [0x52, 0x56, 0x52, 0x00]

def version : ℕ := 1

/-- The size of the buffer through which memory is copied. -/
def bufferSize : ℕ := 64 * 1024

/-- The errors of loading. -/
inductive StateError
  | unexpectedEof
  | invalidMagic
  | unsupportedVersion
  | xlenMismatch (file runner : ℕ)
  | numRegsMismatch (file runner : ℕ)
  | memorySizeMismatch (file runner : ℕ)
  deriving DecidableEq

/-- The results of loading. -/
abbrev Result (α : Type) := Outcome StateError α

variable {X : Xlen} {n : RegCount} {size : MemSize}

/-! ## Saving -/

/-- The loop that writes the memory from an offset on.  It ends after at most one round per byte. -/
def memoryChunks (m : Memory size) : ℕ → ℕ → List (BitVec 8)
  | 0, _ => []
  | fuel + 1, offset =>
    if offset < size.val then
      let chunkSize := min bufferSize (size.val - offset)
      m.read offset chunkSize ++ memoryChunks m fuel (offset + chunkSize)
    else []

/-- The uncompressed part of a file. -/
def header (X : Xlen) (n : RegCount) (size : MemSize) : List (BitVec 8) :=
  magic ++ (LittleEndian.bytes 4 version ++ (LittleEndian.bytes 1 X.value ++
    (LittleEndian.bytes 1 n.count ++ LittleEndian.bytes 8 size.val)))

/-- The registers, each as a `u64`. -/
def registerBytes (s : RvState X n) : List (Fin n.count) → List (BitVec 8)
  | [] => []
  | i :: is => LittleEndian.bytes 8 (Xlen.toU64 (s.regs i)).toNat ++ registerBytes s is

/-- The compressed part of a file. -/
def payload (r : Runner X n size) : List (BitVec 8) :=
  LittleEndian.bytes 8 (Xlen.toU64 r.state.pc).toNat ++
    (LittleEndian.bytes 8 r.state.instret.toNat ++
      (registerBytes r.state (List.finRange n.count) ++ memoryChunks r.memory size.val 0))

/-- Save the current machine state to a file. -/
def saveState (codec : Codec) (r : Runner X n size) : List (BitVec 8) :=
  header X n size ++ codec.compress (payload r)

/-! ## Loading -/

/-- `read_exact`: the next bytes, and what is left. -/
def readExact (count : ℕ) (bytes : List (BitVec 8)) :
    Result (List (BitVec 8) × List (BitVec 8)) :=
  if count ≤ bytes.length then .ok (bytes.take count, bytes.drop count) else .err .unexpectedEof

/-- The next bytes as a number. -/
def readNat (count : ℕ) (bytes : List (BitVec 8)) : Result (ℕ × List (BitVec 8)) := do
  let (next, rest) ← readExact count bytes
  pure (LittleEndian.toNat next, rest)

/-- The loop that reads the registers. -/
def loadRegisters (r : Runner X n size) (bytes : List (BitVec 8)) :
    List (Fin n.count) → Result (Runner X n size × List (BitVec 8))
  | [] => .ok (r, bytes)
  | i :: is => do
    let (reg, rest) ← readNat 8 bytes
    loadRegisters (r.setRegister i.val (BitVec.ofNat 64 reg)) rest is

/-- The loop that reads the memory from an offset on. -/
def loadChunks (m : Memory size) : ℕ → ℕ → List (BitVec 8) → Result (Memory size)
  | 0, _, _ => .ok m
  | fuel + 1, offset, bytes =>
    if offset < size.val then do
      let chunkSize := min bufferSize (size.val - offset)
      let (chunk, rest) ← readExact chunkSize bytes
      loadChunks (m.write offset chunk) fuel (offset + chunkSize) rest
    else .ok m

/-- Check the header against the runner; what is left is compressed. -/
def checkHeader (X : Xlen) (n : RegCount) (size : MemSize) (file : List (BitVec 8)) :
    Result (List (BitVec 8)) := do
  let (fileMagic, rest) ← readExact 4 file
  if fileMagic ≠ magic then .err .invalidMagic
  else do
    let (fileVersion, rest) ← readNat 4 rest
    if fileVersion ≠ version then .err .unsupportedVersion
    else do
      let (xlen, rest) ← readNat 1 rest
      if xlen ≠ X.value then .err (.xlenMismatch xlen X.value)
      else do
        let (numRegs, rest) ← readNat 1 rest
        if numRegs ≠ n.count then .err (.numRegsMismatch numRegs n.count)
        else do
          let (memSize, rest) ← readNat 8 rest
          if memSize ≠ size.val then .err (.memorySizeMismatch memSize size.val)
          else pure rest

/-- Load machine state from a file. -/
def loadState (codec : Codec) (file : List (BitVec 8)) (r : Runner X n size) :
    Result (Runner X n size) := do
  let compressed ← checkHeader X n size file
  let bytes := codec.decompress compressed
  let (pc, bytes) ← readNat 8 bytes
  let r := { r with state := { r.state with pc := X.fromU64 (BitVec.ofNat 64 pc) } }
  -- the instruction count is read, but not put back
  let (_, bytes) ← readNat 8 bytes
  let (r, bytes) ← loadRegisters r bytes (List.finRange n.count)
  let memory ← loadChunks r.memory size.val 0 bytes
  pure { r with memory }

end Snapshot

end Rvr
