import Rvr.Lib.Footprint
import Rvr.Runner.Runner

/-!
# Tracers

The built-in tracers of the generated C code that write to buffers of the runner
(`rvr-emit/src/c/tracers/`): preflight, stats and buffered diff.  A tracer is a C structure inside
the state and a set of hooks that generated code calls.  The hooks work on the bytes of the state;
an access to a buffer is an access through a pointer found there, and what is put into the buffer is
left out, as is what `trace_fini` prints.
-/

namespace Rvr

open Layout Footprint

/-! ## The structures -/

/-- `Tracer` of the preflight header. -/
inductive PreflightField
  | data | dataIdx | dataCount | pc | pcIdx | pcCount | startNs
  deriving DecidableEq

def PreflightField.struct : Struct PreflightField where
  fields := [.data, .dataIdx, .dataCount, .pc, .pcIdx, .pcCount, .startNs]
  shape
    | .data | .pc => pointer
    | .dataIdx | .pcIdx => scalar 4
    | .dataCount | .pcCount | .startNs => scalar 8

/-- `Tracer` of the stats header. -/
inductive StatsField
  | blocks | pcs | regReads | regWrites | memReads | memWrites | branchesTaken | branchesNotTaken
  | csrReads | csrWrites | lastPc | opcodeCounts | regReadCounts | regWriteCounts | memPages
  | addrBitmap
  deriving DecidableEq

/-- `PAGE_BITMAP_WORDS`. -/
def pageBitmapWords : ℕ := 16384

/-- `PAGE_SHIFT`. -/
def pageShift : ℕ := 12

/-- The header takes `OP_TABLE_SIZE` from elsewhere, so it is a parameter. -/
def StatsField.struct (opTableSize : ℕ) : Struct StatsField where
  fields := [.blocks, .pcs, .regReads, .regWrites, .memReads, .memWrites, .branchesTaken,
    .branchesNotTaken, .csrReads, .csrWrites, .lastPc, .opcodeCounts, .regReadCounts,
    .regWriteCounts, .memPages, .addrBitmap]
  shape
    | .opcodeCounts => array (scalar 8) opTableSize
    | .regReadCounts | .regWriteCounts => array (scalar 8) 32
    | .memPages => array (scalar 8) pageBitmapWords
    | .addrBitmap => pointer
    | _ => scalar 8

/-- `DiffEntry`, in C and in Rust. -/
inductive DiffEntryField
  | pc | opcode | rd | hasRd | hasMem | isWrite | rdValue | memAddr | memValue | memWidth | pad
  deriving DecidableEq

def DiffEntryField.struct (X : Xlen) : Struct DiffEntryField where
  fields := [.pc, .opcode, .rd, .hasRd, .hasMem, .isWrite, .rdValue, .memAddr, .memValue, .memWidth,
    .pad]
  shape
    | .pc | .rdValue | .memAddr | .memValue => X.regShape
    | .opcode => scalar 4
    | .rd | .hasRd | .hasMem | .isWrite | .memWidth => scalar 1
    | .pad => array (scalar 1) 7

/-- `Tracer` of the buffered diff header, and `BufferedDiffTracer`. -/
inductive BufferedDiffField
  | buffer | capacity | head | count | dropped | current | currentValid | pad
  deriving DecidableEq

def BufferedDiffField.struct (X : Xlen) : Struct BufferedDiffField where
  fields := [.buffer, .capacity, .head, .count, .dropped, .current, .currentValid, .pad]
  shape
    | .buffer => pointer
    | .capacity | .head | .count | .dropped => scalar 4
    | .current => (DiffEntryField.struct X).toShape
    | .currentValid => scalar 1
    | .pad => array (scalar 1) 7

/-- `PreflightTracer` of the runner. -/
inductive PreflightTracer.Field
  | data | dataIdx | dataCapacity | pc | pcIdx | pcCapacity
  deriving DecidableEq

def PreflightTracer.Field.struct : Struct PreflightTracer.Field where
  fields := [.data, .dataIdx, .dataCapacity, .pc, .pcIdx, .pcCapacity]
  shape
    | .data | .pc => pointer
    | .dataIdx | .dataCapacity | .pcIdx | .pcCapacity => scalar 4

/-! ## Hooks -/

/-- The size of a traced access. -/
inductive TraceWidth
  | byte | halfword | word | dword
  deriving DecidableEq

def TraceWidth.bytes : TraceWidth → ℕ
  | byte => 1
  | halfword => 2
  | word => 4
  | dword => 8

/-- A call of a hook.  `trace_init` reads a clock. -/
inductive TraceCall (X : Xlen)
  | init (now : U64)
  | fini
  | block (pc : X.Reg)
  | pc (pc : X.Reg) (op : BitVec 16)
  | opcode (pc : X.Reg) (op : BitVec 16) (opcode : BitVec 32)
  | regRead (pc : X.Reg) (op : BitVec 16) (reg : BitVec 8) (value : X.Reg)
  | regWrite (pc : X.Reg) (op : BitVec 16) (reg : BitVec 8) (value : X.Reg)
  | memRead (width : TraceWidth) (pc : X.Reg) (op : BitVec 16) (addr : X.Reg) (value : U64)
  | memWrite (width : TraceWidth) (pc : X.Reg) (op : BitVec 16) (addr : X.Reg) (value : U64)
  | branchTaken (pc : X.Reg) (op : BitVec 16) (target : X.Reg)
  | branchNotTaken (pc : X.Reg) (op : BitVec 16) (target : X.Reg)
  | csrRead (pc : X.Reg) (op csr : BitVec 16) (value : X.Reg)
  | csrWrite (pc : X.Reg) (op csr : BitVec 16) (value : X.Reg)

/-- The buffers that the runner owns. -/
inductive TraceBuffer
  | data | pc | addrBitmap | entries
  deriving DecidableEq

variable {X : Xlen}

/-- The hooks are statements on a structure at an offset of the state. -/
abbrev Hook := Prog TraceBuffer Unit

/-- Add to an unsigned field of `n` bytes. -/
def increase (offset n amount : ℕ) : Hook := do
  let v ← Prog.get offset n
  Prog.set offset n (v + amount)

namespace PreflightField

variable (tracer : ℕ)

/-- `&t->field`. -/
def place (f : PreflightField) : ℕ := tracer + struct.offsetOf f

/-- `memcpy(&t->data[t->data_idx], .., n); t->data_idx += n;` -/
def record (n : ℕ) : Hook := do
  Prog.deref .data (data.place tracer)
  increase (dataIdx.place tracer) 4 n

/-- The hooks of the preflight header.  It has no `trace_opcode`. -/
def hook : TraceCall X → Hook
  | .init now => do
    Prog.set (dataIdx.place tracer) 4 0
    Prog.set (pcIdx.place tracer) 4 0
    Prog.set (startNs.place tracer) 8 now.toNat
  | .fini => do
    let dataLen ← Prog.get (dataIdx.place tracer) 4
    increase (dataCount.place tracer) 8 dataLen
    let pcLen ← Prog.get (pcIdx.place tracer) 4
    increase (pcCount.place tracer) 8 pcLen
  | .pc _ _ => do
    Prog.deref .pc (pc.place tracer)
    increase (pcIdx.place tracer) 4 1
  | .regRead _ _ _ _ | .regWrite _ _ _ _ | .csrRead _ _ _ _ | .csrWrite _ _ _ _ =>
    record tracer X.regBytes
  | .memRead width _ _ _ _ | .memWrite width _ _ _ _ => do
    record tracer X.regBytes
    record tracer width.bytes
  | .block _ | .opcode _ _ _ | .branchTaken _ _ _ | .branchNotTaken _ _ _ => pure ()

end PreflightField

namespace StatsField

variable (opTableSize tracer : ℕ)

/-- `&t->field`. -/
def place (f : StatsField) : ℕ := tracer + (struct opTableSize).offsetOf f

/-- `t->field++;` -/
def count (f : StatsField) : Hook := increase (f.place opTableSize tracer) 8 1

/-- `t->field[i]++;` -/
def countAt (f : StatsField) (i : ℕ) : Hook := increase (f.place opTableSize tracer + 8 * i) 8 1

/-- `set_page_bit(t->mem_pages, addr);` -/
def setPageBit (addr : ℕ) : Hook := do
  let page := addr >>> pageShift
  let word := page >>> 6
  let bit := page % 64
  if word < pageBitmapWords then
    let v ← Prog.get (memPages.place opTableSize tracer + 8 * word) 8
    Prog.set (memPages.place opTableSize tracer + 8 * word) 8 (v ||| 2 ^ bit)
  else pure ()

/-- `if (t->addr_bitmap) for (..) set_addr_bit(t->addr_bitmap, addr + i);` -/
def setAddrBits (n : ℕ) : Hook := do
  let bitmap ← Prog.get (addrBitmap.place opTableSize tracer) 8
  if bitmap ≠ 0 then
    (List.range n).forM fun _ => Prog.deref .addrBitmap (addrBitmap.place opTableSize tracer)
  else pure ()

/-- The hooks of the stats header.  It has no `trace_opcode`. -/
def hook : TraceCall X → Hook
  | .init _ => pure ()
  | .fini => do
    -- the addresses are counted
    let bitmap ← Prog.get (addrBitmap.place opTableSize tracer) 8
    if bitmap ≠ 0 then Prog.deref .addrBitmap (addrBitmap.place opTableSize tracer) else pure ()
  | .block pc => do
    count opTableSize tracer blocks
    Prog.set (lastPc.place opTableSize tracer) 8 pc.toNat
  | .pc _ op => do
    count opTableSize tracer pcs
    countAt opTableSize tracer opcodeCounts op.toNat
  | .opcode _ _ _ => pure ()
  | .regRead _ _ reg _ => do
    count opTableSize tracer regReads
    countAt opTableSize tracer regReadCounts reg.toNat
  | .regWrite _ _ reg _ => do
    count opTableSize tracer regWrites
    countAt opTableSize tracer regWriteCounts reg.toNat
  | .memRead width _ _ addr _ => do
    count opTableSize tracer memReads
    setPageBit opTableSize tracer addr.toNat
    setAddrBits opTableSize tracer width.bytes
  | .memWrite width _ _ addr _ => do
    count opTableSize tracer memWrites
    setPageBit opTableSize tracer addr.toNat
    setAddrBits opTableSize tracer width.bytes
  | .branchTaken _ _ _ => count opTableSize tracer branchesTaken
  | .branchNotTaken _ _ _ => count opTableSize tracer branchesNotTaken
  | .csrRead _ _ _ _ => count opTableSize tracer csrReads
  | .csrWrite _ _ _ _ => count opTableSize tracer csrWrites

end StatsField

namespace BufferedDiffField

variable (X : Xlen) (tracer : ℕ)

/-- `&t->field`. -/
def place (f : BufferedDiffField) : ℕ := tracer + (struct X).offsetOf f

/-- `&t->current.field`. -/
def entryAt (f : DiffEntryField) : ℕ :=
  current.place X tracer + (DiffEntryField.struct X).offsetOf f

/-- `t->field = v;` -/
def assign (f : BufferedDiffField) (v : ℕ) : Hook :=
  Prog.set (f.place X tracer) ((struct X).shape f).size v

/-- `t->current.field = v;` -/
def assignEntry (f : DiffEntryField) (v : ℕ) : Hook :=
  Prog.set (entryAt X tracer f) ((DiffEntryField.struct X).shape f).size v

/-- Flush the current entry to the buffer.  A capacity of zero is a division by zero in C. -/
def flush : Hook := do
  let headIdx ← Prog.get (head.place X tracer) 4
  Prog.deref .entries (buffer.place X tracer)
  let cap ← Prog.get (capacity.place X tracer) 4
  assign X tracer head ((headIdx + 1) % 2 ^ 32 % cap)
  let entries ← Prog.get (count.place X tracer) 4
  if entries < cap then increase (count.place X tracer) 4 1
  else increase (dropped.place X tracer) 4 1

/-- Finalize the previous entry, if any. -/
def finalize : Hook := do
  let valid ← Prog.get (currentValid.place X tracer) 1
  if valid ≠ 0 then flush X tracer else pure ()

/-- Start a new entry. -/
def startEntry (pc : ℕ) : Hook := do
  assignEntry X tracer .pc pc
  assignEntry X tracer .opcode 0
  assignEntry X tracer .rd 0
  assignEntry X tracer .hasRd 0
  assignEntry X tracer .hasMem 0
  assignEntry X tracer .isWrite 0
  assignEntry X tracer .rdValue 0
  assignEntry X tracer .memAddr 0
  assignEntry X tracer .memValue 0
  assignEntry X tracer .memWidth 0
  assign X tracer currentValid 1

/-- The memory access of the current entry. -/
def recordAccess (addr value width isStore : ℕ) : Hook := do
  assignEntry X tracer .memAddr addr
  assignEntry X tracer .memValue value
  assignEntry X tracer .memWidth width
  assignEntry X tracer .isWrite isStore
  assignEntry X tracer .hasMem 1

/-- The hooks of the buffered diff header. -/
def hook : TraceCall X → Hook
  | .init _ => do
    assign X tracer head 0
    assign X tracer count 0
    assign X tracer dropped 0
    assign X tracer currentValid 0
  | .fini => do
    let valid ← Prog.get (currentValid.place X tracer) 1
    let entries ← Prog.get (buffer.place X tracer) 8
    if valid = 0 ∨ entries = 0 then pure ()
    else do
      flush X tracer
      assign X tracer currentValid 0
  | .pc pc _ => do
    let entries ← Prog.get (buffer.place X tracer) 8
    if entries = 0 then pure ()
    else do
      finalize X tracer
      startEntry X tracer pc.toNat
  | .opcode _ _ opcode => assignEntry X tracer .opcode opcode.toNat
  | .regWrite _ _ reg value =>
    if reg ≠ 0 then do
      assignEntry X tracer .rd reg.toNat
      assignEntry X tracer .rdValue value.toNat
      assignEntry X tracer .hasRd 1
    else pure ()
  | .memRead width _ _ addr value => recordAccess X tracer addr.toNat value.toNat width.bytes 0
  | .memWrite width _ _ addr value => recordAccess X tracer addr.toNat value.toNat width.bytes 1
  | .block _ | .regRead _ _ _ _ | .branchTaken _ _ _ | .branchNotTaken _ _ _ | .csrRead _ _ _ _
  | .csrWrite _ _ _ _ => pure ()

end BufferedDiffField

end Rvr
