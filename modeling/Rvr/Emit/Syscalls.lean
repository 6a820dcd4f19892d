import Rvr.Emit.Dispatch
import Rvr.Runner.State

/-!
# The syscall runtime

`rv_sys_brk` and `rv_sys_mmap` of the generated `syscalls.c` (`rvr-emit/src/c/syscalls.rs`), with
`phys_addr` of the generated header (`rvr-emit/src/c/header/memory.rs`).  The program break is the
only state that the runtime functions share, so the functions that do not touch it are left out.
-/

namespace Rvr

namespace Syscalls

/-- How a runtime function ends without returning. -/
inductive Fault
  /-- `__builtin_trap()`. -/
  | trap
  /-- The C text does not define what happens. -/
  | undefined
  /-- Bytes outside guest memory are written. -/
  | writesOutside
  deriving DecidableEq

/-- The constants of the generated header that memory accesses depend on. -/
structure Config where
  memoryBits : ℕ
  memoryBits_le : memoryBits ≤ 32
  addressMode : AddressMode

/-- `RV_MEMORY_SIZE`. -/
def Config.size (cfg : Config) : MemSize where
  val := 2 ^ cfg.memoryBits
  pos := Nat.two_pow_pos _
  lt := by
    have hle := Nat.pow_le_pow_right (n := 2) (by omega) cfg.memoryBits_le
    rw [guardSize]
    omega

/-- `RV_MEMORY_MASK`. -/
def Config.mask (cfg : Config) : U64 := BitVec.ofNat 64 (2 ^ cfg.memoryBits - 1)

section Runtime

variable {X : Xlen} {n : RegCount} (cfg : Config)

/-- Translate virtual address to physical. -/
def physAddr (addr : X.Reg) : Except Fault X.Reg :=
  match cfg.addressMode with
  | .unchecked => if Xlen.toU64 addr ≤ cfg.mask then .ok addr else .error .undefined
  | .bounds =>
    let shift := X.value - cfg.memoryBits
    -- a shift by the whole width is undefined
    if cfg.memoryBits = 0 then .error .undefined
    else if (addr <<< shift).sshiftRight shift ≠ addr then .error .trap
    else if Xlen.toU64 addr ≤ cfg.mask then .ok (X.fromU64 (Xlen.toU64 addr &&& cfg.mask))
    else .error .undefined
  | .wrap => .ok (X.fromU64 (Xlen.toU64 addr &&& cfg.mask))

/-- `memset(ptr, 0, count)` for a pointer into guest memory. -/
def zero (m : Memory cfg.size) (ptr count : ℕ) : Except Fault (Memory cfg.size) :=
  if ptr + count ≤ cfg.size.val then
    .ok fun i => if ptr ≤ i.val ∧ i.val < ptr + count then 0 else m i
  else .error .writesOutside

/-- `align_up`. -/
def alignUp (value alignment : X.Reg) : X.Reg := (value + alignment - 1) &&& ~~~(alignment - 1)

/-- `(reg_t)-12`. -/
def enomem : X.Reg := -12

/-- The size of a page. -/
def page : X.Reg := 4096

/-- `rv_sys_brk`: the state after the call, and what is returned. -/
def rvSysBrk (s : RvState X n) (addr : X.Reg) : RvState X n × X.Reg :=
  if addr = 0 then (s, s.brk)
  else if s.startBrk ≤ addr ∧ addr.toNat < cfg.size.val then ({ s with brk := addr }, addr)
  else (s, s.brk)

/-- `rv_sys_mmap`: the state after the call, and the memory with what is returned, if the call
returns. The break is moved before the memory is cleared. -/
def rvSysMmap (s : RvState X n) (m : Memory cfg.size) (_addr len _prot _flags _fd _off : X.Reg) :
    RvState X n × Except Fault (Memory cfg.size × X.Reg) :=
  let alignedBrk := alignUp s.brk page
  let alignedLen := alignUp len page
  let newBrk := alignedBrk + alignedLen
  if newBrk.toNat < cfg.size.val then
    ({ s with brk := newBrk }, do
      let ptr ← physAddr cfg alignedBrk
      let m ← zero cfg m ptr.toNat alignedLen.toNat
      pure (m, alignedBrk))
  else (s, .ok (m, enomem))

end Runtime

end Syscalls

end Rvr
