import Rvr.Cfg.Targets

/-!
# Emission inputs and the dispatch table

What the code generators are given besides configuration (`rvr-emit/src/inputs.rs`), and the table
that all three backends emit for indirect jumps: one entry for every two bytes of the text range
(`gen_dispatch_file` of `rvr-emit/src/c/dispatch.rs`, `emit_jump_table` of the assembly backends).
The entry point and the initial break are not read by what is modelled and are left out.
-/

namespace Rvr

/-- Inputs derived from the program and its control flow graph. -/
structure EmitInputs where
  textStart : U64
  pcEnd : U64
  validAddresses : Finset U64
  absorbedToMerged : AddrMap U64

/-- An entry of the dispatch table: the function of a block, or the trap handler. -/
inductive DispatchEntry
  | block (start : U64)
  | trap
  deriving DecidableEq

namespace EmitInputs

variable (inputs : EmitInputs)

/-- Whether an address is a block start, directly or via the absorbed mapping. -/
def isValidAddress (pc : U64) : Bool :=
  pc ∈ inputs.validAddresses ∨ pc ∈ inputs.absorbedToMerged

/-- The block start that an address stands for. -/
def resolveAddress (pc : U64) : U64 := (inputs.absorbedToMerged.lookup pc).getD pc

/-- The entry for an address. -/
def entryAt (pc : U64) : DispatchEntry :=
  if pc ∈ inputs.validAddresses then .block pc
  else
    match inputs.absorbedToMerged.lookup pc with
    | some merged => .block merged
    | none => .trap

/-- The addresses that the loop over the text range visits. -/
def slotsFrom (pcEnd : U64) : ℕ → U64 → List U64
  | 0, _ => []
  | rounds + 1, addr => if addr < pcEnd then addr :: slotsFrom pcEnd rounds (addr + 2) else []

/-- The addresses of the slots.  The loop makes fewer rounds than there are bytes in the range,
unless the range ends at the top of the address space: then the address wraps and the source does
not return. -/
def slots : List U64 :=
  slotsFrom inputs.pcEnd (inputs.pcEnd - inputs.textStart).toNat inputs.textStart

/-- The dispatch table. -/
def dispatchTable : List DispatchEntry := inputs.slots.map inputs.entryAt

/-! ## Where a slot is -/

theorem getElem?_slotsFrom {pcEnd : U64} {rounds : ℕ} {addr : U64} {i : ℕ}
    (hi : i < rounds) (hend : addr.toNat + 2 * i < pcEnd.toNat) :
    (slotsFrom pcEnd rounds addr)[i]? = some (addr + BitVec.ofNat 64 (2 * i)) := by
  induction rounds generalizing addr i with
  | zero => omega
  | succ rounds ih =>
    have hlt : addr < pcEnd := BitVec.lt_def.2 (by omega)
    rw [slotsFrom, if_pos hlt]
    cases i with
    | zero => simp
    | succ i =>
      have hnext : (addr + 2).toNat = addr.toNat + 2 := by
        rw [BitVec.toNat_add, show (2 : U64).toNat = 2 from rfl]
        exact Nat.mod_eq_of_lt (by have := pcEnd.isLt; omega)
      rw [List.getElem?_cons_succ, ih (by omega) (by rw [hnext]; omega)]
      rw [Nat.mul_succ, Nat.add_comm, BitVec.ofNat_add, ← BitVec.add_assoc]
      rfl

/-- The slot at position `i` is the one `2 * i` bytes after the start. -/
theorem getElem?_slots {i : ℕ} (h : inputs.textStart.toNat + 2 * i < inputs.pcEnd.toNat) :
    inputs.slots[i]? = some (inputs.textStart + BitVec.ofNat 64 (2 * i)) := by
  refine getElem?_slotsFrom ?_ h
  have hsub : (inputs.pcEnd - inputs.textStart).toNat
      = inputs.pcEnd.toNat - inputs.textStart.toNat :=
    BitVec.toNat_sub_of_le (BitVec.le_def.2 (by omega))
  omega

end EmitInputs

end Rvr
