import Rvr.Runner.Snapshot
import Rvr.Verify.Runner.Repeat

/-!
# Loading a saved state

Every reader is the inverse of its writer, so loading a saved state into a runner of the same shape
succeeds and puts back what was saved: `pc`, the registers but `x0`, and the memory
(`loadState_saveState`). The rest of the machine state stays that of the runner loaded into; the
instruction count is in the file, but not put back.
-/

namespace Rvr.Snapshot

open Outcome

variable {X : Xlen} {n : RegCount} {size : MemSize}

/-! ## Readers and writers -/

variable {rest : List (BitVec 8)}

theorem readExact_append {count : ℕ} {bytes : List (BitVec 8)} (h : bytes.length = count) :
    readExact count (bytes ++ rest) = ok (bytes, rest) := by
  subst h
  rw [readExact, if_pos (by rw [List.length_append]; exact Nat.le_add_right _ _), List.take_left,
    List.drop_left]

theorem readNat_append {count v : ℕ} (h : v < 256 ^ count) :
    readNat count (LittleEndian.bytes count v ++ rest) = ok (v, rest) := by
  rw [readNat, readExact_append (LittleEndian.length_bytes count v), ok_bind]
  dsimp only
  rw [LittleEndian.toNat_bytes h]
  rfl

theorem readNat_u64 {v : U64} :
    readNat 8 (LittleEndian.bytes 8 v.toNat ++ rest) = ok (v.toNat, rest) :=
  readNat_append v.isLt

theorem checkHeader_header :
    checkHeader X n size (header X n size ++ rest) = ok rest := by
  have hsize : size.val < 256 ^ 8 := by
    have hlt := size.lt
    omega
  have hxlen : X.value < 256 ^ 1 := by cases X <;> decide
  have hregs : n.count < 256 ^ 1 := by cases n <;> decide
  unfold checkHeader header
  simp only [List.append_assoc]
  rw [readExact_append (show magic.length = 4 from rfl), ok_bind]
  rw [if_neg (not_not.2 rfl), readNat_append (by decide), ok_bind]
  rw [if_neg (not_not.2 rfl), readNat_append hxlen, ok_bind]
  rw [if_neg (not_not.2 rfl), readNat_append hregs, ok_bind]
  rw [if_neg (not_not.2 rfl), readNat_append hsize, ok_bind]
  rw [if_neg (not_not.2 rfl)]
  rfl

/-! ## Registers -/

/-- The registers of a list are put back, `x0` excepted. -/
theorem loadRegisters_registerBytes {s : RvState X n} {t : Runner X n size}
    {is : List (Fin n.count)} :
    loadRegisters t (registerBytes s is ++ rest) is =
      ok ({ t with state := { t.state with
        regs := fun i => if i ∈ is ∧ i.val ≠ 0 then s.regs i else t.state.regs i } }, rest) := by
  induction is generalizing t with
  | nil => simp [loadRegisters, registerBytes]
  | cons i is ih =>
    rw [registerBytes, List.append_assoc, loadRegisters, readNat_u64, ok_bind]
    dsimp only
    rw [BitVec.ofNat_toNat, BitVec.setWidth_eq, ih]
    have hregs : (fun j => if j ∈ is ∧ j.val ≠ 0 then s.regs j else
        (t.setRegister i.val (Xlen.toU64 (s.regs i))).state.regs j) =
        fun j => if j ∈ i :: is ∧ j.val ≠ 0 then s.regs j else t.state.regs j := by
      funext j
      change (if j ∈ is ∧ j.val ≠ 0 then s.regs j else
        if j.val = i.val ∧ i.val ≠ 0 then X.fromU64 (Xlen.toU64 (s.regs i)) else t.state.regs j) = _
      by_cases hji : j = i
      · subst hji
        by_cases hzero : j.val = 0 <;> simp [hzero]
      · have hval : j.val ≠ i.val := fun h => hji (Fin.ext h)
        simp [hji, hval]
    rw [hregs]
    rfl

/-! ## Memory -/

theorem length_read {m : Memory size} {addr len : ℕ} (h : addr + len ≤ size.val) :
    (m.read addr len).length = len := by
  rw [Memory.read, List.length_take, List.length_drop, List.length_ofFn]
  omega

theorem write_read_apply {m m' : Memory size} {addr len : ℕ} (i : Fin size.val) :
    m'.write addr (m.read addr len) i =
      if addr ≤ i.val ∧ i.val < addr + len then m i else m' i := by
  unfold Memory.write Memory.read
  by_cases hle : addr ≤ i.val
  · rw [if_pos hle, List.getElem?_take]
    by_cases hlt : i.val < addr + len
    · rw [if_pos (by omega), if_pos ⟨hle, hlt⟩, List.getElem?_drop, Nat.add_sub_cancel' hle]
      simp
    · rw [if_neg (by omega), if_neg fun h => hlt h.2]
      rfl
  · rw [if_neg hle, if_neg fun h => hle h.1]

/-- The loops agree on the sizes of their chunks, so every byte from the offset on is put back. -/
theorem loadChunks_memoryChunks {m m' : Memory size} {fuel offset : ℕ}
    (hfuel : size.val ≤ offset + fuel) :
    loadChunks m' fuel offset (memoryChunks m fuel offset) =
      ok (fun i => if offset ≤ i.val then m i else m' i) := by
  induction fuel generalizing m' offset with
  | zero =>
    refine congrArg ok (funext fun i => ?_)
    rw [if_neg (by omega)]
  | succ fuel ih =>
    unfold loadChunks memoryChunks
    by_cases hin : offset < size.val
    · rw [if_pos hin, if_pos hin]
      dsimp only
      set chunkSize := min bufferSize (size.val - offset) with hchunk
      have hpos : 0 < chunkSize := by
        rw [hchunk, bufferSize]
        omega
      have hle : offset + chunkSize ≤ size.val := by omega
      rw [readExact_append (length_read hle), ok_bind]
      rw [ih (by omega)]
      refine congrArg ok (funext fun i => ?_)
      rw [write_read_apply]
      split_ifs <;> first | rfl | omega
    · rw [if_neg hin]
      refine congrArg ok (funext fun i => ?_)
      rw [if_neg (by omega)]

/-! ## The round trip -/

/-- Loading a saved state puts back the `pc`, the registers and the memory, and nothing else. -/
theorem loadState_saveState {codec : Codec} {r t : Runner X n size} :
    loadState codec (saveState codec r) t =
      ok { t with
        state := { t.state with
          pc := r.state.pc
          regs := fun i => if i.val ≠ 0 then r.state.regs i else t.state.regs i }
        memory := r.memory } := by
  unfold loadState saveState
  rw [checkHeader_header, ok_bind]
  dsimp only
  rw [codec.decompress_compress, payload, readNat_u64, ok_bind]
  rw [readNat_u64, ok_bind]
  rw [loadRegisters_registerBytes, ok_bind]
  rw [loadChunks_memoryChunks (by omega), BitVec.ofNat_toNat, BitVec.setWidth_eq,
    Xlen.fromU64_toU64]
  simp only [List.mem_finRange, true_and]
  rfl

/-- Execution continues from the `pc` of one runner as it does on the other, whatever the library
is, and the parts of the state that a guest sees are equal. -/
structure ContinuesAs (t r : Runner X n size) : Prop where
  execution : ∀ lib : Library X n size,
    lib t.state t.memory (Xlen.toU64 t.state.pc) = lib r.state r.memory (Xlen.toU64 r.state.pc)
  regs : t.state.regs = r.state.regs
  memory : t.memory = r.memory
  instret : t.state.instret = r.state.instret
  csrs : t.state.csrs = r.state.csrs
  brk : t.state.brk = r.state.brk
  startBrk : t.state.startBrk = r.state.startBrk
  reservationAddr : t.state.reservationAddr = r.state.reservationAddr
  reservationValid : t.state.reservationValid = r.state.reservationValid

theorem continuesAs_iff {t r : Runner X n size} :
    ContinuesAs t r ↔ t.state = r.state ∧ t.memory = r.memory := by
  constructor
  · rintro ⟨hexecution, -, hmemory, -⟩
    -- the library that returns its arguments
    have h := hexecution fun s memory _ => (s, memory)
    exact ⟨congrArg Prod.fst h, hmemory⟩
  · rintro ⟨hstate, hmemory⟩
    constructor
    · intro lib
      rw [hstate, hmemory]
    all_goals first | exact hmemory | rw [hstate]

/-- The runner loaded into has already the parts of the state that are not put back. -/
structure AgreesOnRest (t r : Runner X n size) : Prop where
  x0 : ∀ i, i.val = 0 → t.state.regs i = r.state.regs i
  instret : t.state.instret = r.state.instret
  suspender : t.state.suspender = r.state.suspender
  reservationAddr : t.state.reservationAddr = r.state.reservationAddr
  reservationValid : t.state.reservationValid = r.state.reservationValid
  hasExited : t.state.hasExited = r.state.hasExited
  exitCode : t.state.exitCode = r.state.exitCode
  brk : t.state.brk = r.state.brk
  startBrk : t.state.startBrk = r.state.startBrk
  tracer : t.state.tracer = r.state.tracer
  csrs : t.state.csrs = r.state.csrs

/-- A state that was saved and loaded continues as the saved one exactly if the runner it was loaded
into already agreed with that one on everything that is not put back. -/
theorem roundTrip_continues_iff {codec : Codec} {r t : Runner X n size} :
    (∃ t', loadState codec (saveState codec r) t = ok t' ∧ ContinuesAs t' r) ↔
      AgreesOnRest t r := by
  rw [loadState_saveState]
  constructor
  · rintro ⟨t', h, hcontinues⟩
    cases h
    obtain ⟨hstate, -⟩ := continuesAs_iff.1 hcontinues
    obtain ⟨hregs, -, hinstret, hsuspender, haddr, hvalid, hexited, hcode, hbrk, hstart, htracer,
      hcsrs⟩ := (RvState.ext_iff).1 hstate
    refine ⟨fun i hi => ?_, hinstret, hsuspender, haddr, hvalid, hexited, hcode, hbrk, hstart,
      htracer, hcsrs⟩
    have hreg := congrFun hregs i
    dsimp only at hreg
    rwa [if_neg (not_not.2 hi)] at hreg
  · intro hrest
    refine ⟨_, rfl, continuesAs_iff.2 ⟨(RvState.ext_iff).2 ⟨funext fun i => ?_, rfl, hrest.instret,
      hrest.suspender, hrest.reservationAddr, hrest.reservationValid, hrest.hasExited,
      hrest.exitCode, hrest.brk, hrest.startBrk, hrest.tracer, hrest.csrs⟩, rfl⟩⟩
    dsimp only
    split_ifs with hi
    · rfl
    · exact hrest.x0 i (not_not.1 hi)

/-- The compressor that does nothing. -/
def storing : Codec := ⟨id, id, fun _ => rfl⟩

/-- A runner that has retired seven instructions. -/
def busyRunner : Runner .rv64 .i smallMemory :=
  { oneSegmentRunner 0x1000 4 8 with
    state := { (oneSegmentRunner 0x1000 4 8).state with instret := 7 } }

/-- Loading its state into a fresh runner loses the instruction count. -/
theorem roundTrip_loses_instret :
    ∃ t', loadState storing (saveState storing busyRunner) (oneSegmentRunner 0x1000 4 8) = ok t' ∧
      busyRunner.state.instret = 7 ∧ t'.state.instret = 0 ∧ ¬ ContinuesAs t' busyRunner := by
  refine ⟨_, loadState_saveState, rfl, rfl, fun h => ?_⟩
  exact absurd h.instret (by decide)

end Rvr.Snapshot
