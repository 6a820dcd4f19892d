import Rvr.Emit.Syscalls
import Rvr.Lib.Arena
import Rvr.Lib.Layout
import Rvr.Lib.Trace

/-!
# The program break

A guest calls `rv_sys_brk` and `rv_sys_mmap` in any order.  Both move one pointer, the break, and
the regions that `rv_sys_mmap` returns are meant to be handed out as from an arena.  They are as
long as the guest does not lower the break into a mapped region and no rounded length wraps
(`Heap.isArena_call`); otherwise they are not.
-/

namespace Rvr

open Syscalls

variable {X : Xlen} {n : RegCount} {cfg : Syscalls.Config}

/-- A call of the guest that concerns the break. -/
inductive HeapCall (X : Xlen)
  | brk (addr : X.Reg)
  | mmap (addr len prot flags fd off : X.Reg)

/-- A guest with the regions that its successful calls of `rv_sys_mmap` returned, the last one
first. -/
structure Heap (X : Xlen) (n : RegCount) (cfg : Syscalls.Config) where
  state : RvState X n
  memory : Memory cfg.size
  mapped : List Arena.Region
  stopped : Option Fault

namespace Heap

/-- A call.  Nothing is called after a call that did not return. -/
def call (h : Heap X n cfg) (c : HeapCall X) : Heap X n cfg :=
  match h.stopped, c with
  | some _, _ => h
  | none, .brk addr => { h with state := (rvSysBrk cfg h.state addr).1 }
  | none, .mmap addr len prot flags fd off =>
    match rvSysMmap cfg h.state h.memory addr len prot flags fd off with
    | (state, .ok (memory, returned)) =>
      { h with
        state
        memory
        mapped := if returned = enomem then h.mapped else ⟨returned.toNat, len.toNat⟩ :: h.mapped }
    | (state, .error fault) => { h with state, stopped := some fault }

/-- A guest that has made a list of calls. -/
def run (h : Heap X n cfg) (calls : List (HeapCall X)) : Heap X n cfg := Trace.run call h calls

/-- The break is between its first value and the end of memory, and the mapped regions lie in memory
and do not overlap. -/
structure Sound (h : Heap X n cfg) : Prop where
  startBrk_le : h.state.startBrk ≤ h.state.brk
  brk_lt : h.state.brk.toNat < cfg.size.val
  inside : ∀ r ∈ h.mapped, r.stop ≤ cfg.size.val
  pairwise_disjoint : h.mapped.Pairwise fun r s => Disjoint r.bytes s.bytes

/-- The break is not set below the end of a mapped region. -/
def BrkKeeps (h : Heap X n cfg) (addr : X.Reg) : Prop :=
  addr = 0 ∨ addr < h.state.startBrk ∨ cfg.size.val ≤ addr.toNat ∨
    ∀ r ∈ h.mapped, r.stop ≤ addr.toNat

/-- The new break, rounded to pages, is a machine word. -/
def MmapKeeps (h : Heap X n cfg) (len : X.Reg) : Prop :=
  Layout.alignUp h.state.brk.toNat 4096 + Layout.alignUp len.toNat 4096 < 2 ^ X.value

/-- The calls that hand out regions as an arena does. -/
def Keeps (h : Heap X n cfg) : HeapCall X → Prop
  | .brk addr => h.BrkKeeps addr
  | .mmap _ len _ _ _ _ =>
    cfg.size.val ≤ (alignUp h.state.brk page + alignUp len page).toNat ∨ h.MmapKeeps len

/-! ## Rounding to pages -/

theorem toNat_alignUp_page (v : X.Reg) :
    (alignUp v page).toNat = (v.toNat + 4095) % 2 ^ X.value / 4096 * 4096 := by
  have hmask : ~~~(page - 1 : X.Reg) = BitVec.allOnes X.value <<< 12 := by cases X <;> decide
  have hpage : (page : X.Reg) - 1 = 4095#X.value := by cases X <;> decide
  have hsmall : 4095 % 2 ^ X.value = 4095 := by cases X <;> decide
  have hassoc : v + page - 1 = v + (page - 1) := by
    rw [BitVec.sub_eq_add_neg, BitVec.sub_eq_add_neg, BitVec.add_assoc]
  change _ = _ / 2 ^ 12 * 2 ^ 12
  rw [alignUp, hmask, Word.toNat_and_highMask, hassoc, hpage, BitVec.toNat_add, BitVec.toNat_ofNat,
    hsmall]

theorem le_alignUp (v : ℕ) : v ≤ Layout.alignUp v 4096 := by
  unfold Layout.alignUp
  omega

/-- The rounding is the one of the numbers, unless it wraps. -/
theorem toNat_alignUp_page_of_lt {v : X.Reg} (h : Layout.alignUp v.toNat 4096 < 2 ^ X.value) :
    (alignUp v page).toNat = Layout.alignUp v.toNat 4096 := by
  rw [toNat_alignUp_page]
  unfold Layout.alignUp at h ⊢
  have hpages : ∃ k, 2 ^ X.value = 4096 * k := by
    cases X with
    | rv32 => exact ⟨2 ^ 20, rfl⟩
    | rv64 => exact ⟨2 ^ 52, rfl⟩
  rw [Nat.mod_eq_of_lt (by omega)]
  rfl

/-- An error is not a page. -/
theorem alignUp_page_ne_enomem (v : X.Reg) : alignUp v page ≠ enomem := by
  intro h
  have hpage := toNat_alignUp_page v
  have henomem : (enomem : X.Reg).toNat % 4096 = 4084 := by cases X <;> decide
  rw [h] at hpage
  omega

/-! ## What a call does -/

theorem toNat_mask (cfg : Syscalls.Config) : cfg.mask.toNat = cfg.size.val - 1 := by
  have hle := Nat.pow_le_pow_right (n := 2) (by omega) cfg.memoryBits_le
  rw [Syscalls.Config.mask, BitVec.toNat_ofNat, Nat.mod_eq_of_lt (by omega)]
  rfl

variable {addr : X.Reg}

theorem and_mask (h : addr.toNat < cfg.size.val) :
    X.fromU64 (Xlen.toU64 addr &&& cfg.mask) = addr := by
  have hand : Xlen.toU64 addr &&& cfg.mask = Xlen.toU64 addr := by
    apply BitVec.eq_of_toNat_eq
    rw [BitVec.toNat_and, Xlen.toNat_toU64, toNat_mask]
    exact (Nat.and_two_pow_sub_one_eq_mod _ _).trans (Nat.mod_eq_of_lt h)
  rw [hand, Xlen.fromU64_toU64]

/-- An address in memory is its own translation, but in one mode it may be rejected. -/
theorem physAddr_of_lt {addr : X.Reg} (h : addr.toNat < cfg.size.val) :
    physAddr cfg addr = .ok addr ∨
      cfg.addressMode = .bounds ∧ ∃ fault, physAddr cfg addr = .error fault := by
  have hle : Xlen.toU64 addr ≤ cfg.mask := by
    rw [BitVec.le_def, Xlen.toNat_toU64, toNat_mask]
    omega
  unfold physAddr
  cases hmode : cfg.addressMode with
  | unchecked => exact .inl (if_pos hle)
  | wrap => exact .inl (congrArg Except.ok (and_mask h))
  | bounds =>
    dsimp only
    rw [and_mask h]
    split_ifs
    · exact .inr ⟨rfl, _, rfl⟩
    · exact .inr ⟨rfl, _, rfl⟩
    · exact .inl rfl

variable {h : Heap X n cfg}

theorem call_of_stopped {c : HeapCall X} (hstopped : h.stopped ≠ none) :
    h.call c = h := by
  obtain ⟨fault, hfault⟩ := Option.ne_none_iff_exists.1 hstopped
  unfold call
  rw [← hfault]

theorem call_brk (hrunning : h.stopped = none) :
    h.call (.brk addr) = { h with state := (rvSysBrk cfg h.state addr).1 } := by
  unfold call
  rw [hrunning]

theorem call_mmap {len prot flags fd off : X.Reg} (hrunning : h.stopped = none) :
    h.call (.mmap addr len prot flags fd off) =
      match rvSysMmap cfg h.state h.memory addr len prot flags fd off with
      | (state, .ok (memory, returned)) =>
        { h with
          state
          memory
          mapped := if returned = enomem then h.mapped
            else ⟨returned.toNat, len.toNat⟩ :: h.mapped }
      | (state, .error fault) => { h with state, stopped := some fault } := by
  unfold call
  rw [hrunning]

theorem zero_of_le {m : Memory cfg.size} {ptr count : ℕ} (h : ptr + count ≤ cfg.size.val) :
    ∃ m', zero cfg m ptr count = .ok m' := ⟨_, if_pos h⟩

theorem rvSysMmap_of_le {s : RvState X n} {m : Memory cfg.size} {len prot flags fd off : X.Reg}
    (h : cfg.size.val ≤ (alignUp s.brk page + alignUp len page).toNat) :
    rvSysMmap cfg s m addr len prot flags fd off = (s, .ok (m, enomem)) :=
  if_neg (not_lt.2 h)

/-- The numbers that `rv_sys_mmap` computes, if nothing wraps. -/
theorem MmapKeeps.toNat_newBrk {len : X.Reg} (hkeeps : h.MmapKeeps len) :
    (alignUp h.state.brk page).toNat = Layout.alignUp h.state.brk.toNat 4096 ∧
      (alignUp len page).toNat = Layout.alignUp len.toNat 4096 ∧
      (alignUp h.state.brk page + alignUp len page).toNat =
        Layout.alignUp h.state.brk.toNat 4096 + Layout.alignUp len.toNat 4096 := by
  unfold MmapKeeps at hkeeps
  have hbrk := @toNat_alignUp_page_of_lt X h.state.brk (by omega)
  have hlen := @toNat_alignUp_page_of_lt X len (by omega)
  refine ⟨hbrk, hlen, ?_⟩
  rw [BitVec.toNat_add, hbrk, hlen, Nat.mod_eq_of_lt hkeeps]

/-- A successful call moves the break and returns the old one, rounded, or stops in the check of
addresses. -/
theorem rvSysMmap_of_keeps {h : Heap X n cfg} {addr len prot flags fd off : X.Reg}
    (hlt : (alignUp h.state.brk page + alignUp len page).toNat < cfg.size.val)
    (hkeeps : h.MmapKeeps len) :
    ∃ result, rvSysMmap cfg h.state h.memory addr len prot flags fd off =
        ({ h.state with brk := alignUp h.state.brk page + alignUp len page }, result) ∧
      ((∃ memory, result = .ok (memory, alignUp h.state.brk page)) ∨
        cfg.addressMode = .bounds ∧ ∃ fault, result = .error fault) := by
  obtain ⟨hbrk, hlen, hnew⟩ := hkeeps.toNat_newBrk
  refine ⟨_, if_pos hlt, ?_⟩
  rcases @physAddr_of_lt X cfg (alignUp h.state.brk page) (by omega) with hphys | ⟨hmode, f, hphys⟩
  · obtain ⟨memory, hzero⟩ := @zero_of_le cfg h.memory (alignUp h.state.brk page).toNat
      (alignUp len page).toNat (by omega)
    left
    refine ⟨memory, ?_⟩
    rw [hphys]
    exact congrArg (· >>= fun m => pure (m, alignUp h.state.brk page)) hzero
  · right
    refine ⟨hmode, f, ?_⟩
    rw [hphys]
    rfl

/-! ## The heap is an arena -/

/-- The break is the top of an arena inside memory from which the mapped regions were handed out,
and the guest was stopped, if at all, by a check of addresses. -/
structure Represents (h : Heap X n cfg) (a : Arena) : Prop where
  low : h.state.startBrk.toNat = a.low
  top : h.state.brk.toNat = a.top
  mapped : h.mapped = a.regions
  top_lt : a.top < cfg.size.val
  stopped : h.stopped ≠ none → cfg.addressMode = .bounds

/-- The heap represents some arena. -/
def IsArena (h : Heap X n cfg) : Prop := ∃ a, h.Represents a

theorem Represents.sound {a : Arena} (hrep : h.Represents a) : h.Sound where
  startBrk_le := by
    rw [BitVec.le_def, hrep.low, hrep.top]
    exact a.low_le_top
  brk_lt := by
    rw [hrep.top]
    exact hrep.top_lt
  inside := by
    intro r hr
    rw [hrep.mapped] at hr
    exact (a.stop_le_top r hr).trans hrep.top_lt.le
  pairwise_disjoint := by
    rw [hrep.mapped]
    exact a.pairwise_disjoint

/-- A call of `rv_sys_brk` moves the top of the arena. -/
theorem isArena_brk {a : Arena} (hrep : h.Represents a) (hkeeps : h.BrkKeeps addr) :
    IsArena { h with state := (rvSysBrk cfg h.state addr).1 } := by
  unfold rvSysBrk
  by_cases hzero : addr = 0
  · rw [if_pos hzero]
    exact ⟨a, hrep⟩
  by_cases haccepted : h.state.startBrk ≤ addr ∧ addr.toNat < cfg.size.val
  · rw [if_neg hzero, if_pos haccepted]
    obtain ⟨hstart, hlt⟩ := haccepted
    have habove : ∀ r ∈ h.mapped, r.stop ≤ addr.toNat := by
      rcases hkeeps with h0 | hlow | hhigh | habove
      · exact absurd h0 hzero
      · exact absurd hstart (BitVec.not_le.2 hlow)
      · exact absurd hlt (not_lt.2 hhigh)
      · exact habove
    have hlow : a.low ≤ addr.toNat := by
      rw [← hrep.low]
      exact BitVec.le_def.1 hstart
    refine ⟨a.moveTop addr.toNat hlow ?_, hrep.low, rfl, hrep.mapped, hlt, hrep.stopped⟩
    rwa [← hrep.mapped]
  · rw [if_neg hzero, if_neg haccepted]
    exact ⟨a, hrep⟩

/-- A call of `rv_sys_mmap` hands out a region at the top of the arena, or is refused. -/
theorem isArena_mmap {a : Arena} {len prot flags fd off : X.Reg}
    (hrep : h.Represents a) (hrunning : h.stopped = none)
    (hkeeps : h.Keeps (.mmap addr len prot flags fd off)) :
    (h.call (.mmap addr len prot flags fd off)).IsArena := by
  rw [call_mmap hrunning]
  by_cases hlt : (alignUp h.state.brk page + alignUp len page).toNat < cfg.size.val
  · have hkeeps : h.MmapKeeps len := hkeeps.resolve_left (not_le.2 hlt)
    obtain ⟨hbrk, -, hnew⟩ := hkeeps.toNat_newBrk
    have hbrk_le := le_alignUp h.state.brk.toNat
    have hlen_le := le_alignUp len.toNat
    have hlow := a.low_le_top
    have htop := hrep.top
    obtain ⟨result, hcall, ⟨memory, rfl⟩ | ⟨hmode, fault, rfl⟩⟩ :=
      @rvSysMmap_of_keeps X n cfg h addr len prot flags fd off hlt hkeeps
    · rw [hcall]
      dsimp only
      rw [if_neg (alignUp_page_ne_enomem _)]
      refine ⟨a.allocate ⟨(alignUp h.state.brk page).toNat, len.toNat⟩
        (alignUp h.state.brk page + alignUp len page).toNat (by dsimp only; omega)
        (by unfold Arena.Region.stop; dsimp only; omega), hrep.low, rfl, ?_, hlt, fun hstop => ?_⟩
      · exact congrArg _ hrep.mapped
      · exact absurd hrunning hstop
    · -- the break has moved although the call does not return
      rw [hcall]
      refine ⟨a.moveTop (alignUp h.state.brk page + alignUp len page).toNat (by omega) ?_, hrep.low,
        rfl, hrep.mapped, hlt, fun _ => hmode⟩
      intro r hr
      have hstop := a.stop_le_top r hr
      omega
  · rw [rvSysMmap_of_le (not_lt.1 hlt)]
    dsimp only
    rw [if_pos rfl]
    exact ⟨a, hrep⟩

/-- Each call that keeps to the condition is a step of the arena. -/
theorem isArena_call {c : HeapCall X} (harena : h.IsArena) (hkeeps : h.Keeps c) :
    (h.call c).IsArena := by
  obtain ⟨a, hrep⟩ := harena
  by_cases hrunning : h.stopped = none
  · cases c with
    | brk addr =>
      rw [call_brk hrunning]
      exact isArena_brk hrep hkeeps
    | mmap addr len prot flags fd off => exact isArena_mmap hrep hrunning hkeeps
  · rw [call_of_stopped hrunning]
    exact ⟨a, hrep⟩

/-- A run of calls that keep to the condition represents an arena to its end. -/
theorem isArena_run {calls : List (HeapCall X)} (harena : h.IsArena)
    (heach : Trace.Each call Keeps h calls) : (h.run calls).IsArena :=
  Trace.run_induction (fun _ _ => isArena_call) harena heach

/-- A guest before its first call. -/
def start (state : RvState X n) (memory : Memory cfg.size) : Heap X n cfg :=
  ⟨state, memory, [], none⟩

theorem represents_start {state : RvState X n} {memory : Memory cfg.size}
    (hbrk : state.startBrk = state.brk) (hlt : state.brk.toNat < cfg.size.val) :
    (start state memory).Represents (Arena.empty state.brk.toNat) where
  low := congrArg BitVec.toNat hbrk
  top := rfl
  mapped := rfl
  top_lt := hlt
  stopped := fun hstopped => absurd rfl hstopped

/-- In a run in which no call lowers the break into a mapped region and no rounded break or length
wraps, the break stays in memory and the mapped regions lie in memory apart from each other. -/
theorem run_sound {state : RvState X n} {memory : Memory cfg.size} {calls : List (HeapCall X)}
    (hbrk : state.startBrk = state.brk) (hlt : state.brk.toNat < cfg.size.val)
    (heach : Trace.Each call Keeps (start state memory) calls) :
    ((start state memory).run calls).Sound := by
  obtain ⟨a, hrep⟩ := isArena_run ⟨_, represents_start hbrk hlt⟩ heach
  exact hrep.sound

/-! ## Runs that are not sound -/

/-- The memory of 64 KiB that is accessed without checks. -/
def smallConfig : Syscalls.Config := ⟨16, by decide, .unchecked⟩

/-- The memory of 4 GiB that is accessed without checks. -/
def fullConfig : Syscalls.Config := ⟨32, by decide, .unchecked⟩

/-- A guest with the break at `0x1000`. -/
def guest (X : Xlen) (cfg : Syscalls.Config) : Heap X .i cfg :=
  start { RvState.new none .none with brk := 0x1000, startBrk := 0x1000 } fun _ => 0

/-- A call of `rv_sys_mmap` for a length. -/
def mapCall (len : X.Reg) : HeapCall X := .mmap 0 len 0 0 0 0

/-- Two pages one after the other. -/
theorem run_sound_twoPages :
    Trace.Each call Keeps (guest .rv64 smallConfig) [mapCall 0x1000, mapCall 0x800] ∧
      ((guest .rv64 smallConfig).run [mapCall 0x1000, mapCall 0x800]).mapped =
        [⟨0x2000, 0x800⟩, ⟨0x1000, 0x1000⟩] ∧
      ((guest .rv64 smallConfig).run [mapCall 0x1000, mapCall 0x800]).Sound := by
  have heach : Trace.Each call Keeps (guest .rv64 smallConfig) [mapCall 0x1000, mapCall 0x800] :=
    ⟨.inr (show _ < _ by decide +kernel), .inr (show _ < _ by decide +kernel), trivial⟩
  exact ⟨heach, by decide +kernel, run_sound rfl (by decide) heach⟩

/-- A length that rounds to zero is mapped past the end of memory; a length that wraps sets the
break below its first value; and a page that is mapped after the break was lowered is one that was
mapped before. -/
theorem run_not_sound :
    ((guest .rv64 smallConfig).run [mapCall (-1)]).mapped = [⟨0x1000, 2 ^ 64 - 1⟩] ∧
      ¬ ((guest .rv64 smallConfig).run [mapCall (-1)]).Sound ∧
      ((guest .rv32 fullConfig).run [mapCall 0xFFFFF000]).state.brk = 0 ∧
      ¬ ((guest .rv32 fullConfig).run [mapCall 0xFFFFF000]).Sound ∧
      ((guest .rv64 smallConfig).run [mapCall 0x1000, .brk 0x1000, mapCall 0x1000]).mapped =
        [⟨0x1000, 0x1000⟩, ⟨0x1000, 0x1000⟩] ∧
      ¬ ((guest .rv64 smallConfig).run [mapCall 0x1000, .brk 0x1000, mapCall 0x1000]).Sound := by
  have hhuge : ((guest .rv64 smallConfig).run [mapCall (-1)]).mapped = [⟨0x1000, 2 ^ 64 - 1⟩] := by
    decide +kernel
  have hwraps : ((guest .rv32 fullConfig).run [mapCall 0xFFFFF000]).state.brk = 0 := by
    decide +kernel
  have htwice : ((guest .rv64 smallConfig).run
      [mapCall 0x1000, .brk 0x1000, mapCall 0x1000]).mapped =
        [⟨0x1000, 0x1000⟩, ⟨0x1000, 0x1000⟩] := by
    decide +kernel
  refine ⟨hhuge, fun hsound => ?_, hwraps, fun hsound => ?_, htwice, fun hsound => ?_⟩
  · have hinside := hsound.inside
    exact absurd (hinside _ (List.mem_singleton.2 rfl)) (by decide)
  · have hle := hsound.startBrk_le
    exact absurd hle (by decide +kernel)
  · have hdisjoint := hsound.pairwise_disjoint
    have hself := List.rel_of_pairwise_cons hdisjoint (List.mem_singleton.2 rfl)
    have hmem : 0x1000 ∈ (⟨0x1000, 0x1000⟩ : Arena.Region).bytes := ⟨le_rfl, by decide⟩
    exact Set.disjoint_left.1 hself hmem hmem

end Heap

end Rvr
