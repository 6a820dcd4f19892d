import Rvr.Runner.Runner
import Rvr.Verify.Elf.Ranges

/-!
# Loading segments into guest memory

The parser does not know the size of guest memory, a runner is created for any image and any size,
and `copy_from` checks its bound only with debug assertions.  So without them segments are copied
inside guest memory exactly if the file data of every loadable header ends inside it.
-/

namespace Rvr

open Outcome Elf

variable {X : Xlen} {n : RegCount} {size : MemSize}

/-! ## Created runners -/

variable {memorySize : ℕ}

theorem GuardedMemory.checkSize_eq_ok {size : MemSize} (h : checkSize memorySize = ok size) :
    size.val = memorySize := by
  unfold checkSize at h
  split_ifs at h
  cases h
  rfl

variable {host : Host}

theorem GuardedMemory.new_eq_ok {size : MemSize} (h : GuardedMemory.new host memorySize = ok size) :
    size.val = memorySize := by
  obtain ⟨size', hsize, h⟩ := bind_eq_ok.1 h
  split_ifs at h
  cases h
  exact checkSize_eq_ok hsize

theorem GuardedMemory.newAtFixed_eq_ok {fixedAddr : U64}
    {size : MemSize} (h : GuardedMemory.newAtFixed host fixedAddr memorySize = ok size) :
    size.val = memorySize := by
  obtain ⟨size', hsize, h⟩ := bind_eq_ok.1 h
  obtain ⟨-, h⟩ := guard_eq_ok.1 h
  obtain ⟨_, -, h⟩ := bind_eq_ok.1 h
  cases h
  exact checkSize_eq_ok hsize

/-- What creation says of a runner: its image is that of the file, its memory has the given size. -/
structure BoxedRunner.For (b : BoxedRunner) (elfData : Slice) (memorySize : ℕ) : Prop where
  image : ElfImage.parse b.X elfData = ok b.runner.elfImage
  size : b.size.val = memorySize

theorem createTypedRunner_for {kind : RunnerKind} {elfData : Slice} {b : BoxedRunner}
    (h : createTypedRunner X host kind elfData size = ok b) : b.For elfData size.val := by
  obtain ⟨image, himage, h⟩ := bind_eq_ok.1 h
  cases h
  exact ⟨mapErr_eq_ok.1 himage, rfl⟩

theorem newFixedAddrRunner_for {fixed : FixedAddresses} {elfData : Slice}
    {image : ElfImage X} {b : BoxedRunner} (himage : ElfImage.parse X elfData = ok image)
    (h : newFixedAddrRunner host fixed image memorySize = ok b) : b.For elfData memorySize := by
  obtain ⟨_, -, h⟩ := bind_eq_ok.1 h
  obtain ⟨size, hsize, h⟩ := bind_eq_ok.1 h
  cases h
  exact ⟨himage, GuardedMemory.newAtFixed_eq_ok hsize⟩

theorem loadWithMemory_for {api : RvApi} {elfData : Slice}
    {b : BoxedRunner} (h : loadWithMemory host api elfData memorySize = ok b) :
    b.For elfData memorySize := by
  unfold loadWithMemory at h
  split at h
  · obtain ⟨xlen, -, h⟩ := bind_eq_ok.1 h
    split_ifs at h
    all_goals
      obtain ⟨image, himage, h⟩ := bind_eq_ok.1 h
      exact newFixedAddrRunner_for (mapErr_eq_ok.1 himage) h
  · obtain ⟨memory, hmemory, h⟩ := bind_eq_ok.1 h
    obtain ⟨xlen, -, h⟩ := bind_eq_ok.1 h
    rw [← GuardedMemory.new_eq_ok hmemory]
    split_ifs at h
    all_goals exact createTypedRunner_for h

/-! ## Copying -/

namespace Runner

/-- The file data of a segment is inside guest memory. -/
def Inside (size : MemSize) (seg : MemorySegment X) : Prop :=
  seg.virtualStart.toNat + seg.data.length ≤ size.val

/-- Without debug assertions nothing is refused. -/
theorem copySegments_ne_panic {memory : Memory size} {segs : List (MemorySegment X)} :
    copySegments false memory segs ≠ panic := by
  induction segs generalizing memory with
  | nil => exact (returns_ok _).ne_panic
  | cons seg rest ih =>
    refine bind_ne_panic ?_ fun memory' _ => ih
    unfold Memory.copyFrom
    rw [if_neg Bool.false_ne_true]
    split_ifs with hin
    · exact (returns_ok _).ne_panic
    · intro h
      cases h

/-- With debug assertions the first segment that does not fit is refused. -/
theorem copySegments_eq_panic {memory : Memory size} {segs : List (MemorySegment X)}
    {seg : MemorySegment X} (hmem : seg ∈ segs) (hout : ¬ Inside size seg) :
    copySegments true memory segs = panic := by
  induction segs generalizing memory with
  | nil => cases hmem
  | cons first rest ih =>
    unfold copySegments Memory.copyFrom
    rw [Xlen.toNat_toU64]
    by_cases hin : first.virtualStart.toNat + first.data.length ≤ size.val
    · rw [if_pos hin]
      refine ih ?_
      rcases List.mem_cons.1 hmem with rfl | hrest
      · exact absurd hin hout
      · exact hrest
    · rw [if_neg hin]
      rfl

theorem loadSegments_eq_panic {debug : Bool} {r : Runner X n size} :
    r.loadSegments debug = panic ↔ copySegments debug r.memory.clear r.elfImage.memorySegments =
      panic := by
  unfold loadSegments
  rw [bind_eq_panic, or_iff_left]
  rintro ⟨memory, -, h⟩
  cases h

end Runner

/-- For a created runner, at any time: its segments are loaded inside guest memory or the load is
refused exactly if there are debug assertions or the file data of every loadable header ends in
memory. -/
theorem loadSegments_contained_iff {host : Host} {api : RvApi} {elfData : Slice} {memorySize : ℕ}
    {b : BoxedRunner} {elf : ElfFile b.X} {debug : Bool} {r : Runner b.X b.n b.size}
    (hcreated : loadWithMemory host api elfData memorySize = ok b)
    (helf : ElfFile.parse b.X elfData = ok elf) (himage : r.elfImage = b.runner.elfImage) :
    (r.loadSegments debug = panic ∨ ∀ seg ∈ r.elfImage.memorySegments,
        seg.virtualStart.toNat + seg.data.length ≤ memorySize) ↔
      debug = true ∨ ∀ phdr ∈ loadable elf, phdr.vaddr.toNat + phdr.filesz.toNat ≤ memorySize := by
  obtain ⟨hparse, rfl⟩ := loadWithMemory_for hcreated
  obtain ⟨elf', helf', hvalidated, hsegments⟩ := parse_eq_ok.1 hparse
  obtain rfl : elf = elf' := Outcome.ok.inj (helf.symm.trans helf')
  -- the segments are those of the loadable headers
  have hinside : (∀ seg ∈ r.elfImage.memorySegments, Runner.Inside b.size seg) ↔
      ∀ phdr ∈ loadable elf, phdr.vaddr.toNat + phdr.filesz.toNat ≤ b.size.val := by
    rw [himage, hsegments, List.forall_mem_map]
    refine forall₂_congr fun phdr hphdr => ?_
    unfold Runner.Inside
    rw [length_segmentOf (hvalidated.valid phdr hphdr)]
    rfl
  refine Iff.trans ?_ (or_congr_right hinside)
  rw [Runner.loadSegments_eq_panic]
  cases debug with
  | false => exact or_congr_left (iff_of_false Runner.copySegments_ne_panic Bool.false_ne_true)
  | true =>
    refine iff_of_true ?_ (.inl rfl)
    by_contra hcon
    obtain ⟨hnot, hout⟩ := not_or.1 hcon
    refine hout fun seg hmem => ?_
    by_contra hover
    exact hnot (Runner.copySegments_eq_panic hmem hover)

/-! ## Two files -/

/-- A host that grants every request. -/
def grantingHost : Host where
  mmap := fun _ => true
  mmapFixed := fun _ _ => .mapped
  fresh := fun _ _ => 0
  dataBuffer := 0x10000
  pcBuffer := 0x20000
  addrBitmap := 0x30000
  diffBuffer := 0x40000

/-- A library without tracer that does not count instructions. -/
def plainApi : RvApi := ⟨.none, .off, none⟩

/-- Eight KiB of guest memory. -/
def smallMemory : MemSize := ⟨0x2000, by decide, by decide⟩

/-- The runner for a file with one segment. -/
def oneSegmentRunner (vaddr filesz memsz : U64) : Runner .rv64 .i smallMemory :=
  Runner.new .typed (oneSegmentImage vaddr filesz memsz) (grantingHost.fresh smallMemory)

theorem loadWithMemory_oneSegment {vaddr filesz memsz : U64}
    (hxlen : ElfFile.getElfXlen (oneSegment vaddr.toNat filesz.toNat memsz.toNat) = ok 64)
    (hparse : ElfImage.parse .rv64 (oneSegment vaddr.toNat filesz.toNat memsz.toNat) =
      ok (oneSegmentImage vaddr filesz memsz)) :
    loadWithMemory grantingHost plainApi (oneSegment vaddr.toNat filesz.toNat memsz.toNat) 0x2000 =
      ok ⟨oneSegmentRunner vaddr filesz memsz⟩ := by
  have hsize : GuardedMemory.new grantingHost 0x2000 = ok smallMemory := rfl
  have hregs : (oneSegmentImage vaddr filesz memsz).regCount = .i := by
    have hrve : (oneSegmentImage vaddr filesz memsz).isRve = false := by
      change decide ((0 : BitVec 32) &&& 0x8 ≠ 0) = false
      decide
    rw [ElfImage.regCount, hrve]
    rfl
  unfold loadWithMemory plainApi createRunnerImpl createTypedRunner
  rw [hsize, ok_bind, hxlen, mapErr, ok_bind, hparse, mapErr, ok_bind, hregs]
  rfl

/-- A segment inside memory. -/
theorem loadSegments_contained_iff_oneSegment :
    ((oneSegmentRunner 0x1000 4 8).loadSegments false = panic ∨
        ∀ seg ∈ (oneSegmentRunner 0x1000 4 8).elfImage.memorySegments,
          seg.virtualStart.toNat + seg.data.length ≤ 0x2000) ↔
      false = true ∨ ∀ phdr ∈ loadable (oneSegmentFile 0x1000 4 8),
        phdr.vaddr.toNat + phdr.filesz.toNat ≤ 0x2000 := by
  have hcreated := @loadWithMemory_oneSegment 0x1000 4 8 (by decide +kernel) (by decide +kernel)
  have hfile : ElfFile.parse .rv64 (oneSegment 0x1000 4 8) = ok (oneSegmentFile 0x1000 4 8) := by
    decide +kernel
  exact @loadSegments_contained_iff _ _ _ _ ⟨oneSegmentRunner 0x1000 4 8⟩ _ false
    (oneSegmentRunner 0x1000 4 8) hcreated hfile rfl

/-- A segment past the end of memory: the runner is created, and without debug assertions the load
writes outside guest memory. -/
theorem loadSegments_writesOutside :
    loadWithMemory grantingHost plainApi (oneSegment 0x10000 4 8) 0x2000 =
        ok ⟨oneSegmentRunner 0x10000 4 8⟩ ∧
      Runner.copySegments false ((oneSegmentRunner 0x10000 4 8).memory.clear)
        (oneSegmentRunner 0x10000 4 8).elfImage.memorySegments = err .writesOutside ∧
      ¬ ((oneSegmentRunner 0x10000 4 8).loadSegments false = panic ∨
        ∀ seg ∈ (oneSegmentRunner 0x10000 4 8).elfImage.memorySegments,
          seg.virtualStart.toNat + seg.data.length ≤ 0x2000) := by
  refine ⟨@loadWithMemory_oneSegment 0x10000 4 8 (by decide +kernel) (by decide +kernel), rfl, ?_⟩
  rw [Runner.loadSegments_eq_panic, or_iff_right Runner.copySegments_ne_panic]
  intro h
  have hseg := h _ (List.mem_singleton_self _)
  revert hseg
  decide +kernel

end Rvr
