import Rvr.Verify.Elf.Panics

/-!
# The segments of an image

The validation compares header fields in 64-bit arithmetic.  It does not compare the size in the
file with the size in memory, and the end of a segment is cut to the register width afterwards.  So
the segments of an image are what its users take them for exactly if every loadable header fits its
file data into its memory and its memory into the address space.
-/

namespace Rvr

open LittleEndian

variable {X : Xlen}

/-- The addresses of a segment. -/
def MemorySegment.range (seg : MemorySegment X) : Set ℕ :=
  Set.Ico seg.virtualStart.toNat seg.virtualEnd.toNat

/-- The segment is not empty and its file data fits into it. -/
def MemorySegment.Sound (seg : MemorySegment X) : Prop :=
  seg.virtualStart.toNat < seg.virtualEnd.toNat ∧
    seg.data.length ≤ seg.virtualEnd.toNat - seg.virtualStart.toNat

/-- Sound segments that do not share an address. -/
structure ElfImage.Sound (image : ElfImage X) : Prop where
  segments : ∀ seg ∈ image.memorySegments, seg.Sound
  disjoint : image.memorySegments.Pairwise fun seg seg' => Disjoint seg.range seg'.range

namespace Elf

open Outcome

variable {data : Slice}

/-! ## The overlap check -/

/-- The memory of one header ends before the other starts. -/
def Apart (phdr phdr' : ProgramHeader X) : Prop :=
  phdr.vaddr.toNat + phdr.memsz.toNat ≤ phdr'.vaddr.toNat ∨
    phdr'.vaddr.toNat + phdr'.memsz.toNat ≤ phdr.vaddr.toNat

variable {phdr : ProgramHeader X}

theorem checkOverlapsWith_eq_ok {rest : List (ProgramHeader X)}
    (hvalid : ∀ phdr ∈ rest, phdr.Valid data) :
    checkOverlapsWith phdr.vaddr.toNat (phdr.vaddr.toNat + phdr.memsz.toNat) rest = ok () ↔
      ∀ phdr' ∈ rest, Apart phdr phdr' := by
  induction rest with
  | nil => simp [checkOverlapsWith]
  | cons segJ rest ih =>
    have hsum := (hvalid segJ List.mem_cons_self).2
    rw [checkOverlapsWith, Xlen.toNat_toU64, Xlen.toNat_toU64, add_of_lt hsum, ok_bind, guard_eq_ok,
      not_not, ih fun phdr h => hvalid phdr (List.mem_cons_of_mem _ h), List.forall_mem_cons]
    rfl

theorem checkOverlaps_eq_ok {phdrs : List (ProgramHeader X)}
    (hvalid : ∀ phdr ∈ phdrs, phdr.Valid data) :
    checkOverlaps phdrs = ok () ↔ phdrs.Pairwise Apart := by
  induction phdrs with
  | nil => simp [checkOverlaps]
  | cons segI rest ih =>
    have hsum := (hvalid segI List.mem_cons_self).2
    have hrest : ∀ phdr ∈ rest, phdr.Valid data :=
      fun phdr h => hvalid phdr (List.mem_cons_of_mem _ h)
    rw [checkOverlaps, Xlen.toNat_toU64, Xlen.toNat_toU64, add_of_lt hsum, ok_bind, bind_eq_ok,
      List.pairwise_cons, ← ih hrest, ← checkOverlapsWith_eq_ok hrest]
    constructor
    · rintro ⟨_, hwith, hothers⟩
      exact ⟨hwith, hothers⟩
    · rintro ⟨hwith, hothers⟩
      exact ⟨(), hwith, hothers⟩

/-! ## Segments of headers -/

/-- The file data fits into the memory of the segment, and that into the address space. -/
def ProgramHeader.Fits (phdr : ProgramHeader X) : Prop :=
  phdr.filesz.toNat ≤ phdr.memsz.toNat ∧ phdr.vaddr.toNat + phdr.memsz.toNat < 2 ^ X.value

variable (h : phdr.Valid data)
include h

theorem length_segmentOf :
    (segmentOf data phdr).data.length = phdr.filesz.toNat := by
  have hin : phdr.offset.toNat + phdr.filesz.toNat ≤ data.bytes.length := h.1
  change ((data.bytes.drop _).take _).length = _
  rw [List.length_take, List.length_drop]
  omega

theorem toNat_virtualEnd_segmentOf :
    (segmentOf data phdr).virtualEnd.toNat =
      (phdr.vaddr.toNat + phdr.memsz.toNat) % 2 ^ X.value := by
  change (X.fromU64 (BitVec.ofNat 64 _)).toNat = _
  rw [Xlen.fromU64, BitVec.toNat_setWidth, BitVec.toNat_ofNat, Nat.mod_eq_of_lt h.2]

/-- An end that does not fit is cut to an address before the start. -/
theorem sound_segmentOf_iff (hpos : 0 < phdr.memsz.toNat) : (segmentOf data phdr).Sound ↔
    phdr.Fits := by
  unfold MemorySegment.Sound ProgramHeader.Fits
  rw [length_segmentOf h, toNat_virtualEnd_segmentOf h]
  change phdr.vaddr.toNat < _ ∧ _ ≤ _ - phdr.vaddr.toNat ↔ _
  rcases Nat.lt_or_ge (phdr.vaddr.toNat + phdr.memsz.toNat) (2 ^ X.value) with hlt | hge
  · rw [Nat.mod_eq_of_lt hlt]
    omega
  · rw [Nat.mod_eq_sub_mod hge, Nat.mod_eq_of_lt (by omega)]
    omega

theorem range_segmentOf (hfits : phdr.Fits) :
    (segmentOf data phdr).range =
      Set.Ico phdr.vaddr.toNat (phdr.vaddr.toNat + phdr.memsz.toNat) := by
  rw [MemorySegment.range, toNat_virtualEnd_segmentOf h, Nat.mod_eq_of_lt hfits.2]
  rfl

omit h

theorem Apart.disjoint {phdr' : ProgramHeader X} (h : Apart phdr phdr') :
    Disjoint (Set.Ico phdr.vaddr.toNat (phdr.vaddr.toNat + phdr.memsz.toNat))
      (Set.Ico phdr'.vaddr.toNat (phdr'.vaddr.toNat + phdr'.memsz.toNat)) := by
  rw [Set.disjoint_left]
  rintro addr ⟨hle, hlt⟩ ⟨hle', hlt'⟩
  rcases h with h | h <;> omega

theorem isLoadable_iff :
    phdr.isLoadable = true ↔ phdr.pType = ptLoad ∧ 0 < phdr.memsz.toNat := by
  rw [ProgramHeader.isLoadable, decide_eq_true_iff, Xlen.toNat_toU64]

/-- The segments of a parsed image are sound and disjoint exactly if every loadable header fits. -/
theorem image_sound_iff {elf : ElfFile X} {image : ElfImage X}
    (helf : ElfFile.parse X data = ok elf) (himage : ElfImage.parse X data = ok image) :
    image.Sound ↔ ∀ phdr ∈ loadable elf, phdr.Fits := by
  obtain ⟨elf', helf', hvalidated, rfl⟩ := parse_eq_ok.1 himage
  obtain rfl : elf = elf' := Outcome.ok.inj (helf.symm.trans helf')
  have hsound : ∀ phdr ∈ loadable elf, (segmentOf data phdr).Sound ↔ phdr.Fits := by
    intro phdr h
    have hpos := (isLoadable_iff.1 (List.mem_filter.1 h).2).2
    exact sound_segmentOf_iff (hvalidated.valid phdr h) hpos
  constructor
  · intro h phdr hphdr
    exact (hsound phdr hphdr).1 (h.segments _ (List.mem_map_of_mem hphdr))
  · intro hfits
    refine ⟨List.forall_mem_map.2 fun phdr h => (hsound phdr h).2 (hfits phdr h), ?_⟩
    rw [List.pairwise_map]
    refine ((checkOverlaps_eq_ok hvalidated.valid).1 hvalidated.overlaps).imp_of_mem ?_
    intro phdr phdr' hphdr hphdr' hapart
    rw [range_segmentOf (hvalidated.valid _ hphdr) (hfits _ hphdr),
      range_segmentOf (hvalidated.valid _ hphdr') (hfits _ hphdr')]
    exact hapart.disjoint

/-! ## Files with one program header -/

/-- A 64-bit file with one loadable program header, whose data is at the start of the file. -/
def oneSegmentBytes (vaddr filesz memsz : ℕ) : List (BitVec 8) :=
  [0x7F, 0x45, 0x4C, 0x46, 2, 1, 1, 0] ++ List.replicate 16 0 ++ bytes 8 vaddr ++
    bytes 8 64 ++ List.replicate 14 0 ++ bytes 2 56 ++
    bytes 2 1 ++ List.replicate 6 0 ++ [1, 0, 0, 0, 7, 0, 0, 0] ++ List.replicate 8 0 ++
    bytes 8 vaddr ++ bytes 8 vaddr ++ bytes 8 filesz ++
    bytes 8 memsz ++ bytes 8 8

theorem length_oneSegmentBytes (vaddr filesz memsz : ℕ) :
    (oneSegmentBytes vaddr filesz memsz).length < 2 ^ 63 := by
  simp [oneSegmentBytes]

/-- The file as a slice. -/
def oneSegment (vaddr filesz memsz : ℕ) : Slice :=
  ⟨oneSegmentBytes vaddr filesz memsz, length_oneSegmentBytes vaddr filesz memsz⟩

/-- What the parser makes of the file. -/
def oneSegmentFile (vaddr filesz memsz : U64) : ElfFile .rv64 where
  entryPoint := vaddr
  eFlags := 0
  sections := []
  programHeaders := [⟨ptLoad, 0, vaddr, vaddr, filesz, memsz, 7, 8⟩]
  symbols := []

/-- The image of the file. -/
def oneSegmentImage (vaddr filesz memsz : U64) : ElfImage .rv64 where
  entryPoint := vaddr
  eFlags := 0
  memorySegments := [⟨vaddr, vaddr + memsz,
    (oneSegmentBytes vaddr.toNat filesz.toNat memsz.toNat).take filesz.toNat, 7⟩]
  sections := []
  symbols := []

/-- A segment with four bytes in the file and eight in memory. -/
theorem image_sound_iff_oneSegment :
    ElfFile.parse .rv64 (oneSegment 0x1000 4 8) = ok (oneSegmentFile 0x1000 4 8) ∧
      ElfImage.parse .rv64 (oneSegment 0x1000 4 8) = ok (oneSegmentImage 0x1000 4 8) ∧
      ((oneSegmentImage 0x1000 4 8).Sound ↔
        ∀ phdr ∈ loadable (oneSegmentFile 0x1000 4 8), phdr.Fits) := by
  have hfile : ElfFile.parse .rv64 (oneSegment 0x1000 4 8) = ok (oneSegmentFile 0x1000 4 8) := by
    decide +kernel
  have himage : ElfImage.parse .rv64 (oneSegment 0x1000 4 8) = ok (oneSegmentImage 0x1000 4 8) := by
    decide +kernel
  exact ⟨hfile, himage, image_sound_iff hfile himage⟩

/-- A segment with eight bytes in the file and four in memory is accepted. -/
theorem image_not_sound :
    ElfImage.parse .rv64 (oneSegment 0x1000 8 4) = ok (oneSegmentImage 0x1000 8 4) ∧
      ¬ (oneSegmentImage 0x1000 8 4).Sound := by
  refine ⟨by decide +kernel, fun h => ?_⟩
  have hsegment := (h.segments _ (List.mem_singleton_self _)).2
  revert hsegment
  decide +kernel

end Elf

end Rvr
