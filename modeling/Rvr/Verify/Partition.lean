import Rvr.Emit.Partition

/-!
# The partitions of the generated code

The partitions are numbered from zero, none is empty, and together they are the blocks in order.  A
partition with more than one block keeps the limit, and the first block of the next one would not.
-/

namespace Rvr

open List

variable {X : Xlen}

/-- The number of instructions of a list of blocks. -/
def instrCount (blocks : List (BlockIR X)) : ℕ := (blocks.map fun b => b.instructions.length).sum

@[simp] theorem instrCount_append (as bs : List (BlockIR X)) :
    instrCount (as ++ bs) = instrCount as + instrCount bs := by
  simp [instrCount]

@[simp] theorem instrCount_singleton (b : BlockIR X) : instrCount [b] = b.instructions.length := by
  simp [instrCount]

/-- What the partitions of a list of blocks are. -/
structure Partitioned (partitionSize : ℕ) (blocks : List (BlockIR X))
    (partitions : List (ℕ × List (BlockIR X))) : Prop where
  numbers : partitions.map (·.1) = range partitions.length
  nonempty : ∀ p ∈ partitions, p.2 ≠ []
  concat : partitions.flatMap (·.2) = blocks
  limit : ∀ p ∈ partitions, instrCount p.2 ≤ partitionSize ∨ p.2.length = 1
  greedy : partitions.IsChain fun p q =>
    ∀ b ∈ q.2.head?, partitionSize < instrCount p.2 + b.instructions.length

namespace Partitioned

variable {partitionSize : ℕ} {blocks : List (BlockIR X)} {partitions : List (ℕ × List (BlockIR X))}
  {current : List (BlockIR X)} {idx : ℕ}

theorem nil : Partitioned partitionSize ([] : List (BlockIR X)) [] := by
  constructor <;> simp

/-- Start a partition behind the last one. -/
theorem start (h : Partitioned partitionSize blocks partitions) (block : BlockIR X)
    (hfull : ∀ p ∈ partitions.getLast?, partitionSize < instrCount p.2 +
      block.instructions.length) :
    Partitioned partitionSize (blocks ++ [block])
      (partitions ++ [(partitions.length, [block])]) where
  numbers := by simp [h.numbers, range_succ]
  nonempty := by
    intro p hp
    rcases mem_append.1 hp with hp | hp
    · exact h.nonempty p hp
    · simp_all
  concat := by simp [h.concat]
  limit := by
    intro p hp
    rcases mem_append.1 hp with hp | hp
    · exact h.limit p hp
    · simp_all
  greedy := by
    refine isChain_append.2 ⟨h.greedy, isChain_singleton _, ?_⟩
    intro p hp q hq b hb
    obtain rfl : (partitions.length, [block]) = q := Option.some.inj hq
    obtain rfl : block = b := Option.some.inj hb
    exact hfull p hp

/-- Put a block into the last partition. -/
theorem extend (h : Partitioned partitionSize blocks (partitions ++ [(idx, current)]))
    (block : BlockIR X) (hfits : instrCount current + block.instructions.length ≤ partitionSize) :
    Partitioned partitionSize (blocks ++ [block]) (partitions ++ [(idx, current ++ [block])]) where
  numbers := by simpa using h.numbers
  nonempty := by
    intro p hp
    rcases mem_append.1 hp with hp | hp
    · exact h.nonempty p (mem_append_left _ hp)
    · simp_all
  concat := by
    rw [← h.concat]
    simp
  limit := by
    intro p hp
    rcases mem_append.1 hp with hp | hp
    · exact h.limit p (mem_append_left _ hp)
    · rw [mem_singleton.1 hp]
      exact .inl (by simpa using hfits)
  greedy := by
    obtain ⟨hchain, -, hlast⟩ := isChain_append.1 h.greedy
    refine isChain_append.2 ⟨hchain, isChain_singleton _, ?_⟩
    intro p hp q hq b hb
    obtain rfl : (idx, current ++ [block]) = q := Option.some.inj hq
    -- the partition keeps its first block
    have hne : current ≠ [] := h.nonempty (idx, current) (by simp)
    rw [head?_append_of_ne_nil _ hne] at hb
    exact hlast p hp (idx, current) rfl b hb

end Partitioned

/-! ## The loop -/

/-- What holds of the variables after some blocks. -/
structure PartitionLoop.Inv (partitionSize : ℕ) (blocks : List (BlockIR X)) (s : PartitionLoop X) :
    Prop where
  partitioned : Partitioned partitionSize blocks s.finish
  idx : s.partitionIdx = s.partitions.length
  count : s.currentCount = instrCount s.currentPartition
  first : s.currentPartition = [] → s.partitions = []

namespace PartitionLoop

variable {partitionSize : ℕ} {blocks : List (BlockIR X)} {s : PartitionLoop X}

theorem inv_init : Inv partitionSize [] (init : PartitionLoop X) :=
  ⟨.nil, rfl, rfl, fun _ => rfl⟩

theorem finish_of_ne_nil (h : s.currentPartition ≠ []) :
    s.finish = s.partitions ++ [(s.partitionIdx, s.currentPartition)] := if_pos h

variable (h : Inv partitionSize blocks s)
include h

/-- The first block starts the first partition. -/
theorem Inv.addFirst (hempty : s.currentPartition = [])
    (block : BlockIR X) : Inv partitionSize (blocks ++ [block]) (s.add partitionSize block) := by
  have hparts : s.partitions = [] := h.first hempty
  have hpartitioned := h.partitioned
  have hadd : s.add partitionSize block =
      { s with currentPartition := [block], currentCount := block.instructions.length } := by
    simp [PartitionLoop.add, hempty, h.count, instrCount]
  rw [finish, if_neg (not_not.2 hempty), hparts] at hpartitioned
  rw [hadd]
  refine ⟨?_, h.idx, (instrCount_singleton block).symm, fun hnil => absurd hnil (by simp)⟩
  rw [h.idx, hparts]
  exact hpartitioned.start block (by simp)

/-- A block that does not fit starts a partition. -/
theorem Inv.addFull (hne : s.currentPartition ≠ [])
    (block : BlockIR X) (hfull : partitionSize < s.currentCount + block.instructions.length) :
    Inv partitionSize (blocks ++ [block]) (s.add partitionSize block) := by
  have hpartitioned := h.partitioned
  rw [finish_of_ne_nil hne] at hpartitioned
  have hadd : s.add partitionSize block =
      { partitions := s.partitions ++ [(s.partitionIdx, s.currentPartition)]
        currentPartition := [block]
        currentCount := block.instructions.length
        partitionIdx := s.partitionIdx + 1 } := by
    simp [PartitionLoop.add, hne, hfull]
  rw [hadd]
  refine ⟨?_, ?_, (instrCount_singleton block).symm, fun hnil => absurd hnil (by simp)⟩
  · have hlast := hpartitioned.start block fun p hp => by
      obtain rfl : (s.partitionIdx, s.currentPartition) = p := by simpa using hp
      rwa [← h.count]
    rwa [length_append, ← h.idx] at hlast
  · simp [h.idx]

/-- A block that fits is put into the current partition. -/
theorem Inv.addFits (hne : s.currentPartition ≠ [])
    (block : BlockIR X) (hfits : s.currentCount + block.instructions.length ≤ partitionSize) :
    Inv partitionSize (blocks ++ [block]) (s.add partitionSize block) := by
  have hpartitioned := h.partitioned
  rw [finish_of_ne_nil hne] at hpartitioned
  have hadd : s.add partitionSize block =
      { s with
        currentPartition := s.currentPartition ++ [block]
        currentCount := s.currentCount + block.instructions.length } := by
    simp [PartitionLoop.add, Nat.not_lt.2 hfits]
  rw [hadd]
  refine ⟨?_, h.idx, by simp [h.count], fun hnil => absurd hnil (by simp)⟩
  rw [finish_of_ne_nil (by simp)]
  rw [h.count] at hfits
  exact hpartitioned.extend block hfits

theorem Inv.add (block : BlockIR X) :
    Inv partitionSize (blocks ++ [block]) (s.add partitionSize block) := by
  by_cases hempty : s.currentPartition = []
  · exact h.addFirst hempty block
  · by_cases hfull : partitionSize < s.currentCount + block.instructions.length
    · exact h.addFull hempty block hfull
    · exact h.addFits hempty block (Nat.not_lt.1 hfull)

omit h

theorem inv_foldl (blocks : List (BlockIR X)) :
    Inv partitionSize blocks (blocks.foldl (PartitionLoop.add partitionSize) init) := by
  induction blocks using reverseRecOn with
  | nil => exact inv_init
  | append_singleton blocks block ih =>
    rw [foldl_append]
    exact ih.add block

end PartitionLoop

/-- The partitions of every list of blocks, for every limit. -/
theorem partitionBlocks_partitioned (partitionSize : ℕ) (blocks : List (BlockIR X)) :
    Partitioned partitionSize blocks (partitionBlocks partitionSize blocks) :=
  (PartitionLoop.inv_foldl blocks).partitioned

end Rvr
