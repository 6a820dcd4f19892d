import Rvr.Ir.Instr

/-!
# Partitions of the generated code

`CProject::partition_blocks` of `rvr-emit/src/c/project.rs`: the blocks are put into files of about
`partition_size` instructions.
-/

namespace Rvr

variable {X : Xlen}

/-- The variables of the loop. -/
structure PartitionLoop (X : Xlen) where
  partitions : List (ℕ × List (BlockIR X))
  currentPartition : List (BlockIR X)
  currentCount : ℕ
  partitionIdx : ℕ

namespace PartitionLoop

def init : PartitionLoop X := ⟨[], [], 0, 0⟩

/-- The body of the loop: a new partition is started if the block would exceed the limit. -/
def add (partitionSize : ℕ) (s : PartitionLoop X) (block : BlockIR X) : PartitionLoop X :=
  let instrCount := block.instructions.length
  let s :=
    if s.currentPartition ≠ [] ∧ partitionSize < s.currentCount + instrCount then
      { partitions := s.partitions ++ [(s.partitionIdx, s.currentPartition)]
        currentPartition := []
        currentCount := 0
        partitionIdx := s.partitionIdx + 1 }
    else s
  { s with
    currentPartition := s.currentPartition ++ [block]
    currentCount := s.currentCount + instrCount }

/-- The partitions with the final one. -/
def finish (s : PartitionLoop X) : List (ℕ × List (BlockIR X)) :=
  if s.currentPartition ≠ [] then s.partitions ++ [(s.partitionIdx, s.currentPartition)]
  else s.partitions

end PartitionLoop

/-- Partition blocks by instruction count. -/
def partitionBlocks (partitionSize : ℕ) (blocks : List (BlockIR X)) : List (ℕ × List (BlockIR X)) :=
  (blocks.foldl (PartitionLoop.add partitionSize) .init).finish

end Rvr
