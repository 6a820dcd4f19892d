import Rvr.Cfg.Analysis

/-!
# The block table

Basic blocks and the transforms that join them (`rvr-cfg/src/block_table.rs`).  A block keeps the
range of its own instructions; what was joined to it is listed in `blockContinuations`, and
`absorbedToMerged` says for the start of a block that is gone which block has its instructions.

Loops over hash sets and hash maps whose order can be seen in the result take their order from
`HashOrder`.  The maps that the transforms do not read, and the numbers of blocks that they return,
are left out.
-/

namespace Rvr

variable {X : Xlen}

/-- Basic block with start and end addresses. -/
structure BasicBlock where
  start : U64
  stop : U64
  instructionCount : ℕ
  lastPc : U64
  deriving DecidableEq

/-- Block table with CFG analysis and transforms. -/
structure BlockTable (X : Xlen) where
  blocks : List BasicBlock
  absorbedToMerged : AddrMap U64
  blockContinuations : AddrMap (List (U64 × U64))
  takenInlines : AddrMap (U64 × U64)
  predecessors : AddrMap (Finset U64)
  instructionTable : InstructionTable X

/-- `entry(key).or_default().push(value)`. -/
def AddrMap.push {V : Type} (m : AddrMap (List V)) (key : U64) (value : V) : AddrMap (List V) :=
  m.insert key ((m.lookup key).getD [] ++ [value])

/-- The terminator of the instruction at an address. -/
def InstructionTable.terminatorAt (t : InstructionTable X) (registry : ExtensionRegistry X)
    (pc : U64) : Option (Terminator X) :=
  (t.getAtPc pc).map fun instr => (registry.lift instr).terminator

namespace BlockTable

/-! ## Building blocks -/

section Build

variable (t : InstructionTable X) (registry : ExtensionRegistry X) (leaders : Finset U64)

/-- The loop over the instructions of a block: where it ends, how many instructions it has and the
address of the last one.  The address grows in every round. -/
def blockLoop (blockStart maxEnd : U64) : ℕ → U64 → ℕ → U64 → U64 × ℕ × U64
  | 0, pc, count, lastPc => (pc, count, lastPc)
  | fuel + 1, pc, count, lastPc =>
    if pc < maxEnd ∧ pc < t.endAddress then
      if !t.isValidPc pc then (pc, count, lastPc)
      else
        let size := t.instructionSizeAtPc pc
        if size = 0 then (pc, count, lastPc)
        else
          let nextPc := nextAddr pc size
          if (t.terminatorAt registry pc).any Terminator.isControlFlow then (nextPc, count + 1, pc)
          -- stop before reaching the next leader
          else if nextPc ∈ leaders ∧ nextPc ≠ blockStart then (nextPc, count + 1, pc)
          else blockLoop blockStart maxEnd fuel nextPc (count + 1) pc
    else (pc, count, lastPc)

/-- The block that starts at a leader, up to the next leader or the end of the table. -/
def blockFrom (blockStart : U64) (nextLeader : Option U64) : Option BasicBlock :=
  if !t.isValidPc blockStart then none
  else
    let maxEnd := min (nextLeader.getD t.endAddress) t.endAddress
    let (pc, count, lastPc) := blockLoop t registry leaders blockStart maxEnd
      ((t.endAddress - t.baseAddress).toNat + 1) blockStart 0 blockStart
    if 0 < count ∧ blockStart < pc then some ⟨blockStart, pc, count, lastPc⟩ else none

/-- One block for each leader, in ascending order. -/
def blocksFrom : List U64 → List BasicBlock
  | [] => []
  | blockStart :: rest =>
    (blockFrom t registry leaders blockStart rest.head?).toList ++ blocksFrom rest

def createBlocksFromLeaders : List BasicBlock :=
  blocksFrom t registry leaders (SortedList.ofFinset leaders)

/-- Create a block table from an instruction table with CFG analysis. -/
def fromInstructionTable (order : HashOrder) : BlockTable X :=
  let analysis := analyze t order
  { blocks := createBlocksFromLeaders t registry analysis.leaders
    absorbedToMerged := ∅
    blockContinuations := ∅
    takenInlines := ∅
    predecessors := analysis.predecessors
    instructionTable := t }

end Build

variable (table : BlockTable X) (registry : ExtensionRegistry X)

/-- The block that `start_to_idx` has for an address: of blocks with the same start, the last. -/
def blockAt (start : U64) : Option BasicBlock := table.blocks.reverse.find? (·.start = start)

def terminatorAt (pc : U64) : Option (Terminator X) :=
  table.instructionTable.terminatorAt registry pc

/-! ## Merging -/

/-- Merge target if the block can merge with its successor. -/
def getMergeTarget (block : BasicBlock) : Option U64 :=
  let targetPc :=
    match table.terminatorAt registry block.lastPc with
    | some (.fall target) => target.map Xlen.toU64
    | some (.jump target) => some (Xlen.toU64 target)
    | _ => none
  targetPc.filter fun target =>
    target ∉ table.instructionTable.entryPoints ∧
      (table.predecessors.lookup target).any fun preds => preds.card = 1 ∧ block.lastPc ∈ preds

/-- The starts of the blocks that can be absorbed by the block before them. -/
def absorbable : Finset U64 :=
  table.blocks.foldl (fun absorbed block =>
    if block.start ∈ absorbed then absorbed
    else
      match table.getMergeTarget registry block with
      | some target => insert target absorbed
      | none => absorbed) ∅

/-- The blocks that follow a block along merge targets. -/
def mergeChain (absorbed : Finset U64) : ℕ → BasicBlock → List BasicBlock
  | 0, _ => []
  | fuel + 1, current =>
    match table.getMergeTarget registry current with
    | some target =>
      if target ∈ absorbed then
        match table.blockAt target with
        | some next => next :: mergeChain absorbed fuel next
        | none => []
      else []
    | none => []

/-- Append a block that stays, with the blocks that it absorbs. -/
def mergeInto (merged : BlockTable X) (block : BasicBlock) (chain : List BasicBlock) :
    BlockTable X :=
  { merged with
    blocks := merged.blocks ++
      [⟨block.start, block.stop, block.instructionCount + (chain.map (·.instructionCount)).sum,
        ((chain.map (·.lastPc)).getLast?).getD block.lastPc⟩]
    absorbedToMerged :=
      chain.foldl (fun m b => m.insert b.start block.start) merged.absorbedToMerged
    blockContinuations :=
      if chain = [] then merged.blockContinuations
      else merged.blockContinuations.insert block.start (chain.map fun b => (b.start, b.stop)) }

/-- Merge blocks whose successor has a single predecessor.  A chain visits a block at most once. -/
def mergeBlocks : BlockTable X :=
  let absorbed := table.absorbable registry
  if absorbed = ∅ then table
  else
    table.blocks.foldl (fun merged block =>
      if block.start ∈ absorbed then merged
      else mergeInto merged block (table.mergeChain registry absorbed table.blocks.length block))
      { table with blocks := [], absorbedToMerged := ∅, blockContinuations := ∅ }

/-! ## Tail duplication -/

/-- `DEFAULT_TAIL_DUP_SIZE`. -/
def defaultTailDupSize : ℕ := 100

def blockEndsWithFall (block : BasicBlock) : Bool :=
  (table.terminatorAt registry block.lastPc).any fun terminator => !terminator.isControlFlow

def predIsUnconditionalJump (predPc : U64) : Bool :=
  match table.terminatorAt registry predPc with
  | some (.jump _) => true
  | _ => false

/-- Whether a block is to be duplicated into all its predecessors. -/
def isTailDuplicateCandidate (maxDupSize : ℕ) (block : BasicBlock) : Bool :=
  block.start ∉ table.instructionTable.entryPoints ∧ block.instructionCount ≤ maxDupSize ∧
    (table.predecessors.lookup block.start).any fun preds =>
      2 ≤ preds.card ∧ table.blockEndsWithFall registry block ∧
        (SortedList.ofFinset preds).all (table.predIsUnconditionalJump registry)

def collectTailDuplicateCandidates (maxDupSize : ℕ) : Finset U64 :=
  ((table.blocks.filter (table.isTailDuplicateCandidate registry maxDupSize)).map
    (·.start)).toFinset

/-- The start of the block whose last instruction a predecessor is, and whether control leaves it by
an explicit jump. -/
def directPredecessor (predPc : U64) : Option (U64 × Bool) :=
  (table.blocks.reverse.find? (·.lastPc = predPc)).bind fun pred =>
    match table.terminatorAt registry predPc with
    | some (.jump _) | some (.branch ..) => some (pred.start, true)
    | some (.fall _) => some (pred.start, false)
    | _ => none

/-- Explicit jumps first, then by address. -/
def collectTailDuplicatePredecessors (preds : Finset U64) : List U64 :=
  (((SortedList.ofFinset preds).filterMap (table.directPredecessor registry)).insertionSort
    fun a b => a.2 > b.2 ∨ a.2 = b.2 ∧ a.1 ≤ b.1).map (·.1)

def applyTailDuplication (dupStart : U64) (dupRange : U64 × U64) (validPreds : List U64) :
    BlockTable X :=
  { table with
    blockContinuations :=
      validPreds.foldl (fun m predStart => m.push predStart dupRange) table.blockContinuations
    absorbedToMerged :=
      match validPreds with
      | first :: _ => table.absorbedToMerged.insert dupStart first
      | [] => table.absorbedToMerged }

/-- Duplicate small blocks with multiple predecessors into each predecessor. -/
def tailDuplicate (maxDupSize : ℕ) (order : HashOrder) : BlockTable X :=
  let toDuplicate := table.collectTailDuplicateCandidates registry maxDupSize
  let duplicated := (order.list 0 toDuplicate).foldl (fun acc dupStart =>
    match table.blockAt dupStart, table.predecessors.lookup dupStart with
    | some dupBlock, some preds =>
      acc.applyTailDuplication dupStart (dupBlock.start, dupBlock.stop)
        (table.collectTailDuplicatePredecessors registry preds)
    | _, _ => acc) table
  { duplicated with blocks := table.blocks.filter fun b => b.start ∉ toDuplicate }

/-! ## Superblocks -/

/-- `DEFAULT_SUPERBLOCK_DEPTH`. -/
def defaultSuperblockDepth : ℕ := 100

/-- `DEFAULT_TAKEN_INLINE_SIZE`. -/
def defaultTakenInlineSize : ℕ := 50

/-- What `collect_superblock_chains` has found so far. -/
structure SuperblockPlan where
  absorbed : Finset U64
  superblockHeads : Finset U64
  superblockChains : List (U64 × List U64)
  pendingInlines : List (U64 × U64 × U64)

/-- The starts of blocks that have absorbed another one. -/
def mergeTargets : Finset U64 := (table.absorbedToMerged.entries.map (·.2)).toFinset

/-- The entry of `taken_inlines` for a block that ends with a branch, if the target can be
inlined. -/
def maybeInlineTakenPath (absorbed : Finset U64) (block : BasicBlock) (takenPc : U64) :
    Option (U64 × U64 × U64) :=
  if takenPc ∈ table.instructionTable.entryPoints ∨ takenPc ∈ absorbed ∨
      takenPc ∈ table.mergeTargets then none
  else
    match table.blockAt takenPc, table.predecessors.lookup takenPc with
    | some takenBlock, some preds =>
      if preds.card ≠ 1 then none
      else if defaultTakenInlineSize < takenBlock.instructionCount then none
      else
        match table.terminatorAt registry takenBlock.lastPc with
        | none | some (.branch ..) => none
        | _ => some (block.lastPc, takenBlock.start, takenBlock.stop)
    | _, _ => none

/-- The blocks that follow a branch that is not taken, as far as they can be absorbed. -/
def buildSuperblockChain (superblockHeads : Finset U64) :
    ℕ → U64 → Finset U64 → List U64 × Finset U64
  | 0, _, absorbed => ([], absorbed)
  | depth + 1, currentPc, absorbed =>
    if currentPc ∈ absorbed ∨ currentPc ∈ table.instructionTable.entryPoints ∨
        currentPc ∈ table.mergeTargets ∨ currentPc ∈ superblockHeads ∨
        (table.predecessors.lookup currentPc).any (fun preds => 1 < preds.card) then
      ([], absorbed)
    else
      match table.blockAt currentPc with
      | none => ([], absorbed)
      | some block =>
        let continueAt (nextPc : U64) :=
          let (chain, absorbed) :=
            buildSuperblockChain superblockHeads depth nextPc (insert currentPc absorbed)
          (currentPc :: chain, absorbed)
        match table.terminatorAt registry block.lastPc with
        | none => ([], absorbed)
        | some (.fall target) => continueAt ((target.map Xlen.toU64).getD block.stop)
        | some (.jump target) => continueAt (Xlen.toU64 target)
        | some _ => ([currentPc], insert currentPc absorbed)

/-- Look at one block: it heads a superblock if it ends with a branch that falls through to another
block. -/
def planSuperblock (maxDepth : ℕ) (plan : SuperblockPlan) (block : BasicBlock) : SuperblockPlan :=
  if block.start ∈ plan.absorbed ∨ block.start ∈ table.mergeTargets then plan
  else
    match table.terminatorAt registry block.lastPc with
    | some (.branch _ target _ _) =>
      let inlines := (table.maybeInlineTakenPath registry plan.absorbed block
        (Xlen.toU64 target)).toList
      let plan := { plan with pendingInlines := plan.pendingInlines ++ inlines }
      let fallPc := block.stop
      if fallPc ∈ table.instructionTable.entryPoints ∨ table.blockAt fallPc = none then plan
      else
        let heads := insert block.start plan.superblockHeads
        let (chain, absorbed) :=
          table.buildSuperblockChain registry heads maxDepth fallPc plan.absorbed
        { plan with
          absorbed := absorbed
          superblockHeads := heads
          superblockChains :=
            plan.superblockChains ++ if chain = [] then [] else [(block.start, chain)] }
    | _ => plan

def collectSuperblockChains (maxDepth : ℕ) : SuperblockPlan :=
  table.blocks.foldl (table.planSuperblock registry maxDepth) ⟨∅, ∅, [], []⟩

/-- Absorb one block of a chain into its head. -/
def absorbInto (head : U64) (acc : BlockTable X) (block : BasicBlock) : BlockTable X :=
  { acc with
    absorbedToMerged := acc.absorbedToMerged.insert block.start head
    blockContinuations := acc.blockContinuations.push head (block.start, block.stop) }

/-- Form superblocks by absorbing fall-through blocks after branches.  The chains have different
heads and no block in common, so their order does not matter. -/
def formSuperblocks (maxDepth : ℕ) : BlockTable X :=
  let plan := table.collectSuperblockChains registry maxDepth
  let inlined : BlockTable X :=
    { table with
      takenInlines := plan.pendingInlines.foldl (fun m e => m.insert e.1 e.2) table.takenInlines }
  if plan.absorbed = ∅ then inlined
  else
    let chained := plan.superblockChains.foldl (fun acc e =>
      (e.2.filterMap table.blockAt).foldl (absorbInto e.1) acc) inlined
    { chained with blocks := table.blocks.filter fun b => b.start ∉ plan.absorbed }

/-! ## Stale mappings -/

/-- Follow the absorbed mapping to a block that remains.  No address is visited twice. -/
def followChain (remaining : Finset U64) : ℕ → Finset U64 → U64 → Option U64
  | 0, _, _ => none
  | fuel + 1, visited, current =>
    if current ∈ visited then none
    else if current ∈ remaining then some current
    else
      match table.absorbedToMerged.lookup current with
      | some next => followChain remaining fuel (insert current visited) next
      | none => none

/-- Take the range that starts at an address out of the first list of ranges that has one. -/
def takeRange (m : AddrMap (List (U64 × U64))) (pc : U64) :
    List U64 → Option ((U64 × U64) × AddrMap (List (U64 × U64)))
  | [] => none
  | key :: keys =>
    let ranges := (m.lookup key).getD []
    match ranges.findIdx? fun r => r.1 = pc with
    | some pos => (ranges[pos]?).map fun range => (range, m.insert key (ranges.eraseIdx pos))
    | none => takeRange m pc keys

/-- Point an absorbed address to the block that has it now, and move its range there. -/
def updateMapping (order : HashOrder) (acc : BlockTable X × ℕ) (update : U64 × U64) :
    BlockTable X × ℕ :=
  let (acc, round) := acc
  let keys := order.list round acc.blockContinuations.keys.toFinset
  ({ acc with
      absorbedToMerged := acc.absorbedToMerged.insert update.1 update.2
      blockContinuations :=
        match takeRange acc.blockContinuations update.1 keys with
        | some (range, rest) => rest.push update.2 range
        | none => acc.blockContinuations }, round + 1)

/-- Fix stale mappings by following chains; mappings whose chain is broken are removed. -/
def fixStaleMappings (order : HashOrder) : BlockTable X :=
  let remaining := (table.blocks.map (·.start)).toFinset
  let stale := (order.list 1 table.absorbedToMerged.keys.toFinset).filterMap fun absorbedPc =>
    (table.absorbedToMerged.lookup absorbedPc).bind fun targetPc =>
      if targetPc ∈ remaining then none
      else some (absorbedPc, table.followChain remaining
        (table.absorbedToMerged.keys.length + 2) {absorbedPc} targetPc)
  let toUpdate := stale.filterMap fun e => e.2.map fun target => (e.1, target)
  let toRemove := (stale.filter fun e => e.2 = none).map (·.1)
  let updated := (toUpdate.foldl (updateMapping order) (table, 2)).1
  { updated with
    absorbedToMerged := toRemove.foldl (fun m pc => m.erase pc) updated.absorbedToMerged }

/-- Apply all transforms in order: merge, tail duplication, superblocks. -/
def optimize (order : HashOrder) : BlockTable X :=
  let merged := table.mergeBlocks registry
  let duplicated := merged.tailDuplicate registry defaultTailDupSize order
  let superblocked := duplicated.formSuperblocks registry defaultSuperblockDepth
  superblocked.fixStaleMappings order

end BlockTable

end Rvr
