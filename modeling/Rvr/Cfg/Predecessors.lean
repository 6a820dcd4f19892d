import Rvr.Cfg.Analysis
import Rvr.Lib.Schedule

/-!
# Building predecessors in parallel

`build_predecessors` of `rvr-cfg/src/analysis/mod.rs` folds pieces of the successor map and merges
the partial maps.  An item of the parallel iterator is an address with its successors in the order
in which their hash set is iterated.
-/

namespace Rvr

/-- The items are the entries of a successor map, each once, in some order. -/
def Iterates (items : List (U64 × List U64)) (successors : AddrMap (Finset U64)) : Prop :=
  (items.map fun e => (⟨e.1, e.2.toFinset⟩ : Σ _ : U64, Finset U64)).Perm successors.entries

/-- The closure of the fold: the address is a predecessor of its successors. -/
def addEdges (partialMap : AddrMap (Finset U64)) (item : U64 × List U64) : AddrMap (Finset U64) :=
  item.2.foldl (fun m succ => AddrMap.extend m succ {item.1}) partialMap

/-- The closure of the reduction: the entries of the second map are added to the first. -/
def mergePredecessors (order : HashOrder) (round : ℕ) (a b : AddrMap (Finset U64)) :
    AddrMap (Finset U64) :=
  (order.list round b.keys.toFinset).foldl
    (fun m succ => AddrMap.extend m succ ((b.lookup succ).getD ∅)) a

/-- `build_predecessors` under a schedule. -/
def buildPredecessorsWith (order : HashOrder) (schedule : Schedule (U64 × List U64)) :
    AddrMap (Finset U64) :=
  schedule.run ∅ addEdges (mergePredecessors order)

end Rvr
