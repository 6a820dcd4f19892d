import Rvr.Cfg.RegisterState

/-!
# Register values as they are stored

`RegisterValue` and `RegisterState` of `rvr-cfg/src/analysis/data.rs` without their invariants: a
value is a flag with a vector, and the operations are the loops of the source.  `RegisterValue` and
`RegisterState` of the model carry the invariants and have the same operations without the loops.
-/

namespace Rvr

/-- A `RegisterValue` of the source. -/
structure RawValue where
  kind : ValueKind
  values : List U64
  deriving DecidableEq

namespace RawValue

def unknown : RawValue := ⟨.unknown, []⟩

def constant (value : U64) : RawValue := ⟨.constant, [value]⟩

/-- Add a value.  The search finds the value, or the place of the first one that is not below it. -/
def addValue (r : RawValue) (value : U64) : RawValue :=
  if r.kind ≠ .constant then r
  else if value ∈ r.values then r
  else if maxValues ≤ r.values.length then unknown
  else { r with values := r.values.insertIdx (r.values.takeWhile (· < value)).length value }

/-- The loop over both vectors: the merged values and what is left of the vectors, or nothing once
there are too many values.  A round takes a value from one of the vectors at least. -/
def mergeBoth : ℕ → List U64 → List U64 → List U64 → Option (List U64 × List U64 × List U64)
  | fuel + 1, a :: as, b :: bs, merged =>
    let (value, as', bs') :=
      match compare a b with
      | .eq => (a, as, bs)
      | .lt => (a, as, b :: bs)
      | .gt => (b, a :: as, bs)
    if maxValues < (merged ++ [value]).length then none
    else mergeBoth fuel as' bs' (merged ++ [value])
  | _, as, bs, merged => some (merged, as, bs)

/-- The loops over what is left of one vector. -/
def mergeRest : List U64 → List U64 → Option (List U64)
  | [], merged => some merged
  | value :: rest, merged =>
    if maxValues < (merged ++ [value]).length then none else mergeRest rest (merged ++ [value])

/-- The three loops of `merge`. -/
def mergeLoops (fuel : ℕ) (as bs merged : List U64) : Option (List U64) := do
  let (merged, as, bs) ← mergeBoth fuel as bs merged
  let merged ← mergeRest as merged
  mergeRest bs merged

def merge (r other : RawValue) : RawValue :=
  if r.kind = .unknown ∨ other.kind = .unknown then unknown
  else
    match mergeLoops (r.values.length + other.values.length) r.values other.values [] with
    | some merged => ⟨.constant, merged⟩
    | none => unknown

/-- The values that the constructors and operations give. -/
inductive Built : RawValue → Prop
  | unknown : Built unknown
  | constant (value : U64) : Built (constant value)
  | addValue {r : RawValue} (value : U64) : Built r → Built (r.addValue value)
  | merge {r other : RawValue} : Built r → Built other → Built (r.merge other)

end RawValue

/-- A `RegisterState` of the source. -/
abbrev RawState := Fin numRegs → RawValue

namespace RawState

/-- One round of `merge`: merge a register, and say that something changed if it did. -/
def mergeRegister (other : RawState) (acc : RawState × Bool) (idx : Fin numRegs) :
    RawState × Bool :=
  let merged := (acc.1 idx).merge (other idx)
  if merged ≠ acc.1 idx then (Function.update acc.1 idx merged, true) else acc

/-- Merge every register but `x0`: the state that is left and whether it changed. -/
def merge (s other : RawState) : RawState × Bool :=
  (List.finRange numRegs).tail.foldl (mergeRegister other) (s, false)

end RawState

end Rvr
