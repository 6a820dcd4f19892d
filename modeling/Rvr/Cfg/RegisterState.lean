import Rvr.Ir.Xlen
import Rvr.Lib.SortedList

/-!
# Abstract register values and register states

The value domain of the control flow analysis (`rvr-cfg/src/analysis/data.rs`).  A register is
unknown or has one of at most `maxValues` constants, kept as a strictly increasing list; a register
state has one such value for each register, with the constant zero for `x0`.  Both types carry these
facts.

`merge` is the join of a semilattice in which unknown is the largest value and constants are ordered
by inclusion.  The fixpoint argument about the worklist uses the order and not the representation.
-/

namespace Rvr

open SortedList

abbrev numRegs : ℕ := 32

/-- `MAX_VALUES`: a larger set of constants degrades to unknown. -/
def maxValues : ℕ := 16

inductive ValueKind
  | unknown
  | constant
  deriving DecidableEq, Repr

/-- A set of possible values of a register. -/
@[ext] structure RegisterValue where
  kind : ValueKind
  values : List U64
  sorted : values.Pairwise (· < ·)
  length_le : values.length ≤ maxValues
  eq_nil_iff : values = [] ↔ kind = .unknown
  deriving DecidableEq

namespace RegisterValue

def unknown : RegisterValue := ⟨.unknown, [], .nil, Nat.zero_le _, by simp⟩

def constant (value : U64) : RegisterValue :=
  ⟨.constant, [value], List.pairwise_singleton _ _, by simp [maxValues], by simp⟩

def isConstant (r : RegisterValue) : Bool := r.kind = .constant

variable {r : RegisterValue}

theorem isConstant_iff : r.isConstant = true ↔ r.kind = .constant :=
  decide_eq_true_iff

/-- Add a value.  The binary search of the source finds the value or the place to insert it. -/
def addValue (r : RegisterValue) (value : U64) : RegisterValue :=
  if r.kind ≠ .constant then r
  else if hmem : value ∈ r.values then r
  else if hlen : maxValues ≤ r.values.length then unknown
  else
    { kind := .constant
      values := r.values.orderedInsert (· ≤ ·) value
      sorted := pairwise_orderedInsert r.sorted hmem
      length_le := by rw [List.orderedInsert_length]; omega
      eq_nil_iff := by simp [← List.length_eq_zero_iff, List.orderedInsert_length] }

theorem constant_of_values_ne_nil (h : r.values ≠ []) : r.kind = .constant := by
  cases hk : r.kind with
  | unknown => exact absurd (r.eq_nil_iff.2 hk) h
  | constant => rfl

theorem values_ne_nil (h : r.kind = .constant) : r.values ≠ [] := by
  intro hnil
  rw [r.eq_nil_iff.1 hnil] at h
  cases h

/-- The merged constants are a value when there are few enough of them.  The source checks the
number after every push; since it only grows, the check at the end gives the same answer. -/
def merge (a b : RegisterValue) : RegisterValue :=
  if h : a.kind = .unknown ∨ b.kind = .unknown then unknown
  else
    if hlen : (SortedList.merge a.values b.values).length > maxValues then unknown
    else
      { kind := .constant
        values := SortedList.merge a.values b.values
        sorted := pairwise_merge a.sorted b.sorted
        length_le := Nat.le_of_not_lt hlen
        eq_nil_iff := by
          have hne : a.values ≠ [] := fun hnil => h (.inl (a.eq_nil_iff.1 hnil))
          obtain ⟨v, hv⟩ := List.exists_mem_of_ne_nil _ hne
          have hmem : v ∈ SortedList.merge a.values b.values := mem_merge.2 (.inl hv)
          simp [List.ne_nil_of_mem hmem] }

@[simp] theorem kind_unknown : unknown.kind = .unknown := rfl
@[simp] theorem kind_constant (v : U64) : (constant v).kind = .constant := rfl
@[simp] theorem values_constant (v : U64) : (constant v).values = [v] := rfl

theorem eq_unknown_of_kind (h : r.kind = .unknown) : r = unknown :=
  RegisterValue.ext h (r.eq_nil_iff.2 h)

/-! ## The order -/

instance : PartialOrder RegisterValue where
  le a b := b.kind = .unknown ∨ a.kind = .constant ∧ a.values ⊆ b.values
  le_refl a := by
    cases h : a.kind with
    | unknown => exact .inl rfl
    | constant => exact .inr ⟨rfl, List.Subset.refl _⟩
  le_trans a b c hab hbc := by
    rcases hbc with hc | ⟨hb, hbc⟩
    · exact .inl hc
    · rcases hab with hb' | ⟨ha, hab⟩
      · rw [hb] at hb'
        cases hb'
      · exact .inr ⟨ha, List.Subset.trans hab hbc⟩
  le_antisymm a b hab hba := by
    rcases hab with hb | ⟨ha, hab⟩
    · rcases hba with ha | ⟨hb', -⟩
      · rw [eq_unknown_of_kind ha, eq_unknown_of_kind hb]
      · rw [hb] at hb'
        cases hb'
    · rcases hba with ha' | ⟨hb, hba⟩
      · rw [ha] at ha'
        cases ha'
      · refine RegisterValue.ext (ha.trans hb.symm) ?_
        exact ext_of_mem_iff a.sorted b.sorted fun v => ⟨@hab v, @hba v⟩

theorem le_unknown (a : RegisterValue) : a ≤ unknown := .inl rfl

/-- When `merge` of two constants keeps the union, and when it gives up. -/
theorem merge_cases (a b : RegisterValue) :
    (a.merge b = unknown ∧ (a.kind = .unknown ∨ b.kind = .unknown ∨
        maxValues < (SortedList.merge a.values b.values).length)) ∨
      (a.kind = .constant ∧ b.kind = .constant ∧ (a.merge b).kind = .constant ∧
        (a.merge b).values = SortedList.merge a.values b.values) := by
  unfold merge
  split_ifs with h hlen
  · exact .inl ⟨rfl, by tauto⟩
  · exact .inl ⟨rfl, .inr (.inr hlen)⟩
  · refine .inr ⟨?_, ?_, rfl, rfl⟩
    · exact constant_of_values_ne_nil fun hnil => h (.inl (a.eq_nil_iff.1 hnil))
    · exact constant_of_values_ne_nil fun hnil => h (.inr (b.eq_nil_iff.1 hnil))

/-- An upper bound of two constants has room for their union. -/
theorem length_merge_le {a b c : RegisterValue} (hac : a.values ⊆ c.values)
    (hbc : b.values ⊆ c.values) : (SortedList.merge a.values b.values).length ≤ maxValues := by
  have hsub : SortedList.merge a.values b.values ⊆ c.values := by
    intro v hv
    rcases mem_merge.1 hv with hv | hv
    · exact hac hv
    · exact hbc hv
  have hnodup : (SortedList.merge a.values b.values).Nodup :=
    (pairwise_merge a.sorted b.sorted).imp ne_of_lt
  exact (hnodup.subperm hsub).length_le.trans c.length_le

instance : SemilatticeSup RegisterValue where
  sup := merge
  le_sup_left a b := by
    rcases merge_cases a b with ⟨h, -⟩ | ⟨ha, -, -, hvals⟩
    · rw [h]
      exact le_unknown a
    · exact .inr ⟨ha, fun v hv => by rw [hvals]; exact mem_merge.2 (.inl hv)⟩
  le_sup_right a b := by
    rcases merge_cases a b with ⟨h, -⟩ | ⟨-, hb, -, hvals⟩
    · rw [h]
      exact le_unknown b
    · exact .inr ⟨hb, fun v hv => by rw [hvals]; exact mem_merge.2 (.inr hv)⟩
  sup_le a b c hac hbc := by
    rcases hac with hc | ⟨ha, hac⟩
    · exact .inl hc
    rcases hbc with hc | ⟨hb, hbc⟩
    · exact .inl hc
    rcases merge_cases a b with ⟨-, h | h | h⟩ | ⟨-, -, hkind, hvals⟩
    · rw [ha] at h
      cases h
    · rw [hb] at h
      cases h
    · exact absurd (length_merge_le hac hbc) (Nat.not_le.2 h)
    · refine .inr ⟨hkind, fun v hv => ?_⟩
      rw [hvals, mem_merge] at hv
      exact hv.elim (@hac v) (@hbc v)

end RegisterValue

/-! ## Register states -/

/-- One value per register; `x0` is the constant zero. -/
@[ext] structure RegisterState where
  regs : Fin numRegs → RegisterValue
  zero : regs 0 = .constant 0

namespace RegisterState

def new : RegisterState where
  regs i := if i = 0 then .constant 0 else .unknown
  zero := rfl

def get (s : RegisterState) (reg : ℕ) : RegisterValue :=
  if h : reg < numRegs then if reg = 0 then .constant 0 else s.regs ⟨reg, h⟩ else .unknown

/-- A register number out of range reads as `x0` here. -/
def getRef (s : RegisterState) (reg : ℕ) : RegisterValue :=
  if h : reg < numRegs then s.regs ⟨reg, h⟩ else s.regs 0

/-- Writes to `x0` and to register numbers out of range are dropped. -/
def set (s : RegisterState) (reg : ℕ) (value : RegisterValue) : RegisterState where
  regs i := if i = 0 then s.regs 0 else if i.val = reg then value else s.regs i
  zero := s.zero

def setConstant (s : RegisterState) (reg : ℕ) (value : U64) : RegisterState :=
  s.set reg (.constant value)

def setUnknown (s : RegisterState) (reg : ℕ) : RegisterState := s.set reg .unknown

/-- The state that `merge` leaves in `self`: every register but `x0` is merged. -/
def merge (s other : RegisterState) : RegisterState where
  regs i := if i = 0 then s.regs 0 else (s.regs i).merge (other.regs i)
  zero := s.zero

/-- The result of `merge`: whether a register changed. -/
def mergeChanged (s other : RegisterState) : Bool :=
  (List.finRange numRegs).any fun i => i ≠ 0 ∧ (s.regs i).merge (other.regs i) ≠ s.regs i

instance : Max RegisterState := ⟨merge⟩
instance : LE RegisterState := ⟨fun s t => s.regs ≤ t.regs⟩
instance : LT RegisterState := ⟨fun s t => s.regs < t.regs⟩

theorem regs_merge (s other : RegisterState) : (s.merge other).regs = s.regs ⊔ other.regs := by
  funext i
  by_cases hi : i = 0
  · subst hi
    have hsup : s.regs 0 ⊔ other.regs 0 = s.regs 0 := by rw [s.zero, other.zero, sup_idem]
    exact hsup.symm
  · exact if_neg hi

instance : SemilatticeSup RegisterState :=
  Function.Injective.semilatticeSup regs
    (fun _ _ h => RegisterState.ext h) Iff.rfl Iff.rfl regs_merge

theorem sup_eq_merge (s other : RegisterState) : s ⊔ other = s.merge other := rfl

/-- `merge` reports no change exactly when the other state was already below. -/
theorem mergeChanged_eq_false {s other : RegisterState} :
    s.mergeChanged other = false ↔ s ⊔ other = s := by
  rw [sup_eq_merge, RegisterState.ext_iff, funext_iff]
  simp only [mergeChanged, List.any_eq_false]
  refine forall_congr' fun i => ?_
  by_cases hi : i = 0
  · subst hi
    simp [merge]
  · simp [merge, hi]

end RegisterState

end Rvr
