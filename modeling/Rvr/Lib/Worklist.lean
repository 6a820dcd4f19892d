import Mathlib

/-!
# Worklist iteration

A dataflow problem has nodes, states that form a join semilattice, and for each node the successors
and the outgoing state in a given state.  A worklist algorithm keeps a state for some nodes and a
set of nodes that are still to be processed.

The rule of this file: if processing a node settles it, and otherwise states only grow and a node
whose state grows is put back on the worklist, then every node off the worklist stays settled.  It
needs neither monotonicity of the successors nor of the transfer function.
-/

namespace Worklist

variable {N S : Type*} [SemilatticeSup S]

/-- A dataflow problem.  Nodes that are not active have no effect. -/
structure Problem (N S : Type*) where
  active : N → Prop
  succs : N → S → Finset N
  transfer : N → S → S

/-- What a worklist algorithm knows at one moment: the states found so far, the nodes still to be
processed and the edges recorded for the nodes that have been processed. -/
structure Snapshot (N S : Type*) where
  states : N → Option S
  pending : Set N
  edges : N → Option (Finset N)

namespace Snapshot

/-- Take a node off the worklist. -/
def pop (c : Snapshot N S) (n : N) : Snapshot N S := { c with pending := c.pending \ {n} }

/-- Between two moments states and edges only grow, nothing is taken off the worklist, and every
node off the worklist has the state it had. -/
structure Grows (c c' : Snapshot N S) : Prop where
  states_le : ∀ n s, c.states n = some s → ∃ s', c'.states n = some s' ∧ s ≤ s'
  unchanged : ∀ n, n ∉ c'.pending → c'.states n = c.states n
  pending_subset : c.pending ⊆ c'.pending
  edges_subset : ∀ n e, c.edges n = some e → ∃ e', c'.edges n = some e' ∧ e ⊆ e'

theorem Grows.refl (c : Snapshot N S) : Grows c c where
  states_le _ s h := ⟨s, h, le_refl s⟩
  unchanged _ _ := rfl
  pending_subset := subset_refl _
  edges_subset _ e h := ⟨e, h, subset_refl e⟩

theorem Grows.trans {c₁ c₂ c₃ : Snapshot N S} (h₁ : Grows c₁ c₂) (h₂ : Grows c₂ c₃) :
    Grows c₁ c₃ where
  states_le n s h := by
    obtain ⟨s₂, hs₂, hle₂⟩ := h₁.states_le n s h
    obtain ⟨s₃, hs₃, hle₃⟩ := h₂.states_le n s₂ hs₂
    exact ⟨s₃, hs₃, hle₂.trans hle₃⟩
  unchanged n hn := by
    rw [h₂.unchanged n hn, h₁.unchanged n fun h => hn (h₂.pending_subset h)]
  pending_subset := h₁.pending_subset.trans h₂.pending_subset
  edges_subset n e h := by
    obtain ⟨e₂, he₂, hsub₂⟩ := h₁.edges_subset n e h
    obtain ⟨e₃, he₃, hsub₃⟩ := h₂.edges_subset n e₂ he₂
    exact ⟨e₃, he₃, hsub₂.trans hsub₃⟩

/-- Growth along a loop whose rounds grow. -/
theorem Grows.foldl {W A : Type*} (view : W → Snapshot N S) {step : W → A → W}
    (h : ∀ w a, Grows (view w) (view (step w a))) (as : List A) (w : W) :
    Grows (view w) (view (as.foldl step w)) := by
  induction as generalizing w with
  | nil => exact .refl _
  | cons a as ih => exact (h w a).trans (ih (step w a))

end Snapshot

namespace Problem

variable (P : Problem N S) (c : Snapshot N S)

/-- The outgoing state of `n` has arrived at `t`. -/
def Absorbed (n : N) (s : S) (t : N) : Prop := ∃ st, c.states t = some st ∧ P.transfer n s ≤ st

/-- The edges of `n` are recorded and its outgoing state has arrived at every successor. -/
def Settled (n : N) (s : S) : Prop :=
  (∃ e, c.edges n = some e ∧ P.succs n s ⊆ e) ∧ ∀ t ∈ P.succs n s, P.Absorbed c n s t

/-- Every active node off the worklist is settled in its current state. -/
def Inv : Prop := ∀ n s, P.active n → c.states n = some s → n ∉ c.pending → P.Settled c n s

variable {P} {c} {c' : Snapshot N S} {n t : N} {s : S}

theorem Absorbed.mono (hgrow : c.Grows c') (h : P.Absorbed c n s t) : P.Absorbed c' n s t := by
  obtain ⟨st, hst, hle⟩ := h
  obtain ⟨st', hst', hle'⟩ := hgrow.states_le t st hst
  exact ⟨st', hst', hle.trans hle'⟩

theorem Settled.mono (hgrow : c.Grows c') (h : P.Settled c n s) : P.Settled c' n s := by
  obtain ⟨⟨e, he, hsub⟩, habs⟩ := h
  obtain ⟨e', he', hsub'⟩ := hgrow.edges_subset n e he
  exact ⟨⟨e', he', hsub.trans hsub'⟩, fun t ht => (habs t ht).mono hgrow⟩

/-- Processing a node: take it off the worklist, then let the snapshot grow until the node is
settled in the state it had. -/
theorem Inv.step (h : P.Inv c) (hgrow : (c.pop n).Grows c')
    (hn : ∀ s, P.active n → c.states n = some s → P.Settled c' n s) : P.Inv c' := by
  intro m s hactive hstate hpending
  rw [hgrow.unchanged m hpending] at hstate
  by_cases hm : m = n
  · subst hm
    exact hn s hactive hstate
  · have hold : m ∉ c.pending := fun hmem => hpending (hgrow.pending_subset ⟨hmem, hm⟩)
    have hpop : P.Settled (c.pop n) m s := h m s hactive hstate hold
    exact Settled.mono hgrow hpop

/-- When nothing is pending, the states are a post-fixpoint. -/
theorem Inv.postFixpoint (h : P.Inv c) (hpending : c.pending = ∅) (hactive : P.active n)
    (hstate : c.states n = some s) : P.Settled c n s :=
  h n s hactive hstate (by rw [hpending]; exact Set.notMem_empty n)

end Problem

end Worklist
