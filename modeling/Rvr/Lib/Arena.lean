import Mathlib

/-!
# Arenas

An arena is the part of an address space between a lowest address and a top that moves, together
with the regions handed out from it.  Regions are handed out at the top, so they stay apart from
each other as long as the top is never moved below the end of one.
-/

namespace Arena

/-- The bytes from a first one on. -/
structure Region where
  start : ℕ
  len : ℕ
  deriving DecidableEq, Repr

namespace Region

/-- The first byte after a region. -/
def stop (r : Region) : ℕ := r.start + r.len

/-- The bytes of a region. -/
def bytes (r : Region) : Set ℕ := Set.Ico r.start r.stop

theorem disjoint_bytes_of_le {r s : Region} (h : s.stop ≤ r.start) : Disjoint r.bytes s.bytes := by
  rw [Set.disjoint_left]
  rintro x ⟨hr, -⟩ ⟨-, hs⟩
  exact absurd (hs.trans_le h) (not_lt.2 hr)

end Region

end Arena

/-- An arena with the regions handed out so far, the last one first. -/
structure Arena where
  low : ℕ
  top : ℕ
  regions : List Arena.Region
  low_le_top : low ≤ top
  stop_le_top : ∀ r ∈ regions, r.stop ≤ top
  pairwise_disjoint : regions.Pairwise fun r s => Disjoint r.bytes s.bytes

namespace Arena

/-- The arena from an address on, with nothing handed out. -/
def empty (low : ℕ) : Arena where
  low
  top := low
  regions := []
  low_le_top := le_rfl
  stop_le_top := by simp
  pairwise_disjoint := .nil

/-- Move the top, to no address below the end of a region. -/
def moveTop (a : Arena) (top : ℕ) (hlow : a.low ≤ top) (hstop : ∀ r ∈ a.regions, r.stop ≤ top) :
    Arena :=
  { a with
    top
    low_le_top := hlow
    stop_le_top := hstop }

/-- Hand out a region that lies between the top and the new top. -/
def allocate (a : Arena) (r : Region) (top : ℕ) (hstart : a.top ≤ r.start) (hstop : r.stop ≤ top) :
    Arena where
  low := a.low
  top
  regions := r :: a.regions
  low_le_top := by
    have hlow := a.low_le_top
    have hlen : r.start ≤ r.stop := Nat.le_add_right _ _
    omega
  stop_le_top := by
    intro s hs
    rcases List.mem_cons.1 hs with rfl | hs
    · exact hstop
    · have hbelow := a.stop_le_top s hs
      have hlen : r.start ≤ r.stop := Nat.le_add_right _ _
      omega
  pairwise_disjoint := List.pairwise_cons.2
    ⟨fun s hs => Region.disjoint_bytes_of_le ((a.stop_le_top s hs).trans hstart),
      a.pairwise_disjoint⟩

end Arena
