import Mathlib

/-!
# Layout of C structures

The layout rule that C compilers and `repr(C)` share: fields are placed in order, each at the next
offset that is a multiple of its alignment, and the size is rounded up to the largest alignment.
-/

namespace Layout

/-- The size and alignment of a type. -/
structure Shape where
  size : ℕ
  align : ℕ
  deriving DecidableEq, Repr

/-- A scalar type is aligned to its size. -/
def scalar (size : ℕ) : Shape := ⟨size, size⟩

/-- An array of elements. -/
def array (elem : Shape) (count : ℕ) : Shape := ⟨elem.size * count, elem.align⟩

/-- The next multiple of an alignment. -/
def alignUp (x align : ℕ) : ℕ := (x + align - 1) / align * align

/-- The offsets of fields that are placed from a position on. -/
def offsetsFrom : ℕ → List Shape → List ℕ
  | _, [] => []
  | pos, f :: fs => alignUp pos f.align :: offsetsFrom (alignUp pos f.align + f.size) fs

/-- The position after the fields. -/
def endFrom : ℕ → List Shape → ℕ
  | pos, [] => pos
  | pos, f :: fs => endFrom (alignUp pos f.align + f.size) fs

/-- The offset of a field. -/
def offset (fields : List Shape) (i : ℕ) : ℕ := (offsetsFrom 0 fields)[i]?.getD 0

/-- A structure with these fields. -/
def struct (fields : List Shape) : Shape :=
  let align := fields.foldr (fun f a => max f.align a) 1
  ⟨alignUp (endFrom 0 fields) align, align⟩

/-! ## Fields do not overlap -/

theorem le_alignUp {x align : ℕ} (h : 0 < align) : x ≤ alignUp x align := by
  have hlt := Nat.lt_div_mul_add (a := x + align - 1) h
  unfold alignUp
  omega

theorem length_offsetsFrom (pos : ℕ) (fields : List Shape) :
    (offsetsFrom pos fields).length = fields.length := by
  induction fields generalizing pos with
  | nil => rfl
  | cons f fs ih => rw [offsetsFrom, List.length_cons, List.length_cons, ih]

theorem struct_align_pos (fields : List Shape) : 0 < (struct fields).align := by
  induction fields with
  | nil => exact Nat.one_pos
  | cons f fs ih => exact Nat.lt_of_lt_of_le ih (Nat.le_max_right _ _)

section Offsets

variable {fields : List Shape} (halign : ∀ f ∈ fields, 0 < f.align)

include halign

theorem le_endFrom (pos : ℕ) : pos ≤ endFrom pos fields := by
  induction fields generalizing pos with
  | nil => exact Nat.le_refl _
  | cons f fs ih =>
    have hpos := @le_alignUp pos f.align (halign f List.mem_cons_self)
    have hrest := ih (fun g hg => halign g (List.mem_cons_of_mem f hg))
        (alignUp pos f.align + f.size)
    rw [endFrom]
    omega

/-- Fields are placed from the position on, and before the end. -/
theorem offsetsFrom_bounds (pos : ℕ) {i o : ℕ} {f : Shape} (hf : fields[i]? = some f)
    (ho : (offsetsFrom pos fields)[i]? = some o) : pos ≤ o ∧ o + f.size ≤ endFrom pos fields := by
  induction fields generalizing pos i with
  | nil => cases hf
  | cons g gs ih =>
    have hpos := @le_alignUp pos g.align (halign g List.mem_cons_self)
    have hgs : ∀ f ∈ gs, 0 < f.align := fun f hf => halign f (List.mem_cons_of_mem g hf)
    cases i with
    | zero =>
      cases hf
      cases ho
      exact ⟨hpos, le_endFrom hgs _⟩
    | succ i =>
      obtain ⟨hle, hend⟩ := ih hgs (alignUp pos g.align + g.size) hf ho
      exact ⟨by omega, hend⟩

/-- A field is placed after the earlier ones. -/
theorem offsetsFrom_lt (pos : ℕ) {i j o o' : ℕ} {f g : Shape} (hij : i < j)
    (hf : fields[i]? = some f) (hg : fields[j]? = some g)
    (ho : (offsetsFrom pos fields)[i]? = some o) (ho' : (offsetsFrom pos fields)[j]? = some o') :
    o + f.size ≤ o' := by
  induction fields generalizing pos i j with
  | nil => cases hf
  | cons k ks ih =>
    have hks : ∀ f ∈ ks, 0 < f.align := fun f hf => halign f (List.mem_cons_of_mem k hf)
    obtain ⟨j, rfl⟩ := Nat.exists_eq_succ_of_ne_zero (Nat.ne_zero_of_lt hij)
    cases i with
    | zero =>
      cases hf
      cases ho
      exact (offsetsFrom_bounds hks _ hg ho').1
    | succ i => exact ih hks _ (Nat.succ_lt_succ_iff.1 hij) hf hg ho ho'

end Offsets

/-! ## Structures with named fields -/

/-- A structure whose fields have names. -/
structure Struct (F : Type) where
  fields : List F
  shape : F → Shape

namespace Struct

variable {F : Type} [DecidableEq F] (s : Struct F)

/-- `offsetof`. -/
def offsetOf (f : F) : ℕ := offset (s.fields.map s.shape) (s.fields.idxOf f)

/-- The structure as the type of a field. -/
def toShape : Shape := struct (s.fields.map s.shape)

/-- `sizeof`. -/
def sizeOf : ℕ := s.toShape.size

/-- All fields have an alignment. -/
def Aligned : Prop := ∀ f ∈ s.fields, 0 < (s.shape f).align

variable {s} {f g : F}

omit [DecidableEq F] in
theorem Aligned.map (h : s.Aligned) : ∀ k ∈ s.fields.map s.shape, 0 < k.align := by
  intro k hk
  obtain ⟨f, hf, rfl⟩ := List.mem_map.1 hk
  exact h f hf

theorem getElem?_idxOf (hf : f ∈ s.fields) :
    (s.fields.map s.shape)[s.fields.idxOf f]? = some (s.shape f) := by
  have hlt := List.idxOf_lt_length_of_mem hf
  rw [List.getElem?_map, List.getElem?_eq_getElem hlt, List.getElem_idxOf]
  rfl

theorem offsetsFrom_idxOf (hf : f ∈ s.fields) :
    (offsetsFrom 0 (s.fields.map s.shape))[s.fields.idxOf f]? = some (s.offsetOf f) := by
  have hlt : s.fields.idxOf f < (offsetsFrom 0 (s.fields.map s.shape)).length := by
    rw [length_offsetsFrom, List.length_map]
    exact List.idxOf_lt_length_of_mem hf
  rw [offsetOf, offset, List.getElem?_eq_getElem hlt]
  rfl

/-- Different fields have no byte in common. -/
theorem Aligned.apart (h : s.Aligned) (hf : f ∈ s.fields) (hg : g ∈ s.fields) (hne : f ≠ g) :
    s.offsetOf f + (s.shape f).size ≤ s.offsetOf g ∨
      s.offsetOf g + (s.shape g).size ≤ s.offsetOf f := by
  have hidx : s.fields.idxOf f ≠ s.fields.idxOf g := fun heq => hne ((List.idxOf_inj hf).1 heq)
  rcases Nat.lt_or_gt_of_ne hidx with hlt | hlt
  · exact .inl (offsetsFrom_lt h.map 0 hlt (getElem?_idxOf hf) (getElem?_idxOf hg)
      (offsetsFrom_idxOf hf) (offsetsFrom_idxOf hg))
  · exact .inr (offsetsFrom_lt h.map 0 hlt (getElem?_idxOf hg) (getElem?_idxOf hf)
      (offsetsFrom_idxOf hg) (offsetsFrom_idxOf hf))

/-- Fields lie in the structure. -/
theorem Aligned.offsetOf_add_size_le (h : s.Aligned) (hf : f ∈ s.fields) :
    s.offsetOf f + (s.shape f).size ≤ s.sizeOf := by
  have hend := (offsetsFrom_bounds h.map 0 (getElem?_idxOf hf) (offsetsFrom_idxOf hf)).2
  exact Nat.le_trans hend (le_alignUp (struct_align_pos _))

end Struct

end Layout
