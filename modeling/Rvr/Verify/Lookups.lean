import Rvr.Lib.Bisect
import Rvr.Verify.TargetScan
import Rvr.Verify.ValueSets

/-!
# Enclosing functions and code pointers

`binary_search_le` is a bisection that probes `sorted[mid]`, so its loop ends at the number of
elements that are not above the target.  `scan_ro_segments_for_code_pointers` counts its strides
from the start of the segment data, so it looks at aligned addresses only if the segment starts at
one.
-/

namespace Rvr

/-! ## The greatest entry at or below an address -/

section Search

variable {sorted : List U64} {target : U64}

theorem getElem_le_iff (h : sorted.Pairwise (· ≤ ·)) {i : ℕ} (hi : i < sorted.length) :
    sorted[i] ≤ target ↔ i < (sorted.filter (· ≤ target)).length := by
  induction sorted generalizing i with
  | nil => cases hi
  | cons a rest ih =>
    obtain ⟨ha, hrest⟩ := List.pairwise_cons.1 h
    by_cases hle : a ≤ target
    · rw [List.filter_cons_of_pos (by simpa using hle)]
      cases i with
      | zero => simpa using hle
      | succ i => simpa using ih hrest (Nat.lt_of_succ_lt_succ hi)
    · -- everything behind an element above the target is above it too
      have hnone : (a :: rest).filter (· ≤ target) = [] := by
        rw [List.filter_eq_nil_iff]
        intro b hb hbt
        rcases List.mem_cons.1 hb with rfl | hb
        · exact hle (of_decide_eq_true hbt)
        · exact hle ((ha b hb).trans (of_decide_eq_true hbt))
      rw [hnone]
      refine iff_of_false (fun hget => ?_) (Nat.not_lt_zero i)
      have hmem : (a :: rest)[i] ∈ (a :: rest).filter (· ≤ target) :=
        List.mem_filter.2 ⟨List.getElem_mem hi, decide_eq_true hget⟩
      rw [hnone] at hmem
      cases hmem

/-- The loop is the library's bisection, one place up. -/
theorem binarySearchLoop_eq_search (fuel lo hi : ℕ) :
    binarySearchLoop sorted target fuel lo hi = (Bisect.search (fun lo hi => (lo + hi) / 2 + 1)
      (fun m s => ((sorted[m - 1]?).any (· ≤ target), s)) fuel lo hi ()).1 := by
  induction fuel generalizing lo hi with
  | zero => rfl
  | succ fuel ih =>
    unfold binarySearchLoop Bisect.search
    split
    · dsimp only
      rw [Nat.add_sub_cancel]
      split
      · exact ih _ _
      · exact ih _ _
    · rfl

theorem binarySearchLoop_eq (h : sorted.Pairwise (· ≤ ·)) {fuel : ℕ}
    (hfuel : sorted.length ≤ fuel) :
    binarySearchLoop sorted target fuel 0 sorted.length = (sorted.filter (· ≤ target)).length := by
  have hmid {lo hi : ℕ} (hlt : lo < hi) (_ : hi ≤ sorted.length) :
      lo < (lo + hi) / 2 + 1 ∧ (lo + hi) / 2 + 1 ≤ hi := by omega
  rw [binarySearchLoop_eq_search, Bisect.search_eq_iff hmid
    ⟨Nat.zero_le _, List.length_filter_le ..⟩
    le_rfl hfuel]
  refine Bisect.truthful_of_forall (I := fun _ => True) hmid le_rfl
    (fun m hpos hm s _ => ⟨?_, trivial⟩) _ trivial
  have hget : m - 1 < sorted.length := by omega
  rw [List.getElem?_eq_getElem hget, Option.any_some, decide_eq_decide, getElem_le_iff h hget]
  omega

theorem binarySearchLe_eq_none (h : sorted.Pairwise (· ≤ ·)) :
    binarySearchLe sorted target = none ↔ ∀ x ∈ sorted, ¬ x ≤ target := by
  have hcount := List.length_filter_le (· ≤ target) sorted
  have hempty : (sorted.filter (· ≤ target)).length = 0 ↔ ∀ x ∈ sorted, ¬ x ≤ target := by
    simp
  rw [binarySearchLe, binarySearchLoop_eq h (Nat.le_succ _), ← hempty]
  cases hd : (sorted.filter (· ≤ target)).length with
  | zero => simp
  | succ d =>
    have hget : d < sorted.length := by omega
    simp [List.getElem?_eq_getElem hget]

theorem binarySearchLe_eq_some (h : sorted.Pairwise (· ≤ ·)) {x : U64} :
    binarySearchLe sorted target = some x ↔ IsGreatest {y | y ∈ sorted ∧ y ≤ target} x := by
  have hgreatest {x : U64} (hx : binarySearchLe sorted target = some x) :
      IsGreatest {y | y ∈ sorted ∧ y ≤ target} x := by
    rw [binarySearchLe, binarySearchLoop_eq h (Nat.le_succ _)] at hx
    cases hd : (sorted.filter (· ≤ target)).length with
    | zero =>
      rw [hd] at hx
      cases hx
    | succ d =>
      rw [hd] at hx
      obtain ⟨hlt, rfl⟩ := List.getElem?_eq_some_iff.1 hx
      refine ⟨⟨List.getElem_mem hlt, (getElem_le_iff h hlt).2 (by omega)⟩, ?_⟩
      rintro y ⟨hy, hle⟩
      obtain ⟨j, hj, rfl⟩ := List.getElem_of_mem hy
      have hjd : j ≤ d := by
        have := (getElem_le_iff h hj).1 hle
        omega
      exact h.rel_get_of_le (a := ⟨j, hj⟩) (b := ⟨d, hlt⟩) hjd
  refine ⟨hgreatest, fun hx => ?_⟩
  cases hfound : binarySearchLe sorted target with
  | none => exact absurd hx.1.2 ((binarySearchLe_eq_none h).1 hfound x hx.1.1)
  | some y => rw [(hgreatest hfound).unique hx]

end Search

/-- A map that is filled with what a function gives for the keys of a list. -/
theorem lookup_foldl_some (f : U64 → Option U64) (k : U64) (keys : List U64) (m : AddrMap U64) :
    (keys.foldl (fun m key => match f key with
      | some value => m.insert key value
      | none => m) m).lookup k = if k ∈ keys then (f k).or (m.lookup k) else m.lookup k := by
  induction keys generalizing m with
  | nil => rfl
  | cons key keys ih =>
    rw [List.foldl_cons, ih]
    by_cases heq : k = key
    · subst heq
      cases hf : f k <;> simp
    · have hskip : (match f key with
          | some value => m.insert key value
          | none => m).lookup k = m.lookup k := by
        cases f key with
        | none => rfl
        | some value => exact AList.lookup_insert_ne heq
      simp only [hskip, List.mem_cons, heq, false_or]

/-- `binary_search_le` finds the greatest element that is not above the target, whatever the fuel of
its loop beyond the length of the list, and every leader is mapped to the nearest function entry at
or below it. -/
theorem binarySearchLe_spec :
    (∀ (sorted : List U64) (target : U64), sorted.Pairwise (· ≤ ·) →
      (∀ fuel, sorted.length ≤ fuel → binarySearchLoop sorted target fuel 0 sorted.length =
        (sorted.filter (· ≤ target)).length) ∧
      (∀ x, binarySearchLe sorted target = some x ↔ IsGreatest {y | y ∈ sorted ∧ y ≤ target} x) ∧
      (binarySearchLe sorted target = none ↔ ∀ x ∈ sorted, ¬ x ≤ target)) ∧
    ∀ (X : Xlen) (t : InstructionTable X) (order : HashOrder), ∀ leader ∈ (analyze t order).leaders,
      ∀ func, (analyze t order).blockToFunction.lookup leader = some func ↔
        IsGreatest {entry | entry ∈ (collectPotentialTargets t).functionEntries ∧ entry ≤ leader}
          func := by
  refine ⟨fun sorted target h => ⟨fun fuel => binarySearchLoop_eq h,
    fun x => binarySearchLe_eq_some h,
    binarySearchLe_eq_none h⟩, fun X t order leader hleader func => ?_⟩
  have hsorted := (SortedList.pairwise_ofFinset (collectPotentialTargets t).functionEntries).imp
      le_of_lt
  have hspec := @binarySearchLe_eq_some _ leader hsorted func
  simp only [SortedList.mem_ofFinset] at hspec
  have hlookup : (analyze t order).blockToFunction.lookup leader = _ :=
    lookup_foldl_some (binarySearchLe (analysisContext t).sortedFunctionEntries) leader _ ∅
  rw [← hspec, hlookup.trans (if_pos (SortedList.mem_ofFinset.2 hleader)), AList.lookup_empty,
    Option.or_none]
  rfl

/-- Two equal entries and one above the target. -/
theorem binarySearchLe_spec_duplicates : binarySearchLe [1, 1, 3] 2 = some 1 := by
  refine ((binarySearchLe_spec.1 [1, 1, 3] 2 (by decide)).2.1 1).2 ⟨by decide, ?_⟩
  rintro y ⟨hy, hle⟩
  simp only [List.mem_cons, List.not_mem_nil, or_false] at hy
  rcases hy with rfl | rfl | rfl
  · exact le_rfl
  · exact le_rfl
  · exact absurd hle (by decide)

/-! ## Code pointers in read-only data -/

namespace RoSegment

/-- The little-endian word of so many bytes at an offset of the data. -/
def wordAt (seg : RoSegment) (width offset : ℕ) : U64 := leValue ((seg.data.drop offset).take width)

/-- The upper half of an eight-byte word that fits into four is zero. -/
theorem wordAt_half {seg : RoSegment} {offset : ℕ} (hlen : offset + 8 ≤ seg.data.length)
    (hsmall : seg.wordAt 8 offset ≤ 0xFFFFFFFF) : seg.wordAt 8 offset = seg.wordAt 4 offset := by
  let m : U64 → BitVec 8 := fun a => (seg.data.drop offset).getD a.toNat 0
  have hword {width : ℕ} (hwidth : width ≤ 8) :
      (seg.wordAt width offset).toNat = ByteMemory.readLE m 0 width := by
    have hlength : ((seg.data.drop offset).take width).length = width := by
      rw [List.length_take, List.length_drop]
      omega
    have hbytes : HasBytes m 0 ((seg.data.drop offset).take width) := by
      intro i byte hi
      obtain ⟨hlt, hget⟩ := List.getElem?_eq_some_iff.1 hi
      rw [List.getElem_take] at hget
      have hmod : (0 + BitVec.ofNat 64 i).toNat = i := by
        rw [show (0 : U64) = 0#64 from rfl, BitVec.zero_add, BitVec.toNat_ofNat,
          Nat.mod_eq_of_lt (by omega)]
      simp only [m, hmod, ← hget]
      exact List.getD_eq_getElem ..
    have hlt := (ByteMemory.readLE_lt m 0 width).trans_le
      (Nat.pow_le_pow_right (by decide) (by omega : 8 * width ≤ 64))
    rw [wordAt, leValue_eq hbytes (by omega), hlength, BitVec.toNat_ofNat, Nat.mod_eq_of_lt hlt]
  have h8 := hword (le_refl 8)
  have h4 := hword (show 4 ≤ 8 by decide)
  rw [BitVec.le_def] at hsmall
  apply BitVec.eq_of_toNat_eq
  simp only [ByteMemory.readLE] at h8 h4
  simp at hsmall
  omega

end RoSegment

section Pointers

variable {X : Xlen}

/-- The sizes of the entries that are looked for. -/
def entrySizes (X : Xlen) : List ℕ := if X.value = 64 then [4, 8] else [4]

/-- An entry of the given size at a naturally aligned address that holds the address of an
instruction. -/
structure IsPointer (t : InstructionTable X) (seg : RoSegment) (width offset : ℕ) : Prop where
  inside : offset + width ≤ seg.data.length
  aligned : (seg.start.toNat + offset) % width = 0
  valid : t.isValidPc (seg.wordAt width offset) = true

/-- A word at a multiple of its size from the start of the data. -/
def AtStride (seg : RoSegment) (width : ℕ) (v : U64) : Prop :=
  ∃ i, i * width + width ≤ seg.data.length ∧ seg.wordAt width (i * width) = v

theorem mem_alignedWords {width : ℕ} (hwidth : 0 < width) {seg : RoSegment} {v : U64} :
    v ∈ alignedWords width seg.data ↔ AtStride seg width v := by
  simp only [alignedWords, List.mem_map, List.mem_range, AtStride, Nat.lt_iff_add_one_le,
    Nat.le_div_iff_mul_le hwidth, Nat.succ_mul]
  rfl

theorem mem_foldl_iff {α β : Type} [DecidableEq α] {g : Finset α → β → Finset α} {C : β → Prop}
    {v : α}
    (hg : ∀ s b, v ∈ g s b ↔ v ∈ s ∨ C b) (l : List β) (s : Finset α) :
    v ∈ l.foldl g s ↔ v ∈ s ∨ ∃ b ∈ l, C b := by
  induction l generalizing s with
  | nil => simp
  | cons b l ih => rw [List.foldl_cons, ih, hg, or_assoc, List.exists_mem_cons_iff]

theorem mem_scan_iff {t : InstructionTable X} {targets : Finset U64} {v : U64} :
    v ∈ scanRoSegmentsForCodePointers t targets ↔ v ∈ targets ∨ ∃ seg ∈ t.roSegments,
      t.isValidPc v = true ∧ ∃ width ∈ entrySizes X, AtStride seg width v := by
  have hinsert (s : Finset U64) (w : U64) :
      v ∈ t.insertValid w s ↔ v ∈ s ∨ t.isValidPc v = true ∧ w = v := by
    unfold InstructionTable.insertValid
    split <;> grind
  refine mem_foldl_iff (fun s seg => ?_) _ _
  have h4 : v ∈ (alignedWords 4 seg.data).foldl (fun s w => t.insertValid w s) s ↔
      v ∈ s ∨ t.isValidPc v = true ∧ AtStride seg 4 v := by
    rw [mem_foldl_iff hinsert, ← mem_alignedWords (by decide)]
    grind
  dsimp only
  unfold entrySizes
  split
  case isFalse => simpa using h4
  case isTrue =>
    rw [mem_foldl_iff (C := fun w => v > 0xFFFFFFFF ∧ t.isValidPc v = true ∧ w = v), h4]
    · have h8 : (∃ w ∈ alignedWords 8 seg.data, v > 0xFFFFFFFF ∧ t.isValidPc v = true ∧ w = v) ↔
          v > 0xFFFFFFFF ∧ t.isValidPc v = true ∧ AtStride seg 8 v := by
        rw [← mem_alignedWords (by decide)]
        grind
      -- the words that the filter leaves out have been found as words of four bytes
      have hlow (hsmall : ¬ v > 0xFFFFFFFF) : AtStride seg 8 v → AtStride seg 4 v := by
        rintro ⟨i, hlen, rfl⟩
        have hhalf := RoSegment.wordAt_half hlen (not_lt.1 hsmall)
        exact ⟨2 * i, by omega, by rw [hhalf, show 2 * i * 4 = i * 8 by omega]⟩
      rw [h8]
      simp only [List.mem_cons, List.not_mem_nil, or_false, exists_eq_or_imp, exists_eq_left]
      tauto
    · intro s w
      split
      · rw [hinsert]
        grind
      · grind

/-- Every pointer at a naturally aligned address is found, and nothing else is added than addresses
of instructions, exactly if every pointer in a segment that does not start at a multiple of the
entry size was known before or also stands at a stride from the start of a segment. -/
theorem scanRoSegments_iff (t : InstructionTable X) (targets : Finset U64) :
    ((∀ seg ∈ t.roSegments, ∀ width ∈ entrySizes X, ∀ offset, IsPointer t seg width offset →
        seg.wordAt width offset ∈ scanRoSegmentsForCodePointers t targets) ∧
      ∀ v ∈ scanRoSegmentsForCodePointers t targets, v ∈ targets ∨ t.isValidPc v = true) ↔
    ∀ seg ∈ t.roSegments, ∀ width ∈ entrySizes X, seg.start.toNat % width ≠ 0 → ∀ offset,
      IsPointer t seg width offset → seg.wordAt width offset ∈ targets ∨
        ∃ seg' ∈ t.roSegments, ∃ width' ∈ entrySizes X,
          AtStride seg' width' (seg.wordAt width offset) := by
  constructor
  · rintro ⟨hfound, -⟩ seg hseg width hwidth - offset hpointer
    refine (mem_scan_iff.1 (hfound seg hseg width hwidth offset hpointer)).imp_right ?_
    rintro ⟨seg', hseg', -, hstride⟩
    exact ⟨seg', hseg', hstride⟩
  · intro h
    refine ⟨fun seg hseg width hwidth offset hpointer => mem_scan_iff.2 ?_, fun v hv => ?_⟩
    · by_cases hstart : seg.start.toNat % width = 0
      · -- from an aligned start, aligned addresses are at strides
        have hmul : offset / width * width = offset := by
          refine Nat.div_mul_cancel ((Nat.dvd_add_right (Nat.dvd_of_mod_eq_zero hstart)).1 ?_)
          exact Nat.dvd_of_mod_eq_zero hpointer.aligned
        exact .inr ⟨seg, hseg, hpointer.valid, width, hwidth, offset / width,
          by rw [hmul]; exact hpointer.inside, by rw [hmul]⟩
      · refine (h seg hseg width hwidth hstart offset hpointer).imp_right ?_
        rintro ⟨seg', hseg', hstride⟩
        exact ⟨seg', hseg', hpointer.valid, hstride⟩
    · refine (mem_scan_iff.1 hv).imp_right ?_
      rintro ⟨-, -, hvalid, -⟩
      exact hvalid

/-- `j .` at `0x1000`, and its address at `0x2004` in a segment that starts at `0x2002`. -/
def shiftedPointerTable : InstructionTable .rv64 :=
  selfJumpTable.addRoSegment 0x2002 0x2008 [0x00, 0x00, 0x00, 0x10, 0x00, 0x00]

/-- The pointer at the aligned address is not found. -/
theorem shiftedPointer_missed :
    ∃ seg ∈ shiftedPointerTable.roSegments, IsPointer shiftedPointerTable seg 4 2 ∧
      seg.wordAt 4 2 = 0x1000 ∧ scanRoSegmentsForCodePointers shiftedPointerTable ∅ = ∅ := by
  refine ⟨⟨0x2002, 0x2008, [0x00, 0x00, 0x00, 0x10, 0x00, 0x00]⟩, ?_, ⟨?_, ?_, ?_⟩, ?_⟩
  · exact List.mem_append_right _ (List.mem_singleton_self _)
  all_goals decide +kernel

end Pointers

end Rvr
