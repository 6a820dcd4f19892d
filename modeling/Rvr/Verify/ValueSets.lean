import Rvr.Cfg.Analysis
import Rvr.Ir.Fold
import Rvr.Lib.Word

/-!
# The sets that abstract values stand for

Which values an abstract register value admits, which set the sums of the transfer function collect,
and what a read-only segment says about guest memory.
-/

namespace Rvr

namespace RegisterValue

/-- The register may hold the value: nothing is known about it, or the value is in the set. -/
def Admits (r : RegisterValue) (v : U64) : Prop := r.kind = .unknown ∨ v ∈ r.values

@[simp] theorem admits_unknown (v : U64) : unknown.Admits v := .inl rfl

@[simp] theorem admits_constant {c v : U64} : (constant c).Admits v ↔ v = c := by
  simp [Admits]

/-! ## Collecting values -/

/-- The value stands for exactly the set `S`, or has given up because `S` is too large. -/
def Collects (r : RegisterValue) (S : Finset U64) : Prop :=
  (r.kind = .constant ∧ ∀ v, v ∈ r.values ↔ v ∈ S) ∨ (r.kind = .unknown ∧ maxValues < S.card)

variable {r : RegisterValue} {S : Finset U64}

theorem card_of_values (h : ∀ v, v ∈ r.values ↔ v ∈ S) :
    S.card = r.values.length := by
  have heq : r.values.toFinset = S := Finset.ext fun v => by rw [List.mem_toFinset, h]
  rw [← heq, List.toFinset_card_of_nodup (r.sorted.imp ne_of_lt)]

theorem Collects.admits_iff (h : r.Collects S) (v : U64) :
    r.Admits v ↔ maxValues < S.card ∨ v ∈ S := by
  rcases h with ⟨hkind, hvals⟩ | ⟨hkind, hcard⟩
  · have hle : ¬ maxValues < S.card := by
      rw [card_of_values hvals]
      exact Nat.not_lt.2 r.length_le
    simp [Admits, hkind, hvals, hle]
  · simp [Admits, hkind, hcard]

theorem collects_constant (c : U64) : (constant c).Collects {c} :=
  .inl ⟨rfl, fun v => by simp⟩

theorem Collects.addValue (h : r.Collects S) (v : U64) :
    (r.addValue v).Collects (insert v S) := by
  unfold RegisterValue.addValue
  rcases h with ⟨hkind, hvals⟩ | ⟨hkind, hcard⟩
  · rw [if_neg (not_not.2 hkind)]
    split_ifs with hmem hlen
    · rw [Finset.insert_eq_self.2 ((hvals v).1 hmem)]
      exact .inl ⟨hkind, hvals⟩
    · refine .inr ⟨rfl, ?_⟩
      rw [Finset.card_insert_of_notMem fun hS => hmem ((hvals v).2 hS), card_of_values hvals]
      omega
    · exact .inl ⟨rfl, fun w => by rw [List.mem_orderedInsert, Finset.mem_insert, hvals]⟩
  · rw [if_pos (by rw [hkind]; decide)]
    exact .inr ⟨hkind, hcard.trans_le (Finset.card_le_card (Finset.subset_insert v S))⟩

/-- A loop that collects a set in each round, once `base` has been collected. -/
theorem Collects.foldl {g : RegisterValue → U64 → RegisterValue} (base : Finset U64)
    (sets : U64 → Finset U64)
    (hg : ∀ r S a, base ⊆ S → r.Collects S → (g r a).Collects (S ∪ sets a)) (as : List U64)
    (hbase : base ⊆ S) (h : r.Collects S) :
    (as.foldl g r).Collects (S ∪ as.toFinset.biUnion sets) := by
  induction as generalizing r S with
  | nil => simpa using h
  | cons a as ih =>
    have hstep := ih (hbase.trans Finset.subset_union_left) (hg r S a hbase h)
    rwa [List.toFinset_cons, Finset.biUnion_insert, ← Finset.union_assoc]

end RegisterValue

open RegisterValue

/-! ## The sums of the transfer function -/

theorem collects_addImmediate {base : RegisterValue} (h : base.kind = .constant) (imm : BitVec 32) :
    (addImmediate base imm).Collects (base.values.toFinset.image (addSigned · imm)) := by
  unfold addImmediate
  cases hvals : base.values with
  | nil => exact absurd hvals (values_ne_nil h)
  | cons first rest =>
    have hloop := Collects.foldl (g := fun r v => r.addValue (addSigned v imm)) ∅
      (fun v => {addSigned v imm})
      (fun r S v _ hr => by
        rw [Finset.union_comm]
        exact hr.addValue _)
      rest (Finset.empty_subset _) (collects_constant (addSigned first imm))
    rw [List.toFinset_cons, Finset.image_insert]
    rwa [Finset.biUnion_singleton] at hloop

/-- The sums of all pairs of values. -/
def pairSums (lhs rhs : RegisterValue) : Finset U64 :=
  Finset.image₂ (· + ·) lhs.values.toFinset rhs.values.toFinset

theorem collects_addPairs {lhs rhs : RegisterValue} (hl : lhs.kind = .constant)
    (hr : rhs.kind = .constant) : (addPairs lhs rhs).Collects (pairSums lhs rhs) := by
  unfold addPairs
  cases hlvals : lhs.values with
  | nil => exact absurd hlvals (values_ne_nil hl)
  | cons l₀ ls =>
    cases hrvals : rhs.values with
    | nil => exact absurd hrvals (values_ne_nil hr)
    | cons r₀ rs =>
      -- skipping the first pair loses nothing: its sum starts the set
      have hpair : ∀ l (acc : RegisterValue) S r, {l₀ + r₀} ⊆ S → acc.Collects S →
          (if l = l₀ ∧ r = r₀ then acc else acc.addValue (l + r)).Collects (S ∪ {l + r}) := by
        intro l acc S r hbase hacc
        rw [Finset.union_comm, ← Finset.insert_eq]
        split_ifs with hfirst
        · rw [hfirst.1, hfirst.2, Finset.insert_eq_self.2 (Finset.singleton_subset_iff.1 hbase)]
          exact hacc
        · exact hacc.addValue _
      have hloop := Collects.foldl {l₀ + r₀}
        (fun l => (r₀ :: rs).toFinset.biUnion fun r => {l + r})
        (fun acc S l hbase hacc => Collects.foldl {l₀ + r₀} (fun r => {l + r}) (hpair l)
          (r₀ :: rs) hbase hacc)
        (l₀ :: ls) (Finset.Subset.refl _) (collects_constant (l₀ + r₀))
      have hsets : {l₀ + r₀} ∪ (l₀ :: ls).toFinset.biUnion
          (fun l => (r₀ :: rs).toFinset.biUnion fun r => {l + r}) = pairSums lhs rhs := by
        ext x
        simp only [pairSums, hlvals, hrvals, Finset.mem_union, Finset.mem_singleton,
          Finset.mem_biUnion, Finset.mem_image₂]
        constructor
        · rintro (rfl | ⟨l, hl, r, hr, rfl⟩)
          · exact ⟨l₀, by simp, r₀, by simp, rfl⟩
          · exact ⟨l, hl, r, hr, rfl⟩
        · rintro ⟨l, hl, r, hr, rfl⟩
          exact .inr ⟨l, hl, r, hr, rfl⟩
      rwa [hsets] at hloop

/-! ## Read-only segments -/

section ReadOnly

open ByteMemory

variable {X : Xlen}

/-- Memory `m` has the given bytes from `addr` on. -/
def HasBytes {a : ℕ} (m : BitVec a → BitVec 8) (addr : BitVec a) (bytes : List (BitVec 8)) : Prop :=
  ∀ i byte, bytes[i]? = some byte → m (addr + BitVec.ofNat a i) = byte

theorem HasBytes.tail {a : ℕ} {m : BitVec a → BitVec 8} {addr : BitVec a} {byte : BitVec 8}
    {bytes : List (BitVec 8)} (h : HasBytes m addr (byte :: bytes)) :
    HasBytes m (addr + 1) bytes := by
  intro i b hb
  have hbyte := h (i + 1) b (by rwa [List.getElem?_cons_succ])
  rwa [Nat.add_comm, BitVec.ofNat_add, ← BitVec.add_assoc] at hbyte

/-- The loop that assembles a value has added the bytes of memory above those already read. -/
theorem toNat_leLoop {a : ℕ} {m : BitVec a → BitVec 8} (bytes : List (BitVec 8)) {addr : BitVec a}
    (h : HasBytes m addr bytes) (k : ℕ) {acc : U64} (hacc : acc.toNat < 2 ^ (k * 8))
    (hlen : (k + bytes.length) * 8 ≤ 64) :
    ((bytes.zipIdx k).foldl (fun value (byte, i) => value ||| (byte.setWidth 64 : U64) <<< (i * 8))
      acc).toNat = acc.toNat + readLE m addr bytes.length * 2 ^ (k * 8) := by
  induction bytes generalizing addr k acc with
  | nil => simp [readLE]
  | cons byte bytes ih =>
    rw [List.length_cons] at hlen
    have hpow : 2 ^ ((k + 1) * 8) = 256 * 2 ^ (k * 8) := by
      rw [Nat.succ_mul, Nat.pow_add, Nat.mul_comm]
    have hle : 2 ^ ((k + 1) * 8) ≤ 2 ^ 64 := Nat.pow_le_pow_right (by decide) (by omega)
    have hbyte : byte.toNat * 2 ^ (k * 8) < 2 ^ ((k + 1) * 8) := by
      rw [hpow]
      exact Nat.mul_lt_mul_of_pos_right byte.isLt (Nat.two_pow_pos _)
    have hshift : ((byte.setWidth 64 : U64) <<< (k * 8)).toNat = byte.toNat * 2 ^ (k * 8) := by
      have hwide : (byte.setWidth 64 : U64).toNat = byte.toNat := by
        rw [BitVec.toNat_setWidth, Nat.mod_eq_of_lt (byte.isLt.trans (by decide))]
      rw [Word.toNat_shiftLeft_of_lt (by rw [hwide]; exact hbyte.trans_le hle), hwide]
    have hor : (acc ||| (byte.setWidth 64 : U64) <<< (k * 8)).toNat
        = acc.toNat + byte.toNat * 2 ^ (k * 8) := by
      rw [BitVec.or_comm, Word.toNat_or_of_disjoint (k * 8) (by rw [hshift, Nat.mul_mod_left]) hacc,
        hshift, Nat.add_comm]
    have hnext : byte.toNat * 2 ^ (k * 8) + 2 ^ (k * 8) ≤ 2 ^ ((k + 1) * 8) := by
      rw [hpow, ← Nat.succ_mul]
      exact Nat.mul_le_mul_right _ byte.isLt
    rw [List.zipIdx_cons, List.foldl_cons, ih h.tail (k + 1) (by rw [hor]; omega) (by omega), hor,
      List.length_cons, readLE, ← h 0 byte rfl]
    simp only [BitVec.add_zero]
    ring

theorem leValue_eq {a : ℕ} {m : BitVec a → BitVec 8} {bytes : List (BitVec 8)} {addr : BitVec a}
    (h : HasBytes m addr bytes) (hlen : bytes.length ≤ 8) :
    RoSegment.leValue bytes = BitVec.ofNat 64 (readLE m addr bytes.length) := by
  have hlt : readLE m addr bytes.length < 2 ^ 64 :=
    (readLE_lt m addr _).trans_le (Nat.pow_le_pow_right (by decide) (by omega))
  apply BitVec.eq_of_toNat_eq
  rw [RoSegment.leValue, toNat_leLoop bytes h 0 (by simp) (by omega), BitVec.toNat_ofNat,
    Nat.mod_eq_of_lt hlt]
  simp

/-- The guest's memory holds the data of the table's read-only segments. -/
def InstructionTable.HeldBy (t : InstructionTable X) (s : GuestState X) : Prop :=
  ∀ seg ∈ t.roSegments, ∀ i byte, seg.data[i]? = some byte →
    s.mem (X.fromU64 (seg.start + BitVec.ofNat 64 i)) = byte

/-- What the table reads is what the guest reads. -/
theorem InstructionTable.HeldBy.readReadonly {t : InstructionTable X} {s : GuestState X}
    (h : t.HeldBy s) {addr raw : U64} {size : ℕ} (hsize : size ≤ 8)
    (hread : t.readReadonly addr size = some raw) :
    raw = BitVec.ofNat 64 (readLE s.mem (X.fromU64 addr) size) := by
  obtain ⟨seg, hseg, hread⟩ := List.exists_of_findSome?_eq_some hread
  unfold RoSegment.read at hread
  dsimp only at hread
  split_ifs at hread with hin hlen
  set offset := (addr - seg.start).toNat with hoffset
  have hlength : ((seg.data.drop offset).take size).length = size := by
    rw [List.length_take, List.length_drop]
    omega
  have hbytes : HasBytes s.mem (X.fromU64 addr) ((seg.data.drop offset).take size) := by
    intro i byte hi
    have hdata : seg.data[offset + i]? = some byte := by
      rw [List.getElem?_take] at hi
      split_ifs at hi
      rwa [← List.getElem?_drop]
    have haddr : seg.start + BitVec.ofNat 64 (offset + i) = addr + BitVec.ofNat 64 i := by
      rw [BitVec.ofNat_add, BitVec.ofNat_toNat, BitVec.setWidth_eq, ← BitVec.add_assoc,
        BitVec.add_comm seg.start, BitVec.sub_add_cancel]
    have hmem := h seg hseg (offset + i) byte hdata
    rw [haddr, Xlen.fromU64_add] at hmem
    rw [← hmem]
    congr 2
    exact (BitVec.setWidth_ofNat_of_le X.value_le i).symm
  have hvalue := leValue_eq hbytes (by rw [hlength]; exact hsize)
  rw [hlength] at hvalue
  exact (Option.some.inj hread).symm.trans hvalue

end ReadOnly

end Rvr
