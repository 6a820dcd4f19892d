import Rvr.Lib.Layout
import Rvr.Lib.LittleEndian

/-!
# Programs with a footprint

Programs that read and write the bytes of one object and access other objects through pointers that
are stored in it.  A program has an effect for each range of bytes it writes and for each pointer it
uses. `Safe` says that a program keeps an invariant of the bytes and that its effects are permitted;
a program is safe if its parts are.
-/

namespace Footprint

open List

/-- The bytes of an object, by their offsets. -/
abbrev Bytes := ℕ → BitVec 8

/-- The number in the `n` bytes at an offset. -/
def load (m : Bytes) (offset n : ℕ) : ℕ :=
  LittleEndian.toNat ((range n).map fun i => m (offset + i))

/-- Put a number into the `n` bytes at an offset. -/
def store (m : Bytes) (offset n v : ℕ) : Bytes := fun i =>
  if offset ≤ i then ((LittleEndian.bytes n v)[i - offset]?).getD (m i) else m i

theorem store_apply_of_notMem {m : Bytes} {offset n v i : ℕ} (h : ¬ (offset ≤ i ∧ i < offset + n)) :
    store m offset n v i = m i := by
  unfold store
  by_cases hle : offset ≤ i
  · rw [if_pos hle, getElem?_eq_none]
    · rfl
    · rw [LittleEndian.length_bytes]
      omega
  · rw [if_neg hle]

/-- Bytes that are not stored to are loaded as before. -/
theorem load_store_of_disjoint {m : Bytes} {offset n v offset' n' : ℕ}
    (h : offset + n ≤ offset' ∨ offset' + n' ≤ offset) :
    load (store m offset n v) offset' n' = load m offset' n' := by
  unfold load
  congr 1
  refine map_congr_left fun i hi => store_apply_of_notMem ?_
  have hi := mem_range.1 hi
  omega

/-- What was stored is loaded. -/
theorem load_store_self {m : Bytes} {offset n v : ℕ} (h : v < 256 ^ n) :
    load (store m offset n v) offset n = v := by
  have hbytes : (range n).map (fun i => store m offset n v (offset + i)) =
      LittleEndian.bytes n v := by
    apply ext_getElem
    · rw [length_map, length_range, LittleEndian.length_bytes]
    · intro i hi hi'
      rw [getElem_map, getElem_range, store, if_pos (Nat.le_add_right _ _),
        Nat.add_sub_cancel_left, getElem?_eq_getElem hi']
      rfl
  rw [load, hbytes, LittleEndian.toNat_bytes h]

/-- A number in some bytes of an object. -/
structure Cell where
  offset : ℕ
  len : ℕ
  value : ℕ
  deriving DecidableEq

namespace Cell

/-- The bytes of the object hold the number. -/
def Holds (m : Bytes) (c : Cell) : Prop := load m c.offset c.len = c.value

/-- The number fits into its bytes. -/
def Fits (c : Cell) : Prop := c.value < 256 ^ c.len

/-- Two cells have no byte in common. -/
def Apart (c d : Cell) : Prop := c.offset + c.len ≤ d.offset ∨ d.offset + d.len ≤ c.offset

end Cell

/-- Any cells that are apart can be held at the same time. -/
theorem exists_holds {cells : List Cell} (hapart : cells.Pairwise Cell.Apart)
    (hfits : ∀ c ∈ cells, c.Fits) : ∃ m, ∀ c ∈ cells, c.Holds m := by
  induction cells with
  | nil => exact ⟨fun _ => 0, by simp⟩
  | cons c cells ih =>
    obtain ⟨hc, hcells⟩ := pairwise_cons.1 hapart
    obtain ⟨m, hm⟩ := ih hcells fun d hd => hfits d (mem_cons_of_mem c hd)
    refine ⟨store m c.offset c.len c.value, fun d hd => ?_⟩
    rcases mem_cons.1 hd with rfl | hd
    · exact load_store_self (hfits d mem_cons_self)
    · exact (load_store_of_disjoint (hc d hd)).trans (hm d hd)

/-- The cells of some fields of a structure at an offset. -/
def structCells {F : Type} [DecidableEq F] (s : Layout.Struct F) (base : ℕ)
    (values : List (F × ℕ)) :
    List Cell :=
  values.map fun fv => ⟨base + s.offsetOf fv.1, (s.shape fv.1).size, fv.2⟩

theorem pairwise_structCells {F : Type} [DecidableEq F] {s : Layout.Struct F} {base : ℕ}
    {values : List (F × ℕ)} (halign : s.Aligned) (hmem : ∀ fv ∈ values, fv.1 ∈ s.fields)
    (hnodup : (values.map Prod.fst).Nodup) : (structCells s base values).Pairwise Cell.Apart := by
  have hne : values.Pairwise fun fv gw => fv.1 ≠ gw.1 := pairwise_map.1 hnodup
  refine pairwise_map.2 (hne.imp_of_mem fun {fv gw} hfv hgw hne => ?_)
  have hapart := halign.apart (hmem fv hfv) (hmem gw hgw) hne
  unfold Cell.Apart
  dsimp only
  omega

theorem fits_structCells {F : Type} [DecidableEq F] {s : Layout.Struct F} {base : ℕ}
    {values : List (F × ℕ)} (h : ∀ fv ∈ values, fv.2 < 256 ^ (s.shape fv.1).size) :
    ∀ c ∈ structCells s base values, c.Fits := by
  intro c hc
  obtain ⟨fv, hfv, rfl⟩ := mem_map.1 hc
  exact h fv hfv

/-! ## Programs -/

/-- What a program does to memory: it writes bytes of the object, or it accesses an object of the
kind `b` through a pointer. -/
inductive Effect (B : Type)
  | write (offset len : ℕ)
  | through (b : B) (pointer : ℕ)
  deriving DecidableEq

/-- A program: what it returns, the bytes it leaves, and its effects in order. -/
def Prog (B α : Type) := Bytes → α × Bytes × List (Effect B)

variable {B α β : Type}

namespace Prog

instance : Monad (Prog B) where
  pure a := fun m => (a, m, [])
  bind p f := fun m =>
    let (a, m, effects) := p m
    let (b, m, effects') := f a m
    (b, m, effects ++ effects')

/-- The bytes that a program leaves. -/
def bytes (p : Prog B α) (m : Bytes) : Bytes := (p m).2.1

/-- The effects of a program. -/
def effects (p : Prog B α) (m : Bytes) : List (Effect B) := (p m).2.2

/-- Read a field. -/
def get (offset n : ℕ) : Prog B ℕ := fun m => (load m offset n, m, [])

/-- Write a field. -/
def set (offset n v : ℕ) : Prog B Unit := fun m => ((), store m offset n v, [.write offset n])

/-- Access an object through the pointer at an offset. -/
def deref (b : B) (offset : ℕ) : Prog B Unit := fun m => ((), m, [.through b (load m offset 8)])

section

variable (m : Bytes) (offset n v : ℕ) (b : B)

@[simp] theorem value_get : (get offset n : Prog B ℕ) m = (load m offset n, m, []) := rfl

@[simp] theorem bytes_get : (get offset n : Prog B ℕ).bytes m = m := rfl

@[simp] theorem effects_get : (get offset n : Prog B ℕ).effects m = [] := rfl

@[simp] theorem bytes_set : (set offset n v : Prog B Unit).bytes m = store m offset n v := rfl

@[simp] theorem effects_set : (set offset n v : Prog B Unit).effects m = [.write offset n] := rfl

@[simp] theorem bytes_deref : (deref b offset).bytes m = m := rfl

@[simp] theorem effects_deref : (deref b offset).effects m = [.through b (load m offset 8)] := rfl

end

@[simp] theorem bytes_bind (p : Prog B α) (f : α → Prog B β) (m : Bytes) :
    (p >>= f).bytes m = (f (p m).1).bytes (p.bytes m) := rfl

@[simp] theorem effects_bind (p : Prog B α) (f : α → Prog B β) (m : Bytes) :
    (p >>= f).effects m = p.effects m ++ (f (p m).1).effects (p.bytes m) := rfl

theorem effects_forM_cons (a : α) (as : List α) (f : α → Prog B Unit) (m : Bytes) :
    ((a :: as).forM f).effects m = (f a).effects m ++ (as.forM f).effects ((f a).bytes m) := rfl

end Prog

/-- The program keeps the invariant, and has only effects that are permitted. -/
def Safe (inv : Bytes → Prop) (permitted : Effect B → Prop) (p : Prog B α) : Prop :=
  ∀ m, inv m → inv (p.bytes m) ∧ ∀ e ∈ p.effects m, permitted e

section Safe

variable {inv : Bytes → Prop} {permitted : Effect B → Prop}

theorem safe_pure (a : α) : Safe inv permitted (pure a : Prog B α) :=
  fun _ hm => ⟨hm, by rintro e ⟨⟩⟩

theorem Safe.bind {p : Prog B α} {f : α → Prog B β} (hp : Safe inv permitted p)
    (hf : ∀ a, Safe inv permitted (f a)) : Safe inv permitted (p >>= f) := by
  intro m hm
  obtain ⟨hinv, hpermitted⟩ := hp m hm
  obtain ⟨hinv', hpermitted'⟩ := hf (p m).1 _ hinv
  refine ⟨hinv', fun e he => ?_⟩
  rcases mem_append.1 he with he | he
  · exact hpermitted e he
  · exact hpermitted' e he

theorem safe_get (offset n : ℕ) : Safe inv permitted (Prog.get offset n) :=
  fun _ hm => ⟨hm, by rintro e ⟨⟩⟩

theorem safe_set {offset n v : ℕ} (hpermitted : permitted (.write offset n))
    (hinv : ∀ m, inv m → inv (store m offset n v)) : Safe inv permitted (Prog.set offset n v) := by
  intro m hm
  refine ⟨hinv m hm, fun e he => ?_⟩
  rw [mem_singleton.1 he]
  exact hpermitted

theorem safe_deref {b : B} {offset : ℕ}
    (h : ∀ m, inv m → permitted (.through b (load m offset 8))) :
    Safe inv permitted (Prog.deref b offset) := by
  intro m hm
  refine ⟨hm, fun e he => ?_⟩
  rw [mem_singleton.1 he]
  exact h m hm

theorem safe_ite {c : Prop} [Decidable c] {p q : Prog B α} (hp : Safe inv permitted p)
    (hq : Safe inv permitted q) : Safe inv permitted (if c then p else q) := by
  split_ifs
  · exact hp
  · exact hq

/-- A loop over safe programs is safe. -/
theorem safe_forM {as : List α} {f : α → Prog B Unit} (hf : ∀ a ∈ as, Safe inv permitted (f a)) :
    Safe inv permitted (as.forM f) := by
  induction as with
  | nil => exact safe_pure ()
  | cons a as ih =>
    exact (hf a mem_cons_self).bind fun _ => ih fun a' ha' => hf a' (mem_cons_of_mem a ha')

end Safe

end Footprint
