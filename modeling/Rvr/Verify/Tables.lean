import Rvr.Emit.Pipeline
import Rvr.Isa.Exec
import Rvr.Lib.AssocMap

/-!
# Decoded tables

An instruction table is filled by decoding segments of code, so every instruction of it was decoded
at the address of its slot (`DecodedBy`).  Of such a table `lift_to_ir_as_single_blocks` makes
exactly one block for each instruction, found under the address of the instruction.
-/

namespace Rvr

variable {X : Xlen}

namespace InstructionTable

/-- The address of a slot. -/
def slotAddr (t : InstructionTable X) (index : ℕ) : U64 :=
  t.baseAddress + BitVec.ofNat 64 (slotSize * index)

/-- Every instruction was decoded at the address of its slot, which is an address of the guest. -/
def DecodedBy (registry : ExtensionRegistry X) (t : InstructionTable X) : Prop :=
  ∀ index d, t.get index = some d →
    ∃ bytes pc, registry.decode bytes pc = some d ∧ Xlen.toU64 pc = t.slotAddr index

/-! ## Filling a table -/

variable {d : DecodedInstr X}

section Filling

variable {handler : DecodedInstr X → InstrIR X} {code : List (BitVec 8)} {base segmentStart : U64}
  {startSlot : ℕ}

/-- The slots of a decoded table. -/
def SlotsDecodedBy (registry : ExtensionRegistry X) (base : U64) (slots : List (Slot X)) : Prop :=
  ∀ index d, (slots[index]?).bind Slot.instr = some d →
    ∃ bytes pc, registry.decode bytes pc = some d ∧
      Xlen.toU64 pc = base + BitVec.ofNat 64 (slotSize * index)

theorem SlotsDecodedBy.set {registry : ExtensionRegistry X} {slots : List (Slot X)}
    (h : SlotsDecodedBy registry base slots) {index : ℕ} {slot : Slot X}
    (hslot : ∀ d, slot.instr = some d → ∃ bytes pc, registry.decode bytes pc = some d ∧
      Xlen.toU64 pc = base + BitVec.ofNat 64 (slotSize * index)) :
    SlotsDecodedBy registry base (slots.set index slot) := by
  intro i d hi
  rw [List.getElem?_set] at hi
  split_ifs at hi with hindex hlength
  · subst hindex
    exact hslot d hi
  · cases hi
  · exact h i d hi

theorem slotsDecodedBy_replicate (registry : ExtensionRegistry X) (base : U64) (n : ℕ) :
    SlotsDecodedBy registry base (List.replicate n Slot.default) := by
  intro i d hi
  rw [List.getElem?_replicate] at hi
  split_ifs at hi <;> cases hi

theorem instr_ofInstr {instr : DecodedInstr X} (h : (Slot.ofInstr instr).instr = some d) :
    d = instr := by
  unfold Slot.ofInstr at h
  split_ifs at h <;> cases h
  rfl

/-- Decoding keeps the slots decoded: the address of a slot and the offset in the segment advance
together. -/
theorem slotsDecodedBy_decodeLoop (hstart : segmentStart =
    base + BitVec.ofNat 64 (slotSize * startSlot))
    (hfit : segmentStart.toNat + code.length ≤ 2 ^ X.value) {fuel offset : ℕ}
    (heven : offset % slotSize = 0) {slots : List (Slot X)}
    (h : SlotsDecodedBy (.standardWith X handler) base slots) :
    SlotsDecodedBy (.standardWith X handler) base
      (decodeLoop (.standardWith X handler) code startSlot segmentStart fuel offset slots) := by
  induction fuel generalizing offset slots with
  | zero => exact h
  | succ fuel ih =>
    unfold decodeLoop
    dsimp only
    split_ifs with hoffset hfull
    · exact h
    · split
      next instr hdecode =>
        -- a decoded instruction has two or four bytes
        have hsize : instr.size = 2 ∨ instr.size = 4 := by
          rcases standard_decode_at hdecode with hat | hat
          · exact .inl hat.2
          · exact .inr hat.2
        refine ih (by unfold slotSize at *; omega) ?_
        have hset : SlotsDecodedBy (.standardWith X handler) base
            (slots.set (startSlot + offset / slotSize) (.ofInstr instr)) := by
          refine h.set fun d hd => ⟨_, _, instr_ofInstr hd ▸ hdecode, ?_⟩
          have hlt : (segmentStart + BitVec.ofNat 64 offset).toNat < 2 ^ X.value := by
            have hle : (segmentStart + BitVec.ofNat 64 offset).toNat
                ≤ segmentStart.toNat + offset := by
              exact (Nat.mod_le _ _).trans (Nat.add_le_add_left (Nat.mod_le _ _) _)
            unfold slotSize at *
            omega
          have haddr : Xlen.toU64 (X.fromU64 (segmentStart + BitVec.ofNat 64 offset))
              = segmentStart + BitVec.ofNat 64 offset := by
            rw [← BitVec.toNat_inj, Xlen.toNat_toU64, Xlen.toNat_fromU64_of_lt hlt]
          have hindex : slotSize * (startSlot + offset / slotSize) =
              slotSize * startSlot + offset := by
            unfold slotSize at *
            omega
          rw [haddr, hindex, hstart, BitVec.ofNat_add, BitVec.add_assoc]
        split_ifs
        · exact hset.set fun d hd => by cases hd
        · exact hset
      · exact ih (by unfold slotSize at *; omega) h
    · exact h

/-- A table decoded from bytes. -/
theorem decodedBy_fromBytes (hlength : (code.length + 1) / 2 < 2 ^ 60)
    (hfit : base.toNat + code.length ≤ 2 ^ X.value) :
    (fromBytes code base (.standardWith X handler) hlength).DecodedBy (.standardWith X handler) :=
  slotsDecodedBy_decodeLoop (show base = base + BitVec.ofNat 64 (slotSize * 0) by simp) hfit rfl
    (slotsDecodedBy_replicate _ _ _)

end Filling

/-! ## Addresses of instructions -/

section Addresses

variable {t : InstructionTable X}

theorem get_lt {index : ℕ} (h : t.get index = some d) :
    index < t.slots.length := by
  by_contra hle
  rw [get, List.getElem?_eq_none (not_lt.1 hle)] at h
  cases h

/-- Slots have different addresses. -/
theorem slotAddr_inj {i j : ℕ} (hi : i < t.slots.length) (hj : j < t.slots.length)
    (h : t.slotAddr i = t.slotAddr j) : i = j := by
  have hlt := t.length_slots_lt
  have hoffset := congrArg BitVec.toNat ((BitVec.add_right_inj _).1 h)
  rw [BitVec.toNat_ofNat, BitVec.toNat_ofNat] at hoffset
  unfold slotSize at hoffset
  omega

/-- What is found at an address is in the slot of the address. -/
theorem exists_slot_of_getAtPc {pc : U64} (h : t.getAtPc pc = some d) :
    ∃ index, t.get index = some d ∧ t.slotAddr index = pc := by
  obtain ⟨index, hindex, hget⟩ := Option.bind_eq_some_iff.1 h
  refine ⟨index, hget, ?_⟩
  unfold pcToIndex at hindex
  split_ifs at hindex with hrange
  dsimp only at hindex
  split_ifs at hindex with heven
  cases hindex
  rw [slotAddr, Nat.mul_div_cancel' (Nat.dvd_of_mod_eq_zero (not_not.1 heven)), BitVec.ofNat_toNat,
    BitVec.setWidth_eq, BitVec.add_comm, BitVec.sub_add_cancel]

theorem mem_filterMap_slots :
    d ∈ t.slots.filterMap Slot.instr ↔ ∃ index, t.get index = some d := by
  rw [List.mem_filterMap]
  constructor
  · rintro ⟨slot, hslot, hd⟩
    obtain ⟨index, hlt, rfl⟩ := List.mem_iff_getElem.1 hslot
    exact ⟨index, by rw [get, List.getElem?_eq_getElem hlt]; exact hd⟩
  · rintro ⟨index, hget⟩
    obtain ⟨slot, hslot, hd⟩ := Option.bind_eq_some_iff.1 hget
    exact ⟨slot, List.mem_of_getElem? hslot, hd⟩

end Addresses

end InstructionTable

/-! ## What the transforms keep -/

namespace BlockTable

variable (table : BlockTable X) (registry : ExtensionRegistry X)

/-- Two block tables over the same code: the transforms change neither the instructions nor the
predecessors that the analysis found. -/
structure SameCode (a b : BlockTable X) : Prop where
  instructionTable : a.instructionTable = b.instructionTable
  predecessors : a.predecessors = b.predecessors

theorem SameCode.refl (a : BlockTable X) : SameCode a a := ⟨rfl, rfl⟩

theorem SameCode.trans {a b c : BlockTable X} (hab : SameCode a b) (hbc : SameCode b c) :
    SameCode a c :=
  ⟨hab.instructionTable.trans hbc.instructionTable, hab.predecessors.trans hbc.predecessors⟩

/-- A loop whose rounds keep the code keeps it. -/
theorem sameCode_foldl {α : Type} {f : BlockTable X → α → BlockTable X}
    (hf : ∀ acc a, SameCode (f acc a) acc) (as : List α) (acc : BlockTable X) :
    SameCode (as.foldl f acc) acc := by
  induction as generalizing acc with
  | nil => exact .refl acc
  | cons a as ih => exact (ih (f acc a)).trans (hf acc a)

theorem sameCode_mergeBlocks : SameCode (table.mergeBlocks registry) table := by
  unfold mergeBlocks
  dsimp only
  split_ifs
  · exact .refl table
  · refine (sameCode_foldl (fun merged block => ?_) _ _).trans ⟨rfl, rfl⟩
    split_ifs
    · exact .refl merged
    · exact ⟨rfl, rfl⟩

theorem sameCode_tailDuplicate (maxDupSize : ℕ) (order : HashOrder) :
    SameCode (table.tailDuplicate registry maxDupSize order) table := by
  have hkeep : ∀ {acc : BlockTable X} {blocks}, SameCode acc table →
      SameCode { acc with blocks } table := fun h => ⟨h.instructionTable, h.predecessors⟩
  refine hkeep (sameCode_foldl (fun acc dupStart => ?_) _ _)
  split
  · exact ⟨rfl, rfl⟩
  · exact .refl acc

theorem sameCode_formSuperblocks (maxDepth : ℕ) :
    SameCode (table.formSuperblocks registry maxDepth) table := by
  unfold formSuperblocks
  dsimp only
  split_ifs
  · exact ⟨rfl, rfl⟩
  · have hloop (acc : BlockTable X) (e : U64 × List U64) :
        SameCode ((e.2.filterMap table.blockAt).foldl (absorbInto e.1) acc) acc := by
      refine sameCode_foldl (fun acc block => ?_) _ acc
      exact ⟨rfl, rfl⟩
    have hloops := sameCode_foldl hloop
      (table.collectSuperblockChains registry maxDepth).superblockChains
    exact ⟨(hloops _).instructionTable, (hloops _).predecessors⟩

theorem sameCode_fixStaleMappings (order : HashOrder) :
    SameCode (table.fixStaleMappings order) table := by
  have hloop (updates : List (U64 × U64)) (acc : BlockTable X × ℕ) :
      SameCode (updates.foldl (updateMapping order) acc).1 acc.1 := by
    induction updates generalizing acc with
    | nil => exact .refl acc.1
    | cons update updates ih => exact (ih _).trans ⟨rfl, rfl⟩
  exact ⟨(hloop _ _).instructionTable, (hloop _ _).predecessors⟩

theorem sameCode_optimize (order : HashOrder) : SameCode (table.optimize registry order) table :=
  (sameCode_fixStaleMappings _ order).trans
    ((sameCode_formSuperblocks _ registry _).trans
      ((sameCode_tailDuplicate _ registry _ order).trans (sameCode_mergeBlocks table registry)))

/-- The C backend compiles the code that it is given. -/
theorem instructionTable_buildCfgForC (enableSuperblock : Bool) (t : InstructionTable X)
    (order : HashOrder) : (buildCfgForC enableSuperblock t registry order).instructionTable =
      t := by
  unfold buildCfgForC
  split_ifs
  · exact (sameCode_optimize _ registry order).instructionTable
  · exact ((sameCode_fixStaleMappings _ order).trans
      ((sameCode_tailDuplicate _ registry _ order).trans
        (sameCode_mergeBlocks _ registry))).instructionTable

end BlockTable

end Rvr
