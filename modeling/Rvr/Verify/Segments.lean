import Rvr.Verify.Tables

/-!
# Tables filled from several segments

`populate_segment` decodes a segment of code from its start: an instruction is followed by what
comes after its bytes, and a halfword that does not decode is passed over.  The offsets at which
this stepping stops (`Segment.Reached`) are all that a table knows of its segments: a slot holds an
instruction exactly when its address is reached in one of them and decodes there.

Stepping only goes forward, so between an offset and the next one nothing is reached
(`Reached.next_le`); that is why the second half of a four-byte instruction stays empty.  Segments
that are disjoint share no slot, so a later call finds the slots of its own segment still empty and
touches no other.
-/

namespace Rvr

variable {X : Xlen}

/-! ## Registries that say the length of what they decode -/

/-- Decoded instructions are at the given address and as long as the bytes they were read from. -/
def ExtensionRegistry.Sized (registry : ExtensionRegistry X) : Prop :=
  ∀ bytes pc d, registry.decode bytes pc = some d →
    d.pc = pc ∧ (d.size = 2 ∨ d.size = 4) ∧ d.size ≤ bytes.length

variable {d : DecodedInstr X}

/-- The bytes that an extension's decoders are given. -/
theorem InstructionExtension.decode_length {e : InstructionExtension X} {bytes : List (BitVec 8)}
    {pc : X.Reg} (h : e.decode bytes pc = some d) :
    2 ≤ bytes.length ∧ ((∃ low, e.decode16 low pc = some d) ∨
      (∃ raw, e.decode32 raw pc = some d) ∧ 4 ≤ bytes.length) := by
  unfold InstructionExtension.decode at h
  split at h
  next b0 b1 rest =>
    refine ⟨by simp, ?_⟩
    dsimp only at h
    split_ifs at h
    · exact .inl ⟨_, h⟩
    · split at h
      · exact .inr ⟨⟨_, h⟩, by simp⟩
      · cases h
  · cases h

theorem sized_standardWith (handler : DecodedInstr X → InstrIR X) :
    (ExtensionRegistry.standardWith X handler).Sized := by
  intro bytes pc d h
  have hat := standard_decode_at h
  have hpc : d.pc = pc := hat.elim And.left And.left
  obtain ⟨e, he, hd⟩ := List.exists_of_findSome?_eq_some h
  obtain ⟨htwo, ⟨low, hlow⟩ | ⟨-, hfour⟩⟩ := InstructionExtension.decode_length hd
  · -- only the compressed extension decodes halfwords
    have hsize : d.size = 2 := by
      have hmem : e ∈ standardExtensions X := he
      simp only [standardExtensions, List.mem_cons, List.not_mem_nil, or_false] at hmem
      rcases hmem with rfl | rfl | rfl | rfl | rfl | rfl | rfl | rfl | rfl | rfl | rfl
      · exact (decodeC_found hlow).place.2
      all_goals cases hlow
    exact ⟨hpc, .inl hsize, hsize ▸ htwo⟩
  · refine ⟨hpc, hat.imp And.right And.right, ?_⟩
    rcases hat with hat | hat
    · rw [hat.2]
      exact htwo
    · rw [hat.2]
      exact hfour

/-! ## Stepping through a segment -/

/-- A segment of code at an address. -/
structure Segment where
  start : U64
  code : List (BitVec 8)

variable {offset : ℕ}

namespace Segment

variable (registry : ExtensionRegistry X) (seg : Segment)

/-- The address after the last byte. -/
def stop : ℕ := seg.start.toNat + seg.code.length

/-- The addresses of the bytes. -/
def range : Set ℕ := Set.Ico seg.start.toNat seg.stop

/-- What the bytes from an offset on decode to. -/
def decodeAt (offset : ℕ) : Option (DecodedInstr X) :=
  registry.decode (seg.code.drop offset) (X.fromU64 (seg.start + BitVec.ofNat 64 offset))

/-- The decoded size at an offset; undecodable halfwords count two bytes. -/
def stepAt (offset : ℕ) : ℕ := ((seg.decodeAt registry offset).map DecodedInstr.size).getD 2

theorem stepAt_of_none (h : seg.decodeAt registry offset = none) :
    seg.stepAt registry offset = 2 := by
  rw [stepAt, h]
  rfl

theorem stepAt_of_some (h : seg.decodeAt registry offset = some d) :
    seg.stepAt registry offset = d.size := by
  rw [stepAt, h]
  rfl

/-- The offsets reached from the start of the segment by decoded sizes. -/
inductive Reached : ℕ → Prop
  | start : Reached 0
  | next {offset : ℕ} (h : Reached offset) (hin : offset + 2 ≤ seg.code.length) :
    Reached (offset + seg.stepAt registry offset)

/-- An address that is reached in the segment, and the instruction that decodes there. -/
def Holds (addr : ℕ) (d : DecodedInstr X) : Prop :=
  ∃ offset, addr = seg.start.toNat + offset ∧ seg.Reached registry offset ∧
    seg.decodeAt registry offset = some d

variable {registry seg} (hsized : registry.Sized)

include hsized

theorem size_le_of_decodeAt (h : seg.decodeAt registry offset = some d) :
    offset + d.size ≤ seg.code.length := by
  obtain ⟨-, hsize, hle⟩ := hsized _ _ _ h
  rw [List.length_drop] at hle
  omega

theorem stepAt_cases (offset : ℕ) :
    seg.stepAt registry offset = 2 ∨ seg.stepAt registry offset = 4 := by
  unfold stepAt
  cases h : seg.decodeAt registry offset with
  | none => exact .inl rfl
  | some d => exact (hsized _ _ _ h).2.1

theorem Reached.even (h : seg.Reached registry offset) : offset % 2 = 0 := by
  induction h with
  | start => rfl
  | next _ _ ih =>
    have hstep := @stepAt_cases X registry seg hsized ‹ℕ›
    omega

/-- Nothing is reached between an offset and the next one. -/
theorem Reached.next_le {offset' : ℕ} (h : seg.Reached registry offset)
    (h' : seg.Reached registry offset') (hlt : offset < offset') :
    offset + seg.stepAt registry offset ≤ offset' := by
  induction offset' using Nat.strong_induction_on generalizing offset with
  | _ offset' ih =>
    cases h' with
    | start => omega
    | @next prev hprev hin =>
      have hpos := @stepAt_cases X registry seg hsized prev
      rcases lt_trichotomy offset prev with hlt' | rfl | hgt
      · exact (ih prev (by omega) h hprev hlt').trans (by omega)
      · exact le_rfl
      · -- the step from `prev` would have to pass over `offset`
        have hover := ih offset hlt hprev h hgt
        omega

theorem Holds.mem_range {addr : ℕ} (h : seg.Holds registry addr d) :
    addr ∈ seg.range := by
  obtain ⟨offset, rfl, -, hdecode⟩ := h
  have hlength := size_le_of_decodeAt hsized hdecode
  have hsize := (hsized _ _ _ hdecode).2.1
  exact ⟨Nat.le_add_right _ _, by unfold stop; omega⟩

/-- The halfword after a four-byte instruction is in the segment, and nothing is reached there. -/
theorem Holds.second_half {addr : ℕ} (h : seg.Holds registry addr d) (hfour : d.size = 4) :
    addr + 2 ∈ seg.range ∧ ∀ d', ¬ seg.Holds registry (addr + 2) d' := by
  obtain ⟨offset, rfl, hreached, hdecode⟩ := h
  have hlength := size_le_of_decodeAt hsized hdecode
  refine ⟨⟨by omega, by unfold stop; omega⟩, ?_⟩
  rintro d' ⟨offset', haddr, hreached', -⟩
  have hstep := hreached.next_le hsized hreached' (by omega)
  rw [stepAt_of_some _ _ hdecode] at hstep
  omega

end Segment

/-- A slot without an instruction is the default one. -/
theorem Slot.eq_default {slot : Slot X} (h : slot.instr = none) : slot = .default := by
  obtain ⟨instr, size, size_eq, size_lt⟩ := slot
  subst h
  subst size_eq
  rfl

namespace InstructionTable

/-! ## What one segment does to the slots -/

/-- The instruction in a slot. -/
def slotInstr (slots : List (Slot X)) (index : ℕ) : Option (DecodedInstr X) :=
  (slots[index]?).bind Slot.instr

variable {slots : List (Slot X)}

theorem slotInstr_set_self {index : ℕ} (h : index < slots.length) (slot : Slot X) :
    slotInstr (slots.set index slot) index = slot.instr := by
  rw [slotInstr, List.getElem?_set_self h]
  rfl

theorem slotInstr_set_ne {index other : ℕ} (h : index ≠ other) (slot : Slot X) :
    slotInstr (slots.set index slot) other = slotInstr slots other := by
  rw [slotInstr, List.getElem?_set_ne h]
  rfl

theorem instr_ofInstr_of_size (h : d.size = 2 ∨ d.size = 4) :
    (Slot.ofInstr d).instr = some d := by
  unfold Slot.ofInstr
  rw [dif_pos (by omega)]

section Loop

variable {registry : ExtensionRegistry X} (hsized : registry.Sized) {seg : Segment} {startSlot : ℕ}

/-- The slots after a decoded instruction has been written: its own, and the empty one of its second
half. -/
def written (slots : List (Slot X)) (slot : ℕ) (instr : DecodedInstr X) : List (Slot X) :=
  if instr.size = 4 then (slots.set slot (.ofInstr instr)).set (slot + 1) .default
  else slots.set slot (.ofInstr instr)

theorem length_written (slots : List (Slot X)) (slot : ℕ) (instr : DecodedInstr X) :
    (written slots slot instr).length = slots.length := by
  unfold written
  split_ifs <;> simp only [List.length_set]

include hsized in
/-- A written instruction is in its slot, its second half is empty, and the rest is as before. -/
theorem slotInstr_written {instr : DecodedInstr X}
    (hdecode : seg.decodeAt registry offset = some instr) {slot : ℕ}
    (hslot : slot + instr.size / 2 ≤ slots.length) (index : ℕ) :
    slotInstr (written slots slot instr) index =
      if index = slot then some instr
      else if index = slot + 1 ∧ instr.size = 4 then none
      else slotInstr slots index := by
  have hsize := (hsized _ _ _ hdecode).2.1
  unfold written
  by_cases hself : index = slot
  · subst hself
    rw [if_pos rfl]
    split_ifs
    · rw [slotInstr_set_ne (by omega), slotInstr_set_self (by omega), instr_ofInstr_of_size hsize]
    · rw [slotInstr_set_self (by omega), instr_ofInstr_of_size hsize]
  · rw [if_neg hself]
    by_cases hfour : instr.size = 4
    · rw [if_pos hfour]
      by_cases hnext : index = slot + 1
      · subst hnext
        rw [if_pos ⟨rfl, hfour⟩, slotInstr_set_self (by rw [List.length_set]; omega)]
        rfl
      · rw [if_neg (by tauto), slotInstr_set_ne (Ne.symm hnext), slotInstr_set_ne (Ne.symm hself)]
    · rw [if_neg hfour, if_neg (by tauto), slotInstr_set_ne (Ne.symm hself)]

include hsized in
/-- The decoding loop from a reached offset on: in the slots of the rest of the segment, which were
empty, are the instructions at the offsets that are still reached; other slots are as before. -/
theorem slotInstr_decodeLoop {fuel offset : ℕ} {slots : List (Slot X)}
    (hfuel : seg.code.length < offset + 2 * fuel) (hreached : seg.Reached registry offset)
    (hroom : startSlot + (seg.code.length + 1) / 2 ≤ slots.length)
    (hempty : ∀ index, startSlot + offset / 2 ≤ index →
      index < startSlot + (seg.code.length + 1) / 2 → slotInstr slots index = none)
    (index : ℕ) (d : DecodedInstr X) :
    slotInstr (decodeLoop registry seg.code startSlot seg.start fuel offset slots) index = some d ↔
      slotInstr slots index = some d ∨ ∃ offset', offset ≤ offset' ∧ seg.Reached registry offset' ∧
        seg.decodeAt registry offset' = some d ∧ index = startSlot + offset' / 2 := by
  induction fuel generalizing offset slots with
  | zero =>
    refine ⟨.inl, ?_⟩
    rintro (h | ⟨offset', hle, -, hdecode, -⟩)
    · exact h
    · have := Segment.size_le_of_decodeAt hsized hdecode
      omega
  | succ fuel ih =>
    unfold decodeLoop
    dsimp only
    split_ifs with hin hfull
    · unfold slotSize at *
      omega
    · -- one round: what is decoded at `offset`, and the rest by induction
      have hnext := hreached.next hin
      rw [← Segment.decodeAt]
      cases hdecode : seg.decodeAt registry offset with
      | none =>
        rw [Segment.stepAt_of_none _ _ hdecode] at hnext
        rw [ih (by omega) hnext hroom fun j hj => hempty j (by omega)]
        refine or_congr_right ⟨?_, ?_⟩
        · rintro ⟨offset', hle, hrest⟩
          exact ⟨offset', by omega, hrest⟩
        · rintro ⟨offset', hle, hreached', hdecode', hindex⟩
          have hne : offset ≠ offset' := by
            rintro rfl
            rw [hdecode] at hdecode'
            cases hdecode'
          have hstep := hreached.next_le hsized hreached' (by omega)
          rw [Segment.stepAt_of_none _ _ hdecode] at hstep
          exact ⟨offset', hstep, hreached', hdecode', hindex⟩
      | some instr =>
        have hsize := (hsized _ _ _ hdecode).2.1
        have hlength := Segment.size_le_of_decodeAt hsized hdecode
        rw [Segment.stepAt_of_some _ _ hdecode] at hnext
        have hslot : startSlot + offset / 2 + instr.size / 2 ≤ slots.length := by omega
        have hwritten := slotInstr_written hsized hdecode hslot
        change slotInstr (decodeLoop registry seg.code startSlot seg.start fuel
          (offset + instr.size)
          (written slots (startSlot + offset / 2) instr)) index = some d ↔ _
        have hempty' : ∀ j, startSlot + (offset + instr.size) / 2 ≤ j →
            j < startSlot + (seg.code.length + 1) / 2 →
            slotInstr (written slots (startSlot + offset / 2) instr) j = none := by
          intro j hj hj'
          rw [hwritten, if_neg (by omega), if_neg (by omega)]
          exact hempty j (by omega) hj'
        rw [ih (by omega) hnext (by rwa [length_written]) hempty', hwritten]
        constructor
        · rintro (h | ⟨offset', hle, hrest⟩)
          · split_ifs at h with hself
            · cases h
              exact .inr ⟨offset, le_rfl, hreached, hdecode, hself⟩
            · exact .inl h
          · exact .inr ⟨offset', by omega, hrest⟩
        · rintro (h | ⟨offset', hle, hreached', hdecode', hindex⟩)
          · -- slots that were filled before are not among those of the segment
            have hout : index < startSlot + offset / 2 ∨
                startSlot + (seg.code.length + 1) / 2 ≤ index := by
              by_contra hcon
              rw [hempty index (by omega) (by omega)] at h
              cases h
            rw [if_neg (by omega), if_neg (by omega)]
            exact .inl h
          · rcases eq_or_lt_of_le hle with rfl | hlt
            · rw [hdecode] at hdecode'
              cases hdecode'
              exact .inl (if_pos hindex)
            · have hstep := hreached.next_le hsized hreached' hlt
              rw [Segment.stepAt_of_some _ _ hdecode] at hstep
              exact .inr ⟨offset', hstep, hreached', hdecode', hindex⟩
    · refine ⟨.inl, ?_⟩
      rintro (h | ⟨offset', hle, -, hdecode, -⟩)
      · exact h
      · have := Segment.size_le_of_decodeAt hsized hdecode
        have hsize := (hsized _ _ _ hdecode).2.1
        unfold slotSize at *
        omega

end Loop

/-! ## A sequence of segments -/

section Sequence

variable {registry : ExtensionRegistry X}

/-- What lets a segment be decoded into a table: it lies in the address range of the table and of
the guest, at an even distance from the base. -/
structure Fits (t : InstructionTable X) (seg : Segment) : Prop where
  base_le : t.baseAddress ≤ seg.start
  stop_le : seg.stop ≤ t.endAddress.toNat
  stop_le_guest : seg.stop ≤ 2 ^ X.value
  even : (seg.start - t.baseAddress).toNat % slotSize = 0

@[simp] theorem baseAddress_populateSegment (t : InstructionTable X) (code : List (BitVec 8))
    (start : U64) (registry : ExtensionRegistry X) :
    (t.populateSegment code start registry).baseAddress = t.baseAddress := by
  unfold InstructionTable.populateSegment
  split_ifs <;> rfl

@[simp] theorem endAddress_populateSegment (t : InstructionTable X) (code : List (BitVec 8))
    (start : U64) (registry : ExtensionRegistry X) :
    (t.populateSegment code start registry).endAddress = t.endAddress := by
  unfold InstructionTable.populateSegment
  split_ifs <;> rfl

theorem Fits.populateSegment {t : InstructionTable X} {seg : Segment} (h : t.Fits seg)
    (code : List (BitVec 8)) (start : U64) (registry : ExtensionRegistry X) :
    (t.populateSegment code start registry).Fits seg := by
  refine ⟨?_, ?_, h.stop_le_guest, ?_⟩
  · rw [baseAddress_populateSegment]
    exact h.base_le
  · rw [endAddress_populateSegment]
    exact h.stop_le
  · rw [baseAddress_populateSegment]
    exact h.even

/-- A table with the given segments decoded into it, in order. -/
def populate (t : InstructionTable X) (segs : List Segment) (registry : ExtensionRegistry X) :
    InstructionTable X :=
  segs.foldl (fun t seg => t.populateSegment seg.code seg.start registry) t

@[simp] theorem baseAddress_populate (t : InstructionTable X) (segs : List Segment)
    (registry : ExtensionRegistry X) : (t.populate segs registry).baseAddress = t.baseAddress := by
  unfold populate
  induction segs generalizing t with
  | nil => rfl
  | cons seg segs ih => rw [List.foldl_cons, ih, baseAddress_populateSegment]

@[simp] theorem endAddress_populate (t : InstructionTable X) (segs : List Segment)
    (registry : ExtensionRegistry X) : (t.populate segs registry).endAddress = t.endAddress := by
  unfold populate
  induction segs generalizing t with
  | nil => rfl
  | cons seg segs ih => rw [List.foldl_cons, ih, endAddress_populateSegment]

/-- The slots hold exactly what the segments hold. -/
def FilledFrom (registry : ExtensionRegistry X) (segs : List Segment) (t : InstructionTable X) :
    Prop :=
  ∀ index d, t.get index = some d ↔
    ∃ seg ∈ segs, seg.Holds registry (t.baseAddress.toNat + slotSize * index) d

variable (hsized : registry.Sized) {t : InstructionTable X} {seg : Segment}
  {segs done : List Segment}

theorem Fits.startSlot (h : t.Fits seg) :
    t.baseAddress.toNat + slotSize * ((seg.start - t.baseAddress).toNat / slotSize)
      = seg.start.toNat := by
  have hle := BitVec.le_def.1 h.base_le
  rw [Nat.mul_div_cancel' (Nat.dvd_of_mod_eq_zero h.even), BitVec.toNat_sub_of_le h.base_le]
  omega

/-- The slots of a segment that fits are slots of the table. -/
theorem Fits.room (h : t.Fits seg) :
    (seg.start - t.baseAddress).toNat / slotSize + (seg.code.length + 1) / 2 ≤ t.slots.length := by
  have hstart := h.startSlot
  have hstop := h.stop_le
  unfold Segment.stop at hstop
  have hend : t.baseAddress ≤ t.endAddress := BitVec.le_def.2 (by omega)
  rw [t.length_slots, BitVec.toNat_sub_of_le hend]
  unfold slotSize at hstart ⊢
  omega

include hsized

/-- One call of `populate_segment`: the slots of the segment were empty, because what earlier
segments hold has an address in their ranges. -/
theorem FilledFrom.populateSegment (h : t.FilledFrom registry done) (hfit : t.Fits seg)
    (hdisj : ∀ s ∈ done, Disjoint s.range seg.range) :
    (t.populateSegment seg.code seg.start registry).FilledFrom registry (done ++ [seg]) := by
  have hstart := hfit.startSlot
  intro index d
  unfold InstructionTable.populateSegment
  split_ifs with hout
  · -- a segment at the end of the table is empty
    have hnil : ∀ addr, ¬ seg.Holds registry addr d := by
      intro addr haddr
      obtain ⟨hlo, hhi⟩ := haddr.mem_range hsized
      have hstop := hfit.stop_le
      rcases hout with hout | hout
      · exact absurd hfit.base_le (not_le.2 hout)
      · have := BitVec.le_def.1 hout
        omega
    simp only [h index d, List.mem_append, List.mem_singleton]
    constructor
    · rintro ⟨s, hs, hholds⟩
      exact ⟨s, .inl hs, hholds⟩
    · rintro ⟨s, hs | rfl, hholds⟩
      · exact ⟨s, hs, hholds⟩
      · exact absurd hholds (hnil _)
  · have hempty : ∀ j, (seg.start - t.baseAddress).toNat / slotSize + 0 / 2 ≤ j →
        j < (seg.start - t.baseAddress).toNat / slotSize + (seg.code.length + 1) / 2 →
        slotInstr t.slots j = none := by
      intro j hj hj'
      rw [Option.eq_none_iff_forall_ne_some]
      intro d' hd'
      obtain ⟨s, hs, hholds⟩ := (h j d').1 hd'
      refine Set.disjoint_left.1 (hdisj s hs) (hholds.mem_range hsized) ⟨?_, ?_⟩
      · unfold slotSize at *
        omega
      · unfold Segment.stop
        unfold slotSize at *
        omega
    change slotInstr (decodeLoop registry seg.code _ seg.start (seg.code.length + 1) 0 t.slots)
      index
      = some d ↔ _
    rw [slotInstr_decodeLoop hsized (by omega) .start hfit.room hempty]
    change t.get index = some d ∨ _ ↔ ∃ s ∈ done ++ [seg],
      s.Holds registry (t.baseAddress.toNat + slotSize * index) d
    simp only [h index d, List.mem_append, List.mem_singleton, or_and_right, exists_or,
      exists_eq_left]
    refine or_congr_right ⟨?_, ?_⟩
    · rintro ⟨offset, -, hreached, hdecode, rfl⟩
      have heven := hreached.even hsized
      refine ⟨offset, ?_, hreached, hdecode⟩
      unfold slotSize at *
      omega
    · rintro ⟨offset, haddr, hreached, hdecode⟩
      refine ⟨offset, Nat.zero_le _, hreached, hdecode, ?_⟩
      unfold slotSize at *
      omega

/-- A sequence of calls. -/
theorem FilledFrom.populate (h : t.FilledFrom registry done) (hfit : ∀ seg ∈ segs, t.Fits seg)
    (hdisj : (done ++ segs).Pairwise fun s s' => Disjoint s.range s'.range) :
    (t.populate segs registry).FilledFrom registry (done ++ segs) := by
  induction segs generalizing t done with
  | nil => rwa [List.append_nil]
  | cons seg segs ih =>
    rw [List.append_cons] at hdisj ⊢
    have hdone : ∀ s ∈ done, Disjoint s.range seg.range := by
      intro s hs
      exact (List.pairwise_append.1 (List.pairwise_append.1 hdisj).1).2.2 s hs seg
        (List.mem_singleton_self seg)
    have hstep := h.populateSegment hsized (hfit seg List.mem_cons_self) hdone
    exact ih hstep
      (fun s hs => (hfit s (List.mem_cons_of_mem _ hs)).populateSegment _ _ _) hdisj

/-- What a filled table has at an address. -/
theorem FilledFrom.getAtPc_iff (h : t.FilledFrom registry segs) (hfit : ∀ seg ∈ segs, t.Fits seg)
    (pc : U64) (d : DecodedInstr X) :
    t.getAtPc pc = some d ↔ ∃ seg ∈ segs, seg.Holds registry pc.toNat d := by
  constructor
  · intro hget
    obtain ⟨index, hindex, hslot⟩ := Option.bind_eq_some_iff.1 hget
    unfold pcToIndex at hindex
    split_ifs at hindex with hrange
    dsimp only at hindex
    split_ifs at hindex with heven
    cases hindex
    have hbase : t.baseAddress ≤ pc := not_lt.1 fun hlt => hrange (.inl hlt)
    have haddr : t.baseAddress.toNat + slotSize * ((pc - t.baseAddress).toNat / slotSize)
        = pc.toNat := by
      have hle := BitVec.le_def.1 hbase
      rw [Nat.mul_div_cancel' (Nat.dvd_of_mod_eq_zero (not_not.1 heven)),
        BitVec.toNat_sub_of_le hbase]
      omega
    rw [← haddr]
    exact (h _ d).1 hslot
  · rintro ⟨seg, hseg, hholds⟩
    have hstart := (hfit seg hseg).startSlot
    have hrange := hholds.mem_range hsized
    obtain ⟨offset, haddr, hreached, -⟩ := id hholds
    have heven := hreached.even hsized
    have hbase : t.baseAddress ≤ pc := BitVec.le_def.2 (by omega)
    have hend : pc < t.endAddress := by
      have hstop := (hfit seg hseg).stop_le
      have hlt := hrange.2
      exact BitVec.lt_def.2 (by omega)
    have hoffset := BitVec.toNat_sub_of_le hbase
    have hindex : t.pcToIndex pc = some ((pc - t.baseAddress).toNat / slotSize) := by
      unfold pcToIndex
      rw [if_neg (by rw [not_or]; exact ⟨not_lt.2 hbase, not_le.2 hend⟩)]
      rw [if_neg]
      unfold slotSize at *
      omega
    rw [getAtPc, hindex, Option.bind_some, h]
    refine ⟨seg, hseg, ?_⟩
    have hpc : t.baseAddress.toNat + slotSize * ((pc - t.baseAddress).toNat / slotSize)
        = pc.toNat := by
      unfold slotSize at *
      omega
    rwa [hpc]

/-- The address of a decoded instruction. -/
theorem Fits.toU64_pc (hfit : t.Fits seg) {pc : U64} (h : seg.Holds registry pc.toNat d) :
    Xlen.toU64 d.pc = pc := by
  have hrange := h.mem_range hsized
  obtain ⟨offset, haddr, -, hdecode⟩ := h
  have hpc : seg.start + BitVec.ofNat 64 offset = pc := by
    rw [← BitVec.toNat_inj, BitVec.toNat_add, BitVec.toNat_ofNat, Nat.add_mod_mod, ← haddr]
    exact Nat.mod_eq_of_lt pc.isLt
  have hlt : pc.toNat < 2 ^ X.value := lt_of_lt_of_le hrange.2 hfit.stop_le_guest
  rw [(hsized _ _ _ hdecode).1, hpc, ← BitVec.toNat_inj, Xlen.toNat_toU64,
    Xlen.toNat_fromU64_of_lt hlt]

/-- Slots of a filled table have the sizes of instructions. -/
theorem FilledFrom.size_cases (h : t.FilledFrom registry segs) {index : ℕ} {slot : Slot X}
    (hslot : t.slots[index]? = some slot) : slot.size = 0 ∨ slot.size = 2 ∨ slot.size = 4 := by
  cases hinstr : slot.instr with
  | none =>
    left
    rw [slot.size_eq, hinstr]
    rfl
  | some d =>
    right
    have hget : t.get index = some d := by rw [get, hslot, Option.bind_some, hinstr]
    obtain ⟨seg, -, offset, -, -, hdecode⟩ := (h index d).1 hget
    rw [slot.size_eq, hinstr]
    exact (hsized _ _ _ hdecode).2.1

/-- The slot after a four-byte instruction is empty: its address is in the same segment and not
reached there, and other segments do not have it. -/
theorem FilledFrom.second_half (h : t.FilledFrom registry segs) (hfit : ∀ seg ∈ segs, t.Fits seg)
    (hdisj : segs.Pairwise fun s s' => Disjoint s.range s'.range) {index : ℕ} {slot : Slot X}
    (hslot : t.slots[index]? = some slot) (hfour : slot.size = 4) :
    t.slots[index + 1]? = some .default := by
  obtain ⟨d, hinstr, hsize⟩ : ∃ d, slot.instr = some d ∧ d.size = 4 := by
    cases hinstr : slot.instr with
    | none =>
      rw [slot.size_eq, hinstr] at hfour
      cases hfour
    | some d =>
      refine ⟨d, rfl, ?_⟩
      rw [slot.size_eq, hinstr] at hfour
      exact hfour
  have hget : t.get index = some d := by rw [get, hslot, Option.bind_some, hinstr]
  obtain ⟨seg, hseg, hholds⟩ := (h index d).1 hget
  obtain ⟨hrange, hnot⟩ := hholds.second_half hsized hsize
  have hempty : t.get (index + 1) = none := by
    rw [Option.eq_none_iff_forall_ne_some]
    intro d' hd'
    obtain ⟨seg', hseg', hholds'⟩ := (h _ d').1 hd'
    by_cases hsame : seg' = seg
    · exact hnot d' (hsame ▸ hholds')
    · have hd := hdisj.forall hseg' hseg hsame
      exact Set.disjoint_left.1 hd (hholds'.mem_range hsized) hrange
  have hlt : index + 1 < t.slots.length := by
    have hroom := (hfit seg hseg).room
    have hstart := (hfit seg hseg).startSlot
    have hlt := hrange.2
    unfold Segment.stop at hlt
    unfold slotSize at *
    omega
  rw [get, List.getElem?_eq_getElem hlt] at hempty
  rw [List.getElem?_eq_getElem hlt, Slot.eq_default hempty]

end Sequence

/-! ## The tables of `InstructionTable::new` -/

section New

variable {handler : DecodedInstr X → InstrIR X} {base stop entryPoint : U64} {segs : List Segment}

theorem filledFrom_new (registry : ExtensionRegistry X)
    (h : ((stop - base).toNat + 1) / 2 < 2 ^ 60) :
    (new base stop entryPoint h : InstructionTable X).FilledFrom registry [] := by
  intro index d
  have hnone : (new base stop entryPoint h : InstructionTable X).get index ≠ some d := by
    intro hget
    change ((List.replicate _ Slot.default)[index]?).bind Slot.instr = some d at hget
    rw [List.getElem?_replicate] at hget
    split_ifs at hget <;> cases hget
  refine ⟨fun hget => absurd hget hnone, ?_⟩
  rintro ⟨seg, hseg, -⟩
  cases hseg

/-- A table of `InstructionTable::new` after any sequence of `populate_segment` calls with disjoint
segments that fit it: slots have size 0, 2 or 4, the slot after a four-byte instruction is empty,
and an address has an instruction exactly if it is reached in a segment and decodes there. -/
theorem populated_slots (h : ((stop - base).toNat + 1) / 2 < 2 ^ 60)
    (hfit : ∀ seg ∈ segs, (new base stop entryPoint h : InstructionTable X).Fits seg)
    (hdisj : segs.Pairwise fun s s' => Disjoint s.range s'.range) :
    let registry := ExtensionRegistry.standardWith X handler
    let t := (new base stop entryPoint h : InstructionTable X).populate segs registry
    (∀ index slot, t.slots[index]? = some slot →
      (slot.size = 0 ∨ slot.size = 2 ∨ slot.size = 4) ∧
        (slot.size = 4 → t.slots[index + 1]? = some .default)) ∧
      ∀ pc d, t.getAtPc pc = some d ↔
        Xlen.toU64 d.pc = pc ∧ ∃ seg ∈ segs, seg.Holds registry pc.toNat d := by
  intro registry t
  have hsized : registry.Sized := sized_standardWith handler
  have hfilled : t.FilledFrom registry segs :=
    (filledFrom_new registry h).populate hsized hfit hdisj
  have hfit' : ∀ seg ∈ segs, t.Fits seg := by
    intro seg hseg
    have hseg := hfit seg hseg
    refine ⟨?_, ?_, hseg.stop_le_guest, ?_⟩
    · rw [baseAddress_populate]
      exact hseg.base_le
    · rw [endAddress_populate]
      exact hseg.stop_le
    · rw [baseAddress_populate]
      exact hseg.even
  refine ⟨fun index slot hslot => ⟨hfilled.size_cases hsized hslot,
    fun hfour => hfilled.second_half hsized hfit' hdisj hslot hfour⟩, ?_⟩
  intro pc d
  rw [hfilled.getAtPc_iff hsized hfit']
  refine ⟨?_, And.right⟩
  rintro ⟨seg, hseg, hholds⟩
  exact ⟨(hfit' seg hseg).toU64_pc hsized hholds, seg, hseg, hholds⟩

/-- Two instructions at different places: `addi x0, x0, 0` and, eight bytes on, `c.nop`. -/
def apartSegments : List Segment :=
  [⟨0x1000, codeBytes [0x00000013]⟩, ⟨0x1008, [0x01, 0x00]⟩]

/-- These segments are disjoint and fit a table. -/
theorem populated_slots_apart :
    let registry := ExtensionRegistry.standardWith .rv64 bareMetalHandler
    let t := (new 0x1000 0x1010 0x1000 (by decide) : InstructionTable .rv64).populate apartSegments
      registry
    (∀ index slot, t.slots[index]? = some slot →
      (slot.size = 0 ∨ slot.size = 2 ∨ slot.size = 4) ∧
        (slot.size = 4 → t.slots[index + 1]? = some .default)) ∧
      ∀ pc d, t.getAtPc pc = some d ↔
        Xlen.toU64 d.pc = pc ∧ ∃ seg ∈ apartSegments, seg.Holds registry pc.toNat d := by
  refine populated_slots (by decide) ?_ ?_
  · intro seg hseg
    rcases List.mem_cons.1 hseg with rfl | hseg
    · exact ⟨by decide, by decide, by decide, by decide⟩
    · rcases List.mem_singleton.1 hseg with rfl
      exact ⟨by decide, by decide, by decide, by decide⟩
  · rw [apartSegments, List.pairwise_pair, Set.disjoint_left]
    intro a ha ha'
    have hlt : a < 0x1004 := ha.2
    have hle : 0x1008 ≤ a := ha'.1
    omega

end New

end InstructionTable

end Rvr
