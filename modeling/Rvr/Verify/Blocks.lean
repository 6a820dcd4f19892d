import Rvr.Verify.Segments

/-!
# Blocks from leaders

`create_blocks_from_leaders` makes a block for every leader that decodes.  The block takes the
instructions that follow one after the other (`Consecutive`) until there is a reason to stop: the
last one is control flow, the next address is a leader, or nothing decodes there.  No leader lies
inside an instruction, so a block that runs up to the next leader ends exactly at it
(`Run.stop_le`), and blocks of different leaders are disjoint.
-/

namespace Rvr

open List

variable {X : Xlen}

variable {pc : U64}

namespace InstructionTable

variable (t : InstructionTable X) (registry : ExtensionRegistry X) (leaders : Finset U64)

/-- Instructions of a table are not empty and end inside it. -/
def Bounded : Prop :=
  ∀ pc d, t.getAtPc pc = some d → 0 < d.size ∧ pc.toNat + d.size ≤ t.endAddress.toNat

/-- Decoded instructions one after the other, from an address up to another. -/
inductive Consecutive : U64 → List U64 → U64 → Prop
  | nil (pc : U64) : Consecutive pc [] pc
  | cons {pc stop : U64} {pcs : List U64} {d : DecodedInstr X} (hget : t.getAtPc pc = some d)
    (hrest : Consecutive (nextAddr pc d.size) pcs stop) : Consecutive pc (pc :: pcs) stop

/-- The instruction at an address is control flow. -/
def IsControlFlow (pc : U64) : Prop :=
  (t.terminatorAt registry pc).any Terminator.isControlFlow = true

/-- A leader inside an instruction, behind its first byte. -/
def Inside (leader : U64) : Prop :=
  ∃ pc d, t.getAtPc pc = some d ∧ pc < leader ∧ leader.toNat < pc.toNat + d.size

/-- Why the instructions of a block end at an address. -/
def Ends (pcs : List U64) (stop : U64) : Prop :=
  (∃ pc, pcs.getLast? = some pc ∧ t.IsControlFlow registry pc) ∨ stop ∈ leaders ∨
    stop = t.endAddress ∨ stop < t.endAddress ∧ t.isValidPc stop = false

/-- A run of instructions as a block has it: only the first can be a leader, only the last can be
control flow, and there is a reason to stop. -/
structure Run (start : U64) (pcs : List U64) (stop : U64) : Prop where
  consecutive : t.Consecutive start pcs stop
  inner : ∀ pc ∈ pcs.tail, pc ∉ leaders
  straight : ∀ pc ∈ pcs.dropLast, ¬ t.IsControlFlow registry pc
  ends : t.Ends registry leaders pcs stop

variable {t registry leaders}

variable {d : DecodedInstr X}

theorem Bounded.toNat_nextAddr (h : t.Bounded) (hget : t.getAtPc pc = some d) :
    (nextAddr pc d.size).toNat = pc.toNat + d.size := by
  have hle := (h pc d hget).2
  rw [nextAddr, BitVec.toNat_add, BitVec.toNat_ofNat, Nat.add_mod_mod, Nat.mod_eq_of_lt (by omega)]

theorem Consecutive.le (h : t.Bounded) {stop : U64} {pcs : List U64}
    (hpcs : t.Consecutive pc pcs stop) : pc ≤ stop := by
  induction hpcs with
  | nil pc => exact le_rfl
  | cons hget _ ih =>
    have hnext := h.toNat_nextAddr hget
    have hle := BitVec.le_def.1 ih
    exact BitVec.le_def.2 (by omega)

theorem Consecutive.lt (h : t.Bounded) {stop : U64} {pcs : List U64}
    (hpcs : t.Consecutive pc pcs stop) (hne : pcs ≠ []) : pc < stop := by
  cases hpcs with
  | nil => exact absurd rfl hne
  | cons hget hrest =>
    have hpos := (h _ _ hget).1
    have hnext := h.toNat_nextAddr hget
    have hle := BitVec.le_def.1 (hrest.le h)
    exact BitVec.lt_def.2 (by omega)

/-- A run that goes on with another one. -/
theorem Run.cons {stop : U64} {pcs : List U64} (hget : t.getAtPc pc = some d)
    (hflow : ¬ t.IsControlFlow registry pc) (hleader : nextAddr pc d.size ∉ leaders)
    (h : t.Run registry leaders (nextAddr pc d.size) pcs stop) :
    t.Run registry leaders pc (pc :: pcs) stop := by
  have hhead : ∀ p ∈ pcs, p ∉ leaders := by
    intro p hp
    cases hcons : pcs with
    | nil =>
      rw [hcons] at hp
      cases hp
    | cons q qs =>
      rw [hcons] at hp
      have hq : q = nextAddr pc d.size := by
        have hconsecutive := h.consecutive
        rw [hcons] at hconsecutive
        cases hconsecutive
        rfl
      rcases mem_cons.1 hp with rfl | hp
      · rwa [hq]
      · exact h.inner p (by rwa [hcons])
  refine ⟨.cons hget h.consecutive, hhead, ?_, ?_⟩
  · intro p hp
    cases hcons : pcs with
    | nil =>
      rw [hcons] at hp
      cases hp
    | cons q qs =>
      rw [hcons] at hp
      rcases mem_cons.1 hp with rfl | hp
      · exact hflow
      · exact h.straight p (by rwa [hcons])
  · rcases h.ends with ⟨p, hlast, hp⟩ | hstop
    · refine .inl ⟨p, ?_, hp⟩
      rw [getLast?_cons, hlast]
      rfl
    · exact .inr hstop

/-- A run of one instruction. -/
theorem Run.single (hget : t.getAtPc pc = some d)
    (hends : t.IsControlFlow registry pc ∨ nextAddr pc d.size ∈ leaders) :
    t.Run registry leaders pc [pc] (nextAddr pc d.size) := by
  refine ⟨.cons hget (.nil _), ?_, ?_, ?_⟩
  · intro p hp
    cases hp
  · intro p hp
    cases hp
  · exact hends.imp (fun hflow => ⟨pc, rfl, hflow⟩) .inl

/-- The empty run, where there is a reason not to start. -/
theorem Run.nil (hends : t.Ends registry leaders [] pc) :
    t.Run registry leaders pc [] pc :=
  ⟨.nil pc, (fun _ hp => by cases hp), (fun _ hp => by cases hp), hends⟩

end InstructionTable

namespace BlockTable

open InstructionTable

variable {t : InstructionTable X} {registry : ExtensionRegistry X} {leaders : Finset U64}

/-! ## One block -/

/-- What the loop of a block may run up to: an address that no instruction reaches over, and at
which there is a reason to stop. -/
structure Limit (t : InstructionTable X) (leaders : Finset U64) (maxEnd : U64) : Prop where
  le_end : maxEnd ≤ t.endAddress
  stops : maxEnd ∈ leaders ∨ maxEnd = t.endAddress
  not_inside : ∀ pc d, t.getAtPc pc = some d → pc < maxEnd → pc.toNat + d.size ≤ maxEnd.toNat

/-- The loop of a block finds a run of instructions, counts them and keeps the address of the last
one. -/
theorem run_blockLoop (hbounded : t.Bounded) {blockStart maxEnd : U64}
    (hlimit : Limit t leaders maxEnd) {fuel : ℕ} {pc : U64} {count : ℕ} {lastPc : U64}
    (hstart : blockStart ≤ pc) (hle : pc ≤ maxEnd) (hfuel : maxEnd.toNat < pc.toNat + fuel) :
    ∃ pcs, t.Run registry leaders pc pcs
        (blockLoop t registry leaders blockStart maxEnd fuel pc count lastPc).1 ∧
      blockLoop t registry leaders blockStart maxEnd fuel pc count lastPc =
        ((blockLoop t registry leaders blockStart maxEnd fuel pc count lastPc).1,
          count + pcs.length, pcs.getLastD lastPc) ∧
      (blockLoop t registry leaders blockStart maxEnd fuel pc count lastPc).1 ≤ maxEnd ∧
      (pc < maxEnd → t.isValidPc pc = true → pcs ≠ []) := by
  induction fuel generalizing pc count lastPc with
  | zero =>
    have := BitVec.le_def.1 hle
    omega
  | succ fuel ih =>
    unfold blockLoop
    by_cases hin : pc < maxEnd ∧ pc < t.endAddress
    · rw [if_pos hin]
      cases hget : t.getAtPc pc with
      | none =>
        have hvalid : t.isValidPc pc = false := by
          rw [isValidPc_eq, hget]
          rfl
        rw [if_pos (by rw [hvalid]; rfl)]
        refine ⟨[], .nil (.inr (.inr (.inr ⟨hin.2, hvalid⟩))), rfl, hle, ?_⟩
        intro _ hpc
        rw [hvalid] at hpc
        cases hpc
      | some d =>
        have hvalid : t.isValidPc pc = true := by
          rw [isValidPc_eq, hget]
          rfl
        have hpos := (hbounded pc d hget).1
        have hnext := hbounded.toNat_nextAddr hget
        have hover := hlimit.not_inside pc d hget hin.1
        have hnextLe : nextAddr pc d.size ≤ maxEnd := BitVec.le_def.2 (by omega)
        rw [if_neg (by rw [hvalid]; decide), instructionSizeAtPc_of_getAtPc hget]
        dsimp only
        rw [if_neg (by omega)]
        split_ifs with hflow hleader
        · exact ⟨[pc], .single hget (.inl hflow), rfl, hnextLe, fun _ _ => cons_ne_nil _ _⟩
        · exact ⟨[pc], .single hget (.inr hleader.1), rfl, hnextLe,
            fun _ _ => cons_ne_nil _ _⟩
        · -- the block goes on: the next address is past the start, so it is no leader
          have hstartLt : nextAddr pc d.size ≠ blockStart := by
            intro heq
            have := BitVec.le_def.1 hstart
            rw [heq] at hnext
            omega
          have hnot : nextAddr pc d.size ∉ leaders := fun hmem => hleader ⟨hmem, hstartLt⟩
          have hstart' : blockStart ≤ nextAddr pc d.size :=
            BitVec.le_def.2 (by have := BitVec.le_def.1 hstart; omega)
          obtain ⟨pcs, hrun, heq, hstop, -⟩ :=
            @ih (nextAddr pc d.size) (count + 1) pc hstart' hnextLe (by omega)
          refine ⟨pc :: pcs, hrun.cons hget hflow hnot, ?_, hstop, fun _ _ => cons_ne_nil _ _⟩
          rw [heq]
          simp only [length_cons, getLastD_cons, Prod.mk.injEq, true_and, and_true]
          omega
    · rw [if_neg hin]
      have hends : t.Ends registry leaders [] pc := by
        rcases eq_or_lt_of_le hle with rfl | hlt
        · exact .inr (hlimit.stops.imp id .inl)
        · exact absurd ⟨hlt, hlt.trans_le hlimit.le_end⟩ hin
      refine ⟨[], .nil hends, rfl, hle, ?_⟩
      intro hlt _
      exact absurd ⟨hlt, hlt.trans_le hlimit.le_end⟩ hin

/-- A block holds a run of instructions from a leader. -/
def IsBlock (t : InstructionTable X) (registry : ExtensionRegistry X) (leaders : Finset U64)
    (b : BasicBlock) : Prop :=
  b.start ∈ leaders ∧ ∃ pcs, t.Run registry leaders b.start pcs b.stop ∧
    pcs.length = b.instructionCount ∧ pcs.getLast? = some b.lastPc

theorem range_of_isValidPc (h : t.isValidPc pc = true) :
    t.baseAddress ≤ pc ∧ pc < t.endAddress := by
  unfold isValidPc pcToIndex at h
  split_ifs at h with hrange
  · cases h
  · rw [not_or, not_lt, not_le] at hrange
    exact hrange

/-- The limit of a block: the next leader, or the end of the table if that comes first. -/
theorem limit_nextLeader (hbounded : t.Bounded) (hinside : ∀ l ∈ leaders, ¬ t.Inside l)
    {nextLeader : Option U64} (hnext : ∀ n ∈ nextLeader, n ∈ leaders) :
    Limit t leaders (min (nextLeader.getD t.endAddress) t.endAddress) := by
  have hend : ∀ pc d, t.getAtPc pc = some d → pc < t.endAddress →
      pc.toNat + d.size ≤ t.endAddress.toNat := fun pc d hget _ => (hbounded pc d hget).2
  cases nextLeader with
  | none =>
    rw [Option.getD_none, min_self]
    exact ⟨le_rfl, .inr rfl, hend⟩
  | some n =>
    rw [Option.getD_some]
    rcases le_total n t.endAddress with hle | hle
    · rw [min_eq_left hle]
      refine ⟨hle, .inl (hnext n rfl), ?_⟩
      intro pc d hget hlt
      by_contra hover
      exact hinside n (hnext n rfl) ⟨pc, d, hget, hlt, by omega⟩
    · rw [min_eq_right hle]
      exact ⟨le_rfl, .inr rfl, hend⟩

/-- A leader that decodes has a block, which ends before the next leader; other leaders have
none. -/
theorem blockFrom_spec (hbounded : t.Bounded) (hinside : ∀ l ∈ leaders, ¬ t.Inside l)
    {blockStart : U64} (hmem : blockStart ∈ leaders) {nextLeader : Option U64}
    (hnext : ∀ n ∈ nextLeader, n ∈ leaders) (hlt : ∀ n ∈ nextLeader, blockStart < n) :
    (t.isValidPc blockStart = false ∧ blockFrom t registry leaders blockStart nextLeader = none) ∨
      ∃ b, blockFrom t registry leaders blockStart nextLeader = some b ∧ b.start = blockStart ∧
        IsBlock t registry leaders b ∧ ∀ n ∈ nextLeader, b.stop ≤ n := by
  by_cases hvalid : t.isValidPc blockStart = true
  · right
    have hlimit := limit_nextLeader hbounded hinside hnext
    obtain ⟨hbase, hend⟩ := range_of_isValidPc hvalid
    have hstartLt : blockStart < min (nextLeader.getD t.endAddress) t.endAddress := by
      refine lt_min ?_ hend
      cases nextLeader with
      | none => exact hend
      | some n => exact hlt n rfl
    have hfuel : (min (nextLeader.getD t.endAddress) t.endAddress).toNat
        < blockStart.toNat + ((t.endAddress - t.baseAddress).toNat + 1) := by
      have hmax := BitVec.le_def.1 hlimit.le_end
      have hbase' := BitVec.le_def.1 hbase
      rw [BitVec.toNat_sub_of_le (hbase.trans hend.le)]
      omega
    obtain ⟨pcs, hrun, heq, hstop, hne⟩ :=
      @run_blockLoop X t registry leaders hbounded blockStart _ hlimit _ blockStart 0 blockStart
        le_rfl hstartLt.le hfuel
    have hpcs := hne hstartLt hvalid
    unfold blockFrom
    rw [if_neg (by rw [hvalid]; decide)]
    dsimp only
    set r := blockLoop t registry leaders blockStart
      (min (nextLeader.getD t.endAddress) t.endAddress)
      ((t.endAddress - t.baseAddress).toNat + 1) blockStart 0 blockStart with hr
    have hpos : 0 < r.2.1 := by
      rw [heq, Nat.zero_add]
      exact length_pos_iff.2 hpcs
    have hgrow : blockStart < r.1 := hrun.consecutive.lt hbounded hpcs
    rw [if_pos ⟨hpos, hgrow⟩]
    refine ⟨_, rfl, rfl, ⟨hmem, pcs, hrun, ?_, ?_⟩, ?_⟩
    · rw [heq, Nat.zero_add]
    · rw [heq, getLastD_eq_getLast?, getLast?_eq_some_getLast hpcs]
      rfl
    · intro n hn
      refine hstop.trans ((min_le_left _ _).trans (le_of_eq ?_))
      rw [Option.mem_def.1 hn]
      rfl
  · left
    have hfalse : t.isValidPc blockStart = false := Bool.eq_false_iff.2 hvalid
    refine ⟨hfalse, ?_⟩
    unfold blockFrom
    rw [hfalse]
    rfl

/-! ## All blocks -/

/-- The blocks of a strictly increasing list of leaders. -/
theorem blocksFrom_spec (hbounded : t.Bounded) (hinside : ∀ l ∈ leaders, ¬ t.Inside l)
    {ls : List U64} (hsorted : ls.Pairwise (· < ·)) (hls : ∀ l ∈ ls, l ∈ leaders) :
    (∀ b ∈ blocksFrom t registry leaders ls, b.start ∈ ls ∧ IsBlock t registry leaders b) ∧
      (blocksFrom t registry leaders ls).Pairwise
        (fun b b' => b.start < b'.start ∧ b.stop ≤ b'.start) ∧
      ∀ l ∈ ls, t.isValidPc l = true → ∃ b ∈ blocksFrom t registry leaders ls, b.start = l := by
  induction ls with
  | nil =>
    refine ⟨?_, List.Pairwise.nil, ?_⟩
    · intro b hb
      cases hb
    · intro l hl
      cases hl
  | cons blockStart rest ih =>
    rw [pairwise_cons] at hsorted
    obtain ⟨hblocks, hpairwise, hexists⟩ := ih hsorted.2 fun l hl => hls l (mem_cons_of_mem _ hl)
    have hnext : ∀ n ∈ rest.head?, n ∈ leaders := by
      intro n hn
      exact hls n (mem_cons_of_mem _ (mem_of_mem_head? hn))
    have hlt : ∀ n ∈ rest.head?, blockStart < n := by
      intro n hn
      exact hsorted.1 n (mem_of_mem_head? hn)
    unfold blocksFrom
    rcases @blockFrom_spec X t registry leaders hbounded hinside blockStart
        (hls _ mem_cons_self) rest.head? hnext hlt with
      ⟨hinvalid, hnone⟩ | ⟨b, hsome, hstart, hblock, hstop⟩
    · rw [hnone]
      refine ⟨?_, hpairwise, ?_⟩
      · intro b hb
        exact (hblocks b hb).imp_left (mem_cons_of_mem _)
      · intro l hl hvalid
        rcases mem_cons.1 hl with rfl | hl
        · rw [hinvalid] at hvalid
          cases hvalid
        · exact hexists l hl hvalid
    · rw [hsome]
      refine ⟨?_, pairwise_cons.2 ⟨?_, hpairwise⟩, ?_⟩
      · intro b' hb'
        rcases mem_cons.1 hb' with rfl | hb'
        · exact ⟨hstart ▸ mem_cons_self, hblock⟩
        · exact (hblocks b' hb').imp_left (mem_cons_of_mem _)
      · -- a later block starts at the next leader or after it
        intro b' hb'
        have hmem := (hblocks b' hb').1
        refine ⟨hstart ▸ hsorted.1 _ hmem, ?_⟩
        cases rest with
        | nil => cases hmem
        | cons n rest =>
          refine (hstop n rfl).trans ?_
          rcases mem_cons.1 hmem with heq | hmem
          · exact heq.ge
          · exact ((pairwise_cons.1 hsorted.2).1 _ hmem).le
      · intro l hl hvalid
        rcases mem_cons.1 hl with rfl | hl
        · exact ⟨b, mem_cons_self, hstart⟩
        · obtain ⟨b', hb', hstart'⟩ := hexists l hl hvalid
          exact ⟨b', mem_cons_of_mem _ hb', hstart'⟩

end BlockTable

/-! ## Tables built from bytes -/

section FromBytes

variable {registry : ExtensionRegistry X} {code : List (BitVec 8)} {base : U64}

/-- A table built from bytes holds what stepping through the bytes finds. -/
theorem InstructionTable.filledFrom_fromBytes (hsized : registry.Sized)
    (hlength : (code.length + 1) / 2 < 2 ^ 60) :
    (fromBytes code base registry hlength).FilledFrom registry [⟨base, code⟩] := by
  intro index d
  have hempty : ∀ j, (0 : ℕ) + 0 / 2 ≤ j → j < 0 + (code.length + 1) / 2 →
      slotInstr (replicate ((code.length + 1) / 2) (Slot.default (X := X))) j = none := by
    intro j _ _
    rw [slotInstr, getElem?_replicate]
    split_ifs <;> rfl
  change slotInstr (decodeLoop registry code 0 base (code.length + 1) 0
    (replicate ((code.length + 1) / 2) .default)) index = some d ↔ _
  rw [@slotInstr_decodeLoop X registry hsized ⟨base, code⟩ 0 (code.length + 1) 0 _
    (by dsimp only; omega) .start (by rw [length_replicate, Nat.zero_add]) hempty index d]
  have hnone : slotInstr (replicate ((code.length + 1) / 2) (Slot.default (X := X))) index
      ≠ some d := by
    intro hsome
    rw [slotInstr, getElem?_replicate] at hsome
    split_ifs at hsome <;> cases hsome
  constructor
  · rintro (hsome | ⟨offset, -, hreached, hdecode, hindex⟩)
    · exact absurd hsome hnone
    · have heven := hreached.even hsized
      refine ⟨_, mem_singleton_self _, offset, ?_, hreached, hdecode⟩
      change base.toNat + slotSize * index = base.toNat + offset
      unfold slotSize
      omega
  · rintro ⟨seg, hseg, offset, haddr, hreached, hdecode⟩
    obtain rfl := mem_singleton.1 hseg
    change base.toNat + slotSize * index = base.toNat + offset at haddr
    refine .inr ⟨offset, Nat.zero_le _, hreached, hdecode, ?_⟩
    unfold slotSize at haddr
    omega

/-- The instructions of a table built from bytes lie inside it.  If the end of the bytes is past the
last address, the table has no addresses at all. -/
theorem InstructionTable.bounded_fromBytes (hsized : registry.Sized)
    (hlength : (code.length + 1) / 2 < 2 ^ 60) :
      (fromBytes code base registry hlength).Bounded := by
  intro pc d hget
  obtain ⟨index, hslot, haddr⟩ := exists_slot_of_getAtPc hget
  have hvalid : (fromBytes code base registry hlength).isValidPc pc = true := by
    rw [isValidPc_eq, hget]
    rfl
  obtain ⟨hbase, hend⟩ := BlockTable.range_of_isValidPc hvalid
  obtain ⟨seg, hseg, offset, hoffset, -, hdecode⟩ :=
    (filledFrom_fromBytes hsized hlength index d).1 hslot
  obtain rfl := mem_singleton.1 hseg
  have hsize := (hsized _ _ _ hdecode).2.1
  have hin := Segment.size_le_of_decodeAt hsized hdecode
  change base.toNat + slotSize * index = base.toNat + offset at hoffset
  change offset + d.size ≤ code.length at hin
  change base + BitVec.ofNat 64 (slotSize * index) = pc at haddr
  have hbase' : base.toNat ≤ pc.toNat := BitVec.le_def.1 hbase
  have hend' : pc.toNat < (base + BitVec.ofNat 64 code.length).toNat := BitVec.lt_def.1 hend
  rw [BitVec.toNat_add, BitVec.toNat_ofNat] at hend'
  have hpc : pc.toNat = base.toNat + offset := by
    have hnat := congrArg BitVec.toNat haddr
    rw [BitVec.toNat_add, BitVec.toNat_ofNat] at hnat
    omega
  refine ⟨by omega, ?_⟩
  change pc.toNat + d.size ≤ (base + BitVec.ofNat 64 code.length).toNat
  rw [BitVec.toNat_add, BitVec.toNat_ofNat]
  omega

/-- The blocks of a table built from bytes, for leaders that are not inside instructions: they are
sorted and disjoint, every leader that decodes starts exactly one of them, and each is a run of
consecutive instructions. -/
theorem createBlocksFromLeaders_spec (hsized : registry.Sized)
    (hlength : (code.length + 1) / 2 < 2 ^ 60) {leaders : Finset U64}
    (hinside : ∀ l ∈ leaders, ¬ (InstructionTable.fromBytes code base registry hlength).Inside l) :
    let t := InstructionTable.fromBytes code base registry hlength
    let blocks := BlockTable.createBlocksFromLeaders t registry leaders
    blocks.Pairwise (fun b b' => b.start < b'.start ∧ b.stop ≤ b'.start) ∧
      (∀ l ∈ leaders, t.isValidPc l = true → ∃! b, b ∈ blocks ∧ b.start = l) ∧
      ∀ b ∈ blocks, BlockTable.IsBlock t registry leaders b := by
  intro t blocks
  obtain ⟨hblocks, hpairwise, hexists⟩ :=
    @BlockTable.blocksFrom_spec X t registry leaders
      (InstructionTable.bounded_fromBytes hsized hlength) hinside _
      (SortedList.pairwise_ofFinset leaders) fun l hl => SortedList.mem_ofFinset.1 hl
  refine ⟨hpairwise, ?_, fun b hb => (hblocks b hb).2⟩
  intro l hl hvalid
  obtain ⟨b, hb, hstart⟩ := hexists l (SortedList.mem_ofFinset.2 hl) hvalid
  refine ⟨b, ⟨hb, hstart⟩, ?_⟩
  rintro b' ⟨hb', hstart'⟩
  -- of two different blocks one starts before the other
  by_contra hne
  have : Std.Symm fun c c' : BasicBlock => c.start < c'.start ∨ c'.start < c.start :=
    ⟨fun _ _ h => h.symm⟩
  have hordered : blocks.Pairwise fun c c' => c.start < c'.start ∨ c'.start < c.start :=
    hpairwise.imp fun h => .inl h.1
  have hlt := hordered.forall hb' hb hne
  rw [hstart, hstart'] at hlt
  exact hlt.elim (lt_irrefl l) (lt_irrefl l)

end FromBytes

/-- A table for `beqz a1, 8`, `addi a0, a0, 1` and `ret`. -/
def branchTable : InstructionTable .rv64 :=
  InstructionTable.fromBytes (InstructionTable.codeBytes [0x00058463, 0x00150513, 0x00008067])
    0x1000
    (ExtensionRegistry.standardWith .rv64 bareMetalHandler) (by decide)

/-- The entry and the two successors of the branch. -/
def branchLeaders : Finset U64 := {0x1000, 0x1004, 0x1008}

/-- No instruction of the table is longer than up to the next leader. -/
theorem not_inside_branchLeaders : ∀ l ∈ branchLeaders, ¬ branchTable.Inside l := by
  rintro l hl ⟨pc, d, hget, hlt, hin⟩
  obtain ⟨index, hslot, rfl⟩ := InstructionTable.exists_slot_of_getAtPc hget
  have hindex : index < 6 := by
    have hlength : branchTable.slots.length = 6 := by decide +kernel
    rw [InstructionTable.get, Option.bind_eq_some_iff] at hslot
    obtain ⟨slot, hslot, -⟩ := hslot
    exact hlength ▸ (List.getElem?_eq_some_iff.1 hslot).1
  have hslots : ∀ index < 6, (branchTable.get index).all
      (fun d => index % 2 == 0 && d.size == 4) = true := by
    decide +kernel
  have hd := hslots index hindex
  rw [hslot, Option.all_some, Bool.and_eq_true, beq_iff_eq, beq_iff_eq] at hd
  have haddr : (branchTable.slotAddr index).toNat = 0x1000 + 2 * index := by
    change (0x1000 + BitVec.ofNat 64 (2 * index) : U64).toNat = _
    rw [BitVec.toNat_add, BitVec.toNat_ofNat, Nat.add_mod_mod, show (0x1000 : U64).toNat = 0x1000
      from rfl, Nat.mod_eq_of_lt (by omega)]
  have hlt' := BitVec.lt_def.1 hlt
  have hl' : l.toNat = 0x1000 ∨ l.toNat = 0x1004 ∨ l.toNat = 0x1008 := by
    rcases Finset.mem_insert.1 hl with rfl | hl
    · exact .inl rfl
    · rcases Finset.mem_insert.1 hl with rfl | hl
      · exact .inr (.inl rfl)
      · exact .inr (.inr (Finset.mem_singleton.1 hl ▸ rfl))
  omega

/-- A branch over one instruction. -/
theorem createBlocksFromLeaders_spec_branch :
    let registry := ExtensionRegistry.standardWith .rv64 bareMetalHandler
    let blocks := BlockTable.createBlocksFromLeaders branchTable registry branchLeaders
    blocks.Pairwise (fun b b' => b.start < b'.start ∧ b.stop ≤ b'.start) ∧
      (∀ l ∈ branchLeaders, branchTable.isValidPc l = true → ∃! b, b ∈ blocks ∧ b.start = l) ∧
      ∀ b ∈ blocks, BlockTable.IsBlock branchTable registry branchLeaders b :=
  createBlocksFromLeaders_spec (sized_standardWith bareMetalHandler) _ not_inside_branchLeaders

end Rvr
