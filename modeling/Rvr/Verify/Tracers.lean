import Rvr.Emit.Tracers

/-!
# The frame of the tracers

The runner and the generated code declare the state, and the tracer inside it, each on its own.  The
hooks of the generated code stay inside the runner's tracer, and find the runner's pointers there,
only if the two layouts agree.  They agree for the buffered diff tracer of a library that suspends
and has no fixed addresses; otherwise some hook writes outside the tracer or uses a pointer that the
runner did not store for it.
-/

namespace Rvr

open Layout Footprint List

/-- The tracer that a library is compiled with. -/
inductive TracerHeader
  | preflight | stats | bufferedDiff

/-- The setups of a tracer, with the host addresses of the runner's buffers.  The buffered diff
tracer keeps the entry it had before.  A library with fixed addresses gets a runner without a
tracer, whatever it is compiled with. -/
inductive TracerSetup (X : Xlen)
  | preflight (data pc : U64)
  | stats (addrBitmap : U64)
  | bufferedDiff (buffer : U64) (previous : BufferedDiffTracer X)
  | fixedAddr (compiled : TracerHeader)

namespace TracerSetup

variable {X : Xlen} (n : RegCount) (opTableSize : ℕ) (mode : InstretMode)

/-- The runner that sets the tracer up. -/
def kind : TracerSetup X → RunnerKind
  | preflight data pc => .preflight data pc
  | stats addrBitmap => .stats addrBitmap
  | bufferedDiff buffer _ => .bufferedDiff buffer
  | fixedAddr _ => .fixedAddr

/-- The tracer of the generated code. -/
def header : TracerSetup X → TracerHeader
  | preflight _ _ => .preflight
  | stats _ => .stats
  | bufferedDiff _ _ => .bufferedDiff
  | fixedAddr compiled => compiled

/-- The tracer after the setup. -/
def tracer (s : TracerSetup X) : Tracer X :=
  match s with
  | bufferedDiff _ previous => s.kind.resetTracer (.bufferedDiff previous)
  | _ => s.kind.resetTracer s.kind.newTracer

/-- The runner's tracer type. -/
def rustShape : TracerSetup X → Shape
  | preflight _ _ => PreflightTracer.Field.struct.toShape
  | stats _ => struct [pointer]
  | bufferedDiff _ _ => (BufferedDiffField.struct X).toShape
  | fixedAddr _ => ⟨0, 1⟩

/-- Where the runner has the tracer. -/
def rustOffset (s : TracerSetup X) : ℕ :=
  offset (RvState.fields X n s.kind.suspender.isSome s.rustShape) RvState.tracerField

/-- The tracer type of the generated code. -/
def cShape (s : TracerSetup X) : Shape :=
  match s.header with
  | .preflight => PreflightField.struct.toShape
  | .stats => (StatsField.struct opTableSize).toShape
  | .bufferedDiff => (BufferedDiffField.struct X).toShape

/-- Where the generated code has the tracer. -/
def cOffset (s : TracerSetup X) : ℕ :=
  offset (RvState.fields X n mode.suspends (s.cShape opTableSize)) RvState.tracerField

/-- The hooks of the generated code. -/
def hook (s : TracerSetup X) (c : TraceCall X) : Hook :=
  match s.header with
  | .preflight => PreflightField.hook (s.cOffset n opTableSize mode) c
  | .stats => StatsField.hook opTableSize (s.cOffset n opTableSize mode) c
  | .bufferedDiff => BufferedDiffField.hook X (s.cOffset n opTableSize mode) c

end TracerSetup

namespace Tracer

variable {X : Xlen} (base : ℕ)

/-- The fields of a `DiffEntry`. -/
def entryCells (e : DiffEntry X) : List Cell :=
  structCells (DiffEntryField.struct X) base
    [(.pc, e.pc.toNat), (.opcode, e.opcode.toNat), (.rd, e.rd.toNat), (.hasRd, e.hasRd.toNat),
      (.hasMem, e.hasMem.toNat), (.isWrite, e.isWrite.toNat), (.rdValue, e.rdValue.toNat),
      (.memAddr, e.memAddr.toNat), (.memValue, e.memValue.toNat), (.memWidth, e.memWidth.toNat)]

/-- The fields of a tracer in the layout of the runner. -/
def cells : Tracer X → List Cell
  | preflight t =>
    structCells PreflightTracer.Field.struct base
      [(.data, t.data.toNat), (.dataIdx, t.dataIdx.toNat), (.dataCapacity, t.dataCapacity.toNat),
        (.pc, t.pc.toNat), (.pcIdx, t.pcIdx.toNat), (.pcCapacity, t.pcCapacity.toNat)]
  | stats addrBitmap => [⟨base, 8, addrBitmap.toNat⟩]
  | bufferedDiff t =>
    structCells (BufferedDiffField.struct X) base
      [(.buffer, t.buffer.toNat), (.capacity, t.capacity.toNat), (.head, t.head.toNat),
        (.count, t.count.toNat), (.dropped, t.dropped.toNat),
        (.currentValid, t.currentValid.toNat)] ++
      entryCells (base + (BufferedDiffField.struct X).offsetOf .current) t.current
  | none | debug _ | diff _ => []

end Tracer

namespace TracerSetup

variable {X : Xlen} (n : RegCount) (opTableSize : ℕ) (mode : InstretMode)

/-- The pointers that the setup stored. -/
def pointer : TracerSetup X → TraceBuffer → Option U64
  | preflight data _, .data => some data
  | preflight _ pc, .pc => some pc
  | stats addrBitmap, .addrBitmap => some addrBitmap
  | bufferedDiff buffer _, .entries => some buffer
  | _, _ => none

/-- Only bytes of the runner's tracer are written, and only pointers that the setup stored are
used. -/
def Permits (s : TracerSetup X) : Effect TraceBuffer → Prop
  | .write offset len =>
    s.rustOffset n ≤ offset ∧ offset + len ≤ s.rustOffset n + s.rustShape.size
  | .through b p => ∃ stored, s.pointer b = some stored ∧ p = stored.toNat

/-- The hooks stay in the frame: from any state with the tracer set up, in every sequence of
calls. -/
def Framed (s : TracerSetup X) : Prop :=
  ∀ m, (∀ c ∈ s.tracer.cells (s.rustOffset n), c.Holds m) → ∀ calls : List (TraceCall X),
    ∀ e ∈ (calls.forM (s.hook n opTableSize mode)).effects m, s.Permits n e

/-! ## The two layouts -/

/-- The offset of a tracer that is aligned to eight bytes. -/
def tracerPlace (X : Xlen) (n : RegCount) (suspends : Bool) : ℕ :=
  offset (RvState.fields X n suspends (scalar 8)) RvState.tracerField

/-- Only the alignment of a tracer matters for its offset. -/
theorem offset_tracerField {suspends : Bool} {shape : Shape} (h : shape.align = 8) :
    offset (RvState.fields X n suspends shape) RvState.tracerField = tracerPlace X n suspends :=
  congrArg (alignUp (endFrom 0 ((RvState.fields X n suspends shape).take RvState.tracerField))) h

theorem align_bufferedDiff : (BufferedDiffField.struct X).toShape.align = 8 := by
  cases X <;> decide

variable (s : TracerSetup X)

theorem align_cShape : (s.cShape opTableSize).align = 8 := by
  unfold cShape
  cases s.header with
  | preflight =>
    change PreflightField.struct.toShape.align = 8
    decide
  | stats => simp [StatsField.struct, Struct.toShape, Layout.struct, scalar, array, Rvr.pointer]
  | bufferedDiff => exact align_bufferedDiff

theorem rustOffset_bufferedDiff (buffer : U64) (previous : BufferedDiffTracer X) :
    (bufferedDiff buffer previous : TracerSetup X).rustOffset n = tracerPlace X n true :=
  offset_tracerField n align_bufferedDiff

theorem cOffset_eq :
    s.cOffset n opTableSize mode = tracerPlace X n mode.suspends :=
  offset_tracerField n (s.align_cShape opTableSize)

/-- The suspender is eight bytes. -/
theorem tracerPlace_true : tracerPlace X n true = tracerPlace X n false + 8 := by
  cases X <;> cases n <;> decide +kernel

theorem tracerPlace_le (suspends : Bool) : tracerPlace X n false ≤ tracerPlace X n suspends := by
  cases suspends with
  | false => exact le_rfl
  | true =>
    rw [tracerPlace_true]
    omega

theorem aligned_diffEntry : (DiffEntryField.struct X).Aligned := by
  unfold Struct.Aligned
  cases X <;> decide

theorem aligned_bufferedDiff : (BufferedDiffField.struct X).Aligned := by
  unfold Struct.Aligned
  cases X <;> decide

/-! ## States with the tracer set up -/

theorem toNat_lt_of_width {w k : ℕ} (h : 2 ^ w = 256 ^ k) (v : BitVec w) : v.toNat < 256 ^ k :=
  h ▸ v.isLt

theorem two_pow_value : 2 ^ X.value = 256 ^ X.regBytes := by cases X <;> decide

theorem fits_entryCells (base : ℕ) (e : DiffEntry X) : ∀ c ∈ Tracer.entryCells base e, c.Fits := by
  refine fits_structCells ?_
  simp only [forall_mem_cons, not_mem_nil, false_implies, implies_true, and_true]
  exact ⟨toNat_lt_of_width two_pow_value _, toNat_lt_of_width rfl _, toNat_lt_of_width rfl _,
    toNat_lt_of_width rfl _, toNat_lt_of_width rfl _, toNat_lt_of_width rfl _,
    toNat_lt_of_width two_pow_value _, toNat_lt_of_width two_pow_value _,
    toNat_lt_of_width two_pow_value _, toNat_lt_of_width rfl _⟩

theorem fits_cells (base : ℕ) (t : Tracer X) : ∀ c ∈ t.cells base, c.Fits := by
  cases t with
  | preflight t =>
    refine fits_structCells ?_
    simp only [forall_mem_cons, not_mem_nil, false_implies, implies_true, and_true]
    exact ⟨toNat_lt_of_width rfl _, toNat_lt_of_width rfl _, toNat_lt_of_width rfl _,
      toNat_lt_of_width rfl _, toNat_lt_of_width rfl _, toNat_lt_of_width rfl _⟩
  | stats addrBitmap =>
    intro c hc
    rw [mem_singleton.1 hc]
    exact toNat_lt_of_width rfl addrBitmap
  | bufferedDiff t =>
    intro c hc
    rcases mem_append.1 hc with hc | hc
    · refine fits_structCells ?_ c hc
      simp only [forall_mem_cons, not_mem_nil, false_implies, implies_true, and_true]
      exact ⟨toNat_lt_of_width rfl _, toNat_lt_of_width rfl _, toNat_lt_of_width rfl _,
        toNat_lt_of_width rfl _, toNat_lt_of_width rfl _, toNat_lt_of_width rfl _⟩
    · exact fits_entryCells _ _ c hc
  | none => exact fun c hc => absurd hc not_mem_nil
  | debug t => exact fun c hc => absurd hc not_mem_nil
  | diff t => exact fun c hc => absurd hc not_mem_nil

theorem mem_fields_entry (f : DiffEntryField) : f ∈ (DiffEntryField.struct X).fields := by
  cases f <;> simp [DiffEntryField.struct]

theorem mem_fields_bufferedDiff (f : BufferedDiffField) :
    f ∈ (BufferedDiffField.struct X).fields := by
  cases f <;> simp [BufferedDiffField.struct]

theorem pairwise_bufferedDiff (base : ℕ) (t : BufferedDiffTracer X) :
    ((Tracer.bufferedDiff t).cells base).Pairwise Cell.Apart := by
  refine pairwise_append.2 ⟨?_, ?_, fun c hc d hd => ?_⟩
  · exact pairwise_structCells aligned_bufferedDiff (fun fv _ => mem_fields_bufferedDiff fv.1)
      (by simp)
  · exact pairwise_structCells aligned_diffEntry (fun fv _ => mem_fields_entry fv.1) (by simp)
  · obtain ⟨fv, hfv, rfl⟩ := mem_map.1 hc
    obtain ⟨gw, -, rfl⟩ := mem_map.1 hd
    have hne : fv.1 ≠ .current := by
      rintro heq
      simp only [mem_cons, not_mem_nil, or_false] at hfv
      rcases hfv with rfl | rfl | rfl | rfl | rfl | rfl <;> cases heq
    have hapart := aligned_bufferedDiff.apart (@mem_fields_bufferedDiff X fv.1)
      (mem_fields_bufferedDiff .current) hne
    have hsize : ((BufferedDiffField.struct X).shape .current).size =
      (DiffEntryField.struct X).sizeOf := rfl
    have hinside := aligned_diffEntry.offsetOf_add_size_le (@mem_fields_entry X gw.1)
    unfold Cell.Apart
    dsimp only
    omega

/-- Every tracer can be set up. -/
theorem exists_setup (base : ℕ) :
    ∃ m, ∀ c ∈ s.tracer.cells base, c.Holds m := by
  refine exists_holds ?_ (fits_cells base s.tracer)
  cases s with
  | preflight data pc =>
    refine pairwise_structCells ?_ (fun fv _ => ?_) (by simp)
    · unfold Struct.Aligned
      decide
    · cases fv.1 <;> decide
  | stats addrBitmap => exact pairwise_singleton _ _
  | bufferedDiff buffer previous => exact pairwise_bufferedDiff base _
  | fixedAddr compiled => exact .nil

/-! ## Hooks that leave the frame -/

/-- `trace_init` of the preflight header writes an index behind the runner's tracer. -/
theorem not_framed_preflight (data pc : U64) :
    ¬ (preflight data pc : TracerSetup X).Framed n opTableSize mode := by
  intro hframed
  obtain ⟨m, hm⟩ := exists_setup (preflight data pc : TracerSetup X)
    ((preflight data pc : TracerSetup X).rustOffset n)
  have hwrite := hframed m hm [.init 0]
    (.write (PreflightField.pcIdx.place ((preflight data pc : TracerSetup X).cOffset n opTableSize
      mode)) 4)
    (.tail _ (.head _))
  have hsize : PreflightTracer.Field.struct.toShape.size = 32 := by decide
  have hle := @tracerPlace_le X n mode.suspends
  obtain ⟨-, hend⟩ := hwrite
  change tracerPlace X n mode.suspends + 32 + 4 ≤
    tracerPlace X n false + PreflightTracer.Field.struct.toShape.size at hend
  omega

/-- `trace_block` of the stats header writes the last `pc` behind the runner's tracer. -/
theorem not_framed_stats (addrBitmap : U64) :
    ¬ (stats addrBitmap : TracerSetup X).Framed n opTableSize mode := by
  intro hframed
  obtain ⟨m, hm⟩ := exists_setup (stats addrBitmap : TracerSetup X)
    ((stats addrBitmap : TracerSetup X).rustOffset n)
  have hwrite := hframed m hm [.init 0, .block 0]
    (.write (StatsField.lastPc.place opTableSize
      ((stats addrBitmap : TracerSetup X).cOffset n opTableSize mode)) 8)
    (.tail _ (.head _))
  have hplace : (StatsField.struct opTableSize).offsetOf .lastPc = 80 := by
    simp [Struct.offsetOf, StatsField.struct, offset, offsetsFrom, alignUp, scalar]
  have hle := @tracerPlace_le X n mode.suspends
  obtain ⟨-, hend⟩ := hwrite
  rw [cOffset_eq, StatsField.place, hplace] at hend
  change tracerPlace X n mode.suspends + 80 + 8 ≤ tracerPlace X n false + 8 at hend
  omega

/-- The runner of a library with fixed addresses has no tracer that a hook could write. -/
theorem not_framed_fixedAddr (compiled : TracerHeader) :
    ¬ (fixedAddr compiled : TracerSetup X).Framed n opTableSize mode := by
  intro hframed
  set s : TracerSetup X := fixedAddr compiled
  have hempty {calls : List (TraceCall X)} {offset len : ℕ}
      (h : .write offset len ∈ (calls.forM (s.hook n opTableSize mode)).effects fun _ => 0) :
      len = 0 := by
    obtain ⟨hle, hend⟩ := hframed _ (fun _ hc => absurd hc not_mem_nil) calls _ h
    change offset + len ≤ s.rustOffset n + 0 at hend
    omega
  cases compiled with
  | preflight => exact absurd (@hempty [.init 0] _ 4 (.head _)) (by decide)
  | stats => exact absurd (@hempty [.block 0] _ 8 (.head _)) (by decide)
  | bufferedDiff => exact absurd (@hempty [.init 0] _ 4 (.head _)) (by decide)

/-! ## The buffered diff tracer -/

section BufferedDiff

open BufferedDiffField

variable {place : ℕ} {permitted : Effect TraceBuffer → Prop} {pointer : ℕ}

/-- The pointer to the buffer is the one that was stored. -/
def HasBuffer (X : Xlen) (place pointer : ℕ) (m : Bytes) : Prop :=
  load m (buffer.place X place) 8 = pointer

/-- The bytes of the tracer may be written, and the stored pointer may be used. -/
structure PermitsBuffered (X : Xlen) (place pointer : ℕ) (permitted : Effect TraceBuffer → Prop) :
    Prop where
  write : ∀ {offset len}, place ≤ offset →
    offset + len ≤ place + (BufferedDiffField.struct X).sizeOf →
    permitted (.write offset len)
  through : permitted (.through .entries pointer)

variable (h : PermitsBuffered X place pointer permitted)
include h

theorem safe_assign {f : BufferedDiffField} (hf : f ≠ .buffer) (v : ℕ) :
    Safe (HasBuffer X place pointer) permitted (assign X place f v) := by
  have hinside := aligned_bufferedDiff.offsetOf_add_size_le (@mem_fields_bufferedDiff X f)
  have hapart := aligned_bufferedDiff.apart (@mem_fields_bufferedDiff X f)
    (mem_fields_bufferedDiff .buffer) hf
  have hsize : ((BufferedDiffField.struct X).shape .buffer).size = 8 := rfl
  unfold assign BufferedDiffField.place
  refine safe_set (h.write (by omega) (by omega)) fun m hm => ?_
  unfold HasBuffer BufferedDiffField.place at hm ⊢
  rw [load_store_of_disjoint (by omega), hm]

theorem safe_assignEntry (f : DiffEntryField) (v : ℕ) :
    Safe (HasBuffer X place pointer) permitted (assignEntry X place f v) := by
  have hentry := aligned_diffEntry.offsetOf_add_size_le (@mem_fields_entry X f)
  have hsize : ((BufferedDiffField.struct X).shape .current).size =
    (DiffEntryField.struct X).sizeOf := rfl
  have hinside := aligned_bufferedDiff.offsetOf_add_size_le (@mem_fields_bufferedDiff X .current)
  have hapart := aligned_bufferedDiff.apart (@mem_fields_bufferedDiff X .current)
    (mem_fields_bufferedDiff .buffer) (by decide)
  have hsize' : ((BufferedDiffField.struct X).shape .buffer).size = 8 := rfl
  unfold assignEntry entryAt BufferedDiffField.place
  refine safe_set (h.write (by omega) (by omega)) fun m hm => ?_
  unfold HasBuffer BufferedDiffField.place at hm ⊢
  rw [load_store_of_disjoint (by omega), hm]

/-- Adding to a counter is an assignment. -/
theorem safe_increase {f : BufferedDiffField}
    (hf : f ≠ .buffer) (hsize : ((BufferedDiffField.struct X).shape f).size = 4) (amount : ℕ) :
    Safe (HasBuffer X place pointer) permitted (increase (f.place X place) 4 amount) := by
  refine (safe_get _ _).bind fun v => ?_
  have hassign := safe_assign h hf (v + amount)
  rwa [assign, hsize] at hassign

theorem safe_flush :
    Safe (HasBuffer X place pointer) permitted (flush X place) := by
  refine (safe_get _ _).bind fun headIdx => (safe_deref fun m hm => ?_).bind fun _ =>
    (safe_get _ _).bind fun cap => (safe_assign h (by decide) _).bind fun _ =>
    (safe_get _ _).bind fun entries => safe_ite ?_ ?_
  · rw [hm]
    exact h.through
  · exact safe_increase h (by decide) rfl 1
  · exact safe_increase h (by decide) rfl 1

theorem safe_startEntry (pc : ℕ) :
    Safe (HasBuffer X place pointer) permitted (startEntry X place pc) := by
  iterate 10 refine (safe_assignEntry h _ _).bind fun _ => ?_
  exact safe_assign h (by decide) _

theorem safe_recordAccess (addr value width isStore : ℕ) :
    Safe (HasBuffer X place pointer) permitted (recordAccess X place addr value width isStore) := by
  iterate 4 refine (safe_assignEntry h _ _).bind fun _ => ?_
  exact safe_assignEntry h _ _

/-- Every hook keeps the pointer, and writes and uses only what it may. -/
theorem safe_hook (c : TraceCall X) :
    Safe (HasBuffer X place pointer) permitted (BufferedDiffField.hook X place c) := by
  cases c with
  | init now =>
    exact (safe_assign h (by decide) _).bind fun _ => (safe_assign h (by decide) _).bind fun _ =>
      (safe_assign h (by decide) _).bind fun _ => safe_assign h (by decide) _
  | fini =>
    exact (safe_get _ _).bind fun _ => (safe_get _ _).bind fun _ => safe_ite (safe_pure ())
      ((safe_flush h).bind fun _ => safe_assign h (by decide) _)
  | pc pc op =>
    have hfinalize : Safe (HasBuffer X place pointer) permitted (finalize X place) :=
      (safe_get _ _).bind fun _ => safe_ite (safe_flush h) (safe_pure ())
    exact (safe_get _ _).bind fun _ => safe_ite (safe_pure ())
      (hfinalize.bind fun _ => safe_startEntry h _)
  | opcode pc op opcode => exact safe_assignEntry h _ _
  | regWrite pc op reg value =>
    exact safe_ite ((safe_assignEntry h _ _).bind fun _ => (safe_assignEntry h _ _).bind fun _ =>
      safe_assignEntry h _ _) (safe_pure ())
  | memRead width pc op addr value => exact safe_recordAccess h _ _ _ _
  | memWrite width pc op addr value => exact safe_recordAccess h _ _ _ _
  | block pc => exact safe_pure ()
  | regRead pc op reg value => exact safe_pure ()
  | branchTaken pc op target => exact safe_pure ()
  | branchNotTaken pc op target => exact safe_pure ()
  | csrRead pc op csr value => exact safe_pure ()
  | csrWrite pc op csr value => exact safe_pure ()

omit h

/-- `trace_pc` marks the entry that it starts as valid. -/
theorem load_currentValid_pc {m : Bytes} {pc : X.Reg} {op : BitVec 16}
    (h : load m (buffer.place X place) 8 ≠ 0) :
    load ((BufferedDiffField.hook X place (.pc pc op)).bytes m) (currentValid.place X place) 1 =
      1 := by
  have hsize : ((BufferedDiffField.struct X).shape .currentValid).size = 1 := rfl
  rw [BufferedDiffField.hook, Prog.bytes_bind, Prog.value_get, if_neg h]
  simp only [startEntry]
  rw [assign, hsize]
  exact load_store_self (by decide)

/-- `trace_pc` flushes a valid entry to the buffer. -/
theorem mem_effects_pc {m : Bytes} {pc : X.Reg} {op : BitVec 16}
    (h : load m (buffer.place X place) 8 ≠ 0) (hvalid : load m (currentValid.place X place) 1 ≠ 0) :
    Effect.through TraceBuffer.entries (load m (buffer.place X place) 8) ∈
      (BufferedDiffField.hook X place (.pc pc op)).effects m := by
  rw [BufferedDiffField.hook, Prog.effects_bind, Prog.value_get, Prog.bytes_get, if_neg h,
    Prog.effects_bind]
  refine mem_append_right _ (mem_append_left _ ?_)
  rw [finalize, Prog.effects_bind, Prog.value_get, if_pos hvalid]
  refine mem_append_right _ ?_
  rw [flush]
  exact mem_append_right _ (mem_append_left _ (mem_singleton.2 rfl))

end BufferedDiff

/-- The layouts agree for the buffered diff runner of a library that suspends. -/
theorem framed_bufferedDiff {mode : InstretMode} (hmode : mode.suspends = true) (buffer : U64)
    (previous : BufferedDiffTracer X) :
    (bufferedDiff buffer previous : TracerSetup X).Framed n opTableSize mode := by
  intro m hm calls e he
  have hplace : (bufferedDiff buffer previous : TracerSetup X).cOffset n opTableSize mode =
      (bufferedDiff buffer previous : TracerSetup X).rustOffset n := by
    rw [rustOffset_bufferedDiff, cOffset_eq, hmode]
  have hpermits : PermitsBuffered X ((bufferedDiff buffer previous : TracerSetup X).rustOffset n)
      buffer.toNat ((bufferedDiff buffer previous : TracerSetup X).Permits n) :=
    ⟨fun hle hend => ⟨hle, hend⟩, ⟨buffer, rfl, rfl⟩⟩
  have hbuffer : HasBuffer X ((bufferedDiff buffer previous : TracerSetup X).rustOffset n)
      buffer.toNat m := hm _ (.head _)
  refine (safe_forM (fun c _ => ?_) m hbuffer).2 e he
  change Safe _ _ (BufferedDiffField.hook X _ c)
  rw [hplace]
  exact safe_hook hpermits c

/-- Without a suspender in the generated code's state, its tracer begins at the runner's pointer to
guest memory, which it takes for the buffer. -/
theorem not_framed_bufferedDiff {mode : InstretMode} (hmode : mode.suspends = false) (buffer : U64)
    (previous : BufferedDiffTracer X) :
    ¬ (bufferedDiff buffer previous : TracerSetup X).Framed n opTableSize mode := by
  intro hframed
  set s : TracerSetup X := bufferedDiff buffer previous with hs
  have hrust : s.rustOffset n = tracerPlace X n false + 8 := by
    rw [hs, rustOffset_bufferedDiff, tracerPlace_true]
  have hc : s.cOffset n opTableSize mode = tracerPlace X n false := by rw [cOffset_eq, hmode]
  have hfirst : (BufferedDiffField.struct X).offsetOf .buffer = 0 := by cases X <;> decide
  -- guest memory is somewhere else than the buffer
  obtain ⟨memory, hne, hpos⟩ : ∃ memory : U64, memory ≠ buffer ∧ memory.toNat ≠ 0 := by
    by_cases h : buffer = 1
    · exact ⟨2, by rw [h]; decide, by decide⟩
    · exact ⟨1, fun heq => h heq.symm, by decide⟩
  obtain ⟨m, hm⟩ : ∃ m, ∀ c ∈ ⟨tracerPlace X n false, 8, memory.toNat⟩ :: s.tracer.cells
      (s.rustOffset n),
      Cell.Holds m c := by
    refine exists_holds (pairwise_cons.2 ⟨fun c hc => ?_, pairwise_bufferedDiff _ _⟩)
      (forall_mem_cons.2 ⟨toNat_lt_of_width rfl memory, fits_cells _ _⟩)
    left
    rcases mem_append.1 hc with hc | hc
    · obtain ⟨fv, -, rfl⟩ := mem_map.1 hc
      dsimp only
      omega
    · obtain ⟨fv, -, rfl⟩ := mem_map.1 hc
      dsimp only
      omega
  have hsafe (c : TraceCall X) : Safe (HasBuffer X (tracerPlace X n false) memory.toNat)
      (fun _ => True) (BufferedDiffField.hook X (tracerPlace X n false) c) :=
    safe_hook ⟨fun _ _ => trivial, trivial⟩ c
  have hbuffer : HasBuffer X (tracerPlace X n false) memory.toNat m := by
    rw [HasBuffer, BufferedDiffField.place, hfirst]
    exact hm _ (.head _)
  obtain ⟨hinit, -⟩ := hsafe (.init 0) m hbuffer
  obtain ⟨hpc, -⟩ := hsafe (.pc 0 0) _ hinit
  have hvalid := @load_currentValid_pc X (tracerPlace X n false) _ 0 0 (ne_of_eq_of_ne hinit hpos)
  have hflush := @mem_effects_pc X (tracerPlace X n false) _ 0 0 (ne_of_eq_of_ne hpc hpos)
    (by rw [hvalid]; exact one_ne_zero)
  rw [hpc] at hflush
  have hhook (c : TraceCall X) : s.hook n opTableSize mode c =
      BufferedDiffField.hook X (tracerPlace X n false) c := by
    change BufferedDiffField.hook X (s.cOffset n opTableSize mode) c = _
    rw [hc]
  obtain ⟨stored, hstored, heq⟩ := hframed m (fun c hc => hm c (mem_cons_of_mem _ hc))
    [.init 0, .pc 0 0, .pc 0 0] (.through .entries memory.toNat) (by
      rw [Prog.effects_forM_cons, Prog.effects_forM_cons, Prog.effects_forM_cons, hhook, hhook]
      exact mem_append_right _ (mem_append_right _ (mem_append_left _ hflush)))
  cases hstored
  exact hne (BitVec.eq_of_toNat_eq heq)

/-- The hooks stay in the frame exactly for the buffered diff runner of a library that suspends: so
never for a library with fixed addresses. -/
theorem framed_iff {s : TracerSetup X} :
    s.Framed n opTableSize mode ↔
      (∃ buffer previous, s = bufferedDiff buffer previous) ∧ mode.suspends = true := by
  cases s with
  | preflight data pc =>
    refine iff_of_false (not_framed_preflight n opTableSize mode data pc) ?_
    rintro ⟨⟨buffer, previous, ⟨⟩⟩, -⟩
  | stats addrBitmap =>
    refine iff_of_false (not_framed_stats n opTableSize mode addrBitmap) ?_
    rintro ⟨⟨buffer, previous, ⟨⟩⟩, -⟩
  | bufferedDiff buffer previous =>
    cases hmode : mode.suspends with
    | true =>
      exact iff_of_true (framed_bufferedDiff n opTableSize hmode buffer previous)
        ⟨⟨buffer, previous, rfl⟩, rfl⟩
    | false =>
      refine iff_of_false (not_framed_bufferedDiff n opTableSize hmode buffer previous) ?_
      rintro ⟨-, ⟨⟩⟩
  | fixedAddr compiled =>
    refine iff_of_false (not_framed_fixedAddr n opTableSize mode compiled) ?_
    rintro ⟨⟨buffer, previous, ⟨⟩⟩, -⟩

/-- On RV64 the runner's preflight tracer is the bytes 312 to 343 of the state, and `trace_init`
writes the bytes 344 to 347; its stats tracer is the bytes 312 to 319, and `trace_block` writes the
bytes 392 to 399; and its buffered diff tracer begins at 320, while the generated code has it at
312.  With fixed addresses the runner has no tracer at all, and `trace_init` of the buffered diff
tracer writes the bytes 332 to 335. -/
theorem not_framed_rv64 :
    ((preflight 0x10000 0x20000 : TracerSetup .rv64).rustOffset .i = 312 ∧
        (preflight 0x10000 0x20000 : TracerSetup .rv64).rustShape.size = 32 ∧
        .write 344 4 ∈ ([.init 0].forM
          ((preflight 0x10000 0x20000 : TracerSetup .rv64).hook .i 128 .count)).effects fun _ =>
            0) ∧
      ¬ (preflight 0x10000 0x20000 : TracerSetup .rv64).Framed .i 128 .count ∧
      ((stats 0x10000 : TracerSetup .rv64).rustOffset .i = 312 ∧
        (stats 0x10000 : TracerSetup .rv64).rustShape.size = 8 ∧
        .write 392 8 ∈ ([.init 0, .block 0].forM
          ((stats 0x10000 : TracerSetup .rv64).hook .i 128 .count)).effects fun _ => 0) ∧
      ¬ (stats 0x10000 : TracerSetup .rv64).Framed .i 128 .count ∧
      ((bufferedDiff 0x10000 {} : TracerSetup .rv64).rustOffset .i = 320 ∧
        (bufferedDiff 0x10000 {} : TracerSetup .rv64).cOffset .i 128 .count = 312) ∧
      ¬ (bufferedDiff 0x10000 {} : TracerSetup .rv64).Framed .i 128 .count ∧
      ((fixedAddr .bufferedDiff : TracerSetup .rv64).rustShape.size = 0 ∧
        .write 332 4 ∈ ([.init 0].forM
          ((fixedAddr .bufferedDiff : TracerSetup .rv64).hook .i 128 .suspend)).effects fun _ =>
            0) ∧
      ¬ (fixedAddr .bufferedDiff : TracerSetup .rv64).Framed .i 128 .suspend :=
  ⟨by decide +kernel, not_framed_preflight _ _ _ _ _, by decide +kernel, not_framed_stats _ _ _ _,
    by decide +kernel, not_framed_bufferedDiff _ _ rfl _ _, by decide +kernel,
    not_framed_fixedAddr _ _ _ _⟩

end TracerSetup

end Rvr
