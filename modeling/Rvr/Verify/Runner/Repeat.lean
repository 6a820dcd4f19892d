import Rvr.Verify.Runner.Loading

/-!
# Running a program again

`Runner::run` loads the segments, resets the state and sets up registers and target before it calls
the library.  `reset` leaves the CSRs and the program break as the last run left them, the diff
tracers keep their last entry, and the fixed-address runner also keeps its `pc` and reservation.  So
a used runner repeats what a fresh one does, whatever the library is, exactly if nothing of this has
changed (`Restored`).  `run_multiple` in addition neither sets up registers nor keeps a target.
-/

namespace Rvr

open Outcome

variable {X : Xlen} {n : RegCount} {size : MemSize}

namespace Runner

variable (r : Runner X n size)

/-! ## Fresh runners -/

/-- A target that was set, as far as the runner has one. -/
def withTarget (target : Option U64) : Runner X n size :=
  match target with
  | some t => r.setTargetInstret t
  | none => r

/-- A freshly loaded runner for the same image, with the same target. -/
def fresh (memory : Memory size) : Runner X n size :=
  (Runner.new r.kind r.elfImage memory : Runner X n size).withTarget r.getTargetInstret

/-- What earlier use may have changed and `reset` does not restore. -/
structure Restored : Prop where
  brk : r.state.brk = r.elfImage.getInitialProgramBreak
  startBrk : r.state.startBrk = r.elfImage.getInitialProgramBreak
  csrs : r.state.csrs = fun _ => 0
  tracer : r.kind.resetTracer r.state.tracer = r.kind.resetTracer r.kind.newTracer
  fixedAddr : r.kind = .fixedAddr → r.state.pc = 0 ∧ r.state.reservationAddr = 0 ∧
    r.state.reservationValid = 0 ∧ r.state.suspender = none

/-- There is nothing to set up: no global pointer, no stack pointer and no target. -/
structure Plain : Prop where
  globalPointer : ∀ v, r.elfImage.lookupSymbol "__global_pointer$" = some v → X.fromU64 v = 0
  stackTop : ∀ v, r.elfImage.lookupSymbol "__stack_top" = some v → X.fromU64 v = 0
  target : ∀ t, r.state.suspender = some t → r.kind.suspender = none ∨ t = noTarget

/-- The exit code and instret of `run`. -/
def runResult (debug : Bool) (lib : Library X n size) : Outcome Memory.Fault RunResult := do
  let (result, _) ← r.run debug lib
  pure result

/-- The exit code and instret of one round of `run_multiple`. -/
def roundResult (debug : Bool) (lib : Library X n size) : Outcome Memory.Fault RunResult := do
  let (result, _) ← r.runOnce debug lib
  pure result

/-! ## The state a library is called with -/

/-- The registers that `setup_initial_regs` leaves. -/
def initialRegs (image : ElfImage X) (regs : Fin n.count → X.Reg) : Fin n.count → X.Reg :=
  let set (reg : ℕ) (value : Option U64) (regs : Fin n.count → X.Reg) : Fin n.count → X.Reg :=
    match value with
    | some v => fun i => if i.val = reg ∧ reg ≠ 0 then X.fromU64 v else regs i
    | none => regs
  set REG_RA (some 0) (set REG_SP (image.lookupSymbol "__stack_top")
    (set REG_GP (image.lookupSymbol "__global_pointer$") regs))

/-- The target after `run` has restored it. -/
def restoredTarget (saved current : Option U64) : Option U64 :=
  match saved with
  | some target => if target ≠ noTarget then current.map fun _ => target else current
  | none => current

/-- The state in which `run` calls the library. -/
def startState : RvState X n :=
  { r.reset.state with
    regs := initialRegs r.elfImage r.reset.state.regs
    suspender := restoredTarget r.state.suspender r.reset.state.suspender }

variable {r}

theorem setupInitialRegs_eq : r.setupInitialRegs =
    { r with state := { r.state with regs := initialRegs r.elfImage r.state.regs } } := by
  unfold setupInitialRegs setFromSymbol initialRegs setRegister RvState.setReg
  cases hgp : r.elfImage.lookupSymbol "__global_pointer$" <;>
    cases hsp : r.elfImage.lookupSymbol "__stack_top" <;> rfl

theorem restoreTarget_eq {saved : Option U64} : r.restoreTarget saved =
    { r with state := { r.state with suspender := restoredTarget saved r.state.suspender } } := by
  unfold restoreTarget restoredTarget setTargetInstret
  cases saved with
  | none => rfl
  | some target =>
    dsimp only
    split_ifs <;> rfl

theorem elfImage_reset : r.reset.elfImage = r.elfImage := by
  unfold reset
  split <;> rfl

theorem reset_with_memory {memory : Memory size} :
    ({ r with memory } : Runner X n size).reset = { r.reset with memory } := by
  unfold reset
  dsimp only
  split <;> rfl

variable {lib : Library X n size} {debug : Bool}

/-- `run` is the load of the segments and a call of the library in the start state. -/
theorem runResult_eq : r.runResult debug lib = (do
    let memory ← copySegments debug (fun _ => 0) r.elfImage.memorySegments
    let s := (lib r.startState memory r.entryPoint).1
    pure ⟨s.exitCode, s.instret⟩) := by
  unfold runResult run loadSegments Memory.clear
  cases copySegments debug (fun _ => 0 : Memory size) r.elfImage.memorySegments with
  | ok memory =>
    simp only [ok_bind, pure_eq, reset_with_memory, setupInitialRegs_eq, restoreTarget_eq,
      elfImage_reset]
    rfl
  | err e => rfl
  | panic => rfl

/-- A round of `run_multiple` calls the library right after the reset. -/
theorem roundResult_eq : r.roundResult debug lib = (do
    let memory ← copySegments debug (fun _ => 0) r.elfImage.memorySegments
    let s := (lib r.reset.state memory r.entryPoint).1
    pure ⟨s.exitCode, s.instret⟩) := by
  unfold roundResult runOnce loadSegments Memory.clear
  cases copySegments debug (fun _ => 0 : Memory size) r.elfImage.memorySegments with
  | ok memory =>
    simp only [ok_bind, pure_eq, reset_with_memory, executeFrom, result, entryPoint, elfImage_reset]
  | err e => rfl
  | panic => rfl

/-! ## Agreement for every library -/

open Classical in
/-- A library that tells a state from all others by its exit code. -/
noncomputable def telling (s : RvState X n) : Library X n size :=
  fun s' memory _ => ({ s' with exitCode := if s' = s then 0 else 1 }, memory)

/-- Every library gives the same result in two states only if they are the same state. -/
theorem forall_library_iff {s s' : RvState X n} {pc : U64} {memory : Memory size} :
    (∀ lib : Library X n size, ((lib s memory pc).1.exitCode, (lib s memory pc).1.instret) =
        ((lib s' memory pc).1.exitCode, (lib s' memory pc).1.instret)) ↔ s = s' := by
  constructor
  · intro h
    have hexit := congrArg Prod.fst (h (telling s'))
    by_contra hne
    unfold telling at hexit
    dsimp only at hexit
    rw [if_pos rfl, if_neg hne] at hexit
    exact absurd hexit (by decide)
  · rintro rfl lib
    rfl

/-- The same for the results of whole runs, which exist if the segments can be loaded. -/
theorem forall_result_iff {load : Outcome Memory.Fault (Memory size)} {s s' : RvState X n}
    {pc : U64} :
    (∀ lib : Library X n size, (do
        let memory ← load
        let t := (lib s memory pc).1
        pure ⟨t.exitCode, t.instret⟩ : Outcome Memory.Fault RunResult) = (do
        let memory ← load
        let t := (lib s' memory pc).1
        pure ⟨t.exitCode, t.instret⟩)) ↔ (load.Returns → s = s') := by
  cases load with
  | ok memory =>
    simp only [ok_bind, pure_eq, ok.injEq, RunResult.mk.injEq]
    rw [← @forall_library_iff X n size s s' pc memory]
    simp only [Prod.mk.injEq]
    exact ⟨fun h _ => h, fun h => h (returns_ok _)⟩
  | err e =>
    refine iff_of_true (fun _ => rfl) ?_
    rintro ⟨memory, h⟩
    cases h
  | panic =>
    refine iff_of_true (fun _ => rfl) ?_
    rintro ⟨memory, h⟩
    cases h

/-! ## What has to be restored -/

theorem suspender_cases (kind : RunnerKind) :
    kind.suspender = none ∨ kind.suspender = some noTarget := by
  cases kind <;> simp [RunnerKind.suspender]

theorem reset_of_fixedAddr (h : r.kind = .fixedAddr) : r.reset.state =
    { r.state.clearExit with instret := 0, regs := fun _ => 0 } := by
  unfold reset
  rw [h]

theorem reset_of_ne (h : r.kind ≠ .fixedAddr) : r.reset.state = { r.state.reset with
    suspender := r.kind.suspender
    tracer := r.kind.resetTracer r.state.tracer } := by
  unfold reset
  cases hkind : r.kind <;> first | rfl | exact absurd hkind h

variable (memory : Memory size)

theorem suspender_fresh : (r.fresh memory).state.suspender =
    match r.state.suspender with
    | some t => r.kind.suspender.map fun _ => t
    | none => r.kind.suspender := by
  unfold fresh withTarget getTargetInstret
  split <;> rfl

/-- Apart from the target, a fresh runner is a new one. -/
theorem fresh_eq : r.fresh memory =
    { kind := r.kind
      state := { (Runner.new r.kind r.elfImage memory : Runner X n size).state with
        suspender := (r.fresh memory).state.suspender }
      memory
      elfImage := r.elfImage } := by
  unfold fresh withTarget
  split <;> rfl

theorem restoredTarget_fresh : restoredTarget (r.fresh memory).state.suspender r.kind.suspender =
    restoredTarget r.state.suspender r.kind.suspender := by
  rw [suspender_fresh]
  rcases suspender_cases r.kind with h | h <;> rw [h] <;> cases r.state.suspender with
  | none => simp [restoredTarget]
  | some t => simp [restoredTarget]

theorem state_fresh : (r.fresh memory).state =
    { RvState.new (r.fresh memory).state.suspender r.kind.newTracer with
      brk := r.elfImage.getInitialProgramBreak
      startBrk := r.elfImage.getInitialProgramBreak } := by
  rw [fresh_eq]
  rfl

/-- A used runner starts as a fresh one does exactly if everything is restored. -/
theorem startState_eq_iff : r.startState = (r.fresh memory).startState ↔ r.Restored := by
  have hkind : (r.fresh memory).kind = r.kind := by rw [fresh_eq]
  have himage : (r.fresh memory).elfImage = r.elfImage := by rw [fresh_eq]
  unfold startState
  rw [RvState.ext_iff]
  by_cases hfixed : r.kind = .fixedAddr
  · -- the suspender is kept like the rest, so it has to be absent
    have hnone : (r.fresh memory).state.suspender = none := by
      rw [suspender_fresh, hfixed]
      split <;> rfl
    have htarget : restoredTarget r.state.suspender r.state.suspender = none ↔
        r.state.suspender = none := by
      unfold restoredTarget
      cases r.state.suspender with
      | none => rfl
      | some t => simp
    rw [reset_of_fixedAddr hfixed, reset_of_fixedAddr (hkind.trans hfixed), himage, state_fresh,
      hnone]
    constructor
    · rintro ⟨-, hpc, -, hsuspender, haddr, hvalid, -, -, hbrk, hstart, htracer, hcsrs⟩
      refine ⟨hbrk, hstart, hcsrs, ?_, fun _ => ⟨hpc, haddr, hvalid, htarget.1 hsuspender⟩⟩
      exact congrArg _ htracer
    · rintro ⟨hbrk, hstart, hcsrs, htracer, hrest⟩
      obtain ⟨hpc, haddr, hvalid, hsuspender⟩ := hrest hfixed
      refine ⟨rfl, hpc, rfl, htarget.2 hsuspender, haddr, hvalid, rfl, rfl, hbrk, hstart, ?_, hcsrs⟩
      rw [hfixed] at htracer ⊢
      exact htracer
  · rw [reset_of_ne hfixed, reset_of_ne (hkind ▸ hfixed), himage, hkind]
    constructor
    · rintro ⟨-, -, -, -, -, -, -, -, hbrk, hstart, htracer, hcsrs⟩
      rw [state_fresh] at hbrk hstart htracer hcsrs
      exact ⟨hbrk, hstart, hcsrs, htracer, fun h => absurd h hfixed⟩
    · rintro ⟨hbrk, hstart, hcsrs, htracer, -⟩
      refine ⟨rfl, rfl, rfl, (restoredTarget_fresh memory).symm, rfl, rfl, rfl, rfl, ?_, ?_, ?_, ?_⟩
      all_goals rw [state_fresh]
      · exact hbrk
      · exact hstart
      · exact htracer
      · exact hcsrs

/-! ## Rounds of `run_multiple` -/

/-- The registers stay zero exactly if the symbols are absent or zero. -/
theorem initialRegs_zero_iff {image : ElfImage X} :
    (initialRegs image (fun _ => 0) : Fin n.count → X.Reg) = (fun _ => 0) ↔
      (∀ v, image.lookupSymbol "__global_pointer$" = some v → X.fromU64 v = 0) ∧
        ∀ v, image.lookupSymbol "__stack_top" = some v → X.fromU64 v = 0 := by
  have hgp : REG_GP < n.count := by cases n <;> decide
  have hsp : REG_SP < n.count := by cases n <;> decide
  unfold initialRegs
  constructor
  · intro h
    refine ⟨fun v hv => ?_, fun v hv => ?_⟩
    · have hreg := congrFun h ⟨REG_GP, hgp⟩
      dsimp only at hreg
      rw [hv, if_neg (by decide)] at hreg
      cases hst : image.lookupSymbol "__stack_top" with
      | none => simpa [hst, REG_GP] using hreg
      | some w => simpa [hst, REG_GP, REG_SP] using hreg
    · have hreg := congrFun h ⟨REG_SP, hsp⟩
      dsimp only at hreg
      rw [hv, if_neg (by decide)] at hreg
      simpa [REG_SP] using hreg
  · rintro ⟨hgp, hsp⟩
    have hra : X.fromU64 0#64 = 0#X.value := X.fromU64_zero
    cases hg : image.lookupSymbol "__global_pointer$" with
    | none =>
      cases hs : image.lookupSymbol "__stack_top" with
      | none => simp [hra]
      | some w => simp [hsp w hs, hra]
    | some v =>
      cases hs : image.lookupSymbol "__stack_top" with
      | none => simp [hgp v hg, hra]
      | some w => simp [hgp v hg, hsp w hs, hra]

theorem restoredTarget_self (t : Option U64) : restoredTarget t t = t := by
  unfold restoredTarget
  cases t with
  | none => rfl
  | some t => simp

theorem regs_reset : r.reset.state.regs = fun _ => 0 := by
  by_cases hfixed : r.kind = .fixedAddr
  · rw [reset_of_fixedAddr hfixed]
  · rw [reset_of_ne hfixed]
    rfl

/-- The target is restored to what `reset` leaves. -/
theorem restoredTarget_reset_iff :
    restoredTarget r.state.suspender r.reset.state.suspender = r.reset.state.suspender ↔
      ∀ t, r.state.suspender = some t → r.kind.suspender = none ∨ t = noTarget := by
  by_cases hfixed : r.kind = .fixedAddr
  · rw [reset_of_fixedAddr hfixed]
    refine iff_of_true (restoredTarget_self _) fun t _ => .inl ?_
    rw [hfixed]
    rfl
  · rw [reset_of_ne hfixed]
    unfold restoredTarget
    rcases suspender_cases r.kind with hk | hk <;> rw [hk] <;> cases r.state.suspender with
    | none => simp
    | some t => simp

/-- Setting up changes nothing exactly if there is nothing to set up. -/
theorem startState_eq_reset_iff : r.startState = r.reset.state ↔ r.Plain := by
  have hstate : r.startState = r.reset.state ↔
      initialRegs r.elfImage r.reset.state.regs = r.reset.state.regs ∧
        restoredTarget r.state.suspender r.reset.state.suspender = r.reset.state.suspender := by
    unfold startState
    rw [RvState.ext_iff]
    simp
  rw [hstate, regs_reset, initialRegs_zero_iff, restoredTarget_reset_iff]
  exact ⟨fun ⟨⟨hgp, hsp⟩, htarget⟩ => ⟨hgp, hsp, htarget⟩,
    fun ⟨hgp, hsp, htarget⟩ => ⟨⟨hgp, hsp⟩, htarget⟩⟩

/-- A round starts as a fresh run does exactly if everything is restored and nothing is set up. -/
theorem reset_eq_startState_iff :
    r.reset.state = (r.fresh memory).startState ↔ r.Restored ∧ r.Plain := by
  rw [← startState_eq_iff memory, ← startState_eq_reset_iff]
  constructor
  · intro h
    have hkind : (r.fresh memory).kind = r.kind := by rw [fresh_eq]
    have himage : (r.fresh memory).elfImage = r.elfImage := by rw [fresh_eq]
    have hregs : (fun _ => 0 : Fin n.count → X.Reg) = initialRegs r.elfImage (fun _ => 0) := by
      have hregs := congrArg RvState.regs h
      rw [regs_reset] at hregs
      refine hregs.trans ?_
      change initialRegs (r.fresh memory).elfImage (r.fresh memory).reset.state.regs = _
      rw [himage, regs_reset]
    have htarget : restoredTarget r.state.suspender r.reset.state.suspender =
        r.reset.state.suspender := by
      by_cases hfixed : r.kind = .fixedAddr
      · rw [reset_of_fixedAddr hfixed]
        exact restoredTarget_self _
      · have hsuspender := congrArg RvState.suspender h
        change _ = restoredTarget _ (r.fresh memory).reset.state.suspender at hsuspender
        have hfixed' : (r.fresh memory).kind ≠ .fixedAddr := by rwa [hkind]
        rw [reset_of_ne hfixed', reset_of_ne hfixed] at hsuspender
        rw [hkind, restoredTarget_fresh] at hsuspender
        rw [reset_of_ne hfixed]
        exact hsuspender.symm
    obtain ⟨hgp, hsp⟩ := initialRegs_zero_iff.1 hregs.symm
    have hplain := startState_eq_reset_iff.2 ⟨hgp, hsp, restoredTarget_reset_iff.1 htarget⟩
    exact ⟨hplain.trans h, hplain⟩
  · rintro ⟨hstart, hplain⟩
    exact hplain.symm.trans hstart

/-- Every round of `run_multiple` starts with everything restored. -/
def EachRestored (debug : Bool) (lib : Library X n size) : ℕ → Runner X n size → Prop
  | 0, _ => True
  | count + 1, r => r.Restored ∧
    ∀ result r', r.runOnce debug lib = ok (result, r') → EachRestored debug lib count r'

theorem kind_reset : r.reset.kind = r.kind := by
  unfold reset
  split
  next h => exact h.symm ▸ rfl
  next => rfl

theorem runOnce_of_roundResult {result : RunResult} (h : r.roundResult debug lib = ok result) :
    ∃ r', r.runOnce debug lib = ok (result, r') ∧
      r'.kind = r.kind ∧ r'.elfImage = r.elfImage := by
  obtain ⟨⟨result', r'⟩, hround, h⟩ := bind_eq_ok.1 h
  cases h
  refine ⟨r', hround, ?_⟩
  obtain ⟨loaded, hloaded, h⟩ := bind_eq_ok.1 hround
  obtain ⟨memory, -, hmemory⟩ := bind_eq_ok.1 hloaded
  cases hmemory
  cases h
  change (reset _).kind = _ ∧ (reset _).elfImage = _
  rw [kind_reset, elfImage_reset]
  exact ⟨rfl, rfl⟩

/-- The state after the reset of a runner with everything restored. -/
theorem reset_of_restored (h : r.Restored) : r.reset.state =
    { RvState.new r.kind.suspender (r.kind.resetTracer r.kind.newTracer) with
      brk := r.elfImage.getInitialProgramBreak
      startBrk := r.elfImage.getInitialProgramBreak } := by
  obtain ⟨hbrk, hstart, hcsrs, htracer, hfixed⟩ := h
  rw [RvState.ext_iff]
  by_cases hkind : r.kind = .fixedAddr
  · obtain ⟨hpc, haddr, hvalid, hsuspender⟩ := hfixed hkind
    rw [hkind] at htracer ⊢
    rw [reset_of_fixedAddr hkind]
    exact ⟨rfl, hpc, rfl, hsuspender, haddr, hvalid, rfl, rfl, hbrk, hstart, htracer, hcsrs⟩
  · rw [reset_of_ne hkind]
    exact ⟨rfl, rfl, rfl, rfl, rfl, rfl, rfl, rfl, hbrk, hstart, htracer, hcsrs⟩

/-- Rounds that start with everything restored have the same result. -/
theorem runMultiple_of_restored {count : ℕ}
    {result : RunResult} (heach : EachRestored debug lib count r)
    (hresult : 0 < count → r.roundResult debug lib = ok result) :
    ∃ r', runMultiple debug lib count r = ok (List.replicate count result, r') := by
  induction count generalizing r with
  | zero => exact ⟨r, rfl⟩
  | succ count ih =>
    obtain ⟨hrestored, hnext⟩ := heach
    obtain ⟨r', hround, hkind, himage⟩ := runOnce_of_roundResult (hresult (Nat.succ_pos _))
    have heach' := hnext _ _ hround
    have hresult' : 0 < count → r'.roundResult debug lib = ok result := by
      intro hpos
      obtain ⟨count', rfl⟩ := Nat.exists_eq_succ_of_ne_zero hpos.ne'
      rw [← hresult (Nat.succ_pos _), roundResult_eq, roundResult_eq, reset_of_restored hrestored,
        reset_of_restored heach'.1, hkind]
      unfold entryPoint
      rw [himage]
    obtain ⟨last, hrest⟩ := ih heach' hresult'
    refine ⟨last, ?_⟩
    rw [runMultiple, hround, ok_bind]
    dsimp only
    rw [hrest]
    rfl

/-- A used runner repeats what a fresh one does: `run` exactly if everything is restored, the first
round of `run_multiple` exactly if in addition there is nothing to set up, and all rounds if every
one starts with everything restored. -/
theorem repeatable (debug : Bool) :
    ((∀ lib, r.runResult debug lib = (r.fresh memory).runResult debug lib) ↔
        ((copySegments debug (fun _ => 0 : Memory size) r.elfImage.memorySegments).Returns →
          r.Restored)) ∧
      ((∀ lib, r.roundResult debug lib = (r.fresh memory).runResult debug lib) ↔
        ((copySegments debug (fun _ => 0 : Memory size) r.elfImage.memorySegments).Returns →
          r.Restored ∧ r.Plain)) ∧
      ∀ lib count result, r.Plain → EachRestored debug lib count r →
        (r.fresh memory).runResult debug lib = ok result →
          ∃ r', runMultiple debug lib count r = ok (List.replicate count result, r') := by
  have himage : (r.fresh memory).elfImage = r.elfImage := by rw [fresh_eq]
  have hentry : (r.fresh memory).entryPoint = r.entryPoint := by rw [entryPoint, himage]; rfl
  refine ⟨?_, ?_, ?_⟩
  · rw [← startState_eq_iff memory, ← @forall_result_iff X n size _ _ _ r.entryPoint]
    simp only [runResult_eq, himage, hentry]
  · rw [← reset_eq_startState_iff memory, ← @forall_result_iff X n size _ _ _ r.entryPoint]
    simp only [runResult_eq, roundResult_eq, himage, hentry]
  · intro lib count result hplain heach hresult
    refine runMultiple_of_restored heach fun hpos => ?_
    obtain ⟨count', rfl⟩ := Nat.exists_eq_succ_of_ne_zero hpos.ne'
    rw [← hresult, runResult_eq, roundResult_eq,
      (reset_eq_startState_iff memory).2 ⟨heach.1, hplain⟩, himage, hentry]

/-- A library that only sets the exit code. -/
def exitingLibrary : Library .rv64 .i smallMemory :=
  fun s memory _ => ({ s with exitCode := 3 }, memory)

/-- The runner for a file with one segment has nothing to set up, and the library changes nothing
that would have to be restored. -/
theorem repeatable_exiting :
    ∃ r', runMultiple false exitingLibrary 2 (oneSegmentRunner 0x1000 4 8) =
      ok (List.replicate 2 ⟨3, 0⟩, r') := by
  have hrestored : (oneSegmentRunner 0x1000 4 8).Restored :=
    ⟨rfl, rfl, rfl, rfl, fun h => by cases h⟩
  refine (@repeatable _ _ _ (oneSegmentRunner 0x1000 4 8) (fun _ => 0) false).2.2 exitingLibrary 2
    ⟨3, 0⟩ ⟨?_, ?_, ?_⟩ ⟨hrestored, ?_⟩ rfl
  · intro v h
    cases h
  · intro v h
    cases h
  · intro t h
    cases h
  · intro result r' h
    cases h
    exact ⟨⟨rfl, rfl, rfl, rfl, fun h => by cases h⟩, fun _ _ _ => trivial⟩

/-- A library that returns `mscratch` as its exit code and increments it. -/
def countingLibrary : Library .rv64 .i smallMemory :=
  fun s memory _ =>
    ({ s with
      exitCode := (s.csrs ⟨0x340, by decide⟩).setWidth 8
      csrs := fun i => if i.val = 0x340 then s.csrs i + 1 else s.csrs i }, memory)

/-- A library that returns the page of the stack pointer as its exit code. -/
def stackLibrary : Library .rv64 .i smallMemory :=
  fun s memory _ => ({ s with exitCode := (s.regs ⟨2, by decide⟩ >>> 8).setWidth 8 }, memory)

/-- The runner for an image with a stack. -/
def stackRunner : Runner .rv64 .i smallMemory :=
  { oneSegmentRunner 0x1000 4 8 with
    elfImage := { Elf.oneSegmentImage 0x1000 4 8 with
      symbols := [⟨"__stack_top", 0x1F00, 0, 0, 1, 1⟩] } }

/-- A second `run` counts on, and `run_multiple` has no stack pointer. -/
theorem run_not_repeatable :
    (do
      let (first, r) ← (oneSegmentRunner 0x1000 4 8).run false countingLibrary
      let (second, _) ← r.run false countingLibrary
      pure (first.exitCode, second.exitCode)) = ok (0, 1) ∧
    (do
      let (single, _) ← stackRunner.run false stackLibrary
      let (several, _) ← runMultiple false stackLibrary 1 stackRunner
      pure (single, several)) = ok (⟨0x1F, 0⟩, [⟨0, 0⟩]) := by
  constructor <;> decide +kernel

end Runner

end Rvr
