import Rvr.Runner.Diff
import Rvr.Verify.Runner.Loading

/-!
# What differential testing and the debugger miss

The lockstep comparison ends as soon as one of the two states is an exit and does not ask for the
other (`sameRun_iff`).  The in-process executor takes exits from the exit code alone, so an exit
with code zero is not one, and execution goes on behind it (`exit_seen_iff`).  The debugger looks at
breakpoints only before and after a run, and takes an exit with code zero for a step
(`runUntilStop_iff`).
-/

namespace Rvr

/-! ## Lockstep comparison -/

section Lockstep

variable {σ τ : Type}

/-- The states of an executor from one that it has reached on. -/
def Executor.states (ex : Executor σ) (p : Option DiffState × σ) (i : ℕ) : Option DiffState :=
  ((fun q => ex q.2)^[i] p).1

/-- Two sequences whose first `k` states pass the comparison, of which only the last two may be
exits, and that have no more states if neither of these is. -/
structure Compared (config : CompareConfig) (s t : ℕ → Option DiffState) (k : ℕ) : Prop where
  pairs : ∀ i < k, ∃ x y, s i = some x ∧ t i = some y ∧ compareStates x y config = none ∧
    (i + 1 < k → x.isExit = false ∧ y.isExit = false)
  ends : (s k = none ∧ t k = none) ∨
    ∃ i x y, k = i + 1 ∧ s i = some x ∧ t i = some y ∧ (x.isExit || y.isExit) = true

/-- Two sequences that agree up to and including their first exit, or up to their end. -/
def SameRun (config : CompareConfig) (s t : ℕ → Option DiffState) : Prop :=
  ∃ k, Compared config s t k ∧
    ∀ i < k, ∀ x y, s i = some x → t i = some y → x.isExit = y.isExit

variable {ref : Executor σ} {test : Executor τ} {config : CompareConfig}

theorem Compared.le {s t : ℕ → Option DiffState} {k k' : ℕ} (h : Compared config s t k)
    (h' : Compared config s t k') : k' ≤ k := by
  by_contra hlt
  obtain ⟨x, -, hx, -⟩ := h'.pairs k (by omega)
  rcases h.ends with ⟨hnone, -⟩ | ⟨i, x, y, rfl, hx, hy, hexit⟩
  · rw [hnone] at hx
    cases hx
  · obtain ⟨x', y', hx', hy', -, hrun⟩ := h'.pairs i (by omega)
    obtain ⟨hxrun, hyrun⟩ := hrun (by omega)
    rw [hx] at hx'
    rw [hy] at hy'
    cases hx'
    cases hy'
    simp [hxrun, hyrun] at hexit

theorem compared_lockstepLoop {limit fuel matched m : ℕ} {a : σ} {b : τ}
    {p : Option DiffState × σ} {q : Option DiffState × τ}
    (hstep : (if matched = 0 then align ref test 256 (ref a) (test b) else (ref a, test b)) =
      (p, q))
    (hloop : lockstepLoop ref test config limit fuel matched a b = some ⟨m, none⟩)
    (hm : m < limit) :
    ∃ k, m = matched + k ∧ Compared config (ref.states p) (test.states q) k := by
  induction fuel generalizing matched a b p q with
  | zero => cases hloop
  | succ fuel ih =>
    rw [lockstepLoop, hstep] at hloop
    split at hloop
    case isTrue hlimit =>
      cases hloop
      omega
    obtain ⟨_ | x, a'⟩ := p <;> obtain ⟨_ | y, b'⟩ := q <;> dsimp only at hloop
    · cases hloop
      exact ⟨0, rfl, ⟨fun i hi => absurd hi i.not_lt_zero, .inl ⟨rfl, rfl⟩⟩⟩
    · cases hloop
    · cases hloop
    cases hcompare : compareStates x y config with
    | some kind => simp [hcompare] at hloop
    | none =>
      rw [hcompare] at hloop
      dsimp only at hloop
      split at hloop
      case isTrue hexit =>
        cases hloop
        refine ⟨1, rfl, ⟨fun i hi => ?_, .inr ⟨0, x, y, rfl, rfl, rfl, hexit⟩⟩⟩
        obtain rfl : i = 0 := by omega
        exact ⟨x, y, rfl, rfl, hcompare, fun h => absurd h (by omega)⟩
      case isFalse hexit =>
        -- the states behind the first pair are those of the next round
        obtain ⟨k, rfl, hpairs, hends⟩ := ih (if_neg (Nat.succ_ne_zero _)) hloop
        refine ⟨k + 1, by omega, ⟨fun i hi => ?_, hends.imp id ?_⟩⟩
        · cases i with
          | zero =>
            simp only [Bool.or_eq_true, not_or, Bool.not_eq_true] at hexit
            exact ⟨x, y, rfl, rfl, hcompare, fun _ => hexit⟩
          | succ i =>
            obtain ⟨x, y, hx, hy, hnone, hrun⟩ := hpairs i (by omega)
            exact ⟨x, y, hx, hy, hnone, fun h => hrun (by omega)⟩
        · rintro ⟨i, x, y, rfl, hx, hy, h⟩
          exact ⟨i + 1, x, y, rfl, hx, hy, h⟩

/-- A comparison without a limit that ends without a divergence, before it has counted to the
largest `u64`, has seen the two runs agree exactly if the states it compared last are both exits or
both not. -/
theorem sameRun_iff (ref : Executor σ) (test : Executor τ) (config : CompareConfig) (fuel m : ℕ)
    (a : σ)
    (b : τ) (hresult : compareLockstep fuel ref test config none a b = some ⟨m, none⟩)
    (hm : m < 2 ^ 64 - 1) :
    let (p, q) := align ref test 256 (ref a) (test b)
    SameRun config (ref.states p) (test.states q) ↔
      ∀ i x y, i + 1 = m → ref.states p i = some x → test.states q i = some y →
        x.isExit = y.isExit := by
  obtain ⟨k, hk, hcompared⟩ := compared_lockstepLoop (if_pos rfl) hresult hm
  obtain rfl : m = k := hk.trans (Nat.zero_add k)
  constructor
  · rintro ⟨k, hcompared', hexits⟩ i x y hi
    have hle := hcompared'.le hcompared
    exact hexits i (by omega) x y
  · refine fun hlast => ⟨m, hcompared, fun i hi x y hx hy => ?_⟩
    obtain hlt | heq := Nat.lt_or_eq_of_le (Nat.succ_le_of_lt hi)
    · obtain ⟨x', y', hx', hy', -, hrun⟩ := hcompared.pairs i hi
      rw [hx] at hx'
      rw [hy] at hy'
      cases hx'
      cases hy'
      rw [(hrun hlt).1, (hrun hlt).2]
    · exact hlast i x y heq hx hy

/-- An executor that runs through a list. -/
def listExecutor : Executor (List DiffState)
  | [] => (none, [])
  | s :: rest => (some s, rest)

/-- Two equal sequences of two states. -/
theorem sameRun_equal :
    let (p, q) := align listExecutor listExecutor 256 (some { pc := 0x1000 }, [{ pc := 0x1004 }])
      (some { pc := 0x1000 }, [{ pc := 0x1004 }])
    SameRun {} (Executor.states listExecutor p) (Executor.states listExecutor q) := by
  refine (sameRun_iff listExecutor listExecutor {} 3 2 [{ pc := 0x1000 }, { pc := 0x1004 }]
    [{ pc := 0x1000 }, { pc := 0x1004 }] (by decide +kernel) (by decide)).2 ?_
  intro i x y hi hx hy
  obtain rfl : i = 1 := by omega
  cases hx
  cases hy
  rfl

/-- The reference exits with its first instruction; the other executor goes on. -/
theorem lockstep_misses_exit :
    compareLockstep 3 listExecutor listExecutor {} none [{ pc := 0x1000, isExit := true }]
        [{ pc := 0x1000 }, { pc := 0x1004 }] = some ⟨1, none⟩ ∧
      let (p, q) := align listExecutor listExecutor 256
        (listExecutor [{ pc := 0x1000, isExit := true }])
          (listExecutor [{ pc := 0x1000 }, { pc := 0x1004 }])
      ¬ SameRun {} (Executor.states listExecutor p) (Executor.states listExecutor q) := by
  refine ⟨by decide +kernel, ?_⟩
  rintro ⟨k, hcompared, hexits⟩
  obtain hk | hk := Nat.eq_zero_or_pos k
  · subst hk
    rcases hcompared.ends with ⟨h, -⟩ | ⟨i, -, -, h, -⟩ <;> cases h
  · cases hexits 0 hk _ _ rfl rfl

end Lockstep

/-- A runner that suspends, at the given address. -/
def suspendedAt (pc : U64) : Runner .rv64 .i smallMemory :=
  let r := oneSegmentRunner 0x1000 4 8
  { r with kind := .suspend, state := { r.state with pc, suspender := some noTarget } }

/-! ## Exits of the in-process executor -/

namespace InProcessExecutor

variable {X : Xlen} {n : RegCount} {size : MemSize}

/-- The step in which the guest exits says so, and no later step executes anything, exactly if the
exit code is not zero. -/
theorem exit_seen_iff (lib : Library X n size) (runner : Runner X n size) :
    let after := step lib ⟨runner, false⟩
    (after.2.runner.state.hasExited ≠ 0 →
      (∃ state, after.1 = some state ∧ state.isExit = true) ∧
        ∀ k, step lib ((fun e => (step lib e).2)^[k] after.2) = (none, after.2)) ↔
    (after.2.runner.state.hasExited ≠ 0 → after.2.runner.state.exitCode ≠ 0) := by
  have hstays (e : InProcessExecutor X n size) (h : e.hasExited = true) :
      step lib e = (none, e) := by
    rw [step, if_pos h]
  rw [show step lib ⟨runner, false⟩ = if (runner.resume lib 1).state.exitCode = 0 then _
    else _ from rfl]
  generalize runner.resume lib 1 = r
  split
  case isTrue hcode =>
    -- the exit goes unnoticed
    simp [hcode]
  case isFalse hcode =>
    have hagain (k : ℕ) : (fun e => (step lib e).2)^[k] ⟨r, true⟩ = ⟨r, true⟩ :=
      Function.iterate_fixed (by rw [hstays _ rfl]) k
    refine iff_of_true (fun _ => ⟨⟨_, rfl, rfl⟩, fun k => ?_⟩) fun _ => hcode
    rw [hagain, hstays _ rfl]

/-- A guest whose next instruction is the system call `exit(0)`, which is not counted. -/
def exitZero : Library .rv64 .i smallMemory := fun s memory pc =>
  if s.suspender.any (· ≤ s.instret) then ({ s with pc }, memory)
  else ({ s with pc, hasExited := 1, exitCode := 0 }, memory)

/-- The exit is reported as any other instruction, and the next step executes again. -/
theorem exit_unseen :
    let after := step exitZero ⟨suspendedAt 0x1000, false⟩
    after.2.runner.state.hasExited = 1 ∧ after.1.map (·.isExit) = some false ∧
      (step exitZero after.2).1.isSome := by
  decide +kernel

end InProcessExecutor

/-! ## Stops of the debugger -/

section Guest

variable {X : Xlen} {n : RegCount} {size : MemSize}

/-- A program that is run instruction by instruction: what the instruction at the program counter
does, and whether it returns to the host.  One that does not is counted and keeps the target and the
exit code. -/
structure Guest (X : Xlen) (n : RegCount) (size : MemSize) where
  instr : RvState X n × Memory size → (RvState X n × Memory size) × Bool
  next : ∀ s s', instr s = (s', false) →
    s'.1.instret = s.1.instret + 1 ∧ s'.1.suspender = s.1.suspender ∧ s'.1.exitCode = s.1.exitCode

namespace Guest

/-- Instructions up to a state to stop at, or to one that returns to the host. -/
def runTo (g : Guest X n size) (stop : RvState X n × Memory size → Bool) :
    ℕ → RvState X n × Memory size → Option ((RvState X n × Memory size) × Bool)
  | 0, _ => none
  | fuel + 1, s =>
    if stop s then some (s, false)
    else match g.instr s with
      | (s', true) => some (s', true)
      | (s', false) => g.runTo stop fuel s'

/-- The check for the target. -/
def reached (s : RvState X n × Memory size) : Bool := s.1.suspender.any (· ≤ s.1.instret)

/-- A library that checks for the target before every instruction. -/
def PerInstruction (g : Guest X n size) (lib : Library X n size) : Prop :=
  ∀ state memory pc fuel s exits,
    g.runTo reached fuel ({ state with pc := X.fromU64 pc }, memory) = some (s, exits) →
      lib state memory pc = s

variable {g : Guest X n size} {s s' s₁ : RvState X n × Memory size} {k : ℕ} {exits : Bool}
  {stop stop' : RvState X n × Memory size → Bool}

/-- A run that exits, and the run of the same program to other stops. -/
theorem runTo_of_exits (hexit : g.runTo stop k s = some (s', true))
    (hrun : g.runTo stop' k s = some (s₁, exits)) : if exits then s₁ = s' else stop' s₁ = true := by
  induction k generalizing s with
  | zero => cases hexit
  | succ k ih =>
    simp only [runTo] at hexit hrun
    split at hexit
    · cases hexit
    · split at hrun
      case isTrue hstop =>
        cases hrun
        exact hstop
      case isFalse =>
        cases hinstr : g.instr s with
        | mk s₂ returns =>
          rw [hinstr] at hexit hrun
          cases returns with
          | true =>
            cases hexit
            cases hrun
            rfl
          | false => exact ih hexit hrun

theorem PerInstruction.executeFrom {lib : Library X n size} (hlib : g.PerInstruction lib)
    {r : Runner X n size} (hrun : g.runTo reached k (r.state, r.memory) = some (s', exits)) :
    r.executeFrom lib r.getPc = { r with state := s'.1, memory := s'.2 } := by
  have hresult := hlib r.state r.memory r.getPc k s' exits
    (by rw [Runner.getPc, Xlen.fromU64_toU64]; exact hrun)
  simp only [Runner.executeFrom, hresult]

end Guest

/-- Continue, with a guest that exits, reports the first breakpoint on the way, or the exit, exactly
if the guest exits with its program counter at that breakpoint, or at no breakpoint if there was
none.  A single step is reported as it is exactly if an instruction that exits with code zero is not
counted, and no exit code is left from before. -/
theorem runUntilStop_iff (lib : Library X n size) (g : Guest X n size) (hlib : g.PerInstruction lib)
    (r : Runner X n size) (breakpoints : Finset U64) (hpc : r.getPc ∉ breakpoints)
    (hsuspends : r.state.suspender.isSome) :
    (∀ k s' s₁ exits, g.runTo Guest.reached k ((r.setTargetInstret noTarget).state, r.memory) =
        some (s', true) →
      g.runTo (fun s => Xlen.toU64 s.1.pc ∈ breakpoints) k
        ((r.setTargetInstret noTarget).state, r.memory) = some (s₁, exits) →
      let result := GdbTargetCore.runUntilStop lib true ⟨r, breakpoints, .continue⟩
      (result.1 = (if exits then .exited s₁.1.exitCode else .swBreakpoint) ∧
          (exits = false → result.2.runner.state.pc = s₁.1.pc) ↔
        if exits then Xlen.toU64 s'.1.pc ∉ breakpoints else s'.1.pc = s₁.1.pc)) ∧
    (∀ s' exits, r.state.instret ≠ noTarget →
      g.instr ((r.setTargetInstret (r.state.instret + 1)).state, r.memory) = (s', exits) →
      (GdbTargetCore.runUntilStop lib true ⟨r, breakpoints, .step⟩ =
          (if exits then .exited s'.1.exitCode else .doneStep,
            ⟨{ r with state := if exits then s'.1 else s'.1.clearExit, memory := s'.2 },
              breakpoints, .step⟩) ↔
        if exits then ¬ (s'.1.exitCode = 0 ∧ r.state.instret + 1 ≤ s'.1.instret)
        else r.state.exitCode = 0)) := by
  have htarget (target : U64) : (r.setTargetInstret target).state.suspender = some target := by
    obtain ⟨old, hold⟩ := Option.isSome_iff_exists.1 hsuspends
    simp [Runner.setTargetInstret, hold]
  have hgo (mode : ExecMode) : GdbTargetCore.shouldStop ⟨r, breakpoints, mode⟩ = false :=
    decide_eq_false hpc
  constructor
  · intro k s' s₁ exits hexit hstop result
    have hrun : (r.setTargetInstret noTarget).executeFrom lib r.getPc =
        { r with state := s'.1, memory := s'.2 } := hlib.executeFrom hexit
    have hresult : result = (if Xlen.toU64 s'.1.pc ∈ breakpoints then .swBreakpoint
        else .exited s'.1.exitCode, ⟨{ r with state := s'.1, memory := s'.2 }, breakpoints,
          .continue⟩) := by
      simp only [result, GdbTargetCore.runUntilStop, hgo, if_true]
      rw [show (r.setTargetInstret noTarget).getPc = r.getPc from rfl, hrun]
      by_cases hmem : Xlen.toU64 s'.1.pc ∈ breakpoints <;>
        simp [GdbTargetCore.shouldStop, Runner.getPc, hmem]
    have hends := Guest.runTo_of_exits hexit hstop
    rw [hresult]
    cases exits with
    | true =>
      obtain rfl : s₁ = s' := hends
      by_cases hmem : Xlen.toU64 s₁.1.pc ∈ breakpoints <;> simp
    | false =>
      have hmem : Xlen.toU64 s₁.1.pc ∈ breakpoints := by simpa using hends
      refine ⟨fun h => h.2 rfl, fun h => ⟨?_, fun _ => h⟩⟩
      rw [if_pos (by rw [h]; exact hmem)]
      rfl
  · intro s' exits hmax hinstr
    have hstart : ¬ r.state.instret + 1 ≤ r.state.instret := by
      rw [BitVec.le_def, BitVec.toNat_add, show (1 : U64).toNat = 1 from rfl]
      have hne : r.state.instret.toNat ≠ 2 ^ 64 - 1 := fun h => hmax (BitVec.eq_of_toNat_eq h)
      omega
    have hrun : g.runTo Guest.reached 2 ((r.setTargetInstret (r.state.instret + 1)).state,
        r.memory) =
        some (s', exits) := by
      have hnot : Guest.reached ((r.setTargetInstret (r.state.instret + 1)).state, r.memory) =
          false := by
        rw [Guest.reached, htarget]
        exact decide_eq_false hstart
      simp only [Guest.runTo, hnot, hinstr]
      cases exits with
      | true => rfl
      | false =>
        obtain ⟨hinstret, hsuspender, -⟩ := g.next _ _ hinstr
        have hthen : Guest.reached s' = true := by
          rw [Guest.reached, hsuspender, htarget, hinstret]
          exact decide_eq_true (BitVec.le_refl _)
        exact if_pos hthen
    have hexec : (r.setTargetInstret (r.state.instret + 1)).executeFrom lib r.getPc =
        { r with state := s'.1, memory := s'.2 } := hlib.executeFrom hrun
    simp only [GdbTargetCore.runUntilStop, hgo, hexec]
    cases exits with
    | true =>
      by_cases hdone : s'.1.exitCode = 0 ∧ r.state.instret + 1 ≤ s'.1.instret <;> simp
    | false =>
      obtain ⟨hinstret, -, hcode⟩ := g.next _ _ hinstr
      have hle : r.state.instret + 1 ≤ s'.1.instret := by
        rw [hinstret]
        exact BitVec.le_refl _
      have hkept : s'.1.exitCode = r.state.exitCode := hcode
      simp only [hkept, hle]
      by_cases hzero : r.state.exitCode = 0 <;> simp [Runner.clearExit]

/-- Continue and a step to `exit(0)`, with a breakpoint elsewhere. -/
theorem runUntilStop_exitZero :
    (GdbTargetCore.runUntilStop InProcessExecutor.exitZero true
        ⟨suspendedAt 0x1000, {0x2000}, .continue⟩).1 = .exited 0 ∧
      (GdbTargetCore.runUntilStop InProcessExecutor.exitZero true
        ⟨suspendedAt 0x1000, {0x2000}, .step⟩).1 = .exited 0 := by
  let g : Guest .rv64 .i smallMemory :=
    ⟨fun s => (({ s.1 with hasExited := 1, exitCode := 0 }, s.2), true), fun _ _ h => by cases h⟩
  have hlib : g.PerInstruction InProcessExecutor.exitZero := by
    intro state memory pc fuel s exits hrun
    cases fuel with
    | zero => cases hrun
    | succ fuel =>
      simp only [Guest.runTo] at hrun
      split at hrun
      case isTrue h =>
        cases hrun
        exact if_pos h
      case isFalse h =>
        cases hrun
        exact if_neg h
  have hstops := runUntilStop_iff _ g hlib (suspendedAt 0x1000) {0x2000} (by decide) rfl
  constructor
  · exact ((hstops.1 1 _ _ true rfl rfl).2 (by decide)).1
  · rw [(hstops.2 _ true (by decide) rfl).2 (by decide)]
    rfl

/-- Two instructions and `ebreak`, which exits with code zero and is counted. -/
def breakGuest : Guest .rv64 .i smallMemory where
  instr s :=
    if s.1.pc = 0x1000 ∨ s.1.pc = 0x1004 then
      (({ s.1 with pc := s.1.pc + 4, instret := s.1.instret + 1 }, s.2), false)
    else (({ s.1 with instret := s.1.instret + 1, hasExited := 1, exitCode := 0 }, s.2), true)
  next s s' h := by
    split at h <;> cases h
    exact ⟨rfl, rfl, rfl⟩

def breakLibrary : Library .rv64 .i smallMemory := fun state memory pc =>
  ((breakGuest.runTo Guest.reached 3 ({ state with pc }, memory)).map (·.1)).getD (state, memory)

/-- Continue runs over the breakpoint to the exit, and a step of `ebreak` is no exit. -/
theorem breakpoint_missed :
    (GdbTargetCore.runUntilStop breakLibrary true ⟨suspendedAt 0x1000, {0x1004}, .continue⟩).1 =
      .exited 0 ∧
    (GdbTargetCore.runUntilStop breakLibrary true ⟨suspendedAt 0x1008, ∅, .step⟩).1 =
      .doneStep := by
  decide +kernel

end Guest

end Rvr
