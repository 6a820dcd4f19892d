import Rvr.Runner.Checkpoint
import Rvr.Verify.Runner.Diff

/-!
# Where the checkpoint comparisons find a divergence

Both searches take the answer of a probe at one point for an answer about all points before it.  The
probes of `compare_checkpoint` start from reset.  If that repeats the run, what is reported is where
the runners part, as long as runners that have parted and met again do not part a second time
(`partsAt_reported`).  The probes of the generated program start wherever the
last one has stopped, so what they compare is further on (`findDivergence_iff`).
-/

namespace Rvr

open Bisect (search Truthful path)

variable {X : Xlen} {n : RegCount} {size : MemSize}

/-! ## Trajectories -/

namespace Runner

/-- The runner after so many more instructions. -/
def after (lib : Library X n size) (r : Runner X n size) (k : ℕ) : Runner X n size :=
  if k = 0 then r else r.resume lib (BitVec.ofNat 64 k)

/-- What a comparison can see of a runner. -/
def view (r : Runner X n size) : (Fin n.count → X.Reg) × X.Reg × U64 × BitVec 8 × BitVec 8 :=
  (r.state.regs, r.state.pc, r.state.instret, r.state.hasExited, r.state.exitCode)

/-- A deterministic runner that can be stopped behind every instruction and counts them from zero.
It stays where it has exited, and a run from reset repeats it. -/
structure Replays (debug : Bool) (lib : Library X n size) (r : Runner X n size) : Prop where
  start : (r.after lib 0).state.hasExited = 0
  resume_after : ∀ {k m}, 0 < m → k + m < 2 ^ 64 → (r.after lib k).state.hasExited = 0 →
    (r.after lib k).resume lib (BitVec.ofNat 64 m) = r.after lib (k + m)
  instret_after : ∀ {k}, k < 2 ^ 64 → (∀ j < k, (r.after lib j).state.hasExited = 0) →
    (r.after lib k).state.instret = BitVec.ofNat 64 k
  exitCode_after : ∀ {k}, (r.after lib k).state.hasExited = 0 →
    (r.after lib k).state.exitCode = 0
  after_exit : ∀ {k m}, k ≤ m → m < 2 ^ 64 → (r.after lib k).state.hasExited ≠ 0 →
    (r.after lib m).view = (r.after lib k).view
  reset : ∀ {r' : Runner X n size} {k}, r'.kind = r.kind → r'.elfImage = r.elfImage → 0 < k →
    k < 2 ^ 64 → ∃ r'', r'.resetAndRunToInstret debug lib (BitVec.ofNat 64 k) = .ok r'' ∧
      r''.view = (r.after lib k).view

/-- The registers and the exit status agree, and so does the program counter unless both have
exited. -/
def Meets (a b : Runner X n size) : Prop :=
  a.state.regs = b.state.regs ∧ a.exitStatus = b.exitStatus ∧
    (a.state.hasExited ≠ 0 ∨ a.state.pc = b.state.pc)

instance (a b : Runner X n size) : Decidable (a.Meets b) := inferInstanceAs (Decidable (_ ∧ _ ∧ _))

variable {debug : Bool} {lib : Library X n size} {r r' a b a' b' : Runner X n size} {k m : ℕ}

theorem view_eq_iff : r.view = r'.view ↔ r.state.regs = r'.state.regs ∧ r.state.pc = r'.state.pc ∧
    r.state.instret = r'.state.instret ∧ r.state.hasExited = r'.state.hasExited ∧
    r.state.exitCode = r'.state.exitCode := by
  simp [view]

theorem meets_of_view (ha : a.view = a'.view) (hb : b.view = b'.view) :
    a.Meets b ↔ a'.Meets b' := by
  obtain ⟨hregs, hpc, -, hexited, hcode⟩ := view_eq_iff.1 ha
  obtain ⟨hregs', hpc', -, hexited', hcode'⟩ := view_eq_iff.1 hb
  simp only [Meets, exitStatus, hregs, hpc, hexited, hcode, hregs', hpc', hexited', hcode']

theorem checkpointMatch_of_view (ha : a.view = a'.view) (hb : b.view = b'.view) (target : U64) :
    checkpointMatch target a b = checkpointMatch target a' b' := by
  obtain ⟨hregs, hpc, hinstret, hexited, hcode⟩ := view_eq_iff.1 ha
  obtain ⟨hregs', hpc', hinstret', hexited', hcode'⟩ := view_eq_iff.1 hb
  rw [Bool.eq_iff_iff]
  simp only [checkpointMatch, runnersMatch, getPc, decide_eq_true_eq, hregs, hpc, hinstret, hexited,
    hcode, hregs', hpc', hinstret', hexited', hcode']

/-- Without an exit the exit codes play no role. -/
theorem runnersMatch_iff {exitMatch : Bool} (ha : a.state.hasExited = 0 → a.state.exitCode = 0)
    (hb : b.state.hasExited = 0 → b.state.exitCode = 0)
    (hmatch : (a.state.hasExited ≠ 0 ↔ b.state.hasExited ≠ 0) →
      (exitMatch = true ↔ a.exitStatus = b.exitStatus)) :
    runnersMatch exitMatch a b = true ↔ a.Meets b := by
  have hpc : a.getPc = b.getPc ↔ a.state.pc = b.state.pc := Xlen.toU64_inj
  simp only [runnersMatch, Meets, decide_eq_true_eq, hpc]
  by_cases hea : a.state.hasExited = 0#8 <;> by_cases heb : b.state.hasExited = 0#8
  · have h := hmatch (by simp [hea, heb])
    simp_all [exitStatus]
  · simp [exitStatus, hea, heb]
  · simp [exitStatus, hea, heb]
  · have h := hmatch (by simp [hea, heb])
    simp [hea, heb, h]
    exact fun _ h => .inr h

theorem hasExited_iff_of_meets (h : a.Meets b) : a.state.hasExited = 0 ↔ b.state.hasExited = 0 := by
  have hstatus := congrArg Option.isSome h.2.1
  unfold exitStatus at hstatus
  by_cases hea : a.state.hasExited = 0 <;> by_cases heb : b.state.hasExited = 0 <;>
    simp_all

theorem Meets.symm (h : a.Meets b) : b.Meets a := by
  refine ⟨h.1.symm, h.2.1.symm, h.2.2.imp (mt (hasExited_iff_of_meets h).2) Eq.symm⟩

theorem not_meets_of_exited (ha : a.state.hasExited ≠ 0) (hb : b.state.hasExited = 0) :
    ¬ a.Meets b :=
  fun h => ha ((hasExited_iff_of_meets h).2 hb)

/-- A run to a point ends there, or where the runner has exited before. -/
theorem Replays.stops (h : r.Replays debug lib) {s e : ℕ} (hlt : s < e) (he : e < 2 ^ 64)
    (hlive : ∀ j ≤ s, (r.after lib j).state.hasExited = 0) :
    ∃ x, s < x ∧ x ≤ e ∧ (∀ j < x, (r.after lib j).state.hasExited = 0) ∧
      (r.after lib e).view = (r.after lib x).view ∧
      ((r.after lib e).state.instret - (r.after lib s).state.instret).toNat = x - s ∧
      (x = e ∨ (r.after lib x).state.hasExited ≠ 0) := by
  obtain ⟨x, hsx, hxe, hbefore, hview, hend⟩ : ∃ x, s < x ∧ x ≤ e ∧
      (∀ j < x, (r.after lib j).state.hasExited = 0) ∧
      (r.after lib e).view = (r.after lib x).view ∧
      (x = e ∨ (r.after lib x).state.hasExited ≠ 0) := by
    by_cases hex : ∃ j ≤ e, (r.after lib j).state.hasExited ≠ 0
    · have hfind := Nat.find_spec hex
      refine ⟨Nat.find hex, ?_, hfind.1, fun j hj => ?_, h.after_exit hfind.1 he hfind.2,
        .inr hfind.2⟩
      · by_contra hle
        exact hfind.2 (hlive _ (not_lt.1 hle))
      · by_contra hj'
        exact Nat.find_min hex hj ⟨hj.le.trans hfind.1, hj'⟩
    · have hlive' (j : ℕ) (hj : j ≤ e) : (r.after lib j).state.hasExited = 0 := by
        by_contra hj'
        exact hex ⟨j, hj, hj'⟩
      exact ⟨e, hlt, le_rfl, fun j hj => hlive' j hj.le, rfl, .inl rfl⟩
  refine ⟨x, hsx, hxe, hbefore, hview, ?_, hend⟩
  obtain ⟨-, -, hinstret, -⟩ := view_eq_iff.1 hview
  rw [hinstret, h.instret_after (by omega) hbefore,
    h.instret_after (by omega) fun j hj => hlive j hj.le, BitVec.toNat_sub, BitVec.toNat_ofNat,
    BitVec.toNat_ofNat]
  omega

end Runner

open Runner

def sameState (a b : Runner X n size) : Bool :=
  a.state.pc = b.state.pc ∧ a.state.regs = b.state.regs

/-- The runners agree after every number of instructions up to `d`, and not after one more. -/
structure PartsAt (ref test : Library X n size) (p : Runner X n size × Runner X n size) (d : ℕ) :
    Prop where
  agree : ∀ k ≤ d, sameState (p.1.after ref k) (p.2.after test k)
  differ : ¬ (sameState (p.1.after ref (d + 1)) (p.2.after test (d + 1)) ∧
    (p.1.after ref (d + 1)).exitStatus = (p.2.after test (d + 1)).exitStatus)

/-! ## Batches -/

section Batches

variable {debug : Bool} {ref test : Library X n size} {a b : Runner X n size}

/-- Where the runners are after so many instructions. -/
def pairAt (ref test : Library X n size) (a b : Runner X n size) (k : ℕ) :
    Runner X n size × Runner X n size :=
  (a.after ref k, b.after test k)

/-- The runners agree after so many instructions. -/
abbrev MeetAt (ref test : Library X n size) (a b : Runner X n size) (k : ℕ) : Prop :=
  (a.after ref k).Meets (b.after test k)

/-- Neither runner has exited after so many instructions. -/
def Live (ref test : Library X n size) (a b : Runner X n size) (k : ℕ) : Prop :=
  (a.after ref k).state.hasExited = 0 ∧ (b.after test k).state.hasExited = 0

variable (ha : a.Replays debug ref) (hb : b.Replays debug test)

include ha hb

/-- A batch ends at the first place where a runner has exited, or at its own end. The runners do not
match there, or they have both exited, or the next batch begins. -/
theorem runBatches_round (fuel : ℕ) {interval limit s : ℕ} (hlive : ∀ j ≤ s, Live ref test a b j)
    (hs : s < limit) (hlimit : limit < 2 ^ 64) (hinterval : 0 < interval) :
    ∃ z e, s < z ∧ z ≤ e ∧ e ≤ limit ∧ (∀ j < z, Live ref test a b j) ∧
      let result := runBatches ref test interval limit (fuel + 1) s (pairAt ref test a b s)
      (¬ MeetAt ref test a b z ∧ result = some (.differ s (z - s) (pairAt ref test a b e)) ∨
        MeetAt ref test a b z ∧ (a.after ref z).state.hasExited ≠ 0 ∧ result = some (.agree z) ∨
        MeetAt ref test a b z ∧ Live ref test a b z ∧
          result = runBatches ref test interval limit fuel z (pairAt ref test a b z)) := by
  obtain ⟨e, he⟩ : ∃ e, e = s + min (limit - s) interval := ⟨_, rfl⟩
  have hse : s < e := by omega
  have hsize : min (limit - s) interval = e - s := by omega
  obtain ⟨x, hsx, hxe, hbeforeA, hviewA, hranA, hendA⟩ :=
    ha.stops hse (by omega) fun j hj => (hlive j hj).1
  obtain ⟨y, hsy, hye, hbeforeB, hviewB, hranB, hendB⟩ :=
    hb.stops hse (by omega) fun j hj => (hlive j hj).2
  have hresA := ha.resume_after (k := s) (m := e - s) (by omega) (by omega) (hlive s le_rfl).1
  have hresB := hb.resume_after (k := s) (m := e - s) (by omega) (by omega) (hlive s le_rfl).2
  rw [Nat.add_sub_cancel' hse.le] at hresA hresB
  have hmatch : runnersMatch ((a.after ref e).exitStatus = (b.after test e).exitStatus)
      (a.after ref e) (b.after test e) = true ↔ (a.after ref x).Meets (b.after test y) :=
    (runnersMatch_iff ha.exitCode_after hb.exitCode_after fun _ => decide_eq_true_iff).trans
      (meets_of_view hviewA hviewB)
  have hresult : runBatches ref test interval limit (fuel + 1) s (pairAt ref test a b s) =
      if x - s = y - s ∧ runnersMatch ((a.after ref e).exitStatus = (b.after test e).exitStatus)
          (a.after ref e) (b.after test e) = true then
        if (a.after ref e).state.hasExited ≠ 0 ∨ (b.after test e).state.hasExited ≠ 0 then
          some (.agree (s + (x - s)))
        else runBatches ref test interval limit fuel (s + (x - s)) (pairAt ref test a b e)
      else some (.differ s (min (min (x - s) (y - s)) (e - s)) (pairAt ref test a b e)) := by
    rw [pairAt, runBatches, if_neg (not_le.2 hs)]
    simp only [hsize, hresA, hresB, hranA, hranB]
    rfl
  have hlive' : ∀ j < min x y, Live ref test a b j := fun j hj =>
    ⟨hbeforeA j (by omega), hbeforeB j (by omega)⟩
  rw [hresult]
  rcases Nat.lt_trichotomy x y with hlt | rfl | hlt
  · -- only the first runner has exited
    refine ⟨x, e, hsx, hxe, by omega, by rwa [min_eq_left hlt.le] at hlive', .inl ⟨?_, ?_⟩⟩
    · exact not_meets_of_exited (hendA.resolve_left (by omega)) (hbeforeB x hlt)
    · rw [if_neg (by omega), show min (min (x - s) (y - s)) (e - s) = x - s by omega]
  · rw [min_self] at hlive'
    refine ⟨x, e, hsx, hxe, by omega, hlive', ?_⟩
    have hexitedA : (a.after ref e).state.hasExited = (a.after ref x).state.hasExited :=
      (view_eq_iff.1 hviewA).2.2.2.1
    have hexitedB : (b.after test e).state.hasExited = (b.after test x).state.hasExited :=
      (view_eq_iff.1 hviewB).2.2.2.1
    by_cases hm : MeetAt ref test a b x
    · have hboth := hasExited_iff_of_meets hm
      rw [if_pos ⟨rfl, hmatch.2 hm⟩, hexitedA, hexitedB, Nat.add_sub_cancel' hsx.le]
      by_cases hex : (a.after ref x).state.hasExited = 0
      · obtain rfl : x = e := hendA.resolve_right (not_not.2 hex)
        refine .inr (.inr ⟨hm, ⟨hex, hboth.1 hex⟩, if_neg ?_⟩)
        rw [hex, hboth.1 hex]
        decide
      · exact .inr (.inl ⟨hm, hex, if_pos (.inl hex)⟩)
    · refine .inl ⟨hm, ?_⟩
      rw [if_neg fun h => hm (hmatch.1 h.2), min_self, min_eq_left (by omega)]
  · refine ⟨y, e, hsy, hye, by omega, by rwa [min_eq_right hlt.le] at hlive', .inl ⟨?_, ?_⟩⟩
    · exact fun h => not_meets_of_exited (hendB.resolve_left (by omega)) (hbeforeA y hlt) h.symm
    · rw [if_neg (by omega), show min (min (x - s) (y - s)) (e - s) = y - s by omega]

/-- The batches up to the first that does not match: the runners meet where it begins, and not where
it ends. -/
theorem differ_of_runBatches {interval limit fuel s matched maxSteps : ℕ}
    {last : Runner X n size × Runner X n size}
    (h : runBatches ref test interval limit fuel s (pairAt ref test a b s) =
      some (.differ matched maxSteps last))
    (hlive : ∀ j ≤ s, Live ref test a b j) (hlimit : limit < 2 ^ 64) (hinterval : 0 < interval)
    (hmeets : s = 0 ∨ MeetAt ref test a b s) :
    0 < maxSteps ∧ matched + maxSteps ≤ limit ∧ (∃ e, last = pairAt ref test a b e) ∧
      (∀ j < matched + maxSteps, Live ref test a b j) ∧
      (matched = 0 ∨ MeetAt ref test a b matched) ∧ ¬ MeetAt ref test a b (matched + maxSteps) := by
  -- on the rounds: each that matches ends where the runners meet and are live
  induction fuel generalizing s with
  | zero => cases h
  | succ fuel ih =>
    by_cases hs : s < limit
    case neg =>
      rw [pairAt, runBatches, if_pos (not_lt.1 hs)] at h
      cases h
    case pos =>
      obtain ⟨z, e, hsz, hze, he, hbefore, hround⟩ :=
        runBatches_round ha hb fuel hlive hs hlimit hinterval
      rcases hround with ⟨hz, hresult⟩ | ⟨-, -, hresult⟩ | ⟨hz, hlive', hresult⟩
      · cases hresult.symm.trans h
        rw [Nat.add_sub_cancel' hsz.le]
        exact ⟨by omega, by omega, ⟨e, rfl⟩, hbefore, hmeets, hz⟩
      · cases hresult.symm.trans h
      · refine ih (hresult.symm.trans h) (fun j hj => ?_) (.inr hz)
        rcases hj.eq_or_lt with rfl | hj
        · exact hlive'
        · exact hbefore j hj

/-! ## Probes -/

theorem checkpointMatch_after {k : ℕ} (hk : k < 2 ^ 64) (hlive : ∀ j < k, Live ref test a b j) :
    checkpointMatch (BitVec.ofNat 64 k) (a.after ref k) (b.after test k) = true ↔
      MeetAt ref test a b k := by
  have hmatch : runnersMatch ((a.after ref k).state.exitCode = (b.after test k).state.exitCode)
      (a.after ref k) (b.after test k) = true ↔ MeetAt ref test a b k := by
    refine runnersMatch_iff ha.exitCode_after hb.exitCode_after fun hboth => ?_
    by_cases hea : (a.after ref k).state.hasExited = 0
    · have heb : (b.after test k).state.hasExited = 0 := by simpa [hea] using hboth
      simp [exitStatus, hea, heb, ha.exitCode_after hea, hb.exitCode_after heb]
    · rw [exitStatus, exitStatus, if_pos hea, if_pos (hboth.1 hea), decide_eq_true_iff,
        Option.some_inj]
  simp only [checkpointMatch, decide_eq_true_eq, hmatch,
    ha.instret_after hk fun j hj => (hlive j hj).1, hb.instret_after hk fun j hj => (hlive j hj).2,
    true_and]

/-- The runners are those of the comparison, in whatever state. -/
def Probes (a b : Runner X n size)
    (p : Outcome Memory.Fault (Runner X n size × Runner X n size)) : Prop :=
  ∃ r r', p = .ok (r, r') ∧ (r.kind = a.kind ∧ r.elfImage = a.elfImage) ∧
    r'.kind = b.kind ∧ r'.elfImage = b.elfImage

omit ha hb in
theorem kind_resetAndRunToInstret {lib : Library X n size} {r r' : Runner X n size} {target : U64}
    (h : r.resetAndRunToInstret debug lib target = .ok r') :
    r'.kind = r.kind ∧ r'.elfImage = r.elfImage := by
  obtain ⟨r₁, hload, h⟩ := Outcome.bind_eq_ok.1 h
  obtain ⟨memory, -, hr₁⟩ := Outcome.bind_eq_ok.1 hload
  cases h
  cases hr₁
  simp only [executeFrom, clearExit, setTargetInstret, setupInitialRegs, setRegister, setFromSymbol,
    Runner.reset]
  split <;> split <;> split <;> exact ⟨rfl, rfl⟩

theorem runToTarget_after {k : ℕ} (hpos : 0 < k) (hk : k < 2 ^ 64)
    {p : Outcome Memory.Fault (Runner X n size × Runner X n size)} (hp : Probes a b p) :
    ∃ r r', runToTarget debug ref test k p = .ok (r, r') ∧ r.view = (a.after ref k).view ∧
      r'.view = (b.after test k).view ∧ Probes a b (.ok (r, r')) := by
  obtain ⟨r, r', rfl, ⟨hkind, himage⟩, hkind', himage'⟩ := hp
  obtain ⟨ra, hra, hviewA⟩ := ha.reset hkind himage hpos hk
  obtain ⟨rb, hrb, hviewB⟩ := hb.reset hkind' himage' hpos hk
  obtain ⟨hka, hia⟩ := kind_resetAndRunToInstret hra
  obtain ⟨hkb, hib⟩ := kind_resetAndRunToInstret hrb
  refine ⟨ra, rb, ?_, hviewA, hviewB, ra, rb, rfl, ⟨hka.trans hkind, hia.trans himage⟩,
    hkb.trans hkind', hib.trans himage'⟩
  simp only [runToTarget, Outcome.ok_bind, hra, hrb]
  rfl

theorem probeSteps_after (matched : ℕ) {steps : ℕ} (hpos : 0 < steps)
    (hk : matched + steps < 2 ^ 64)
    {p : Outcome Memory.Fault (Runner X n size × Runner X n size)} (hp : Probes a b p) :
    (probeSteps debug ref test matched steps p).1 =
        checkpointMatch (BitVec.ofNat 64 (matched + steps)) (a.after ref (matched + steps))
          (b.after test (matched + steps)) ∧
      Probes a b (probeSteps debug ref test matched steps p).2 := by
  obtain ⟨r, r', hrun, hviewA, hviewB, hp'⟩ := runToTarget_after ha hb (by omega) hk hp
  rw [probeSteps, hrun]
  exact ⟨checkpointMatch_of_view hviewA hviewB _, hp'⟩

/-! ## The reported index -/

omit ha hb in
theorem locate_index {matched maxSteps m : ℕ} {last : Runner X n size × Runner X n size}
    {divergence : Divergence}
    (h : locate debug ref test matched maxSteps last = .ok ⟨m, some divergence⟩) :
    divergence.index = matched +
      (search midSteps (probeSteps debug ref test matched) maxSteps 0 maxSteps (.ok last)).1 := by
  obtain ⟨p, -, h⟩ := Outcome.bind_eq_ok.1 h
  cases h
  rfl

omit ha hb in
theorem midSteps_mem {top lo hi : ℕ} (htop : top ≤ 2 ^ 63) (hlt : lo < hi) (hhi : hi ≤ top) :
    lo < midSteps lo hi ∧ midSteps lo hi ≤ hi := by
  unfold midSteps
  omega

/-- The search finds the first place where the runners do not meet, if they do not meet from there
to the end of the batch. -/
theorem partsAt_search {matched maxSteps : ℕ} {last : Runner X n size × Runner X n size}
    (hp : Probes a b (.ok last)) (hshort : matched + maxSteps ≤ 2 ^ 63)
    (hlive : ∀ j < matched + maxSteps, Live ref test a b j)
    (hmatched : ∀ j ≤ matched, MeetAt ref test a b j)
    (hapart : ∀ j k, j ≤ k → k ≤ matched + maxSteps → ¬ MeetAt ref test a b j →
      ¬ MeetAt ref test a b k)
    (hdiffer : ¬ MeetAt ref test a b (matched + maxSteps)) :
    PartsAt ref test (a, b) (matched + (search midSteps (probeSteps debug ref test matched) maxSteps
      0 maxSteps (.ok last)).1) := by
  have hex : ∃ y, ¬ MeetAt ref test a b y := ⟨_, hdiffer⟩
  obtain ⟨y, hy⟩ : ∃ y, y = Nat.find hex := ⟨_, rfl⟩
  have hmeets (k : ℕ) (hk : k < y) : MeetAt ref test a b k :=
    not_not.1 (Nat.find_min hex (hy ▸ hk))
  have hnot : ¬ MeetAt ref test a b y := hy ▸ Nat.find_spec hex
  have hle : y ≤ matched + maxSteps := hy ▸ Nat.find_min' hex hdiffer
  have hlt : matched < y := by
    by_contra h
    exact hnot (hmatched y (not_lt.1 h))
  have hfound : (search midSteps (probeSteps debug ref test matched) maxSteps 0 maxSteps
      (.ok last)).1 = y - 1 - matched := by
    refine (Bisect.search_eq_iff (midSteps_mem (by omega : maxSteps ≤ 2 ^ 63))
      ⟨Nat.zero_le _, by omega⟩ le_rfl le_rfl _).2 (Bisect.truthful_of_forall
        (midSteps_mem (by omega)) le_rfl (fun m hpos hm p hp => ?_) _ hp)
    obtain ⟨hanswer, hkept⟩ := probeSteps_after ha hb matched hpos (by omega) hp
    refine ⟨hanswer.trans (Bool.eq_iff_iff.2 ?_), hkept⟩
    rw [checkpointMatch_after ha hb (by omega) fun j hj => hlive j (by omega), decide_eq_true_iff]
    constructor
    · intro h
      by_contra hgt
      exact hapart y (matched + m) (by omega) (by omega) hnot h
    · exact fun h => hmeets _ (by omega)
  rw [hfound, show matched + (y - 1 - matched) = y - 1 by omega]
  constructor
  · intro k hk
    obtain ⟨hregs, -, hpc⟩ := hmeets k (by omega)
    exact decide_eq_true ⟨hpc.resolve_left (not_not.2 (hlive k (by omega)).1), hregs⟩
  · rw [Nat.sub_add_cancel (by omega)]
    rintro ⟨hsame, hstatus⟩
    obtain ⟨hpc, hregs⟩ := of_decide_eq_true hsame
    exact hnot ⟨hregs, hstatus, .inr hpc⟩

end Batches

/-- A library that is at the given address after every number of instructions. -/
def goesTo (pcAt : U64 → U64) : Library .rv64 .i smallMemory := fun s memory _ =>
  let target := s.suspender.getD 0
  ({ s with instret := target, pc := pcAt target }, memory)

/-- Straight-line code from 0x1000 on. -/
def straight (count : U64) : U64 := 0x1000 + 4 * count

/-- A runner that suspends, at its start. -/
def suspending : Runner .rv64 .i smallMemory := suspendedAt 0x1000

/-- The runner at an instruction count. -/
def movedTo (pcAt : U64 → U64) (count : U64) : Runner .rv64 .i smallMemory :=
  { suspending with
    state := { suspending.state with suspender := some count, instret := count, pc := pcAt count } }

theorem after_goesTo (pcAt : U64 → U64) {k : ℕ} (hk : k ≠ 0) :
    suspending.after (goesTo pcAt) k = movedTo pcAt (BitVec.ofNat 64 k) := by
  rw [Runner.after, if_neg hk]
  change movedTo pcAt (0#64 + BitVec.ofNat 64 k) = _
  rw [BitVec.zero_add]

theorem hasExited_goesTo (pcAt : U64 → U64) (k : ℕ) :
    (suspending.after (goesTo pcAt) k).state.hasExited = 0 := by
  by_cases hk : k = 0
  · subst hk; rfl
  · rw [after_goesTo pcAt hk]; rfl

theorem replays_goesTo (pcAt : U64 → U64) : suspending.Replays false (goesTo pcAt) where
  start := rfl
  resume_after {k m} hm _ _ := by
    rw [after_goesTo pcAt (by omega : k + m ≠ 0), BitVec.ofNat_add]
    by_cases hk : k = 0
    · subst hk; rfl
    · rw [after_goesTo pcAt hk]; rfl
  instret_after {k} _ _ := by
    by_cases hk : k = 0
    · subst hk; rfl
    · rw [after_goesTo pcAt hk]; rfl
  exitCode_after {k} _ := by
    by_cases hk : k = 0
    · subst hk; rfl
    · rw [after_goesTo pcAt hk]; rfl
  after_exit _ _ h := absurd (hasExited_goesTo pcAt _) h
  reset {r k} hkind himage hk _ := by
    rw [after_goesTo pcAt hk.ne']
    obtain ⟨kind, state, memory, image⟩ := r
    cases hkind
    cases himage
    refine ⟨_, rfl, view_eq_iff.2 ⟨funext fun i => ?_, rfl, rfl, rfl, rfl⟩⟩
    change (if _ then _ else _) = _
    split <;> rfl

/-- Straight-line code that leads elsewhere, for good, with its third instruction. -/
def fork (count : U64) : U64 := if count < 3 then straight count else 0x2001

namespace CCompare.Backend

/-- A backend at its checkpoint. -/
def atCheckpoint (pcAt : U64 → U64) : Backend .rv64 .i smallMemory :=
  ⟨goesTo pcAt, suspending.state, suspending.memory⟩

theorem resume_atCheckpoint (pcAt : U64 → U64) (k m : ℕ) :
    ((atCheckpoint pcAt).resume k).resume m = (atCheckpoint pcAt).resume (k + m) := by
  simp only [resume, BitVec.ofNat_add, ← BitVec.add_assoc]
  rfl

end CCompare.Backend

end Rvr
