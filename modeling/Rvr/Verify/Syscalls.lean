import Rvr.Verify.Frame

/-!
# What ECALL does to the registers

A syscall table is lifted to exit tests followed by a chain of tests that ends in the default error.
Executing it changes no register but `a0`, and leaves in `a0` the result of the first entry of the
chain whose number is in the syscall register (`exec_buildIr`).  The guard of the chain is the
bitwise complement of the exit tests, which is never zero, so the chain also runs for exit syscalls:
the contract of a table (`Effect`) is kept in the states that `Regular` describes and in no other.
-/

namespace Rvr

open List Stmt

variable {X : Xlen} {rt : Runtime X}

namespace SyscallTable

variable (t : SyscallTable)

/-- Whether the syscall register holds the number of an entry. -/
def Selects (s : GuestState X) (entry : SyscallEntry) : Prop :=
  s.readReg t.abi.syscallReg = X.fromU64 entry.num

instance (s : GuestState X) (entry : SyscallEntry) : Decidable (t.Selects s entry) :=
  inferInstanceAs (Decidable (_ = _))

/-- The value that an entry of the chain returns. -/
def entryResult (rt : Runtime X) (s : GuestState X) : SyscallAction → X.Reg
  | .runtime name args => rt.ret name (Expr.evalArgs rt s (callArgs args)) s
  | .returnConst value => X.fromU64 value
  | .exit => X.fromU64 t.defaultError

/-- The result of an ECALL: that of the first selected entry, or the default error. -/
def result (rt : Runtime X) (s : GuestState X) : X.Reg :=
  match t.nonExitEntries.find? fun e => t.Selects s e with
  | some entry => t.entryResult rt s entry.action
  | none => X.fromU64 t.defaultError

theorem eval_numEq (rt : Runtime X) (s : GuestState X) (entry : SyscallEntry) :
    (t.numEq entry.num).eval rt s = Ops.ofBool _ (decide (t.Selects s entry)) := by
  rfl

theorem eval_numEq_eq_zero (rt : Runtime X) (s : GuestState X) (entry : SyscallEntry) :
    (t.numEq entry.num).eval rt s = 0 ↔ ¬ t.Selects s entry := by
  exact (Ops.ofBool_eq_zero X.value_pos _).trans decide_eq_false_iff_not

/-! ## The chain -/

/-- The entry of the chain that is executed. -/
def chosen (s : GuestState X) : Option SyscallEntry :=
  t.nonExitEntries.find? fun e => t.Selects s e

/-- Memory after an entry: only runtime calls touch it. -/
def entryMem (rt : Runtime X) (s : GuestState X) : SyscallAction → X.Reg → BitVec 8
  | .runtime name args => rt.mem name (Expr.evalArgs rt s (callArgs args)) s
  | _ => s.mem

/-- Memory after the chain. -/
def chosenMem (rt : Runtime X) (s : GuestState X) : X.Reg → BitVec 8 :=
  match t.chosen s with
  | some entry => entryMem rt s entry.action
  | none => s.mem

/-- The state after the chain: `a0` has the result and a runtime call has run. -/
def dispatched (rt : Runtime X) (s : GuestState X) : GuestState X :=
  { s with mem := t.chosenMem rt s }.writeReg REG_A0 (t.result rt s)

/-- One link: the entry if it is selected, the rest of the chain otherwise. -/
theorem exec_dispatchEntry (s : GuestState X) {entry : SyscallEntry} (rest : Stmt X)
    (h : entry.action ≠ .exit) :
    (t.dispatchEntry entry rest).exec rt s =
      if t.Selects s entry then
        { s with mem := entryMem rt s entry.action }.writeReg REG_A0
          (t.entryResult rt s entry.action)
      else rest.exec rt s := by
  have hzero := t.eval_numEq_eq_zero rt s entry
  unfold dispatchEntry
  cases hact : entry.action with
  | exit => exact absurd hact h
  | runtime name args | returnConst value =>
    rw [exec_ite]
    by_cases hsel : t.Selects s entry
    · rw [if_neg fun h => hzero.1 h hsel, if_pos hsel]
      rfl
    · rw [if_pos (hzero.2 hsel), if_neg hsel, execAll_cons, execAll_nil]

theorem exec_dispatch (s : GuestState X) : t.dispatch.exec rt s = t.dispatched rt s := by
  have haction : ∀ e ∈ t.nonExitEntries, e.action ≠ .exit := fun e he => by
    simpa using (mem_filter.1 he).2
  unfold dispatch dispatched chosenMem chosen result
  generalize t.nonExitEntries = entries at haction ⊢
  induction entries with
  | nil => rfl
  | cons e es ih =>
    rw [foldr_cons, exec_dispatchEntry t s _ (haction e (by simp)), find?_cons]
    by_cases hsel : t.Selects s e
    · simp only [hsel, if_true, decide_true]
    · rw [if_neg hsel, ih fun e he => haction e (by simp [he])]
      simp only [hsel, decide_false]

/-! ## The exit tests and the guard -/

/-- The state after exit tests of which one has fired. -/
def exited (s : GuestState X) : GuestState X :=
  { s with hasExited := 1, exitCode := (s.readReg REG_A0).setWidth 8 }

/-- The state after the exit tests. -/
def exitState (s : GuestState X) : GuestState X :=
  if ∃ e ∈ t.exitEntries, t.Selects s e then exited s else s

@[simp] theorem readReg_exitState (s : GuestState X) (r : ℕ) :
    (t.exitState s).readReg r = s.readReg r := by
  unfold exitState
  split_ifs <;> rfl

theorem selects_exitState (s : GuestState X) (e : SyscallEntry) :
    t.Selects (t.exitState s) e ↔ t.Selects s e := by
  rw [Selects, Selects, readReg_exitState]

@[simp] theorem chosen_exitState (s : GuestState X) : t.chosen (t.exitState s) = t.chosen s := by
  simp only [chosen, selects_exitState]

theorem execAll_exitStmts (s : GuestState X) : execAll rt t.exitStmts s = t.exitState s := by
  unfold exitStmts exitState
  induction t.exitEntries generalizing s with
  | nil => simp
  | cons e es ih =>
    have hzero := t.eval_numEq_eq_zero rt s e
    rw [map_cons, execAll_cons, ifThen, exec_ite]
    by_cases hsel : t.Selects s e
    · -- a second test that fires writes the same flag and code again
      have hone : (X.fromU64 1).setWidth 8 = 1 := by cases X <;> rfl
      have hfire : execAll rt [.writeExited (.imm (X.fromU64 1)),
          .writeExitCode (.read REG_A0)] s = exited s := by
        rw [exited, ← hone]
        rfl
      have hany : ∃ e' ∈ e :: es, t.Selects s e' := ⟨e, mem_cons_self, hsel⟩
      rw [if_neg fun h => hzero.1 h hsel, hfire, ih]
      split_ifs <;> rfl
    · rw [if_pos (hzero.2 hsel), execAll_nil, ih]
      simp only [exists_mem_cons_iff, hsel, false_or]

theorem ofBool_or_ofBool (w : ℕ) (b c : Bool) :
    Ops.ofBool w b ||| Ops.ofBool w c = Ops.ofBool w (b || c) := by
  cases b <;> cases c <;> simp [Ops.ofBool]

/-- The disjunction of exit tests is a truth value. -/
theorem eval_isExit (s : GuestState X) (es : List SyscallEntry) (acc : Expr X) {b : Bool}
    (h : acc.eval rt s = Ops.ofBool _ b) :
    ∃ c, (es.foldl (fun acc entry => Expr.or acc (t.numEq entry.num)) acc).eval rt s
      = Ops.ofBool _ c := by
  induction es generalizing acc b with
  | nil => exact ⟨b, h⟩
  | cons e es ih =>
    refine ih (Expr.or acc (t.numEq e.num)) (b := b || decide (t.Selects s e)) ?_
    rw [Expr.eval_or, h, eval_numEq, ofBool_or_ofBool]

/-- The bitwise complement of a truth value is not zero. -/
theorem complement_ofBool_ne_zero (b : Bool) : ~~~(Ops.ofBool X.value b) ≠ 0 := by
  cases X <;> cases b <;> decide

/-- The guard lets the chain run in every state. -/
theorem execAll_dispatchStmts (s : GuestState X) :
    execAll rt t.dispatchStmts s =
      if t.nonExitEntries = [] then s else t.dispatched rt s := by
  unfold dispatchStmts
  split_ifs with hempty
  · rfl
  rw [← exec_dispatch]
  split
  · rfl
  · next e es _ =>
    obtain ⟨c, hc⟩ := t.eval_isExit s es (t.numEq e.num) (t.eval_numEq rt s e)
    rw [execAll_cons, execAll_nil, ifThen, exec_ite, Expr.eval_not, hc,
      if_neg (complement_ofBool_ne_zero c), execAll_cons, execAll_nil]

/-! ## The whole ECALL -/

variable (d : DecodedInstr X)

/-- The state after an ECALL: the exit tests, then the chain unless it has no entry. -/
theorem exec_buildIr (s : GuestState X) :
    ((t.buildIr d).exec rt s).1 =
      if t.nonExitEntries = [] then t.exitState s else t.dispatched rt (t.exitState s) := by
  rw [InstrIR.exec_fst]
  change execAll rt (t.exitStmts ++ t.dispatchStmts) s = _
  rw [execAll_append, execAll_exitStmts, execAll_dispatchStmts]

theorem readReg_dispatched_ne (s : GuestState X) {r : ℕ} (h : r ≠ REG_A0) :
    (t.dispatched rt s).readReg r = s.readReg r :=
  GuestState.readReg_writeReg_ne _ h _

@[simp] theorem readReg_a0_dispatched (s : GuestState X) :
    (t.dispatched rt s).readReg REG_A0 = t.result rt s :=
  GuestState.readReg_writeReg_self _ (by decide) _

/-- An ECALL writes no register but `a0`. -/
theorem readReg_buildIr (s : GuestState X) {r : ℕ} (h : r ≠ REG_A0) :
    (((t.buildIr d).exec rt s).1).readReg r = s.readReg r := by
  rw [exec_buildIr]
  split_ifs
  · exact t.readReg_exitState s r
  · rw [readReg_dispatched_ne t _ h, readReg_exitState]

/-- An ECALL leaves its result in `a0`, if exit entries and other entries have different numbers. -/
theorem readReg_a0_buildIr (s : GuestState X) (hne : t.nonExitEntries ≠ [])
    (hdisj : ∀ e ∈ t.exitEntries, ∀ e' ∈ t.nonExitEntries, X.fromU64 e.num ≠ X.fromU64 e'.num) :
    (((t.buildIr d).exec rt s).1).readReg REG_A0 = t.result rt s := by
  rw [exec_buildIr, if_neg hne, readReg_a0_dispatched]
  have hchosen := t.chosen_exitState s
  unfold chosen at hchosen
  unfold result
  rw [hchosen]
  cases hfind : t.nonExitEntries.find? fun e => t.Selects s e with
  | none => rfl
  | some entry =>
    -- only the entry that is selected looks at the state, and then no exit test has fired
    have hentry : t.Selects s entry := by simpa using find?_some hfind
    have hmem := mem_of_find?_eq_some hfind
    have hexit : ¬ ∃ e ∈ t.exitEntries, t.Selects s e := by
      rintro ⟨e, he, hse⟩
      exact hdisj e he entry hmem (hse.symm.trans hentry)
    rw [exitState, if_neg hexit]

/-! ## The contract of a syscall table -/

/-- The syscall register equals the number of an entry. -/
def Calls (s : GuestState X) (e : SyscallEntry) : Prop :=
  Xlen.toU64 (s.readReg t.abi.syscallReg) = e.num

instance (s : GuestState X) (e : SyscallEntry) : Decidable (t.Calls s e) :=
  inferInstanceAs (Decidable (_ = _))

/-- The exit flag and the exit code are set and no register changes. -/
def Exits (s s' : GuestState X) : Prop :=
  s'.hasExited = 1 ∧ s'.exitCode = (s.readReg REG_A0).setWidth 8 ∧
    ∀ r, s'.readReg r = s.readReg r

/-- What a syscall table is for: an exit syscall sets the exit flag and code and keeps the
registers, another syscall of the table returns its result in `a0`, and an unknown one the default
error. -/
structure Effect (rt : Runtime X) (s s' : GuestState X) : Prop where
  exit : ∀ e ∈ t.entries, e.action = .exit → t.Calls s e → Exits s s'
  call : ∀ e ∈ t.entries, e.action ≠ .exit → t.Calls s e →
    s'.readReg REG_A0 = t.entryResult rt s e.action
  other : (∀ e ∈ t.entries, ¬ t.Calls s e) →
    s' = s.writeReg REG_A0 (X.fromU64 t.defaultError)

/-- When the lifted table keeps its contract.  An exit syscall also runs the chain, so the chain
must be empty or leave `a0` as it was.  An unknown syscall does not reach the default error if the
chain is empty.  The other conditions can only fail on RV32, where a number that does not fit in a
register is truncated before it is compared. -/
structure Regular (rt : Runtime X) (s : GuestState X) : Prop where
  exit : ∀ e ∈ t.entries, e.action = .exit → t.Calls s e →
    t.nonExitEntries = [] ∨ t.result rt (exited s) = s.readReg REG_A0
  call : ∀ e ∈ t.entries, e.action ≠ .exit → t.Calls s e →
    t.entryResult rt (t.exitState s) e.action = t.entryResult rt s e.action
  other : (∀ e ∈ t.entries, ¬ t.Calls s e) →
    t.exitState s = s ∧ (t.nonExitEntries = [] → s.readReg REG_A0 = X.fromU64 t.defaultError) ∧
      ∀ e, t.chosen s = some e →
        t.entryResult rt s e.action = X.fromU64 t.defaultError ∧ entryMem rt s e.action = s.mem

variable {e : SyscallEntry}

theorem Calls.selects {s : GuestState X} (h : t.Calls s e) : t.Selects s e := by
  rw [Selects, ← show _ = e.num from h, Xlen.fromU64_toU64]

theorem mem_sortedEntries : e ∈ t.sortedEntries ↔ e ∈ t.entries :=
  mem_insertionSort _

theorem mem_exitEntries :
    e ∈ t.exitEntries ↔ e ∈ t.entries ∧ e.action = .exit := by
  rw [exitEntries, mem_filter, mem_sortedEntries, decide_eq_true_iff]

theorem mem_nonExitEntries :
    e ∈ t.nonExitEntries ↔ e ∈ t.entries ∧ e.action ≠ .exit := by
  rw [nonExitEntries, mem_filter, mem_sortedEntries, decide_eq_true_iff]

/-- With distinct numbers the chain is strictly ascending. -/
theorem pairwise_nonExitEntries (hnum : t.entries.Pairwise fun a b => a.num ≠ b.num) :
    t.nonExitEntries.Pairwise fun a b => a.num.toNat < b.num.toNat := by
  have hsorted : t.sortedEntries.Pairwise fun a b => a.num.toNat ≤ b.num.toNat :=
    pairwise_insertionSort _ _
  have hne : t.sortedEntries.Pairwise fun a b => a.num ≠ b.num :=
    hnum.perm (perm_insertionSort _ _).symm fun h => Ne.symm h
  refine List.Pairwise.filter _ (hsorted.imp₂ (fun a b hle hne => ?_) hne)
  exact Nat.lt_of_le_of_ne hle fun h => hne (BitVec.eq_of_toNat_eq h)

/-- A called entry is the first one of the chain that is selected: entries with the same low bits
have larger numbers. -/
theorem chosen_of_calls (hnum : t.entries.Pairwise fun a b => a.num ≠ b.num) {s : GuestState X}
    (he : e ∈ t.nonExitEntries) (hcalls : t.Calls s e) :
    t.chosen s = some e := by
  obtain ⟨before, after, hsplit⟩ := append_of_mem he
  have hsorted := t.pairwise_nonExitEntries hnum
  rw [hsplit, pairwise_append] at hsorted
  refine find?_eq_some_iff_append.2 ⟨by simpa using hcalls.selects, before, after, hsplit, ?_⟩
  intro e' he'
  have hlt : e'.num.toNat < e.num.toNat := hsorted.2.2 e' he' e mem_cons_self
  have hfits : e.num.toNat < 2 ^ X.value := by
    rw [← show _ = e.num from hcalls, Xlen.toNat_toU64]
    exact BitVec.isLt _
  suffices ¬ t.Selects s e' by simpa using this
  intro hsel
  have heq := congrArg BitVec.toNat (hsel.symm.trans hcalls.selects)
  rw [Xlen.fromU64, Xlen.fromU64, BitVec.toNat_setWidth, BitVec.toNat_setWidth,
    Nat.mod_eq_of_lt hfits, Nat.mod_eq_of_lt (hlt.trans hfits)] at heq
  omega

section Contract

variable {s : GuestState X}

theorem exitState_of_calls (he : e ∈ t.exitEntries) (hcalls : t.Calls s e) :
    t.exitState s = exited s := if_pos ⟨e, he, hcalls.selects⟩

/-- The exit tests have no effect if they leave the flag and the code. -/
theorem exitState_eq_self (hflag : (t.exitState s).hasExited = s.hasExited)
    (hcode : (t.exitState s).exitCode = s.exitCode) : t.exitState s = s := by
  unfold exitState at *
  split_ifs at *
  · rw [exited, show 1 = s.hasExited from hflag,
      show (s.readReg REG_A0).setWidth 8 = s.exitCode from hcode]
  · rfl

theorem exit_effect_iff (he : e ∈ t.exitEntries) (hcalls : t.Calls s e) :
    Exits s ((t.buildIr d).exec rt s).1 ↔
      t.nonExitEntries = [] ∨ t.result rt (exited s) = s.readReg REG_A0 := by
  rw [exec_buildIr, t.exitState_of_calls he hcalls]
  split_ifs with hempty
  · exact iff_of_true ⟨rfl, rfl, fun _ => rfl⟩ (.inl hempty)
  · constructor
    · rintro ⟨-, -, hregs⟩
      rw [← hregs REG_A0]
      exact .inr rfl
    · rintro (h | h)
      · exact absurd h hempty
      · refine ⟨rfl, rfl, fun r => ?_⟩
        by_cases hr : r = REG_A0
        · rw [hr, readReg_a0_dispatched, h]
        · exact t.readReg_dispatched_ne _ hr

theorem call_effect_iff (hnum : t.entries.Pairwise fun a b => a.num ≠ b.num)
    (d : DecodedInstr X) (he : e ∈ t.nonExitEntries) (hcalls : t.Calls s e) :
    (((t.buildIr d).exec rt s).1).readReg REG_A0 = t.entryResult rt s e.action ↔
      t.entryResult rt (t.exitState s) e.action = t.entryResult rt s e.action := by
  have hchosen : t.chosen (t.exitState s) = some e := by
    rw [chosen_exitState, t.chosen_of_calls hnum he hcalls]
  have hresult : t.result rt (t.exitState s) = t.entryResult rt (t.exitState s) e.action := by
    unfold result
    rw [← chosen, hchosen]
  rw [exec_buildIr, if_neg (ne_nil_of_mem he), readReg_a0_dispatched, hresult]

theorem other_effect_iff :
    ((t.buildIr d).exec rt s).1 = s.writeReg REG_A0 (X.fromU64 t.defaultError) ↔
      t.exitState s = s ∧ (t.nonExitEntries = [] → s.readReg REG_A0 = X.fromU64 t.defaultError) ∧
        ∀ e, t.chosen s = some e →
          t.entryResult rt s e.action = X.fromU64 t.defaultError ∧
            entryMem rt s e.action = s.mem := by
  rw [exec_buildIr]
  constructor
  · intro heq
    have hself : t.exitState s = s := by
      have hflag := congrArg GuestState.hasExited heq
      have hcode := congrArg GuestState.exitCode heq
      refine t.exitState_eq_self ?_ ?_
      · rwa [apply_ite GuestState.hasExited, show (t.dispatched rt (t.exitState s)).hasExited
          = (t.exitState s).hasExited from rfl, ite_self] at hflag
      · rwa [apply_ite GuestState.exitCode, show (t.dispatched rt (t.exitState s)).exitCode
          = (t.exitState s).exitCode from rfl, ite_self] at hcode
    rw [hself] at heq
    have ha0 := congrArg (GuestState.readReg · REG_A0) heq
    refine ⟨hself, fun hempty => ?_, fun e he => ?_⟩
    · rwa [if_pos hempty] at ha0
    · have hne : t.nonExitEntries ≠ [] := ne_nil_of_mem (mem_of_find?_eq_some he)
      have hmem := congrArg GuestState.mem heq
      rw [if_neg hne, readReg_a0_dispatched] at ha0
      rw [if_neg hne] at hmem
      unfold result at ha0
      rw [← chosen, he] at ha0
      refine ⟨ha0, ?_⟩
      rw [show (t.dispatched rt s).mem = t.chosenMem rt s from rfl, chosenMem, he] at hmem
      exact hmem
  · rintro ⟨hself, hempty, hchosen⟩
    rw [hself]
    split_ifs with h
    · rw [← hempty h]
      exact (s.writeReg_readReg_self REG_A0).symm
    · unfold dispatched chosenMem result
      rw [← chosen]
      cases he : t.chosen s with
      | none => rfl
      | some e =>
        obtain ⟨hresult, hmem⟩ := hchosen e he
        dsimp only
        rw [hresult, hmem]

/-- The lifted table keeps its contract in exactly these states. -/
theorem buildIr_effect_iff (hnum : t.entries.Pairwise fun a b => a.num ≠ b.num)
    (d : DecodedInstr X) (s : GuestState X) :
    t.Effect rt s ((t.buildIr d).exec rt s).1 ↔ t.Regular rt s := by
  constructor
  · rintro ⟨hexit, hcall, hother⟩
    refine ⟨fun e he hact hcalls => ?_, fun e he hact hcalls => ?_, fun hnone => ?_⟩
    · exact (t.exit_effect_iff d (t.mem_exitEntries.2 ⟨he, hact⟩) hcalls).1 (hexit e he hact hcalls)
    · exact (t.call_effect_iff hnum d (t.mem_nonExitEntries.2 ⟨he, hact⟩) hcalls).1
        (hcall e he hact hcalls)
    · exact (t.other_effect_iff d).1 (hother hnone)
  · rintro ⟨hexit, hcall, hother⟩
    refine ⟨fun e he hact hcalls => ?_, fun e he hact hcalls => ?_, fun hnone => ?_⟩
    · exact (t.exit_effect_iff d (t.mem_exitEntries.2 ⟨he, hact⟩) hcalls).2 (hexit e he hact hcalls)
    · exact (t.call_effect_iff hnum d (t.mem_nonExitEntries.2 ⟨he, hact⟩) hcalls).2
        (hcall e he hact hcalls)
    · exact (t.other_effect_iff d).2 (hother hnone)

end Contract

/-- `getpid` with the Linux table. -/
theorem buildIr_effect_getpid :
    let s := (GuestState.zero .rv64).writeReg REG_A7 172
    (linuxTable .standard).Effect (.idle .rv64) s
      (((linuxTable .standard).buildIr ⟨.i .ecall, 0, 4, 0x73, .none⟩).exec (.idle .rv64) s).1 := by
  refine ((linuxTable .standard).buildIr_effect_iff (by decide +kernel) _ _).2 ⟨?_, ?_, ?_⟩
  · decide +kernel
  · decide +kernel
  · intro hnone
    exact absurd hnone (by decide +kernel)

/-- `exit` with the Linux table: the chain runs as well and leaves the default error in `a0`. -/
theorem buildIr_effect_exit_fails :
    let s := ((GuestState.zero .rv64).writeReg REG_A7 93).writeReg REG_A0 7
    ((linuxTable .standard).entries.Pairwise fun a b => a.num ≠ b.num) ∧
      ¬ (linuxTable .standard).Effect (.idle .rv64) s
        (((linuxTable .standard).buildIr ⟨.i .ecall, 0, 4, 0x73, .none⟩).exec
          (.idle .rv64) s).1 := by
  refine ⟨by decide +kernel, fun heffect => ?_⟩
  have hregs := (heffect.exit ⟨93, .exit⟩ (by decide) rfl (by decide +kernel)).2.2 REG_A0
  exact absurd hregs (by decide +kernel)

end SyscallTable

/-- The result of a Linux ECALL is left in `a0`. -/
theorem readReg_a0_linuxHandler (abi : SyscallAbi) (d : DecodedInstr X) (s : GuestState X) :
    (((linuxHandler abi d).exec rt s).1).readReg REG_A0 = (linuxTable abi).result rt s :=
  (linuxTable abi).readReg_a0_buildIr d s (by cases abi <;> decide +kernel)
    (by cases abi <;> cases X <;> decide +kernel)

end Rvr
