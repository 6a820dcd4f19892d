import Rvr.Emit.Inputs
import Rvr.Ir.Eval

/-!
# Emitted block functions

The body of a C function `B_{pc}` as a tree: one node for each line that the emitter writes, with
the text between an opening and a closing brace as a list of its own.  Expressions stay the IR
expressions that they are rendered from; branch hints, comments and `#line` directives are left out,
and of the tracing hooks only their place and arguments are kept.

A function runs on the guest state and the values that only the emitted code has: the parameter
`instret`, which is the `instret` field here, the copy of it in the state structure, the suspension
limit and the local `target`.  Registers that are passed as parameters are not told apart from those
in the state structure.
-/

namespace Rvr

open ByteMemory

/-- Where a jump goes: a literal address, an expression, or the local `target`. -/
inductive CTarget (X : Xlen)
  | const (addr : U64)
  | expr (e : Expr X)
  | var

/-- The conditions of emitted `if`s. -/
inductive CCond (X : Xlen)
  /-- A rendered expression. -/
  | expr (e : Expr X)
  /-- `state->has_exited`. -/
  | hasExited
  /-- `state->target_instret <= instret`. -/
  | limitReached
  /-- `(uint32_t){base} + {offset} == TOHOST_ADDR`. -/
  | isTohost (base : Expr X) (offset : BitVec 16)
  /-- `{target} == {addr}`. -/
  | targetIs (target : CTarget X) (addr : U64)

/-- A statement of an emitted function. -/
inductive CStmt (X : Xlen) : Type
  /-- The place where the text of an instruction starts. -/
  | begin (ir : InstrIR X)
  /-- `{reg_type} _t{idx} = {value};` -/
  | declTemp (idx : ℕ) (value : Expr X)
  /-- `{reg_type} target = {value};` -/
  | declTarget (value : Expr X)
  /-- An assignment, or a call of one of the functions that write memory and CSRs. -/
  | write (target : WriteTarget X) (value : Expr X)
  | call (fnName : String) (args : List (Expr X))
  /-- `if ({cond}) {` … `} else {` … `}` -/
  | ite (cond : CCond X) (thenBody elseBody : List (CStmt X))
  /-- `instret += {n};` -/
  | addInstret (n : ℕ)
  /-- `state->instret = instret + {n};` -/
  | saveInstret (n : ℕ)
  /-- `state->has_exited = true;` -/
  | setExited
  /-- `state->exit_code = {code};` -/
  | setExitCode (code : Expr X)
  /-- `state->pc = {target};` -/
  | setPc (target : CTarget X)
  /-- `handle_tohost_write(state, {value});` -/
  | tohost (value : Expr X)
  /-- A tracing hook. -/
  | trace (hook : String) (args : List U64)
  /-- `return;` -/
  | ret
  /-- `[[clang::musttail]] return B_{start}(..);` -/
  | tailCall (start : U64)
  /-- `[[clang::musttail]] return dispatch_table[dispatch_index({target})](..);` -/
  | tailDispatch (target : CTarget X)

/-! ## Running a function -/

/-- What an emitted function runs on.  `retired` counts the instructions whose text was entered. -/
structure CState (X : Xlen) where
  guest : GuestState X
  stateInstret : U64
  targetInstret : U64
  target : X.Reg
  retired : ℕ

/-- How control leaves a function. -/
inductive CLeave (X : Xlen)
  | ret
  | call (start : U64)
  | dispatch (target : X.Reg)
  deriving DecidableEq

/-- `TOHOST_ADDR`. -/
def TOHOST_ADDR : BitVec 32 := 0x80001000

/-- `FROMHOST_ADDR`. -/
def FROMHOST_ADDR : BitVec 32 := 0x80001008

section Run

variable {X : Xlen} (rt : Runtime X)

/-- `handle_tohost_write`: an odd value exits, an even one is the address of a syscall of which only
writes to standard output are known. -/
def handleTohostWrite (value : X.Reg) (s : GuestState X) : GuestState X :=
  let field (i : ℕ) : ℕ := readLE s.mem (value + BitVec.ofNat _ (8 * i)) 8
  if value = 0 then s
  else if value &&& 1 = 1 then
    { s with exitCode := (value >>> 1).setWidth 8, hasExited := 1 }
  else if field 0 = 64 ∧ field 1 = 1 then
    let returned := writeLE s.mem value X.regBytes (field 3)
    { s with mem := writeLE returned (FROMHOST_ADDR.setWidth X.value) X.regBytes 1 }
  else { s with exitCode := 1, hasExited := 1 }

def CTarget.eval (st : CState X) : CTarget X → X.Reg
  | .const addr => X.fromU64 addr
  | .expr e => e.eval rt st.guest
  | .var => st.target

def CCond.holds (st : CState X) : CCond X → Bool
  | .expr e => e.eval rt st.guest ≠ 0
  | .hasExited => st.guest.hasExited ≠ 0
  | .limitReached => st.targetInstret ≤ st.guest.instret
  | .isTohost base offset =>
    (base.eval rt st.guest).setWidth 32 + offset.signExtend 32 = TOHOST_ADDR
  | .targetIs target addr => Xlen.toU64 (target.eval rt st) = addr

/-- Apply an effect on the guest state. -/
def CState.update (st : CState X) (f : GuestState X → GuestState X) : CState X :=
  { st with guest := f st.guest }

mutual

/-- Execute a statement; the second component says how control left, if it did. -/
def CStmt.exec : CStmt X → CState X → CState X × Option (CLeave X)
  | .begin _, st => ({ st with retired := st.retired + 1 }, none)
  | .declTemp idx value, st => (st.update ((Stmt.writeTemp idx value).exec rt), none)
  | .declTarget value, st => ({ st with target := value.eval rt st.guest }, none)
  | .write target value, st => (st.update ((Stmt.write target value).exec rt), none)
  | .call fnName args, st => (st.update ((Stmt.externCall fnName args).exec rt), none)
  | .ite cond thenBody elseBody, st =>
    if cond.holds rt st then CStmt.execAll thenBody st else CStmt.execAll elseBody st
  | .addInstret n, st =>
    (st.update fun s => { s with instret := s.instret + BitVec.ofNat 64 n }, none)
  | .saveInstret n, st =>
    ({ st with stateInstret := st.guest.instret + BitVec.ofNat 64 n }, none)
  | .setExited, st => (st.update fun s => { s with hasExited := 1 }, none)
  | .setExitCode code, st =>
    (st.update fun s => { s with exitCode := (code.eval rt s).setWidth 8 }, none)
  | .setPc target, st => (st.update fun s => { s with pc := target.eval rt st }, none)
  | .tohost value, st => (st.update fun s => handleTohostWrite (value.eval rt s) s, none)
  | .trace _ _, st => (st, none)
  | .ret, st => (st, some .ret)
  | .tailCall start, st => (st, some (.call start))
  | .tailDispatch target, st => (st, some (.dispatch (target.eval rt st)))

/-- Execute statements in order until control leaves. -/
def CStmt.execAll : List (CStmt X) → CState X → CState X × Option (CLeave X)
  | [], st => (st, none)
  | c :: cs, st =>
    match c.exec st with
    | (st', some l) => (st', some l)
    | (st', none) => CStmt.execAll cs st'

end

/-- Run a function body; reaching its end is a return. -/
def runFunction (body : List (CStmt X)) (st : CState X) : CState X × CLeave X :=
  let (st', leave) := CStmt.execAll rt body st
  (st', leave.getD .ret)

/-! ## Rules -/

namespace CStmt

variable {rt} {as bs : List (CStmt X)} {st st' : CState X} {leave : CLeave X}

@[simp] theorem execAll_nil (st : CState X) : execAll rt [] st = (st, none) := rfl

/-- Text that runs to its end passes its state on. -/
theorem execAll_append_of_none (h : execAll rt as st = (st', none)) :
    execAll rt (as ++ bs) st = execAll rt bs st' := by
  induction as generalizing st with
  | nil =>
    cases h
    rfl
  | cons a as ih =>
    rw [List.cons_append, execAll]
    rw [execAll] at h
    rcases hexec : a.exec rt st with ⟨st₁, _ | l⟩
    · rw [hexec] at h
      exact ih h
    · rw [hexec] at h
      cases h

/-- Nothing runs after text that leaves. -/
theorem execAll_append_of_some (h : execAll rt as st = (st', some leave)) :
    execAll rt (as ++ bs) st = (st', some leave) := by
  induction as generalizing st with
  | nil => cases h
  | cons a as ih =>
    rw [List.cons_append, execAll]
    rw [execAll] at h
    rcases hexec : a.exec rt st with ⟨st₁, _ | l⟩
    · rw [hexec] at h
      exact ih h
    · rw [hexec] at h
      exact h

theorem execAll_singleton (c : CStmt X) (st : CState X) : execAll rt [c] st = c.exec rt st := by
  rw [execAll]
  rcases c.exec rt st with ⟨st₁, _ | l⟩ <;> rfl

theorem execAll_ite (cond : CCond X) (st : CState X) :
    execAll rt [.ite cond as bs] st =
      if cond.holds rt st then execAll rt as st else execAll rt bs st := by
  rw [execAll_singleton, exec]

end CStmt

end Run

end Rvr
