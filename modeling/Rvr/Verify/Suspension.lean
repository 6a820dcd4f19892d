import Rvr.Verify.A64.Suspend

/-!
# Transparent suspension

Both assembly backends stop a run behind an instruction once the retired-instruction count reaches
its limit.  A run that is stopped should be the run that goes on, with its next pc in the state.
The text is that of any list of instructions, emitted from any state of the emitter; a pass over it
starts in any machine state, at the head of the text or at a label, and comes to the check of one of
the instructions.
-/

namespace Rvr

open ExtensionRegistry

/-- `li x1, 5` at `0xffc`. -/
def loadOne : DecodedInstr .rv64 := ⟨.i .addi, 0xffc, 4, 0x00500093#32, .I 1 0 5⟩

/-- `bne x1, x2, 0x1800` at `0x1000`. -/
def farBranch : DecodedInstr .rv64 := ⟨.i .bne, 0x1000, 4, 0x002090E3#32, .B 1 2 0x800⟩

/-- `bne x5, x0, 0x1800` at `0x1000`. -/
def coldBranch : DecodedInstr .rv64 := ⟨.i .bne, 0x1000, 4, 0x000290E3#32, .B 5 0 0x800⟩

/-- `j .` at `0x1000`. -/
def selfJump : DecodedInstr .rv64 := ⟨.i .jal, 0x1000, 4, 0x0000006F#32, .J 0 0⟩

example : (standard .rv64).decode [0xE3, 0x90, 0x20, 0x00] 0x1000 = some farBranch := by
  decide +kernel

example : (standard .rv64).decode [0xE3, 0x90, 0x02, 0x00] 0x1000 = some coldBranch := by
  decide +kernel

example : (standard .rv64).decode [0x6F, 0x00, 0x00, 0x00] 0x1000 = some selfJump := by
  decide +kernel

namespace X64

/-- An emitter that suspends, with `x1` and `x2` hot, for code at the given addresses. -/
def suspender (addresses : Finset U64) : Emitter :=
  { Emitter.plain .wrap 32 [1, 2] with
    instretMode := .suspend
    inputs := ⟨0x1000, 0x2000, addresses, ∅⟩ }

/-- A machine state with a limit and a value of `x5`, in the state structure. -/
def limited (limit x5 : U64) : State :=
  { State.zero with
    field := fun f => if f = .targetInstret then limit else if f = .reg 5 then x5 else 0 }

/-- Where a pass from the start of the text goes on behind an instruction, and whether the check
suspends it. -/
def outlook (em : Emitter) (before : List (DecodedInstr .rv64)) (instr : DecodedInstr .rv64)
    (σ : State) : Option (Option U64 × Bool) :=
  let ir := (standard .rv64).lift instr
  ((guarded em .start (emitBefore em ir (before.map (standard .rv64).lift)) ir
    (followingPc ir [])).outlook (machine .idle) (σ, none)).map fun o =>
      (nextPc (followingPc ir []) o.2.2, decide (o.1.field .targetInstret ≤ o.1.regs .r10))

theorem exists_continues_of_outlook {em : Emitter} {before : List (DecodedInstr .rv64)}
    {instr : DecodedInstr .rv64} {σ₀ : State} {next : U64}
    (h : outlook em before instr σ₀ = some (some next, true)) :
    ∃ σ σ', Continues .idle em (before.map (standard .rv64).lift) ((standard .rv64).lift instr) []
      .start (σ₀, none) σ σ' next ∧ σ.field .targetInstret ≤ σ.regs .r10 := by
  unfold outlook at h
  obtain ⟨σ, σ', w, hgoes, heq⟩ := Asm.Guarded.exists_goesOn h
  obtain ⟨hnext, hlimit⟩ := Prod.mk.inj heq
  exact ⟨σ, σ', ⟨w, hgoes, hnext⟩, of_decide_eq_true hlimit⟩

/-- The pc in the state where the text up to the end of an instruction is left. -/
def pcLeft (em : Emitter) (instr : DecodedInstr .rv64) (σ : State) : Option U64 :=
  ((machine .idle).exec ((emitThrough em [] ((standard .rv64).lift instr) []).code .start)
    (σ, none)).map fun c => c.1.fieldVal .rv64 .pc

theorem not_suspended_of_pcLeft {em : Emitter} {instr : DecodedInstr .rv64} {σ σ' : State}
    {next : U64} (h : pcLeft em instr σ ≠ some next) :
    ¬ Suspended .idle em [] ((standard .rv64).lift instr) [] .start (σ, none) σ' next := by
  rintro ⟨τ, hrun, hstop⟩
  refine h ?_
  rw [pcLeft, hrun]
  exact congrArg some hstop.pc

end X64

namespace A64

/-- An emitter that suspends, with `x1` and `x2` hot, for code at the given addresses. -/
def suspender (addresses : Finset U64) : Emitter :=
  { Emitter.plain .wrap 32 [1, 2] with
    instretMode := .suspend
    inputs := ⟨0x1000, 0x2000, addresses, ∅⟩ }

/-- A machine state with a limit and a value of `x5`, in the state structure. -/
def limited (limit x5 : U64) : State :=
  { State.zero with
    field := fun f => if f = .targetInstret then limit else if f = .reg 5 then x5 else 0 }

/-- Where a pass from the start of the text goes on behind an instruction, and whether the check
suspends it. -/
def outlook (em : Emitter) (before : List (DecodedInstr .rv64)) (instr : DecodedInstr .rv64)
    (σ : State) : Option (Option U64 × Bool) :=
  let ir := (standard .rv64).lift instr
  ((guarded em .start (emitBefore em ir (before.map (standard .rv64).lift)) ir
    (X64.followingPc ir [])).outlook (machine .idle) (σ, none)).map fun o =>
      (X64.nextPc (X64.followingPc ir []) o.2.2,
        decide (o.1.field .targetInstret ≤ o.1.regs 18))

theorem exists_continues_of_outlook {em : Emitter} {before : List (DecodedInstr .rv64)}
    {instr : DecodedInstr .rv64} {σ₀ : State} {next : U64}
    (h : outlook em before instr σ₀ = some (some next, true)) :
    ∃ σ σ', Continues .idle em (before.map (standard .rv64).lift) ((standard .rv64).lift instr) []
      .start (σ₀, none) σ σ' next ∧ σ.field .targetInstret ≤ σ.regs 18 := by
  unfold outlook at h
  obtain ⟨σ, σ', w, hgoes, heq⟩ := Asm.Guarded.exists_goesOn h
  obtain ⟨hnext, hlimit⟩ := Prod.mk.inj heq
  exact ⟨σ, σ', ⟨w, hgoes, hnext⟩, of_decide_eq_true hlimit⟩

/-- The pc in the state where the text up to the end of an instruction is left. -/
def pcLeft (em : Emitter) (instr : DecodedInstr .rv64) (σ : State) : Option U64 :=
  ((machine .idle).exec ((emitThrough em [] ((standard .rv64).lift instr) []).code .start)
    (σ, none)).map fun c => c.1.fieldVal .rv64 .pc

theorem not_suspended_of_pcLeft {em : Emitter} {instr : DecodedInstr .rv64} {σ σ' : State}
    {next : U64} (h : pcLeft em instr σ ≠ some next) :
    ¬ Suspended .idle em [] ((standard .rv64).lift instr) [] .start (σ, none) σ' next := by
  rintro ⟨τ, hrun, hstop⟩
  refine h ?_
  rw [pcLeft, hrun]
  exact congrArg some hstop.pc

end A64

end Rvr
