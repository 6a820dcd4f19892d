import Mathlib

/-!
# Assembly texts and their emission

An assembly text is a list of lines: labels and instructions.  A machine says which instructions an
assembler can encode and what an instruction does to a state; an instruction may jump, and control
then passes over the lines up to the label.  A jump whose label does not follow leaves the text with
that label still wanted, so the texts of two emissions compose (`Machine.exec_append`).

A code generator appends lines while it threads a state of its own.  `Emit` is that monad: it
records every line together with the generator's state at the moment of emission, and
`Machine.Runs` is the weakest precondition of emitting a text and then running it.
-/

namespace Asm

variable {E L I S α β : Type}

/-- A line of an assembly text. -/
inductive Line (L I : Type)
  | label (l : L)
  | ins (i : I)

/-- An instruction set: what can be encoded, and what an instruction does.  A step gives the new
state and the label it jumps to, if it does; it fails where the behaviour is not defined. -/
structure Machine (L I S : Type) where
  encodable : I → Bool
  step : I → S → Option (S × Option L)

namespace Machine

variable [DecidableEq L] (M : Machine L I S)

/-- Run one line; the second component is the label that control is looking for.  A line that
cannot be encoded fails even when it is passed over: the text is then no program. -/
def execLine : Line L I → S × Option L → Option (S × Option L)
  | .label l, (s, wanted) => some (s, if wanted = some l then none else wanted)
  | .ins i, (s, wanted) =>
    if M.encodable i then
      match wanted with
      | none => M.step i s
      | some l => some (s, some l)
    else none

/-- Run a text. -/
def exec : List (Line L I) → S × Option L → Option (S × Option L)
  | [], c => some c
  | l :: ls, c => (M.execLine l c).bind (exec ls)

theorem exec_append (ls ls' : List (Line L I)) (c : S × Option L) :
    M.exec (ls ++ ls') c = (M.exec ls c).bind (M.exec ls') := by
  induction ls generalizing c with
  | nil => rfl
  | cons l ls ih =>
    rw [List.cons_append, exec, exec]
    cases M.execLine l c with
    | none => rfl
    | some c' => exact ih c'

variable {ls : List (Line L I)}

/-- Control that looks for a label outside the text passes over it. -/
theorem exec_pass {l : L} (s : S)
    (henc : ∀ i, .ins i ∈ ls → M.encodable i = true) (hout : .label l ∉ ls) :
    M.exec ls (s, some l) = some (s, some l) := by
  induction ls with
  | nil => rfl
  | cons line ls ih =>
    have hrest := ih (fun i hi => henc i (List.mem_cons_of_mem _ hi))
      (fun h => hout (List.mem_cons_of_mem _ h))
    cases line with
    | label l' =>
      have hne : ¬ (some l = some l') := by
        intro h
        exact hout (Option.some.inj h ▸ List.mem_cons_self)
      rw [exec, execLine, if_neg hne]
      exact hrest
    | ins i =>
      rw [exec, execLine, if_pos (henc i List.mem_cons_self)]
      exact hrest

/-- What every instruction of a text does to the state holds of the whole run, if it is reflexive
and transitive. -/
theorem exec_rel {R : S → S → Prop} (hrefl : ∀ s, R s s) (htrans : ∀ {s t u}, R s t → R t u → R s u)
    (hstep : ∀ i, .ins i ∈ ls → ∀ {s s' l}, M.step i s = some (s', l) → R s s')
    {c c' : S × Option L} (h : M.exec ls c = some c') : R c.1 c'.1 := by
  induction ls generalizing c with
  | nil =>
    cases h
    exact hrefl _
  | cons line ls ih =>
    obtain ⟨c₁, hline, hrest⟩ := Option.bind_eq_some_iff.1 h
    have hlast : R c₁.1 c'.1 := ih (fun i hi => hstep i (List.mem_cons_of_mem _ hi)) hrest
    refine htrans ?_ hlast
    obtain ⟨s, wanted⟩ := c
    cases line with
    | label l =>
      cases hline
      exact hrefl _
    | ins i =>
      simp only [execLine] at hline
      split at hline
      · cases wanted with
        | none => exact hstep i List.mem_cons_self hline
        | some l =>
          cases hline
          exact hrefl _
      · cases hline

/-- A text with a line that cannot be encoded is no program. -/
theorem exec_eq_none_of_mem {i : I} (hi : .ins i ∈ ls)
    (henc : M.encodable i = false) (c : S × Option L) : M.exec ls c = none := by
  induction ls generalizing c with
  | nil => cases hi
  | cons line ls ih =>
    rw [exec]
    rcases List.mem_cons.1 hi with rfl | hi
    · simp [execLine, henc]
    · cases M.execLine line c with
      | none => rfl
      | some c' => exact ih hi c'

end Machine

/-! ## Emission -/

/-- What an emission gives: a value, the lines with the generator's state when each was emitted,
and the generator's state afterwards. -/
structure Emission (E L I α : Type) where
  val : α
  trace : List (E × Line L I)
  st : E

/-- A computation that emits lines. -/
def Emit (E L I α : Type) := E → Emission E L I α

namespace Emit

instance : Monad (Emit E L I) where
  pure a := fun e => ⟨a, [], e⟩
  bind m f := fun e =>
    let first := m e
    let second := f first.val first.st
    ⟨second.val, first.trace ++ second.trace, second.st⟩

/-- Emit a line. -/
def line (l : Line L I) : Emit E L I Unit := fun e => ⟨(), [(e, l)], e⟩

/-- Read the generator's state. -/
def get : Emit E L I E := fun e => ⟨e, [], e⟩

/-- Change the generator's state. -/
def modify (f : E → E) : Emit E L I Unit := fun e => ⟨(), [], f e⟩

/-- The text of an emission. -/
def code (m : Emit E L I α) (e : E) : List (Line L I) := (m e).trace.map Prod.snd

/-- Emit only under a condition. -/
def when (b : Bool) (m : Emit E L I Unit) : Emit E L I Unit := if b then m else pure ()

/-- Run an action for every element of a list. -/
def each (f : β → Emit E L I Unit) : List β → Emit E L I Unit
  | [] => pure ()
  | b :: bs => do f b; each f bs

variable (m : Emit E L I α) (f : α → Emit E L I β) (e : E)

theorem code_pure (a : α) : (pure a : Emit E L I α).code e = [] := rfl

theorem code_bind : (m >>= f).code e = m.code e ++ (f (m e).val).code (m e).st :=
  List.map_append

theorem code_line (l : Line L I) : (line l : Emit E L I Unit).code e = [l] := rfl

@[simp] theorem pure_val (a : α) : ((pure a : Emit E L I α) e).val = a := rfl

@[simp] theorem pure_st (a : α) : ((pure a : Emit E L I α) e).st = e := rfl

@[simp] theorem get_val : ((get : Emit E L I E) e).val = e := rfl

@[simp] theorem get_st : ((get : Emit E L I E) e).st = e := rfl

@[simp] theorem modify_st (g : E → E) : ((modify g : Emit E L I Unit) e).st = g e := rfl

@[simp] theorem line_st (l : Line L I) : ((line l : Emit E L I Unit) e).st = e := rfl

@[simp] theorem bind_val : ((m >>= f) e).val = (f (m e).val (m e).st).val := rfl

@[simp] theorem bind_st : ((m >>= f) e).st = (f (m e).val (m e).st).st := rfl

@[simp] theorem when_true (m : Emit E L I Unit) : when true m = m := rfl

@[simp] theorem when_false (m : Emit E L I Unit) : when false m = pure () := rfl

/-- Every line of an emission has a property. -/
def Lines (P : Line L I → Prop) (m : Emit E L I α) (e : E) : Prop := ∀ l ∈ m.code e, P l

section Lines

variable {P Q : Line L I → Prop} {m f e}

@[simp] theorem lines_pure {a : α} : Lines P (pure a : Emit E L I α) e := by
  intro l hl
  cases hl

@[simp] theorem lines_get : Lines P (get : Emit E L I E) e := by
  intro l hl
  cases hl

@[simp] theorem lines_modify {g : E → E} : Lines P (modify g : Emit E L I Unit) e := by
  intro l hl
  cases hl

@[simp] theorem lines_line {l : Line L I} : Lines P (line l : Emit E L I Unit) e ↔ P l := by
  simp only [Lines, code_line, List.mem_singleton, forall_eq]

@[simp] theorem lines_bind :
    Lines P (m >>= f) e ↔ Lines P m e ∧ Lines P (f (m e).val) (m e).st := by
  simp only [Lines, code_bind, List.mem_append, or_imp, forall_and]

@[simp] theorem lines_when {b : Bool} {m : Emit E L I Unit} :
    Lines P (when b m) e ↔ (b = true → Lines P m e) := by
  cases b with
  | false => simp
  | true => simp

@[simp] theorem lines_ite {c : Prop} [Decidable c] {m m' : Emit E L I α} :
    Lines P (if c then m else m') e ↔ (c → Lines P m e) ∧ (¬ c → Lines P m' e) := by
  by_cases h : c
  · simp [h]
  · simp [h]

theorem Lines.mono (h : Lines P m e) (hpq : ∀ l, P l → Q l) : Lines Q m e := by
  intro l hl
  exact hpq l (h l hl)

end Lines

section Emits

variable {i : I} {m f e}

/-- An instruction is part of an emission. -/
def Emits (i : I) (m : Emit E L I α) (e : E) : Prop := .ins i ∈ m.code e

@[simp] theorem not_emits_pure {a : α} : ¬ Emits i (pure a : Emit E L I α) e := List.not_mem_nil

@[simp] theorem emits_line {l : Line L I} : Emits i (line l : Emit E L I Unit) e ↔ .ins i = l :=
  List.mem_singleton

@[simp] theorem emits_bind :
    Emits i (m >>= f) e ↔ Emits i m e ∨ Emits i (f (m e).val) (m e).st := by
  rw [Emits, code_bind, List.mem_append]
  rfl

end Emits

end Emit

/-! ## Emitting and running -/

namespace Machine

variable [DecidableEq L] (M : Machine L I S)

/-- Emit a text and run it: it can be encoded, it runs to its end, and what the emission returns,
the generator's state and the configuration at the end satisfy `Q`. -/
def Runs (m : Emit E L I α) (e : E) (c : S × Option L) (Q : α → E → S × Option L → Prop) : Prop :=
  ∃ c', M.exec (m.code e) c = some c' ∧ Q (m e).val (m e).st c'

variable {M} {m : Emit E L I α} {f : α → Emit E L I β} {e : E} {c : S × Option L}
  {Q Q' : α → E → S × Option L → Prop}

theorem Runs.mono (h : M.Runs m e c Q) (hQ : ∀ a e' c', Q a e' c' → Q' a e' c') :
    M.Runs m e c Q' := by
  obtain ⟨c', hc, hq⟩ := h
  exact ⟨c', hc, hQ _ _ _ hq⟩

/-- The text of two emissions runs as the first and then the second. -/
theorem exec_bind (m : Emit E L I α) (f : α → Emit E L I β) (e : E) (c : S × Option L) :
    M.exec ((m >>= f).code e) c =
      (M.exec (m.code e) c).bind (M.exec ((f (m e).val).code (m e).st)) := by
  rw [Emit.code_bind, exec_append]

/-- A text has one run. -/
theorem Runs.and (h : M.Runs m e c Q) (h' : M.Runs m e c Q') :
    M.Runs m e c fun a e' c' => Q a e' c' ∧ Q' a e' c' := by
  obtain ⟨c₁, hc₁, hq⟩ := h
  obtain ⟨c₂, hc₂, hq'⟩ := h'
  cases hc₁.symm.trans hc₂
  exact ⟨c₁, hc₁, hq, hq'⟩

/-- A text that cannot be run at all gives nothing. -/
theorem exec_eq_none (h : ¬ M.Runs m e c fun _ _ _ => True) : M.exec (m.code e) c = none := by
  cases hexec : M.exec (m.code e) c with
  | none => rfl
  | some c' => exact absurd ⟨c', hexec, trivial⟩ h

/-- An emission with an instruction that cannot be encoded does not run. -/
theorem not_runs_of_emits {i : I} (hi : Emit.Emits i m e) (henc : M.encodable i = false) :
    ¬ M.Runs m e c Q := by
  rintro ⟨c', hc, -⟩
  rw [exec_eq_none_of_mem M hi henc] at hc
  cases hc

@[simp] theorem runs_pure {a : α} : M.Runs (pure a) e c Q ↔ Q a e c := by
  constructor
  · rintro ⟨c', hc, hq⟩
    cases hc
    exact hq
  · intro hq
    exact ⟨c, rfl, hq⟩

@[simp] theorem runs_get {Q : E → E → S × Option L → Prop} : M.Runs Emit.get e c Q ↔ Q e e c := by
  constructor
  · rintro ⟨c', hc, hq⟩
    cases hc
    exact hq
  · intro hq
    exact ⟨c, rfl, hq⟩

@[simp] theorem runs_modify {g : E → E} {Q : Unit → E → S × Option L → Prop} :
    M.Runs (Emit.modify g) e c Q ↔ Q () (g e) c := by
  constructor
  · rintro ⟨c', hc, hq⟩
    cases hc
    exact hq
  · intro hq
    exact ⟨c, rfl, hq⟩

@[simp] theorem runs_bind {Q : β → E → S × Option L → Prop} :
    M.Runs (m >>= f) e c Q ↔ M.Runs m e c fun a e' c' => M.Runs (f a) e' c' Q := by
  unfold Runs
  rw [Emit.code_bind, M.exec_append]
  cases M.exec (m.code e) c with
  | none => simp
  | some c' => exact ⟨fun h => ⟨c', rfl, h⟩, fun ⟨_, hc, h⟩ => by cases hc; exact h⟩

theorem runs_line {l : Line L I} {Q : Unit → E → S × Option L → Prop} :
    M.Runs (Emit.line l) e c Q ↔ ∃ c', M.execLine l c = some c' ∧ Q () e c' := by
  unfold Runs
  rw [Emit.code_line, exec]
  cases M.execLine l c with
  | none => simp
  | some c' => rfl

@[simp] theorem runs_label {l : L} {s : S} {wanted : Option L}
    {Q : Unit → E → S × Option L → Prop} :
    M.Runs (Emit.line (.label l)) e (s, wanted) Q ↔
      Q () e (s, if wanted = some l then none else wanted) := by
  rw [runs_line]
  simp only [execLine, Option.some.injEq, exists_eq_left']

@[simp] theorem runs_ins {i : I} {s : S} {Q : Unit → E → S × Option L → Prop} :
    M.Runs (Emit.line (.ins i)) e (s, none) Q ↔
      M.encodable i = true ∧ ∃ c', M.step i s = some c' ∧ Q () e c' := by
  rw [runs_line, execLine]
  split
  case isTrue h => simp [h]
  case isFalse h => simp [h]

/-- An instruction that control passes over only has to be encodable. -/
@[simp] theorem runs_ins_wanted {i : I} {s : S} {l : L} {Q : Unit → E → S × Option L → Prop} :
    M.Runs (Emit.line (.ins i)) e (s, some l) Q ↔ M.encodable i = true ∧ Q () e (s, some l) := by
  rw [runs_line, execLine]
  split
  case isTrue h => simp [h]
  case isFalse h => simp [h]

end Machine

end Asm
