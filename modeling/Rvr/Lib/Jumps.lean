import Rvr.Lib.Asm

/-!
# Jumps of assembly texts

A text that runs can be encoded as a whole, so control can also pass over it.  A text of the form
`leave; l:; rest` is therefore run in one of two ways, depending on whether control enters it at its
start or looks for `l` (`Guarded`).  An emission that gives one text without jumps, whatever the
state of the generator, acts on the state of the machine alone (`Emit.Fixed.runs_bind`), so two
copies of it act alike.
-/

namespace Asm

variable {E L I S α β : Type}

/-- A line that defines only labels with a property. -/
def Line.Defines (P : L → Prop) : Line L I → Prop
  | .label l => P l
  | .ins _ => True

/-! ## Emissions of one text -/

namespace Emit

theorem bind_bind {γ : Type} (m : Emit E L I α) (f : α → Emit E L I β) (g : β → Emit E L I γ) :
    m >>= f >>= g = m >>= fun a => f a >>= g := by
  funext e
  exact congrArg (fun trace => Emission.mk _ trace _) (List.append_assoc ..)

/-- From every state of the generator an emission gives the same value and the same text, whose
lines have a property. -/
def Fixed (P : Line L I → Prop) (m : Emit E L I α) : Prop :=
  ∃ a ls, (∀ l ∈ ls, P l) ∧ ∀ e, (m e).val = a ∧ m.code e = ls

variable {P : Line L I → Prop}

@[simp, grind .] theorem fixed_pure (a : α) : Fixed P (pure a : Emit E L I α) :=
  ⟨a, [], by simp, fun _ => ⟨rfl, rfl⟩⟩

@[simp, grind .] theorem fixed_modify (g : E → E) : Fixed P (modify g : Emit E L I Unit) :=
  ⟨(), [], by simp, fun _ => ⟨rfl, rfl⟩⟩

theorem fixed_line {l : Line L I} (h : P l) : Fixed P (line l : Emit E L I Unit) :=
  ⟨(), [l], by simpa using h, fun _ => ⟨rfl, rfl⟩⟩

@[simp, grind .] theorem fixed_bind {m : Emit E L I α} {f : α → Emit E L I β} (hm : Fixed P m)
    (hf : ∀ a, Fixed P (f a)) : Fixed P (m >>= f) := by
  obtain ⟨a, ls, hls, h⟩ := hm
  obtain ⟨b, ls', hls', h'⟩ := hf a
  refine ⟨b, ls ++ ls', ?_, fun e => ⟨?_, ?_⟩⟩
  · intro l hl
    exact (List.mem_append.1 hl).elim (hls l) (hls' l)
  · rw [bind_val, (h e).1, (h' _).1]
  · rw [code_bind, (h e).2, (h e).1, (h' _).2]

@[simp] theorem fixed_ite {c : Prop} [Decidable c] {m m' : Emit E L I α} (hm : Fixed P m)
    (hm' : Fixed P m') : Fixed P (if c then m else m') := by
  split_ifs
  · exact hm
  · exact hm'

@[simp, grind .] theorem fixed_when {b : Bool} {m : Emit E L I Unit} (hm : Fixed P m) :
    Fixed P (when b m) := fixed_ite hm (fixed_pure ())

theorem Fixed.lines {m : Emit E L I α} (h : Fixed P m) (e : E) : Lines P m e := by
  obtain ⟨a, ls, hls, h⟩ := h
  rw [Lines, (h e).2]
  exact hls

end Emit

namespace Machine

variable {M : Machine L I S} {ls : List (Line L I)}

/-- An instruction that does not jump. -/
def Straight (M : Machine L I S) : Line L I → Prop
  | .label _ => False
  | .ins i => ∀ s c, M.step i s = some c → c.2 = none

/-- Code without jumps defines no labels. -/
theorem Straight.defines {P : L → Prop} {m : Emit E L I α} (h : Emit.Fixed M.Straight m) (e : E) :
    Emit.Lines (Line.Defines P) m e := by
  refine (h.lines e).mono fun line hline => ?_
  cases line with
  | label l => exact hline.elim
  | ins i => trivial

variable [DecidableEq L]

/-- A text without jumps runs to its end. -/
theorem exec_straight (hls : ∀ l ∈ ls, M.Straight l) {s : S} {c : S × Option L}
    (h : M.exec ls (s, none) = some c) : c.2 = none := by
  induction ls generalizing s with
  | nil =>
    cases h
    rfl
  | cons line ls ih =>
    obtain ⟨⟨s₁, w⟩, hline, hrest⟩ := Option.bind_eq_some_iff.1 h
    have hfirst := hls line List.mem_cons_self
    cases line with
    | label l => exact hfirst.elim
    | ins i =>
      simp only [execLine] at hline
      split at hline
      · obtain rfl : w = none := hfirst _ _ hline
        exact ih (fun l hl => hls l (List.mem_cons_of_mem _ hl)) hrest
      · cases hline

/-- An emission of one text without jumps acts on the states of the machine, and so does each of its
copies. -/
theorem Straight.runs_bind {m : Emit E L I α} (hm : Emit.Fixed M.Straight m) :
    ∃ (a : α) (run : S → Option S), (∀ e, (m e).val = a) ∧
      ∀ {β : Type} (f : α → Emit E L I β) (e : E) (s : S) (Q : β → E → S × Option L → Prop),
        M.Runs (m >>= f) e (s, none) Q ↔
          ∃ s', run s = some s' ∧ M.Runs (f a) (m e).st (s', none) Q := by
  obtain ⟨a, ls, hls, h⟩ := hm
  refine ⟨a, fun s => (M.exec ls (s, none)).map Prod.fst, fun e => (h e).1, fun f e s Q => ?_⟩
  rw [Machine.runs_bind, Runs, (h e).1, (h e).2]
  cases hexec : M.exec ls (s, none) with
  | none => simp [hexec]
  | some c =>
    obtain ⟨s', w⟩ := c
    obtain rfl : w = none := exec_straight hls hexec
    simp [hexec]

/-! ## Skipping and leaving -/

/-- The step of an instruction at the start of a text. -/
theorem exec_ins {i : I} {s : S} {c : S × Option L}
    (henc : M.encodable i = true) (hstep : M.step i s = some c) :
    M.exec (.ins i :: ls) (s, none) = M.exec ls c := by
  rw [exec, execLine, if_pos henc]
  exact congrArg (·.bind (M.exec ls)) hstep

/-- A text that runs can be encoded. -/
theorem encodable_of_exec {c c' : S × Option L} (h : M.exec ls c = some c')
    {i : I} (hi : .ins i ∈ ls) : M.encodable i = true := by
  by_contra henc
  rw [exec_eq_none_of_mem M hi (Bool.not_eq_true _ ▸ henc)] at h
  cases h

namespace Straight

variable {first second : Emit E L I Unit} {e : E} {s : S}

/-- Control that looks for a label passes over a text without jumps that can be run. -/
theorem runs_wanted (h : Emit.Fixed M.Straight first) {Q : Unit → E → S × Option L → Prop}
    (hruns : M.Runs first e (s, none) Q) (s' : S) (l : L) :
    M.Runs first e (s', some l) fun _ _ c => c = (s', some l) := by
  obtain ⟨c, hc, -⟩ := hruns
  exact ⟨_, M.exec_pass s' (fun _ => encodable_of_exec hc) fun hl => h.lines e _ hl, rfl⟩

/-- Behind a jump to `l` that has been made or not, one of two texts is run before control leaves
for `x`. -/
theorem runs_either (hfirst : Emit.Fixed M.Straight first) (hsecond : Emit.Fixed M.Straight second)
    {jump : L → I} (henc : ∀ l, M.encodable (jump l) = true)
    (hjump : ∀ l s, M.step (jump l) s = some (s, some l)) {R R' : S → Prop}
    (h : ∀ e, M.Runs first e (s, none) fun _ _ c => c.2 = none ∧ R c.1)
    (h' : ∀ e, M.Runs second e (s, none) fun _ _ c => c.2 = none ∧ R' c.1) {l done x : L}
    (hne : done ≠ l) (taken : Bool) :
    M.Runs (do
        first
        Emit.line (.ins (jump done))
        Emit.line (.label l)
        second
        Emit.line (.label done)
        Emit.line (.ins (jump x))) e (s, if taken then some l else none) fun _ _ c =>
      c.2 = some x ∧ if taken then R' c.1 else R c.1 := by
  rw [Machine.runs_bind]
  cases taken with
  | true =>
    refine (runs_wanted hfirst (h e) s l).mono ?_
    rintro - e₁ - rfl
    simp only [Machine.runs_bind, runs_ins_wanted, runs_label]
    refine ⟨henc done, (h' e₁).mono ?_⟩
    rintro - e₂ ⟨t, w⟩ ⟨rfl, ht⟩
    simp [henc, hjump, ht]
  | false =>
    refine (h e).mono ?_
    rintro - e₁ ⟨t, w⟩ ⟨rfl, ht⟩
    simp only [Machine.runs_bind, runs_ins, henc, hjump, Option.some.injEq, exists_eq_left',
      runs_label, if_neg hne, true_and]
    refine (runs_wanted hsecond (h' e₁) t done).mono ?_
    rintro - e₂ - rfl
    simp [henc, hjump, ht]

end Straight

end Machine

/-- A text with a check at its end: behind the body and the check control either enters the code
that leaves, or looks for the label `onward`, which the rest follows. -/
structure Guarded (L I S : Type) where
  body : List (Line L I)
  check : S → S
  leave : List (Line L I)
  onward : L
  rest : List (Line L I)

namespace Guarded

variable [DecidableEq L] (M : Machine L I S) (g : Guarded L I S)

/-- The text behind the check. -/
def tail : List (Line L I) := g.leave ++ .label g.onward :: g.rest

/-- A run from `c` that comes to the check in `s` and, where the check lets it go on, ends in `s'`
looking for a label or for none. -/
structure GoesOn (c : S × Option L) (s s' : S) (wanted : Option L) : Prop where
  body : M.exec g.body c = some (s, none)
  after : M.exec g.tail (g.check s, some g.onward) = some (s', wanted)

/-- The run that goes on from a configuration. -/
def outlook (c : S × Option L) : Option (S × S × Option L) :=
  (M.exec g.body c).bind fun d =>
    if d.2 = none then (M.exec g.tail (g.check d.1, some g.onward)).map (d.1, ·) else none

variable {M g} {c : S × Option L} {s s' t : S} {wanted : Option L} {x : L}

theorem exists_goesOn {f : S × S × Option L → β} {b : β} (h : (g.outlook M c).map f = some b) :
    ∃ s s' wanted, g.GoesOn M c s s' wanted ∧ f (s, s', wanted) = b := by
  obtain ⟨o, hout, hf⟩ := Option.map_eq_some_iff.1 h
  obtain ⟨⟨s, w⟩, hbody, hrest⟩ := Option.bind_eq_some_iff.1 hout
  split at hrest
  case isTrue hnone =>
    obtain ⟨d, hafter, rfl⟩ := Option.map_eq_some_iff.1 hrest
    cases hnone
    exact ⟨s, d.1, d.2, ⟨hbody, hafter⟩, hf⟩
  case isFalse => cases hrest

/-- Control that looks for the label finds the rest. -/
theorem GoesOn.rest (h : g.GoesOn M c s s' wanted) (hout : .label g.onward ∉ g.leave) :
    M.exec g.rest (g.check s, none) = some (s', wanted) := by
  have hafter := h.after
  have henc : ∀ i, .ins i ∈ g.leave → M.encodable i = true := by
    intro i hi
    exact Machine.encodable_of_exec hafter (List.mem_append_left _ hi)
  rw [tail, M.exec_append, M.exec_pass _ henc hout] at hafter
  simpa [Machine.exec, Machine.execLine] using hafter

/-- Control that leaves for another label does not come back to the rest. -/
theorem GoesOn.leave (h : g.GoesOn M c s s' wanted)
    (hleave : M.exec g.leave (g.check s, none) = some (t, some x)) (hx : x ≠ g.onward)
    (hout : .label x ∉ g.rest) : M.exec g.tail (g.check s, none) = some (t, some x) := by
  have hne : ¬ (some x = some g.onward) := fun h => hx (Option.some.inj h)
  have henc : ∀ i, .ins i ∈ g.rest → M.encodable i = true := by
    intro i hi
    exact Machine.encodable_of_exec h.after
      (List.mem_append_right _ (List.mem_cons_of_mem _ hi))
  rw [tail, M.exec_append, hleave, Option.bind_some, Machine.exec, Machine.execLine, if_neg hne]
  exact M.exec_pass t henc hout

end Guarded

end Asm
