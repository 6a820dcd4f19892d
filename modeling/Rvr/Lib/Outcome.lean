import Mathlib

/-!
# Computations that return, fail or panic

A Rust function of type `Result<T, E>` has a third way to end: it can panic, because an index is out
of range or an addition overflows.  `Outcome` keeps the three apart, so that "never panics" is a
statement about the value of a function.  The operations that can panic are `index`, `slice` and the
word operations `add` and `mul`; loops over a list are `traverse`.
-/

/-- How a fallible computation ends. -/
inductive Outcome (ε α : Type)
  | ok (a : α)
  | err (e : ε)
  | panic
  deriving DecidableEq, Repr

namespace Outcome

variable {ε α β : Type}

/-- The continuation runs on a returned value; errors and panics are passed on. -/
def andThen (x : Outcome ε α) (f : α → Outcome ε β) : Outcome ε β :=
  match x with
  | ok a => f a
  | err e => err e
  | panic => panic

instance : Monad (Outcome ε) where
  pure := ok
  bind := andThen

@[simp] theorem pure_eq (a : α) : (pure a : Outcome ε α) = ok a := rfl

@[simp] theorem ok_bind (a : α) (f : α → Outcome ε β) : (ok a >>= f) = f a := rfl

@[simp] theorem err_bind (e : ε) (f : α → Outcome ε β) : (err e >>= f) = err e := rfl

@[simp] theorem panic_bind (f : α → Outcome ε β) : ((panic : Outcome ε α) >>= f) = panic := rfl

variable {f : α → Outcome ε β} {x : Outcome ε α}

theorem bind_eq_ok {b : β} :
    x >>= f = ok b ↔ ∃ a, x = ok a ∧ f a = ok b := by
  cases x <;> simp

theorem bind_eq_panic :
    x >>= f = panic ↔ x = panic ∨ ∃ a, x = ok a ∧ f a = panic := by
  cases x <;> simp

/-- A step that does not panic leaves the panics of the rest. -/
theorem bind_ne_panic (hx : x ≠ panic) (hf : ∀ a, x = ok a → f a ≠ panic) : x >>= f ≠ panic := by
  rw [ne_eq, bind_eq_panic]
  rintro (h | ⟨a, ha, h⟩)
  · exact hx h
  · exact hf a ha h

/-- Convert the error, as `?` does. -/
def mapErr {ε' : Type} (f : ε → ε') : Outcome ε α → Outcome ε' α
  | ok a => ok a
  | err e => err (f e)
  | panic => panic

theorem mapErr_eq_ok {ε' : Type} {f : ε → ε'} {a : α} :
    x.mapErr f = ok a ↔ x = ok a := by
  cases x <;> simp [mapErr]

theorem guard_eq_panic {c : Prop} [Decidable c] {e : ε} :
    (if c then err e else x) = panic ↔ ¬ c ∧ x = panic := by
  split_ifs with hc <;> simp [hc]

theorem guard_eq_ok {c : Prop} [Decidable c] {e : ε} {a : α} :
    (if c then err e else x) = ok a ↔ ¬ c ∧ x = ok a := by
  split_ifs with hc <;> simp [hc]

/-- The computation returns a value. -/
def Returns (x : Outcome ε α) : Prop := ∃ a, x = ok a

theorem Returns.ne_panic (h : x.Returns) : x ≠ panic := by
  obtain ⟨a, rfl⟩ := h
  intro hpanic
  cases hpanic

theorem returns_ok (a : α) : (ok a : Outcome ε α).Returns := ⟨a, rfl⟩

theorem Returns.bind (hx : x.Returns) (hf : ∀ a, x = ok a → (f a).Returns) : (x >>= f).Returns := by
  obtain ⟨a, rfl⟩ := hx
  exact hf a rfl

/-- The computation returns or panics. -/
def Errless (x : Outcome ε α) : Prop := ∀ e, x ≠ err e

theorem errless_ok (a : α) : (ok a : Outcome ε α).Errless := by
  intro e h
  cases h

theorem errless_panic : (panic : Outcome ε α).Errless := by
  intro e h
  cases h

theorem Errless.bind (hx : x.Errless) (hf : ∀ a, (f a).Errless) : (x >>= f).Errless := by
  cases x with
  | ok a => exact hf a
  | err e => exact absurd rfl (hx e)
  | panic => exact errless_panic

/-! ## Operations that can panic -/

/-- `a + b` on `w`-bit words, with overflow checked. -/
def add (w a b : ℕ) : Outcome ε ℕ := if a + b < 2 ^ w then ok (a + b) else panic

/-- `a * b` on `w`-bit words, with overflow checked. -/
def mul (w a b : ℕ) : Outcome ε ℕ := if a * b < 2 ^ w then ok (a * b) else panic

/-- `l[i]`. -/
def index (l : List α) (i : ℕ) : Outcome ε α :=
  match l[i]? with
  | some a => ok a
  | none => panic

/-- `l[start..stop]`. -/
def slice (l : List α) (start stop : ℕ) : Outcome ε (List α) :=
  if start ≤ stop ∧ stop ≤ l.length then ok ((l.drop start).take (stop - start)) else panic

theorem add_of_lt {w a b : ℕ} (h : a + b < 2 ^ w) : (add w a b : Outcome ε ℕ) = ok (a + b) :=
  if_pos h

theorem add_of_le {w a b : ℕ} (h : 2 ^ w ≤ a + b) : (add w a b : Outcome ε ℕ) = panic :=
  if_neg (Nat.not_lt.2 h)

theorem add_eq_ok {w a b c : ℕ} : (add w a b : Outcome ε ℕ) = ok c ↔ a + b < 2 ^ w ∧ a + b = c := by
  unfold add
  split_ifs with h <;> simp [h]

theorem add_eq_panic {w a b : ℕ} : (add w a b : Outcome ε ℕ) = panic ↔ 2 ^ w ≤ a + b := by
  unfold add
  split_ifs with h <;> simp <;> omega

theorem errless_add (w a b : ℕ) : (add w a b : Outcome ε ℕ).Errless := by
  unfold add
  split_ifs
  · exact errless_ok _
  · exact errless_panic

theorem errless_mul (w a b : ℕ) : (mul w a b : Outcome ε ℕ).Errless := by
  unfold mul
  split_ifs
  · exact errless_ok _
  · exact errless_panic

theorem mul_of_lt {w a b : ℕ} (h : a * b < 2 ^ w) : (mul w a b : Outcome ε ℕ) = ok (a * b) :=
  if_pos h

variable {l : List α}

theorem index_of_getElem? {i : ℕ} {a : α} (h : l[i]? = some a) :
    (index l i : Outcome ε α) = ok a := by
  rw [index, h]

theorem index_of_lt {i : ℕ} (h : i < l.length) :
    (index l i : Outcome ε α) = ok l[i] :=
  index_of_getElem? (List.getElem?_eq_getElem h)

theorem returns_index {i : ℕ} (h : i < l.length) :
    (index l i : Outcome ε α).Returns := ⟨_, index_of_lt h⟩

theorem slice_of_le {start stop : ℕ} (h : start ≤ stop) (h' : stop ≤ l.length) :
    (slice l start stop : Outcome ε (List α)) = ok ((l.drop start).take (stop - start)) :=
  if_pos ⟨h, h'⟩

/-! ## Loops -/

/-- Run a computation on every element, in order, and collect the results. -/
def traverse (f : α → Outcome ε β) : List α → Outcome ε (List β)
  | [] => ok []
  | a :: as => do
    let b ← f a
    let bs ← traverse f as
    ok (b :: bs)

@[simp] theorem traverse_nil (f : α → Outcome ε β) : traverse f [] = ok [] := rfl

variable {as : List α}

theorem traverse_eq_ok {bs : List β} :
    traverse f as = ok bs ↔ List.Forall₂ (fun a b => f a = ok b) as bs := by
  induction as generalizing bs with
  | nil => cases bs <;> simp
  | cons a as ih =>
    simp only [traverse, bind_eq_ok, ih]
    constructor
    · rintro ⟨b, hb, bs', hbs, h⟩
      cases h
      exact .cons hb hbs
    · rintro (_ | ⟨hb, hbs⟩)
      exact ⟨_, hb, _, hbs, rfl⟩

/-- A loop whose steps return values given by a function returns the list of them. -/
theorem traverse_of_forall {g : α → β} (h : ∀ a ∈ as, f a = ok (g a)) :
    traverse f as = ok (as.map g) := by
  rw [traverse_eq_ok, List.forall₂_map_right_iff, List.forall₂_same]
  exact h

theorem returns_traverse (h : ∀ a ∈ as, (f a).Returns) :
    (traverse f as).Returns := by
  induction as with
  | nil => exact returns_ok _
  | cons a as ih =>
    refine (h a List.mem_cons_self).bind fun b _ => ?_
    exact (ih fun a ha => h a (List.mem_cons_of_mem _ ha)).bind fun bs _ => returns_ok _

theorem errless_traverse (h : ∀ a ∈ as, (f a).Errless) :
    (traverse f as).Errless := by
  induction as with
  | nil => exact errless_ok _
  | cons a as ih =>
    refine (h a List.mem_cons_self).bind fun b => ?_
    exact (ih fun a ha => h a (List.mem_cons_of_mem _ ha)).bind fun bs => errless_ok _

/-- A loop panics at its first element that does not return, if that one panics. -/
theorem traverse_eq_panic :
    traverse f as = panic ↔
      ∃ before a after, as = before ++ a :: after ∧ (∀ a ∈ before, ∃ b, f a = ok b) ∧
        f a = panic := by
  induction as with
  | nil => simp
  | cons a as ih =>
    simp only [traverse, bind_eq_panic, ih]
    constructor
    · rintro (h | ⟨b, hb, ⟨before, a', after, rfl, hbefore, h⟩ | ⟨bs, -, h⟩⟩)
      · exact ⟨[], a, as, rfl, by simp, h⟩
      · refine ⟨a :: before, a', after, rfl, ?_, h⟩
        intro c hc
        rcases List.mem_cons.1 hc with rfl | hc
        · exact ⟨b, hb⟩
        · exact hbefore c hc
      · cases h
    · rintro ⟨_ | ⟨c, before⟩, a', after, heq, hbefore, h⟩
      · cases heq
        exact .inl h
      · cases heq
        obtain ⟨b, hb⟩ := hbefore a List.mem_cons_self
        exact .inr ⟨b, hb, .inl ⟨before, a', after, rfl,
          fun c hc => hbefore c (List.mem_cons_of_mem _ hc), h⟩⟩

/-- Without errors, a loop panics if any of its steps does. -/
theorem traverse_eq_panic_iff_exists (herr : ∀ a ∈ as, (f a).Errless) :
    traverse f as = panic ↔ ∃ a ∈ as, f a = panic := by
  induction as with
  | nil => simp
  | cons a as ih =>
    have ih := ih fun a ha => herr a (List.mem_cons_of_mem _ ha)
    have hhead := herr a List.mem_cons_self
    simp only [traverse, bind_eq_panic, ih, List.mem_cons, exists_eq_or_imp]
    cases h : f a with
    | ok b => simp
    | err e => exact absurd h (hhead e)
    | panic => simp

end Outcome
