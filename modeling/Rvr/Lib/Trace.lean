import Mathlib

/-!
# Runs

A machine runs a list of actions.  An invariant that every action keeps holds at the end.

Some actions are events, which determine an observation of the state; the others leave the
observation alone.  Then the observation at the end of a run is what the last event made it, or what
it was at the start if there was none.
-/

namespace Trace

variable {σ α β : Type*}

/-- Run a list of actions. -/
def run (step : σ → α → σ) (s : σ) (actions : List α) : σ := actions.foldl step s

section Run

variable (step : σ → α → σ) (s : σ)

@[simp] theorem run_nil : run step s [] = s := rfl

@[simp] theorem run_append_singleton (actions : List α) (a : α) :
    run step s (actions ++ [a]) = step (run step s actions) a := by
  rw [run, List.foldl_append]
  rfl

/-- Every action of a run meets a condition in the state it is taken from. -/
def Each (step : σ → α → σ) (cond : σ → α → Prop) : σ → List α → Prop
  | _, [] => True
  | s, a :: actions => cond s a ∧ Each step cond (step s a) actions

/-- What each action keeps under a condition, a run whose actions all meet the condition keeps. -/
theorem run_induction {step : σ → α → σ} {cond : σ → α → Prop} {inv : σ → Prop}
    (hstep : ∀ s a, inv s → cond s a → inv (step s a)) {s : σ} {actions : List α} (hs : inv s)
    (heach : Each step cond s actions) : inv (run step s actions) := by
  induction actions generalizing s with
  | nil => exact hs
  | cons a actions ih =>
    obtain ⟨hcond, hrest⟩ := heach
    exact ih (hstep s a hs hcond) hrest

/-- Where a condition says exactly when an action keeps an invariant, the invariant holds in every
state of a run exactly if every action meets the condition. -/
theorem forall_run_iff_each {step : σ → α → σ} {cond : σ → α → Prop} {inv : σ → Prop}
    (hstep : ∀ s a, inv s → (inv (step s a) ↔ cond s a)) {s : σ} {actions : List α} (hs : inv s) :
    (∀ pre, pre <+: actions → inv (run step s pre)) ↔ Each step cond s actions := by
  induction actions generalizing s with
  | nil =>
    refine iff_of_true (fun pre hpre => ?_) trivial
    rw [List.prefix_nil.1 hpre]
    exact hs
  | cons a actions ih =>
    constructor
    · intro h
      have hnext : inv (step s a) := h [a] ⟨actions, rfl⟩
      refine ⟨(hstep s a hs).1 hnext, (ih hnext).1 fun pre hpre => ?_⟩
      exact h (a :: pre) (List.cons_prefix_cons.2 ⟨rfl, hpre⟩)
    · rintro ⟨hcond, hrest⟩ pre hpre
      cases pre with
      | nil => exact hs
      | cons b pre =>
        obtain ⟨rfl, htail⟩ := List.cons_prefix_cons.1 hpre
        exact (ih ((hstep s b hs).2 hcond)).2 hrest pre htail

end Run

/-- The last event among the actions set the observation to `b`. -/
def LastEventSets (step : σ → α → σ) (event : α → Prop) (val : σ → α → Option β) (s : σ)
    (actions : List α) (b : β) : Prop :=
  ∃ pre a post, actions = pre ++ a :: post ∧ event a ∧ (∀ x ∈ post, ¬ event x) ∧
    val (run step s pre) a = some b

section LastEvent

variable {step : σ → α → σ} {event : α → Prop} {val : σ → α → Option β} {s : σ}
  {actions : List α} {a : α} {b : β}

/-- Where an action of a run with a known last action can be. -/
theorem append_singleton_eq_append_cons {pre post : List α} {x : α}
    (h : actions ++ [a] = pre ++ x :: post) :
    (post = [] ∧ actions = pre ∧ a = x) ∨
      ∃ post', post = post' ++ [a] ∧ actions = pre ++ x :: post' := by
  rcases List.eq_nil_or_concat post with rfl | ⟨post', y, rfl⟩
  · obtain ⟨rfl, hx⟩ := List.append_inj' h rfl
    exact .inl ⟨rfl, rfl, by simpa using hx⟩
  · rw [List.concat_eq_append, ← List.cons_append, ← List.append_assoc] at h
    obtain ⟨hinit, hlast⟩ := List.append_inj' h rfl
    obtain rfl : a = y := by simpa using hlast
    exact .inr ⟨post', List.concat_eq_append, hinit⟩

/-- An event at the end of the run is the last one. -/
theorem lastEventSets_append_of_event (h : event a) :
    LastEventSets step event val s (actions ++ [a]) b ↔ val (run step s actions) a = some b := by
  constructor
  · rintro ⟨pre, x, post, hsplit, -, hpost, hval⟩
    obtain ⟨-, rfl, rfl⟩ | ⟨post, rfl, -⟩ := append_singleton_eq_append_cons hsplit
    · exact hval
    · exact absurd h (hpost a (by simp))
  · intro hval
    exact ⟨actions, a, [], rfl, h, by simp, hval⟩

/-- Any other action at the end of the run does not matter. -/
theorem lastEventSets_append_of_not_event (h : ¬ event a) :
    LastEventSets step event val s (actions ++ [a]) b ↔
      LastEventSets step event val s actions b := by
  constructor
  · rintro ⟨pre, x, post, hsplit, hx, hpost, hval⟩
    obtain ⟨-, -, rfl⟩ | ⟨post, rfl, hinit⟩ := append_singleton_eq_append_cons hsplit
    · exact absurd hx h
    · exact ⟨pre, x, post, hinit, hx, fun z hz => hpost z (by simp [hz]), hval⟩
  · rintro ⟨pre, x, post, rfl, hx, hpost, hval⟩
    refine ⟨pre, x, post ++ [a], by simp, hx, fun z hz => ?_, hval⟩
    rcases List.mem_append.1 hz with hz | hz
    · exact hpost z hz
    · rw [List.mem_singleton.1 hz]
      exact h

/-- The observation at the end of a run is the one that the last event set. -/
theorem observe_run_eq_some_iff (event : α → Prop) (val : σ → α → Option β) {obs : σ → Option β}
    (hkeep : ∀ x ∈ actions, ¬ event x → ∀ s, obs (step s x) = obs s)
    (hset : ∀ x ∈ actions, event x → ∀ s, obs (step s x) = val s x) (hstart : obs s = none) :
    obs (run step s actions) = some b ↔ LastEventSets step event val s actions b := by
  induction actions using List.reverseRecOn with
  | nil => simp [hstart, LastEventSets]
  | append_singleton actions a ih =>
    have ih := ih (fun x hx => hkeep x (by simp [hx])) (fun x hx => hset x (by simp [hx]))
    have ha : a ∈ actions ++ [a] := by simp
    rw [run_append_singleton]
    by_cases hevent : event a
    · rw [hset a ha hevent, lastEventSets_append_of_event hevent]
    · rw [hkeep a ha hevent, lastEventSets_append_of_not_event hevent, ih]

end LastEvent

end Trace
