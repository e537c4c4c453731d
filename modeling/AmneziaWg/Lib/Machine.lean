import Mathlib.Logic.Relation

/-!
# Labelled machines

Two shapes of state machine and the induction rules that go with them:

* `Machine`: a labelled step that may be disabled (`none`). A run is a list of
  labels. `run_invariant` packages "one step preserves it, so every run does";
  `runs_invariant` is the same rule for runs whose steps all meet a side
  condition on the state and the label.
* `Mealy`: a total step with an output per input; `after_invariant` is its rule.
-/

universe u v w

/-- A labelled machine: `step s l` is `none` when `l` is not enabled at `s`. -/
structure Machine (σ : Type u) (ι : Type v) where
  step : σ → ι → Option σ

namespace Machine

variable {σ : Type u} {ι : Type v} (M : Machine σ ι)

/-- Run a list of labels from a state. -/
def run : σ → List ι → Option σ
  | s, [] => some s
  | s, l :: ls => (M.step s l).bind fun s' => run s' ls

@[simp] theorem run_nil (s : σ) : M.run s [] = some s := rfl

theorem run_cons (s : σ) (l : ι) (ls : List ι) :
    M.run s (l :: ls) = (M.step s l).bind fun s' => M.run s' ls := rfl

/-- Every step of the run `ls` from `s` meets `ok` in the state it is taken in. -/
def AllSteps (ok : σ → ι → Prop) : σ → List ι → Prop
  | _, [] => True
  | s, l :: ls => ok s l ∧ ∀ s', M.step s l = some s' → AllSteps ok s' ls

/-- A side condition that can be tested can be tested along a run. -/
def decidableAllSteps {ok : σ → ι → Prop} (dec : ∀ s l, Decidable (ok s l)) :
    ∀ s ls, Decidable (M.AllSteps ok s ls)
  | _, [] => .isTrue trivial
  | s, l :: ls =>
    match dec s l with
    | .isFalse h => .isFalse fun hall => h hall.1
    | .isTrue h =>
      match hstep : M.step s l with
      | none => .isTrue ⟨h, fun _ hs' => nomatch hstep.symm.trans hs'⟩
      | some t =>
        match decidableAllSteps dec t ls with
        | .isTrue ht => .isTrue ⟨h, fun _ hs' => Option.some.inj (hstep.symm.trans hs') ▸ ht⟩
        | .isFalse ht => .isFalse fun hall => ht (hall.2 t hstep)

/-- A run splits at its first step. -/
theorem run_cons_some {s s' : σ} {l : ι} {ls : List ι} (h : M.run s (l :: ls) = some s') :
    ∃ t, M.step s l = some t ∧ M.run t ls = some s' := by
  rw [run_cons] at h
  exact Option.bind_eq_some_iff.mp h

/-- A run splits anywhere. -/
theorem run_append_some {s s' : σ} {ls ls' : List ι} (h : M.run s (ls ++ ls') = some s') :
    ∃ t, M.run s ls = some t ∧ M.run t ls' = some s' := by
  induction ls generalizing s with
  | nil => exact ⟨s, rfl, h⟩
  | cons l ls ih =>
    obtain ⟨u, hstep, hrest⟩ := M.run_cons_some h
    obtain ⟨t, hfirst, hlast⟩ := ih hrest
    exact ⟨t, by rw [run_cons, hstep]; exact hfirst, hlast⟩

/-- Invariant induction for runs whose steps all meet `ok`. -/
theorem runs_invariant {ok : σ → ι → Prop} {inv : σ → Prop}
    (hstep : ∀ s l s', inv s → ok s l → M.step s l = some s' → inv s')
    {s s' : σ} {ls : List ι} (hs : inv s) (hok : M.AllSteps ok s ls)
    (hrun : M.run s ls = some s') : inv s' := by
  induction ls generalizing s with
  | nil =>
    have hss : s = s' := by simpa using hrun
    exact hss ▸ hs
  | cons l ls ih =>
    obtain ⟨t, hst, hts⟩ := M.run_cons_some hrun
    exact ih (hstep s l t hs hok.1 hst) (hok.2 t hst) hts

/-- The side condition that every step meets. -/
theorem allSteps_true (s : σ) (ls : List ι) : M.AllSteps (fun _ _ => True) s ls := by
  induction ls generalizing s with
  | nil => trivial
  | cons l ls ih => exact ⟨trivial, fun s' _ => ih s'⟩

/-- A condition on the inputs alone. -/
theorem allSteps_of_forall {ok : ι → Prop} (s : σ) {ls : List ι} (h : ∀ l ∈ ls, ok l) :
    M.AllSteps (fun _ => ok) s ls := by
  induction ls generalizing s with
  | nil => trivial
  | cons l ls ih =>
    obtain ⟨hl, hls⟩ := List.forall_mem_cons.mp h
    exact ⟨hl, fun s' _ => ih s' hls⟩

/-- Invariant induction over all runs. -/
theorem run_invariant {inv : σ → Prop} (hstep : ∀ s l s', inv s → M.step s l = some s' → inv s')
    {s s' : σ} {ls : List ι} (hs : inv s) (hrun : M.run s ls = some s') : inv s' :=
  M.runs_invariant (fun s l s' h _ => hstep s l s' h) hs (M.allSteps_true s ls) hrun

end Machine

/-- A machine that answers every input. -/
structure Mealy (σ : Type u) (ι : Type v) (ο : Type w) where
  step : σ → ι → σ × ο

namespace Mealy

variable {σ : Type u} {ι : Type v} {ο : Type w}

/-- The state after a sequence of inputs. -/
def after (M : Mealy σ ι ο) : σ → List ι → σ
  | s, [] => s
  | s, i :: is => M.after (M.step s i).1 is

@[simp] theorem after_nil (M : Mealy σ ι ο) (s : σ) : M.after s [] = s := rfl

@[simp] theorem after_cons (M : Mealy σ ι ο) (s : σ) (i : ι) (is : List ι) :
    M.after s (i :: is) = M.after (M.step s i).1 is := rfl

/-- Invariant induction over input sequences. -/
theorem after_invariant (M : Mealy σ ι ο) {inv : σ → Prop}
    (hstep : ∀ s i, inv s → inv (M.step s i).1)
    {s : σ} (hs : inv s) (is : List ι) : inv (M.after s is) := by
  induction is generalizing s with
  | nil => exact hs
  | cons i is ih => exact ih (hstep s i hs)

end Mealy
