import Mathlib.Algebra.BigOperators.Group.List.Basic
import Mathlib.Tactic.Abel

/-!
# Calls cut into sections

A call that runs beside others is cut into sections, each of them one step on the
shared state. Between two sections the others may do anything, so every section
starts from a state of its own; `Chained` says that they did nothing.

* `Runs`: the sections of a call from one program point to another.
* `Runs.sections`: what holds of every section of a run that can still reach its end.
* `Runs.net_eq`: what the sections change in total, from what the call holds at each point.
* `Chained.preserved`, `Chained.net_eq`: the same for a run without others.
-/

namespace Sections

variable {π σ : Type*}

/-- One section: the program point, and the shared state before and after it. -/
structure Section (π σ : Type*) where
  pc : π
  before : σ
  after : σ

/-- The sections from one program point to another; `step` is `none` once the call has
returned. -/
inductive Runs (step : π → σ → Option (σ × π)) : π → List (Section π σ) → π → Prop
  | nil (pc : π) : Runs step pc [] pc
  | cons {pc pc' last : π} {s s' : σ} {rest : List (Section π σ)}
      (h : step pc s = some (s', pc')) (hrest : Runs step pc' rest last) :
      Runs step pc (⟨pc, s, s'⟩ :: rest) last

/-- Nothing happens between the sections. -/
def Chained : σ → List (Section π σ) → σ → Prop
  | s, [], s' => s = s'
  | s, e :: rest, s' => e.before = s ∧ Chained e.after rest s'

/-- What the sections change in a count, in total. -/
def net (count : σ → ℤ) (run : List (Section π σ)) : ℤ :=
  (run.map fun e => count e.after - count e.before).sum

/-- Run a call alone, for at most so many sections. -/
def alone (step : π → σ → Option (σ × π)) : ℕ → π → σ → List (Section π σ) × σ × π
  | 0, pc, s => ([], s, pc)
  | fuel + 1, pc, s =>
    match step pc s with
    | none => ([], s, pc)
    | some (s', pc') =>
      let r := alone step fuel pc' s'
      (⟨pc, s, s'⟩ :: r.1, r.2.1, r.2.2)

variable {step : π → σ → Option (σ × π)}

variable {pc : π} {run : List (Section π σ)}

/-- A section of a run leads to a point from which the end is reached. -/
theorem Runs.sections {Q : Section π σ → Prop} {last : π}
    (hstep : ∀ pc s s' pc' rest, step pc s = some (s', pc') → Runs step pc' rest last →
      Q ⟨pc, s, s'⟩) (h : Runs step pc run last) : ∀ e ∈ run, Q e := by
  induction h with
  | nil pc =>
    intro e he
    cases he
  | cons h hrest ih =>
    intro e he
    rcases List.mem_cons.mp he with rfl | he
    · exact hstep _ _ _ _ _ h hrest
    · exact ih hstep e he

/-- A call that has returned stays so. -/
theorem Runs.of_returned {last : π} (hpc : ∀ s, step pc s = none) (h : Runs step pc run last) :
    last = pc := by
  cases h with
  | nil => rfl
  | cons hstep hrest =>
    rw [hpc] at hstep
    cases hstep

/-- If every section changes the count by what the call takes or gives back, the total is
the difference of what it holds. -/
theorem Runs.net_eq {count : σ → ℤ} (held : π → ℤ) {last : π}
    (hstep : ∀ pc s s' pc', step pc s = some (s', pc') →
      count s' - count s = held pc' - held pc) (h : Runs step pc run last) :
    net count run = held last - held pc := by
  induction h with
  | nil pc => exact (sub_self _).symm
  | cons h hrest ih =>
    have hfirst := hstep _ _ _ _ h
    show (_ - _) + net count _ = _
    rw [ih, hfirst]
    abel

variable {s : σ}

/-- What no section changes is the same at the end. -/
theorem Chained.preserved {α : Type*} {f : σ → α} {s' : σ}
    (hkept : ∀ e ∈ run, f e.after = f e.before) (h : Chained s run s') : f s' = f s := by
  induction run generalizing s with
  | nil => exact congrArg f h.symm
  | cons e rest ih =>
    rcases List.forall_mem_cons.mp hkept with ⟨hfirst, hrest⟩
    rcases h with ⟨rfl, h⟩
    rw [ih hrest h, hfirst]

theorem Chained.net_eq {s' : σ} (h : Chained s run s') (count : σ → ℤ) :
    net count run = count s' - count s := by
  induction run generalizing s with
  | nil =>
    rw [show s = s' from h]
    exact (sub_self _).symm
  | cons e rest ih =>
    rcases h with ⟨rfl, h⟩
    show (_ - _) + net count rest = _
    rw [ih h]
    abel

theorem alone_succ {pc' : π} {s' : σ} (h : step pc s = some (s', pc')) (fuel : ℕ) :
    (alone step (fuel + 1) pc s).2 = (alone step fuel pc' s').2 := by
  rw [alone, h]

theorem alone_returned (h : step pc s = none) (fuel : ℕ) : (alone step fuel pc s).2 = (s, pc) := by
  cases fuel with
  | zero => rfl
  | succ fuel => rw [alone, h]

/-- A call that is run alone is a run without others. -/
theorem alone_runs (fuel : ℕ) (pc : π) (s : σ) :
    Runs step pc (alone step fuel pc s).1 (alone step fuel pc s).2.2 ∧
      Chained s (alone step fuel pc s).1 (alone step fuel pc s).2.1 := by
  induction fuel generalizing pc s with
  | zero => exact ⟨.nil pc, rfl⟩
  | succ fuel ih =>
    rw [alone]
    cases h : step pc s with
    | none => exact ⟨.nil pc, rfl⟩
    | some r =>
      rcases ih r.2 r.1 with ⟨hruns, hchained⟩
      exact ⟨.cons h hruns, rfl, hchained⟩

end Sections
