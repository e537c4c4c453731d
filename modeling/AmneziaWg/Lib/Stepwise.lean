import Mathlib.Data.List.Basic

/-!
# Fallible steps without rollback

A step changes the state and may report an error; `run` performs steps in order
and stops at the first error, keeping what was done so far. `run_error` says what
an unsuccessful run leaves behind.
-/

namespace Stepwise

variable {σ ι ε : Type*}

/-- The state that a step leaves, and its error if it failed. -/
@[ext]
structure Outcome (σ ε : Type*) where
  state : σ
  err : Option ε

/-- Go on if there was no error. -/
def Outcome.andThen (o : Outcome σ ε) (f : σ → Outcome σ ε) : Outcome σ ε :=
  match o.err with
  | none => f o.state
  | some _ => o

/-- Perform the steps in order, up to the first error. -/
def run (step : ι → σ → Outcome σ ε) : List ι → σ → Outcome σ ε
  | [], s => ⟨s, none⟩
  | a :: as, s => (step a s).andThen (run step as)

/-- The states that the steps leave, errors ignored. -/
def written (step : ι → σ → Outcome σ ε) (as : List ι) (s : σ) : σ :=
  as.foldl (fun s a => (step a s).state) s

variable {o : Outcome σ ε}

theorem Outcome.andThen_of_none (h : o.err = none) (f : σ → Outcome σ ε) :
    o.andThen f = f o.state := by
  rw [Outcome.andThen, h]

variable {e : ε}

theorem Outcome.andThen_of_some (h : o.err = some e) (f : σ → Outcome σ ε) : o.andThen f = o := by
  rw [Outcome.andThen, h]

/-- An error after two stages is an error of the first or of the second. -/
theorem Outcome.andThen_error {f : σ → Outcome σ ε} (h : (o.andThen f).err = some e) :
    (o.err = some e ∧ o.andThen f = o) ∨ (o.err = none ∧ o.andThen f = f o.state) := by
  cases ho : o.err with
  | none => exact .inr ⟨rfl, andThen_of_none ho f⟩
  | some e' =>
    rw [andThen_of_some ho, ho] at h
    exact .inl ⟨h, andThen_of_some ho f⟩

theorem Outcome.andThen_success {f : σ → Outcome σ ε} (h : (o.andThen f).err = none) :
    o.err = none ∧ o.andThen f = f o.state := by
  cases ho : o.err with
  | none => exact ⟨rfl, andThen_of_none ho f⟩
  | some e =>
    rw [andThen_of_some ho, ho] at h
    cases h

/-- A run without error leaves all writes. -/
theorem run_success {step : ι → σ → Outcome σ ε} {as : List ι} {s : σ}
    (h : (run step as s).err = none) : (run step as s).state = written step as s := by
  induction as generalizing s with
  | nil => rfl
  | cons a as ih =>
    rcases Outcome.andThen_success h with ⟨-, heq⟩
    rw [run, heq] at h ⊢
    exact ih h

/-- A run with an error leaves the writes up to and including the step that failed. -/
theorem run_error {step : ι → σ → Outcome σ ε} {as : List ι} {s : σ}
    (h : (run step as s).err = some e) :
    ∃ done a rest, as = done ++ a :: rest ∧ (run step done s).err = none ∧
      (step a (written step done s)).err = some e ∧
      (run step as s).state = written step (done ++ [a]) s := by
  induction as generalizing s with
  | nil => cases h
  | cons a as ih =>
    rcases Outcome.andThen_error h with ⟨herr, heq⟩ | ⟨hok, heq⟩
    · -- the first step failed
      refine ⟨[], a, as, rfl, rfl, herr, ?_⟩
      rw [run, heq]
      rfl
    · -- a later one did
      rw [run, heq] at h
      rcases ih h with ⟨done, b, rest, rfl, hdone, hb, hstate⟩
      refine ⟨a :: done, b, rest, rfl, ?_, hb, ?_⟩
      · rw [run, Outcome.andThen_of_none hok]
        exact hdone
      · rw [run, heq]
        exact hstate

end Stepwise
