import Mathlib.Data.List.Basic

/-!
# Replies in several messages

A reply that does not fit one message is given in several. Between two calls the
server only keeps a cursor; a call reads it and answers with a last message, with a
message and a new cursor, or with an error.

* **Model**: `Reply`, `serve`, `Reached`.
* **Rules**: `serve_finishes` if every call gives the next part of what is left, and
  gives some of it; `serve_stuck` if a call leaves the cursor where it is.
-/

namespace Paging

variable {μ γ ε α : Type*}

/-- The answer of one call. -/
inductive Reply (μ γ ε : Type*) where
  | failed (e : ε)
  | last (m : μ)
  | more (m : μ) (c : γ)

/-- How a number of calls ends. -/
inductive Ending (γ ε : Type*) where
  | failed (e : ε)
  | finished
  | unfinished (c : γ)

/-- At most so many calls, from the `k`-th on: the messages, and how it ends. -/
def serve (step : ℕ → γ → Reply μ γ ε) : ℕ → ℕ → γ → List μ × Ending γ ε
  | 0, _, c => ([], .unfinished c)
  | n + 1, k, c =>
    match step k c with
    | .failed e => ([], .failed e)
    | .last m => ([m], .finished)
    | .more m c =>
      let (ms, ending) := serve step n (k + 1) c
      (m :: ms, ending)

/-- The `k`-th call is made with this cursor. -/
inductive Reached (step : ℕ → γ → Reply μ γ ε) (start : γ) : ℕ → γ → Prop
  | start : Reached step start 0 start
  | more {k : ℕ} {c c' : γ} {m : μ} : Reached step start k c → step k c = .more m c' →
      Reached step start (k + 1) c'

variable {step : ℕ → γ → Reply μ γ ε}

theorem serve_last {k : ℕ} {c : γ} {m : μ} (h : step k c = .last m) (n : ℕ) :
    serve step (n + 1) k c = ([m], .finished) := by
  rw [serve, h]

theorem serve_more {k : ℕ} {c c' : γ} {m : μ} (h : step k c = .more m c') (n : ℕ) :
    serve step (n + 1) k c =
      (m :: (serve step n (k + 1) c').1, (serve step n (k + 1) c').2) := by
  rw [serve, h]

/-- What a call does if it gives the next part of what is left: all of it, or some. -/
def Advances (step : ℕ → γ → Reply μ γ ε) (inv : ℕ → γ → Prop) (items : μ → List α)
    (left : γ → List α) : Prop :=
  ∀ k c, inv k c →
    (∃ m, step k c = .last m ∧ items m = left c) ∨
    ∃ m c', step k c = .more m c' ∧ inv (k + 1) c' ∧ left c = items m ++ left c' ∧ items m ≠ []

variable {inv : ℕ → γ → Prop} {items : μ → List α} {left : γ → List α}

theorem Advances.more (hstep : Advances step inv items left) {k : ℕ} {c c' : γ} {m : μ}
    (hc : inv k c) (hmore : step k c = .more m c') :
    inv (k + 1) c' ∧ left c = items m ++ left c' ∧ items m ≠ [] := by
  rcases hstep k c hc with ⟨m', hlast, -⟩ | ⟨m', c'', hmore', hc', hrest⟩
  · cases hlast.symm.trans hmore
  · cases hmore'.symm.trans hmore
    exact ⟨hc', hrest⟩

/-- Every call is made with a cursor that meets the invariant. -/
theorem Advances.reached (hstep : Advances step inv items left) {start c : γ} {k : ℕ}
    (hstart : inv 0 start) (h : Reached step start k c) : inv k c := by
  induction h with
  | start => exact hstart
  | more _ hmore ih => exact (hstep.more ih hmore).1

/-- Finitely many calls give everything, once and in order. -/
theorem serve_finishes (hstep : Advances step inv items left) (k : ℕ) {c : γ} (hc : inv k c) :
    ∃ n ≤ (left c).length + 1, ∃ ms,
      serve step n k c = (ms, .finished) ∧ ms.flatMap items = left c := by
  -- every unfinished call shortens what is left
  induction hlen : (left c).length using Nat.strongRecOn generalizing k c with
  | _ len ih =>
    rcases hstep k c hc with ⟨m, hlast, hitems⟩ | ⟨m, c', hmore, hc', hleft, hne⟩
    · refine ⟨1, Nat.le_add_left .., [m], serve_last hlast 0, ?_⟩
      rw [List.flatMap_singleton, hitems]
    · have hlength : (left c).length = (items m).length + (left c').length := by
        rw [hleft, List.length_append]
      have hpos : 0 < (items m).length := List.length_pos_of_ne_nil hne
      rcases ih (left c').length (by omega) (k + 1) hc' rfl with ⟨n, hn, ms, hserve, hall⟩
      refine ⟨n + 1, by omega, m :: ms, ?_, ?_⟩
      · rw [serve_more hmore, hserve]
      · rw [List.flatMap_cons, hall, hleft]

/-- If a call leaves the cursor where it is, no number of calls is enough. -/
theorem serve_stuck {c : γ} (h : ∀ k, ∃ m, step k c = .more m c) (n k : ℕ) :
    (serve step n k c).2 = .unfinished c := by
  induction n generalizing k with
  | zero => rfl
  | succ n ih =>
    rcases h k with ⟨m, hstep⟩
    rw [serve_more hstep]
    exact ih (k + 1)

end Paging
