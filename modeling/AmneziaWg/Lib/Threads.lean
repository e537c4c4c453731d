import Mathlib.Data.List.Perm.Basic
import Mathlib.Algebra.BigOperators.Group.List.Basic
import Mathlib.Algebra.Order.Ring.Nat

/-!
# Pools of threads

The calls in progress are a list. A step of one of them replaces it by what it has
become, or removes it when it returns. Up to order, the pool is that one call and the
others, before the step and after it; counts and concatenations over the pool follow.
-/

namespace Threads

variable {τ : Type*} {ts : List τ} {i : ℕ} {t : τ}

/-- The pool after thread `i` has become `o`, or has returned. -/
def resume (ts : List τ) (i : ℕ) (o : Option τ) : List τ :=
  match o with
  | some t => ts.set i t
  | none => ts.eraseIdx i

theorem perm_thread (h : ts[i]? = some t) : ts.Perm (t :: ts.eraseIdx i) := by
  obtain ⟨hi, rfl⟩ := List.getElem?_eq_some_iff.mp h
  exact (List.getElem_cons_eraseIdx_perm hi).symm

theorem resume_perm (h : ts[i]? = some t) (o : Option τ) :
    (resume ts i o).Perm (o.toList ++ ts.eraseIdx i) := by
  obtain ⟨hi, -⟩ := List.getElem?_eq_some_iff.mp h
  cases o with
  | none => exact List.Perm.refl _
  | some t' => exact List.set_perm_cons_eraseIdx hi t'

theorem mem_others (h : ts[i]? = some t) {u : τ} (hu : u ∈ ts.eraseIdx i) : u ∈ ts :=
  (perm_thread h).mem_iff.mpr (List.mem_cons_of_mem t hu)

/-- The other threads stay. -/
theorem mem_resume_of_ne (h : ts[i]? = some t) (o : Option τ) {u : τ} (hu : u ∈ ts) (hne : u ≠ t) :
    u ∈ resume ts i o := by
  rcases List.mem_cons.mp ((perm_thread h).mem_iff.mp hu) with heq | hother
  · exact absurd heq hne
  · exact (resume_perm h o).mem_iff.mpr (List.mem_append_right _ hother)

/-- What holds of every thread, and of what thread `i` becomes, holds afterwards. -/
theorem forall_resume {P Q : τ → Prop} (h : ts[i]? = some t) {o : Option τ}
    (hothers : ∀ u ∈ ts, P u → Q u) (hall : ∀ u ∈ ts, P u) (ho : ∀ u, o = some u → Q u) :
    ∀ u ∈ resume ts i o, Q u := by
  intro u hu
  rcases List.mem_append.mp ((resume_perm h o).mem_iff.mp hu) with hu | hu
  · exact ho u (Option.mem_toList.mp hu)
  · have hmem := mem_others h hu
    exact hothers u hmem (hall u hmem)

theorem length_resume (h : ts[i]? = some t) (o : Option τ) :
    (resume ts i o).length + 1 = ts.length + o.toList.length := by
  have hbefore := (perm_thread h).length_eq
  have hafter := (resume_perm h o).length_eq
  rw [List.length_append] at hafter
  rw [List.length_cons] at hbefore
  omega

theorem countP_resume (p : τ → Bool) (h : ts[i]? = some t) (o : Option τ) :
    (resume ts i o).countP p + [t].countP p = ts.countP p + o.toList.countP p := by
  have hbefore := (perm_thread h).countP_eq p
  have hafter := (resume_perm h o).countP_eq p
  rw [List.countP_append] at hafter
  rw [← List.singleton_append, List.countP_append] at hbefore
  omega

theorem flatMap_thread_perm {α : Type*} (f : τ → List α) (h : ts[i]? = some t) :
    (ts.flatMap f).Perm (f t ++ (ts.eraseIdx i).flatMap f) := by
  have hperm := (perm_thread h).flatMap_right f
  rwa [List.flatMap_cons] at hperm

theorem flatMap_resume_perm {α : Type*} (f : τ → List α) (h : ts[i]? = some t) (o : Option τ) :
    ((resume ts i o).flatMap f).Perm (o.toList.flatMap f ++ (ts.eraseIdx i).flatMap f) := by
  have hperm := (resume_perm h o).flatMap_right f
  rwa [List.flatMap_append] at hperm

/-- What the pool holds of `a` changes by what the one thread holds of it. -/
theorem count_flatMap_resume {α : Type*} [DecidableEq α] (f : τ → List α) (h : ts[i]? = some t)
    (o : Option τ) (a : α) :
    ((resume ts i o).flatMap f).count a + (f t).count a =
      (ts.flatMap f).count a + (o.toList.flatMap f).count a := by
  have hbefore := (flatMap_thread_perm f h).count_eq a
  have hafter := (flatMap_resume_perm f h o).count_eq a
  rw [List.count_append] at hbefore hafter
  omega

/-- The weight of the pool changes by that of the one thread. -/
theorem sum_map_resume (f : τ → ℕ) (h : ts[i]? = some t) (o : Option τ) :
    ((resume ts i o).map f).sum + f t = (ts.map f).sum + (o.toList.map f).sum := by
  have hbefore := ((perm_thread h).map f).sum_eq
  have hafter := ((resume_perm h o).map f).sum_eq
  rw [List.map_cons, List.sum_cons] at hbefore
  rw [List.map_append, List.sum_append] at hafter
  omega

end Threads
