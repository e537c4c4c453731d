import Mathlib.Data.List.Infix
import Mathlib.Data.List.Nodup
import Mathlib.Logic.Function.Basic

/-!
# Chains with missing links

A list of nodes in memory, each with a link to the next one. A writer first puts its node
at the end and links the predecessor to it later, so that links may be missing for a
while: `missing x y` says that `y` comes after `x` and that somebody is about to link them.
-/

namespace LinkedChain

variable {α : Type*}

/-- `next` links the nodes of `l` up to missing links. -/
structure Linked (next : α → Option α) (missing : α → α → Prop) (l : List α) : Prop where
  nodup : l.Nodup
  step : ∀ x y, [x, y] <:+: l → next x = some y ∨ missing x y
  missing : ∀ x y, missing x y → [x, y] <:+: l ∧ next x = none
  last : ∀ x, l.getLast? = some x → next x = none

/-! ## Neighbours -/

variable {x y : α} {l : List α}

theorem pair_infix_cons {a : α} :
    [x, y] <:+: a :: l ↔ (a = x ∧ l.head? = some y) ∨ [x, y] <:+: l := by
  rw [List.infix_cons_iff]
  have hfront : [x, y] <+: a :: l ↔ a = x ∧ l.head? = some y := by
    rw [List.cons_prefix_cons]
    cases l with
    | nil => simp
    | cons b l => simp [List.cons_prefix_cons, eq_comm]
  rw [hfront]

theorem pair_infix_concat {a : α} :
    [x, y] <:+: l ++ [a] ↔ (l.getLast? = some x ∧ a = y) ∨ [x, y] <:+: l := by
  induction l with
  | nil =>
    rw [List.nil_append, pair_infix_cons]
    simp
  | cons b l ih =>
    rw [List.cons_append, pair_infix_cons, ih, pair_infix_cons]
    cases l with
    | nil => simp
    | cons c l => simp [or_left_comm]

theorem left_mem (h : [x, y] <:+: l) : x ∈ l :=
  h.subset (List.mem_cons_self ..)

theorem right_mem (h : [x, y] <:+: l) : y ∈ l :=
  h.subset (List.mem_cons_of_mem _ (List.mem_cons_self ..))

/-- A node has one successor. -/
theorem next_unique (hl : l.Nodup) {z : α} (hy : [x, y] <:+: l) (hz : [x, z] <:+: l) : y = z := by
  induction l with
  | nil => simp at hy
  | cons a l ih =>
    obtain ⟨ha, hl'⟩ := List.nodup_cons.mp hl
    rcases pair_infix_cons.mp hy with ⟨rfl, hyfirst⟩ | hyl
    · rcases pair_infix_cons.mp hz with ⟨-, hzfirst⟩ | hzl
      · exact Option.some.inj (hyfirst.symm.trans hzfirst)
      · exact absurd (left_mem hzl) ha
    · rcases pair_infix_cons.mp hz with ⟨rfl, -⟩ | hzl
      · exact absurd (left_mem hyl) ha
      · exact ih hl' hyl hzl

/-- The last node has no successor. -/
theorem last_has_no_next (hl : l.Nodup) (hlast : l.getLast? = some x) : ¬ [x, y] <:+: l := by
  induction l with
  | nil => simp
  | cons a l ih =>
    obtain ⟨ha, hl'⟩ := List.nodup_cons.mp hl
    intro h
    cases l with
    | nil => rw [pair_infix_cons] at h; simp at h
    | cons b l =>
      rw [List.getLast?_cons_cons] at hlast
      rcases pair_infix_cons.mp h with ⟨rfl, -⟩ | h
      · exact ha (List.mem_of_getLast? hlast)
      · exact ih hl' hlast h

/-! ## Operations -/

namespace Linked

variable {next : α → Option α} {missing missing' : α → α → Prop} {l : List α} {x y : α}

theorem congr (h : Linked next missing l) (hiff : ∀ x y, missing' x y ↔ missing x y) :
    Linked next missing' l where
  nodup := h.nodup
  step := fun x y hxy => (h.step x y hxy).imp_right (hiff x y).mpr
  missing := fun x y hxy => h.missing x y ((hiff x y).mp hxy)
  last := h.last

/-- What follows a node whose link is not set is missing. -/
theorem missing_of_none (h : Linked next missing l) (hxy : [x, y] <:+: l) (hx : next x = none) :
    missing x y := by
  rcases h.step x y hxy with hlink | hmissing
  · rw [hx] at hlink
    cases hlink
  · exact hmissing

/-- A link that is set leads to the next node. -/
theorem infix_of_some (h : Linked next missing l) (hx : x ∈ l) (hy : next x = some y) :
    [x, y] <:+: l := by
  have hsplit : ∀ {l : List α}, x ∈ l → l.getLast? = some x ∨ ∃ z, [x, z] <:+: l := by
    intro l hmem
    induction l with
    | nil => cases hmem
    | cons a l ih =>
      cases l with
      | nil =>
        left
        obtain rfl := List.mem_singleton.mp hmem
        rfl
      | cons b l =>
        rcases List.mem_cons.mp hmem with rfl | hmem
        · exact .inr ⟨b, pair_infix_cons.mpr (.inl ⟨rfl, rfl⟩)⟩
        · rcases ih hmem with hlast | ⟨z, hz⟩
          · exact .inl (by rw [List.getLast?_cons_cons]; exact hlast)
          · exact .inr ⟨z, pair_infix_cons.mpr (.inr hz)⟩
  rcases hsplit hx with hlast | ⟨z, hz⟩
  · rw [h.last x hlast] at hy
    cases hy
  · rcases h.step x z hz with hlink | hmissing
    · rw [hy] at hlink
      exact Option.some.inj hlink ▸ hz
    · rw [(h.missing x z hmissing).2] at hy
      cases hy

/-- The link of the first node leads to the second. -/
theorem head_of_some (h : Linked next missing (x :: l)) (hy : next x = some y) :
    l.head? = some y := by
  rcases pair_infix_cons.mp (h.infix_of_some (List.mem_cons_self ..) hy) with ⟨-, hhead⟩ | hin
  · exact hhead
  · exact absurd (left_mem hin) (List.nodup_cons.mp h.nodup).1

variable [DecidableEq α]

/-- Links of nodes outside may change. -/
theorem update_outside (h : Linked next missing l) (hx : x ∉ l) (o : Option α) :
    Linked (Function.update next x o) missing l where
  nodup := h.nodup
  step := by
    intro u v huv
    have hu : u ≠ x := fun heq => hx (heq ▸ left_mem huv)
    rw [Function.update_of_ne hu]
    exact h.step u v huv
  missing := by
    intro u v huv
    obtain ⟨hin, hnone⟩ := h.missing u v huv
    have hu : u ≠ x := fun heq => hx (heq ▸ left_mem hin)
    rw [Function.update_of_ne hu]
    exact ⟨hin, hnone⟩
  last := by
    intro u hu
    have hne : u ≠ x := fun heq => hx (heq ▸ List.mem_of_getLast? hu)
    rw [Function.update_of_ne hne]
    exact h.last u hu

omit [DecidableEq α] in
/-- A new node at the end, which somebody is about to link. -/
theorem push (h : Linked next missing l) (hlast : l.getLast? = some x) (hy : y ∉ l)
    (hnext : next y = none)
    (hmissing : ∀ u v, missing' u v ↔ missing u v ∨ (u = x ∧ v = y)) :
    Linked next missing' (l ++ [y]) where
  nodup := by
    rw [List.nodup_append]
    refine ⟨h.nodup, List.nodup_singleton y, ?_⟩
    rintro a ha b hb rfl
    exact hy (List.mem_singleton.mp hb ▸ ha)
  step := by
    intro u v huv
    rw [hmissing]
    rcases pair_infix_concat.mp huv with ⟨hu, rfl⟩ | huv
    · exact .inr (.inr ⟨Option.some.inj (hu.symm.trans hlast), rfl⟩)
    · rcases h.step u v huv with hlink | hm
      · exact .inl hlink
      · exact .inr (.inl hm)
  missing := by
    intro u v huv
    rcases (hmissing u v).mp huv with huv | ⟨rfl, rfl⟩
    · obtain ⟨hin, hnone⟩ := h.missing u v huv
      exact ⟨pair_infix_concat.mpr (.inr hin), hnone⟩
    · exact ⟨pair_infix_concat.mpr (.inl ⟨hlast, rfl⟩), h.last u hlast⟩
  last := by
    intro u hu
    rw [List.getLast?_concat] at hu
    exact Option.some.inj hu ▸ hnext

/-- A missing link is set. -/
theorem fill (h : Linked next missing l) (hxy : missing x y)
    (hmissing : ∀ u v, missing' u v ↔ missing u v ∧ ¬ (u = x ∧ v = y)) :
    Linked (Function.update next x (some y)) missing' l := by
  obtain ⟨hin, -⟩ := h.missing x y hxy
  constructor
  · exact h.nodup
  · intro u v huv
    by_cases hu : u = x
    · subst hu
      rw [Function.update_self, next_unique h.nodup huv hin]
      exact .inl rfl
    · rw [Function.update_of_ne hu, hmissing]
      rcases h.step u v huv with hlink | hm
      · exact .inl hlink
      · exact .inr ⟨hm, fun heq => hu heq.1⟩
  · intro u v huv
    obtain ⟨hm, hne⟩ := (hmissing u v).mp huv
    obtain ⟨huvin, hnone⟩ := h.missing u v hm
    have hu : u ≠ x := by
      rintro rfl
      exact hne ⟨rfl, next_unique h.nodup huvin hin⟩
    rw [Function.update_of_ne hu]
    exact ⟨huvin, hnone⟩
  · intro u hu
    have hne : u ≠ x := by
      rintro rfl
      exact last_has_no_next h.nodup hu hin
    rw [Function.update_of_ne hne]
    exact h.last u hu

omit [DecidableEq α] in
/-- The first node leaves once its link is set. -/
theorem pop (h : Linked next missing (x :: l)) (hx : next x ≠ none) : Linked next missing l where
  nodup := (List.nodup_cons.mp h.nodup).2
  step := fun u v huv => h.step u v (pair_infix_cons.mpr (.inr huv))
  missing := by
    intro u v huv
    obtain ⟨hin, hnone⟩ := h.missing u v huv
    rcases pair_infix_cons.mp hin with ⟨rfl, -⟩ | hin
    · exact absurd hnone hx
    · exact ⟨hin, hnone⟩
  last := by
    intro u hu
    apply h.last
    cases l with
    | nil => cases hu
    | cons b l => rw [List.getLast?_cons_cons]; exact hu

end Linked

end LinkedChain
