import Mathlib.Data.List.Flatten
import Mathlib.Tactic.Common

/-!
# Cutting a list into groups

A list is cut into groups, each group yields a list, and the results are joined.

* `Groups`: a way of cutting a list.
* `Groups.flatMap_eq`: the groups do not matter where each yields what its elements yield one by one.
* `agree_iff`: among ways of cutting of which every group can be cut further, all have the same result
  iff every group yields what its elements do.
-/

namespace Grouping

variable {X Y : Type*}

/-- `gs` are groups of `xs`. -/
structure Groups (xs : List X) (gs : List (List X)) : Prop where
  flatten : gs.flatten = xs
  nonempty : ∀ g ∈ gs, g ≠ []

variable {f : List X → List Y} {xs : List X}

/-- A group can be cut into its elements. -/
theorem Groups.split {gs gs' : List (List X)} {g : List X} (h : Groups xs (gs ++ g :: gs')) :
    Groups xs (gs ++ (g.map fun x => [x]) ++ gs') := by
  constructor
  · have hg : (g.map fun x => [x]).flatten = g := by
      rw [← List.flatMap_def, List.flatMap_singleton']
    rw [← h.flatten]
    simp only [List.flatten_append, List.flatten_cons, hg, List.append_assoc]
  · intro g' hg'
    rw [List.append_assoc, List.mem_append, List.mem_append, List.mem_map] at hg'
    rcases hg' with hg' | ⟨x, -, rfl⟩ | hg'
    · exact h.nonempty g' (List.mem_append_left _ hg')
    · exact List.cons_ne_nil _ _
    · exact h.nonempty g' (List.mem_append_right _ (List.mem_cons_of_mem _ hg'))

/-- The groups do not matter if each yields what its elements yield one by one. -/
theorem Groups.flatMap_eq {gs : List (List X)} (h : Groups xs gs)
    (hf : ∀ g ∈ gs, f g = g.flatMap fun x => f [x]) : gs.flatMap f = xs.flatMap fun x => f [x] := by
  rw [← h.flatten]
  clear h
  induction gs with
  | nil => rfl
  | cons g gs ih =>
      rw [List.forall_mem_cons] at hf
      rw [List.flatMap_cons, hf.1, ih hf.2, List.flatten_cons, List.flatMap_append]

/-- The groups do not matter iff each yields what its elements yield one by one, where with some groups
those are allowed in which one of them is cut into its elements. -/
theorem agree_iff {Allowed : List (List X) → Prop}
    (hsplit : ∀ gs g gs', Allowed (gs ++ g :: gs') → Allowed (gs ++ (g.map fun x => [x]) ++ gs')) :
    (∀ gs gs', Groups xs gs → Allowed gs → Groups xs gs' → Allowed gs' →
        gs.flatMap f = gs'.flatMap f) ↔
      ∀ gs, Groups xs gs → Allowed gs → ∀ g ∈ gs, f g = g.flatMap fun x => f [x] := by
  constructor
  · intro h gs hgs hallowed g hg
    obtain ⟨gs₁, gs₂, rfl⟩ := List.append_of_mem hg
    have heq := h _ _ hgs hallowed hgs.split (hsplit _ _ _ hallowed)
    rw [List.append_assoc, List.flatMap_append, List.flatMap_append, List.flatMap_cons,
      List.flatMap_append, List.append_cancel_left_eq, List.append_cancel_right_eq,
      List.flatMap_map] at heq
    exact heq
  · intro h gs gs' hgs hallowed hgs' hallowed'
    rw [hgs.flatMap_eq (h gs hgs hallowed), hgs'.flatMap_eq (h gs' hgs' hallowed')]

end Grouping
