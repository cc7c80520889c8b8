import Mathlib.Data.List.AList
import Mathlib.Tactic.Common

/-!
# Maps

What a map leads to after an entry is added or removed.

* `lookup_insert_eq_some`, `lookup_erase_eq_some`: the entries that are found.
* `refs`: what the values of a map refer to, each as often as it is referred to.
-/

namespace Maps

variable {α β : Type*} [DecidableEq α] {m : AList fun _ : α => β} {k k' : α} {v v' : β}

theorem lookup_insert_eq_some :
    (m.insert k v).lookup k' = some v' ↔ k' = k ∧ v = v' ∨ k' ≠ k ∧ m.lookup k' = some v' := by
  by_cases hk : k' = k
  · subst hk
    rw [AList.lookup_insert]
    simp
  · rw [AList.lookup_insert_ne hk]
    simp [hk]

theorem lookup_erase_eq_some :
    (m.erase k).lookup k' = some v' ↔ k' ≠ k ∧ m.lookup k' = some v' := by
  by_cases hk : k' = k
  · subst hk
    rw [AList.lookup_erase]
    simp
  · rw [AList.lookup_erase_ne hk]
    simp [hk]

omit [DecidableEq α] in
/-- An entry behind the others is found if none of them has its key. -/
theorem lookup_append_singleton [BEq α] [LawfulBEq α] {l : List (α × β)} {p : α × β} :
    (l ++ [p]).lookup k = some v ↔ l.lookup k = some v ∨ l.lookup k = none ∧ p = (k, v) := by
  obtain ⟨k', v'⟩ := p
  rw [List.lookup_append, List.lookup_cons, List.lookup_nil, Option.or_eq_some_iff]
  by_cases hk : k = k'
  · subst hk
    simp
  · rw [beq_false_of_ne hk]
    simp [Ne.symm hk]

/-! ## References -/

variable {γ : Type*}

/-- What the values of a map refer to. -/
def refs (f : β → List γ) (m : AList fun _ : α => β) : List γ := m.entries.flatMap fun e => f e.2

/-- The entry that is inserted takes the place of the one with its key. -/
theorem refs_insert (f : β → List γ) (m : AList fun _ : α => β) (k : α) (v : β) :
    refs f (m.insert k v) = f v ++ refs f (m.erase k) := rfl

/-- An entry that is removed takes what it refers to with it. -/
theorem count_refs [DecidableEq γ] (f : β → List γ) (h : m.lookup k = some v) (c : γ) :
    (refs f m).count c = (f v).count c + (refs f (m.erase k)).count c := by
  have hperm : m.entries.Perm (m.insert k v).entries := by
    apply List.lookup_ext m.nodupKeys (m.insert k v).nodupKeys
    intro k' v'
    show m.lookup k' = some v' ↔ (m.insert k v).lookup k' = some v'
    rw [lookup_insert_eq_some]
    constructor
    · intro h'
      by_cases hk : k' = k
      · subst hk
        exact Or.inl ⟨rfl, Option.some.inj (h.symm.trans h')⟩
      · exact Or.inr ⟨hk, h'⟩
    · rintro (⟨rfl, rfl⟩ | ⟨-, h'⟩)
      · exact h
      · exact h'
  rw [← List.count_append, ← refs_insert]
  exact (hperm.flatMap_right _).count_eq c

theorem mem_refs {f : β → List γ} {c : γ} :
    c ∈ refs f m ↔ ∃ k v, m.lookup k = some v ∧ c ∈ f v := by
  unfold refs
  rw [List.mem_flatMap]
  constructor
  · rintro ⟨⟨k, v⟩, hmem, hc⟩
    exact ⟨k, v, (List.mem_dlookup_iff m.nodupKeys).mpr hmem, hc⟩
  · rintro ⟨k, v, hlookup, hc⟩
    exact ⟨⟨k, v⟩, (List.mem_dlookup_iff m.nodupKeys).mp hlookup, hc⟩

theorem erase_of_lookup_eq_none (h : m.lookup k = none) : m.erase k = m := by
  apply AList.ext
  rw [AList.lookup_eq_none] at h
  exact List.kerase_of_notMem_keys h

end Maps
