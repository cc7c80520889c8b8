import Vimgdb.Lib.Maps

/-!
# Two maps, inverse to each other

Entries are found by their id in one map, and their ids by name in another one.

* `Inverse`: the maps say the same.
* `Inverse.unique`: two entries have different names.
* `inverse_insert_iff`: when an entry may be added.
* `Inverse.erase`: an entry is removed from both maps.
-/

namespace Directory

open Maps

variable {N I B : Type*} [DecidableEq N] [DecidableEq I] {name : B → N}

/-- A name leads to an id iff the id leads to an entry of the name. -/
def Inverse (name : B → N) (byName : AList fun _ : N => I) (byId : AList fun _ : I => B) : Prop :=
  ∀ n i, byName.lookup n = some i ↔ ∃ b, byId.lookup i = some b ∧ name b = n

variable {byName : AList fun _ : N => I} {byId : AList fun _ : I => B}

theorem inverse_empty : Inverse (I := I) name ∅ ∅ := by
  intro n i
  simp only [AList.lookup_empty]
  constructor
  · nofun
  · rintro ⟨b, hb, -⟩
    cases hb

/-- No name belongs to two ids. -/
theorem Inverse.unique (h : Inverse name byName byId) {i j : I} {b c : B}
    (hi : byId.lookup i = some b) (hj : byId.lookup j = some c) (hname : name b = name c) :
    i = j := by
  have hi' := (h (name b) i).mpr ⟨b, hi, rfl⟩
  have hj' := (h (name b) j).mpr ⟨c, hj, hname.symm⟩
  exact Option.some.inj (hi'.symm.trans hj')

/-- An entry may be added iff its name is no other's, and its id has no other name. -/
theorem inverse_insert_iff (h : Inverse name byName byId) (i : I) (b : B) :
    Inverse name (byName.insert (name b) i) (byId.insert i b) ↔
      (∀ j, byName.lookup (name b) = some j → j = i) ∧
        ∀ c, byId.lookup i = some c → name c = name b := by
  constructor
  · intro h'
    constructor
    · intro j hj
      obtain ⟨c, hc, hname⟩ := (h _ _).mp hj
      by_contra hne
      -- `j` still has the name, which now leads to `i`
      have hlookup := (h' (name b) j).mpr ⟨c, by rwa [AList.lookup_insert_ne hne], hname⟩
      rw [AList.lookup_insert] at hlookup
      exact hne (Option.some.inj hlookup).symm
    · intro c hc
      by_contra hne
      -- the name of `c` still leads to `i`, which now has another one
      have hlookup := (h (name c) i).mpr ⟨c, hc, rfl⟩
      rw [← AList.lookup_insert_ne hne] at hlookup
      obtain ⟨b', hb', hname⟩ := (h' _ _).mp hlookup
      rw [AList.lookup_insert] at hb'
      obtain rfl := Option.some.inj hb'
      exact hne hname.symm
  · rintro ⟨hname, hid⟩ n j
    rw [lookup_insert_eq_some, h]
    simp only [lookup_insert_eq_some]
    constructor
    · rintro (⟨rfl, rfl⟩ | ⟨hne, c, hc, rfl⟩)
      · exact ⟨b, Or.inl ⟨rfl, rfl⟩, rfl⟩
      · refine ⟨c, Or.inr ⟨?_, hc⟩, rfl⟩
        rintro rfl
        exact hne (hid c hc)
    · rintro ⟨c, ⟨rfl, rfl⟩ | ⟨hne, hc⟩, rfl⟩
      · exact Or.inl ⟨rfl, rfl⟩
      · refine Or.inr ⟨?_, c, hc, rfl⟩
        intro heq
        exact hne (hname j ((h _ _).mpr ⟨c, hc, heq⟩))

/-- An entry is removed. -/
theorem Inverse.erase (h : Inverse name byName byId) {i : I} {b : B} (hb : byId.lookup i = some b) :
    Inverse name (byName.erase (name b)) (byId.erase i) := by
  intro n j
  rw [lookup_erase_eq_some, h]
  simp only [lookup_erase_eq_some]
  constructor
  · rintro ⟨hne, c, hc, rfl⟩
    refine ⟨c, ⟨?_, hc⟩, rfl⟩
    rintro rfl
    rw [hb] at hc
    exact hne (by rw [Option.some.inj hc])
  · rintro ⟨c, ⟨hne, hc⟩, rfl⟩
    exact ⟨fun heq => hne (h.unique hc hb heq), c, hc, rfl⟩

end Directory
