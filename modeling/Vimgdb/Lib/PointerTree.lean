import Vimgdb.Lib.Maps

/-!
# Trees of pointers

Objects live at addresses; each may have a parent, and lists its children.

* `Linked`: children and parents point to each other, apart from objects that are to be deleted.
* `Linked.erase`: an object is deleted, and its children are to follow.
* `Linked.root`, `Linked.detach`: where a deletion starts.
* `Linked.addRoot`, `Linked.addChild`, `Linked.update`: objects come or change.
-/

namespace PointerTree

open Maps

/-- What an address leads to. -/
abbrev Heap (V : Type*) := AList fun _ : Nat => V

variable {V : Type*} {parent : V → Option Nat} {childs : V → List Nat} {P : List Nat} {heap : Heap V}

/-- Each child lives, and has the object as its parent; each object with a parent is among its
children, or is one of `P`, which are to be deleted and no longer anybody's children. -/
structure Linked (parent : V → Option Nat) (childs : V → List Nat) (P : List Nat)
    (heap : Heap V) : Prop where
  child : ∀ a v c, heap.lookup a = some v → c ∈ childs v →
    ∃ w, heap.lookup c = some w ∧ parent w = some a
  nodup : ∀ a v, heap.lookup a = some v → (childs v).Nodup
  parents : ∀ c w a, heap.lookup c = some w → parent w = some a →
    c ∈ P ∨ ∃ v, heap.lookup a = some v ∧ c ∈ childs v
  older : ∀ c w a, heap.lookup c = some w → parent w = some a → a < c
  live : ∀ c ∈ P, ∃ w, heap.lookup c = some w
  deletedOnce : P.Nodup
  notChild : ∀ a v c, heap.lookup a = some v → c ∈ childs v → c ∉ P

theorem linked_empty : Linked parent childs [] (∅ : Heap V) where
  child _ _ _ h := by rw [AList.lookup_empty] at h; cases h
  nodup _ _ h := by rw [AList.lookup_empty] at h; cases h
  parents _ _ _ h := by rw [AList.lookup_empty] at h; cases h
  older _ _ _ h := by rw [AList.lookup_empty] at h; cases h
  live _ h := absurd h List.not_mem_nil
  deletedOnce := List.nodup_nil
  notChild _ _ _ h := by rw [AList.lookup_empty] at h; cases h

/-! ## Deletion -/

/-- An object that is to be deleted is deleted; now its children are. -/
theorem Linked.erase {a : Nat} {v : V} (h : Linked parent childs (a :: P) heap)
    (ha : heap.lookup a = some v) : Linked parent childs (childs v ++ P) (heap.erase a) := by
  have hP := List.nodup_cons.mp h.deletedOnce
  -- no child of another object is deleted: neither `a` nor a child of `a`
  have hchild : ∀ b u c, b ≠ a → heap.lookup b = some u → c ∈ childs u →
      c ≠ a ∧ c ∉ childs v := by
    intro b u c hne hb hc
    refine ⟨fun heq => h.notChild b u c hb hc (heq ▸ List.mem_cons_self), fun hcv => ?_⟩
    obtain ⟨w, hw, hpw⟩ := h.child b u c hb hc
    obtain ⟨w', hw', hpw'⟩ := h.child a v c ha hcv
    rw [hw, Option.some.injEq] at hw'
    rw [← hw', hpw, Option.some.injEq] at hpw'
    exact hne hpw'
  constructor
  · intro b u c hb hc
    obtain ⟨hne, hb⟩ := lookup_erase_eq_some.mp hb
    obtain ⟨w, hw, hpw⟩ := h.child b u c hb hc
    exact ⟨w, lookup_erase_eq_some.mpr ⟨(hchild b u c hne hb hc).1, hw⟩, hpw⟩
  · intro b u hb
    exact h.nodup b u (lookup_erase_eq_some.mp hb).2
  · intro c w b hc hpw
    obtain ⟨hne, hc⟩ := lookup_erase_eq_some.mp hc
    rcases h.parents c w b hc hpw with hmem | ⟨u, hu, hcu⟩
    · rcases List.mem_cons.mp hmem with heq | hmem
      · exact absurd heq hne
      · exact Or.inl (List.mem_append_right _ hmem)
    · by_cases hba : b = a
      · rw [hba, ha, Option.some.injEq] at hu
        exact Or.inl (List.mem_append_left _ (hu ▸ hcu))
      · exact Or.inr ⟨u, lookup_erase_eq_some.mpr ⟨hba, hu⟩, hcu⟩
  · intro c w b hc hpw
    exact h.older c w b (lookup_erase_eq_some.mp hc).2 hpw
  · intro c hc
    rcases List.mem_append.mp hc with hc | hc
    · obtain ⟨w, hw, hpw⟩ := h.child a v c ha hc
      exact ⟨w, lookup_erase_eq_some.mpr ⟨Nat.ne_of_gt (h.older c w a hw hpw), hw⟩⟩
    · obtain ⟨w, hw⟩ := h.live c (List.mem_cons_of_mem _ hc)
      exact ⟨w, lookup_erase_eq_some.mpr ⟨fun heq => hP.1 (heq ▸ hc), hw⟩⟩
  · refine List.nodup_append.mpr ⟨h.nodup a v ha, hP.2, ?_⟩
    rintro c hc _ hcP rfl
    exact h.notChild a v c ha hc (List.mem_cons_of_mem _ hcP)
  · intro b u c hb hc hmem
    obtain ⟨hne, hb⟩ := lookup_erase_eq_some.mp hb
    rcases List.mem_append.mp hmem with hmem | hmem
    · exact (hchild b u c hne hb hc).2 hmem
    · exact h.notChild b u c hb hc (List.mem_cons_of_mem _ hmem)

/-- An object without a parent may be deleted. -/
theorem Linked.root {a : Nat} {v : V} (h : Linked parent childs [] heap)
    (ha : heap.lookup a = some v) (hroot : parent v = none) : Linked parent childs [a] heap where
  child := h.child
  nodup := h.nodup
  parents c w b hc hpw := Or.inr ((h.parents c w b hc hpw).resolve_left List.not_mem_nil)
  older := h.older
  live c hc := by
    obtain rfl := List.mem_singleton.mp hc
    exact ⟨v, ha⟩
  deletedOnce := List.nodup_singleton a
  notChild b u c hb hc hmem := by
    obtain rfl := List.mem_singleton.mp hmem
    obtain ⟨w, hw, hpw⟩ := h.child b u c hb hc
    rw [ha, Option.some.injEq] at hw
    rw [← hw, hroot] at hpw
    cases hpw

/-! ## Objects that change -/

/-- An object gives its children up, to be deleted. -/
theorem Linked.detach {a : Nat} {v v' : V} (h : Linked parent childs [] heap)
    (ha : heap.lookup a = some v) (hparent : parent v' = parent v) (hchilds : childs v' = []) :
    Linked parent childs (childs v) (heap.insert a v') := by
  -- the parent of an object that is looked up is the one it had
  have hold : ∀ c w, (heap.insert a v').lookup c = some w →
      ∃ w₀, heap.lookup c = some w₀ ∧ parent w = parent w₀ := by
    intro c w hc
    rcases lookup_insert_eq_some.mp hc with ⟨rfl, rfl⟩ | ⟨-, hc⟩
    · exact ⟨v, ha, hparent⟩
    · exact ⟨w, hc, rfl⟩
  have hnew : ∀ c w₀, heap.lookup c = some w₀ →
      ∃ w, (heap.insert a v').lookup c = some w ∧ parent w = parent w₀ := by
    intro c w₀ hc
    by_cases hca : c = a
    · subst hca
      rw [ha, Option.some.injEq] at hc
      exact ⟨v', AList.lookup_insert _, hc ▸ hparent⟩
    · exact ⟨w₀, lookup_insert_eq_some.mpr (Or.inr ⟨hca, hc⟩), rfl⟩
  have hchild : ∀ b u c, (heap.insert a v').lookup b = some u → c ∈ childs u →
      b ≠ a ∧ heap.lookup b = some u := by
    intro b u c hb hc
    rcases lookup_insert_eq_some.mp hb with ⟨rfl, rfl⟩ | hb
    · rw [hchilds] at hc
      cases hc
    · exact hb
  constructor
  · intro b u c hb hc
    obtain ⟨w₀, hw₀, hpw₀⟩ := h.child b u c (hchild b u c hb hc).2 hc
    obtain ⟨w, hw, hpw⟩ := hnew c w₀ hw₀
    exact ⟨w, hw, hpw.trans hpw₀⟩
  · intro b u hb
    rcases lookup_insert_eq_some.mp hb with ⟨rfl, rfl⟩ | ⟨-, hb⟩
    · rw [hchilds]
      exact List.nodup_nil
    · exact h.nodup b u hb
  · intro c w b hc hpw
    obtain ⟨w₀, hw₀, hpw₀⟩ := hold c w hc
    obtain ⟨u, hu, hcu⟩ :=
      (h.parents c w₀ b hw₀ (hpw₀.symm.trans hpw)).resolve_left List.not_mem_nil
    by_cases hba : b = a
    · rw [hba, ha, Option.some.injEq] at hu
      exact Or.inl (hu ▸ hcu)
    · exact Or.inr ⟨u, lookup_insert_eq_some.mpr (Or.inr ⟨hba, hu⟩), hcu⟩
  · intro c w b hc hpw
    obtain ⟨w₀, hw₀, hpw₀⟩ := hold c w hc
    exact h.older c w₀ b hw₀ (hpw₀.symm.trans hpw)
  · intro c hc
    obtain ⟨w₀, hw₀, -⟩ := h.child a v c ha hc
    obtain ⟨w, hw, -⟩ := hnew c w₀ hw₀
    exact ⟨w, hw⟩
  · exact h.nodup a v ha
  · intro b u c hb hc hmem
    obtain ⟨hne, hb⟩ := hchild b u c hb hc
    obtain ⟨w, hw, hpw⟩ := h.child b u c hb hc
    obtain ⟨w', hw', hpw'⟩ := h.child a v c ha hmem
    rw [hw, Option.some.injEq] at hw'
    rw [← hw', hpw, Option.some.injEq] at hpw'
    exact hne hpw'

/-- An object changes, but not its place. -/
theorem Linked.update {a : Nat} {v v' : V} (h : Linked parent childs P heap)
    (ha : heap.lookup a = some v) (hparent : parent v' = parent v) (hchilds : childs v' = childs v) :
    Linked parent childs P (heap.insert a v') := by
  have hold : ∀ c w, (heap.insert a v').lookup c = some w →
      ∃ w₀, heap.lookup c = some w₀ ∧ parent w = parent w₀ ∧ childs w = childs w₀ := by
    intro c w hc
    rcases lookup_insert_eq_some.mp hc with ⟨rfl, rfl⟩ | ⟨-, hc⟩
    · exact ⟨v, ha, hparent, hchilds⟩
    · exact ⟨w, hc, rfl, rfl⟩
  have hnew : ∀ c w₀, heap.lookup c = some w₀ →
      ∃ w, (heap.insert a v').lookup c = some w ∧ parent w = parent w₀ ∧ childs w = childs w₀ := by
    intro c w₀ hc
    by_cases hca : c = a
    · subst hca
      rw [ha, Option.some.injEq] at hc
      exact ⟨v', AList.lookup_insert _, hc ▸ hparent, hc ▸ hchilds⟩
    · exact ⟨w₀, lookup_insert_eq_some.mpr (Or.inr ⟨hca, hc⟩), rfl, rfl⟩
  constructor
  · intro b u c hb hc
    obtain ⟨u₀, hu₀, -, hcu⟩ := hold b u hb
    obtain ⟨w₀, hw₀, hpw₀⟩ := h.child b u₀ c hu₀ (hcu ▸ hc)
    obtain ⟨w, hw, hpw, -⟩ := hnew c w₀ hw₀
    exact ⟨w, hw, hpw.trans hpw₀⟩
  · intro b u hb
    obtain ⟨u₀, hu₀, -, hcu⟩ := hold b u hb
    rw [hcu]
    exact h.nodup b u₀ hu₀
  · intro c w b hc hpw
    obtain ⟨w₀, hw₀, hpw₀, -⟩ := hold c w hc
    rcases h.parents c w₀ b hw₀ (hpw₀.symm.trans hpw) with hmem | ⟨u₀, hu₀, hcu₀⟩
    · exact Or.inl hmem
    · obtain ⟨u, hu, -, hcu⟩ := hnew b u₀ hu₀
      exact Or.inr ⟨u, hu, hcu ▸ hcu₀⟩
  · intro c w b hc hpw
    obtain ⟨w₀, hw₀, hpw₀, -⟩ := hold c w hc
    exact h.older c w₀ b hw₀ (hpw₀.symm.trans hpw)
  · intro c hc
    obtain ⟨w₀, hw₀⟩ := h.live c hc
    obtain ⟨w, hw, -⟩ := hnew c w₀ hw₀
    exact ⟨w, hw⟩
  · exact h.deletedOnce
  · intro b u c hb hc
    obtain ⟨u₀, hu₀, -, hcu⟩ := hold b u hb
    exact h.notChild b u₀ c hu₀ (hcu ▸ hc)

/-! ## New objects -/

/-- An object without a parent and without children comes. -/
theorem Linked.addRoot {a : Nat} {v : V} (h : Linked parent childs [] heap)
    (ha : heap.lookup a = none) (hparent : parent v = none) (hchilds : childs v = []) :
    Linked parent childs [] (heap.insert a v) := by
  have hnew : ∀ c w, heap.lookup c = some w → (heap.insert a v).lookup c = some w := by
    intro c w hc
    refine lookup_insert_eq_some.mpr (Or.inr ⟨?_, hc⟩)
    rintro rfl
    rw [ha] at hc
    cases hc
  constructor
  · intro b u c hb hc
    rcases lookup_insert_eq_some.mp hb with ⟨rfl, rfl⟩ | ⟨-, hb⟩
    · rw [hchilds] at hc
      cases hc
    · obtain ⟨w, hw, hpw⟩ := h.child b u c hb hc
      exact ⟨w, hnew c w hw, hpw⟩
  · intro b u hb
    rcases lookup_insert_eq_some.mp hb with ⟨rfl, rfl⟩ | ⟨-, hb⟩
    · rw [hchilds]
      exact List.nodup_nil
    · exact h.nodup b u hb
  · intro c w b hc hpw
    rcases lookup_insert_eq_some.mp hc with ⟨rfl, rfl⟩ | ⟨-, hc⟩
    · rw [hparent] at hpw
      cases hpw
    · obtain ⟨u, hu, hcu⟩ := (h.parents c w b hc hpw).resolve_left List.not_mem_nil
      exact Or.inr ⟨u, hnew b u hu, hcu⟩
  · intro c w b hc hpw
    rcases lookup_insert_eq_some.mp hc with ⟨rfl, rfl⟩ | ⟨-, hc⟩
    · rw [hparent] at hpw
      cases hpw
    · exact h.older c w b hc hpw
  · exact fun c hc => absurd hc List.not_mem_nil
  · exact List.nodup_nil
  · exact fun _ _ _ _ _ => List.not_mem_nil

/-- A child is added behind the others. -/
theorem Linked.addChild {a c : Nat} {v v' w : V} (h : Linked parent childs [] heap)
    (ha : heap.lookup a = some v) (hc : heap.lookup c = none) (hac : a < c)
    (hparent : parent w = some a) (hchilds : childs w = []) (hparent' : parent v' = parent v)
    (hchilds' : childs v' = childs v ++ [c]) :
    Linked parent childs [] ((heap.insert c w).insert a v') := by
  have hne : a ≠ c := Nat.ne_of_lt hac
  have hlookup : ∀ {b u}, ((heap.insert c w).insert a v').lookup b = some u ↔
      b = a ∧ v' = u ∨ b = c ∧ w = u ∨ b ≠ a ∧ b ≠ c ∧ heap.lookup b = some u := by
    intro b u
    rw [lookup_insert_eq_some, lookup_insert_eq_some]
    constructor
    · rintro (h | ⟨hba, ⟨rfl, rfl⟩ | ⟨hbc, hb⟩⟩)
      · exact Or.inl h
      · exact Or.inr (Or.inl ⟨rfl, rfl⟩)
      · exact Or.inr (Or.inr ⟨hba, hbc, hb⟩)
    · rintro (h | ⟨rfl, rfl⟩ | ⟨hba, hbc, hb⟩)
      · exact Or.inl h
      · exact Or.inr ⟨hne.symm, Or.inl ⟨rfl, rfl⟩⟩
      · exact Or.inr ⟨hba, Or.inr ⟨hbc, hb⟩⟩
  -- an object that was there still is, with the same parent and at least its children
  have hnew : ∀ b u₀, heap.lookup b = some u₀ → ∃ u, ((heap.insert c w).insert a v').lookup b = some u ∧
      parent u = parent u₀ ∧ ∀ d ∈ childs u₀, d ∈ childs u := by
    intro b u₀ hb
    by_cases hba : b = a
    · subst hba
      rw [ha, Option.some.injEq] at hb
      subst hb
      refine ⟨v', hlookup.mpr (Or.inl ⟨rfl, rfl⟩), hparent', fun d hd => ?_⟩
      rw [hchilds']
      exact List.mem_append_left _ hd
    · refine ⟨u₀, hlookup.mpr (Or.inr (Or.inr ⟨hba, ?_, hb⟩)), rfl, fun d hd => hd⟩
      rintro rfl
      rw [hc] at hb
      cases hb
  have hcnew : ((heap.insert c w).insert a v').lookup c = some w :=
    hlookup.mpr (Or.inr (Or.inl ⟨rfl, rfl⟩))
  have hold : ∀ b u d, heap.lookup b = some u → d ∈ childs u →
      ∃ w', ((heap.insert c w).insert a v').lookup d = some w' ∧ parent w' = some b := by
    intro b u d hb hd
    obtain ⟨w₀, hw₀, hpw₀⟩ := h.child b u d hb hd
    obtain ⟨w', hw', hpw', -⟩ := hnew d w₀ hw₀
    exact ⟨w', hw', hpw'.trans hpw₀⟩
  constructor
  · intro b u d hb hd
    rcases hlookup.mp hb with ⟨rfl, rfl⟩ | ⟨rfl, rfl⟩ | ⟨-, -, hb⟩
    · rw [hchilds'] at hd
      rcases List.mem_append.mp hd with hd | hd
      · exact hold b v d ha hd
      · obtain rfl := List.mem_singleton.mp hd
        exact ⟨w, hcnew, hparent⟩
    · rw [hchilds] at hd
      cases hd
    · exact hold b u d hb hd
  · intro b u hb
    rcases hlookup.mp hb with ⟨rfl, rfl⟩ | ⟨rfl, rfl⟩ | ⟨-, -, hb⟩
    · rw [hchilds']
      refine List.nodup_append.mpr ⟨h.nodup b v ha, List.nodup_singleton c, ?_⟩
      rintro d hd _ hdc rfl
      obtain rfl := List.mem_singleton.mp hdc
      obtain ⟨w₀, hw₀, -⟩ := h.child b v d ha hd
      rw [hc] at hw₀
      cases hw₀
    · rw [hchilds]
      exact List.nodup_nil
    · exact h.nodup b u hb
  · intro d x b hd hpx
    right
    rcases hlookup.mp hd with ⟨rfl, rfl⟩ | ⟨rfl, rfl⟩ | ⟨-, -, hd⟩
    · obtain ⟨u₀, hu₀, hdu₀⟩ :=
        (h.parents d v b ha (hparent'.symm.trans hpx)).resolve_left List.not_mem_nil
      obtain ⟨u, hu, -, hsub⟩ := hnew b u₀ hu₀
      exact ⟨u, hu, hsub d hdu₀⟩
    · rw [hparent, Option.some.injEq] at hpx
      subst hpx
      refine ⟨v', hlookup.mpr (Or.inl ⟨rfl, rfl⟩), ?_⟩
      rw [hchilds']
      exact List.mem_append_right _ List.mem_cons_self
    · obtain ⟨u₀, hu₀, hdu₀⟩ := (h.parents d x b hd hpx).resolve_left List.not_mem_nil
      obtain ⟨u, hu, -, hsub⟩ := hnew b u₀ hu₀
      exact ⟨u, hu, hsub d hdu₀⟩
  · intro d x b hd hpx
    rcases hlookup.mp hd with ⟨rfl, rfl⟩ | ⟨rfl, rfl⟩ | ⟨-, -, hd⟩
    · exact h.older d v b ha (hparent'.symm.trans hpx)
    · rw [hparent, Option.some.injEq] at hpx
      exact hpx ▸ hac
    · exact h.older d x b hd hpx
  · exact fun d hd => absurd hd List.not_mem_nil
  · exact List.nodup_nil
  · exact fun _ _ _ _ _ => List.not_mem_nil

end PointerTree
