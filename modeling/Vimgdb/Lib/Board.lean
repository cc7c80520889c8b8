import Mathlib.Logic.Function.Basic
import Mathlib.Tactic.Common

/-!
# Records of what is displayed

A display shows marks.  Its client records under which name it has put up the mark for a key, to be able
to take it down again.

* `Board`: the record, and what is shown.
* `Sound`: a record leads to a mark, and no two records to the same.
* `Good`: each owner has a mark of its own, and no other mark is shown.
* `good_put_iff`, `good_take_iff`, `good_wipe_iff`, `good_forget_iff`: when marks that are put up, taken
  down, wiped off or forgotten leave the board good.
-/

namespace Boards

/-- The names that are recorded for keys, and the marks that are shown under names. -/
@[ext] structure Board (κ ι μ : Type*) where
  record : κ → Option ι
  shown : ι → Option μ

variable {κ ι μ ω : Type*}

/-! ## Operations -/

/-- A mark is put up under a name, which is recorded for a key. -/
def Board.put [DecidableEq κ] [DecidableEq ι] (b : Board κ ι μ) (k : κ) (i : ι) (m : μ) : Board κ ι μ where
  record := Function.update b.record k (some i)
  shown := Function.update b.shown i (some m)

/-- The mark that is recorded for a key is taken down. -/
def Board.take [DecidableEq κ] [DecidableEq ι] (b : Board κ ι μ) (k : κ) : Board κ ι μ where
  record := Function.update b.record k none
  shown j := if b.record k = some j then none else b.shown j

open Classical in
/-- Everything of some keys, and under some names, is wiped off. -/
noncomputable def Board.wipe (b : Board κ ι μ) (P : κ → Prop) (Q : ι → Prop) : Board κ ι μ where
  record k := if P k then none else b.record k
  shown i := if Q i then none else b.shown i

/-- Each record leads to a mark, and no two of them to the same. -/
structure Board.Sound (b : Board κ ι μ) : Prop where
  shown : ∀ k i, b.record k = some i → ∃ m, b.shown i = some m
  inj : ∀ k k' i, b.record k = some i → b.record k' = some i → k = k'

/-- The owners have the marks they want, each its own, and there are no other marks. -/
structure Board.Good (b : Board κ ι μ) (want : ω → Option (κ × μ)) : Prop where
  own : ∀ o k m, want o = some (k, m) → ∃ i, b.record k = some i ∧ b.shown i = some m
  apart : ∀ o o' k k' m m' i, want o = some (k, m) → want o' = some (k', m') →
    b.record k = some i → b.record k' = some i → o = o'
  only : ∀ i m, b.shown i = some m → ∃ o k m', want o = some (k, m') ∧ b.record k = some i

variable {b : Board κ ι μ} {want want' : ω → Option (κ × μ)} {o o' : ω} {k k' : κ} {i j : ι} {m m' : μ}

/-- Owners with the same key share a mark. -/
theorem Board.Good.eq_of_key (h : b.Good want) (ho : want o = some (k, m)) (ho' : want o' = some (k, m')) :
    o = o' := by
  obtain ⟨i, hi, -⟩ := h.own o k m ho
  exact h.apart o o' k k m m' i ho ho' hi hi

/-- Marks that are not wanted any longer are left: there must be none. -/
theorem good_forget_iff (h : b.Good want) {S : ω → Prop} (hleft : ∀ o, S o → want' o = none)
    (hstay : ∀ o, ¬ S o → want' o = want o) : b.Good want' ↔ ∀ o, S o → want o = none := by
  constructor
  · intro h' o hS
    by_contra hsome
    obtain ⟨⟨k, m⟩, hk⟩ := Option.ne_none_iff_exists'.mp hsome
    obtain ⟨i, hi, hm⟩ := h.own o k m hk
    obtain ⟨o₁, k₁, m₁, ho₁, hi₁⟩ := h'.only i m hm
    have hS₁ : ¬ S o₁ := fun hS₁ => by
      rw [hleft o₁ hS₁] at ho₁
      cases ho₁
    rw [hstay o₁ hS₁] at ho₁
    exact hS₁ (h.apart _ _ _ _ _ _ _ ho₁ hk hi₁ hi ▸ hS)
  · intro hnone
    have heq : want' = want := by
      funext o
      by_cases hS : S o
      · rw [hleft o hS, hnone o hS]
      · exact hstay o hS
    rwa [heq]

/-! ## Marks that are wiped off -/

variable {P : κ → Prop} {Q : ι → Prop}

theorem sound_wipe (h : b.Sound) (hPQ : ∀ k i, b.record k = some i → (P k ↔ Q i)) : (b.wipe P Q).Sound := by
  refine ⟨fun k₁ j hj => ?_, fun k₁ k₂ j hj hj' => ?_⟩
  · simp only [Board.wipe] at hj ⊢
    split_ifs at hj with hP
    rw [if_neg fun hQ => hP ((hPQ _ _ hj).mpr hQ)]
    exact h.shown k₁ j hj
  · simp only [Board.wipe] at hj hj'
    split_ifs at hj hj'
    exact h.inj _ _ _ hj hj'

/-- Nothing that an owner wants may be wiped off. -/
theorem good_wipe_iff (h : b.Good want) (hPQ : ∀ k i, b.record k = some i → (P k ↔ Q i)) :
    (b.wipe P Q).Good want ↔ ∀ o k m, want o = some (k, m) → ¬ P k := by
  constructor
  · intro h' o k m ho hP
    obtain ⟨i, hi, -⟩ := h'.own o k m ho
    have hnone : (b.wipe P Q).record k = none := if_pos hP
    rw [hnone] at hi
    cases hi
  · intro hP
    have hrecord : ∀ {o k m}, want o = some (k, m) → (b.wipe P Q).record k = b.record k := fun ho =>
      if_neg (hP _ _ _ ho)
    refine ⟨fun o₁ k₁ m₁ h₁ => ?_, fun o₁ o₂ k₁ k₂ m₁ m₂ j h₁ h₂ hj₁ hj₂ => ?_, fun j m₁ hj => ?_⟩
    · obtain ⟨i, hi, hm₁⟩ := h.own o₁ k₁ m₁ h₁
      have hQ : ¬ Q i := fun hQ => hP _ _ _ h₁ ((hPQ _ _ hi).mpr hQ)
      exact ⟨i, (hrecord h₁).trans hi, (if_neg hQ).trans hm₁⟩
    · rw [hrecord h₁] at hj₁
      rw [hrecord h₂] at hj₂
      exact h.apart _ _ _ _ _ _ _ h₁ h₂ hj₁ hj₂
    · simp only [Board.wipe] at hj
      split_ifs at hj
      obtain ⟨o₁, k₁, m₂, ho₁, hj₁⟩ := h.only j m₁ hj
      exact ⟨o₁, k₁, m₂, ho₁, (hrecord ho₁).trans hj₁⟩

section

variable [DecidableEq κ] [DecidableEq ι]

/-! ## Marks that are taken down -/

theorem sound_take (h : b.Sound) : (b.take k).Sound := by
  refine ⟨fun k₁ j hj => ?_, fun k₁ k₂ j hj hj' => ?_⟩
  · simp only [Board.take, Function.update_apply] at hj ⊢
    split_ifs at hj with hk
    rw [if_neg fun hkj => hk (h.inj _ _ _ hj hkj)]
    exact h.shown k₁ j hj
  · simp only [Board.take, Function.update_apply] at hj hj'
    split_ifs at hj hj' with hk hk'
    exact h.inj _ _ _ hj hj'

/-- Some owners do not want their marks any longer, and the mark for a key is taken down: they must be the
owners with this key. -/
theorem good_take_iff (hs : b.Sound) (h : b.Good want) {S : ω → Prop}
    (hleft : ∀ o, S o → want' o = none) (hstay : ∀ o, ¬ S o → want' o = want o) :
    (b.take k).Good want' ↔ ∀ o k' m, want o = some (k', m) → (S o ↔ k' = k) := by
  have hself : (b.take k).record k = none := Function.update_self ..
  have hother : ∀ {k'}, k' ≠ k → (b.take k).record k' = b.record k' := fun hk =>
    Function.update_of_ne hk ..
  have hmark : ∀ {k' j}, k' ≠ k → b.record k' = some j → (b.take k).shown j = b.shown j :=
    fun hk hj => if_neg fun hkj => hk (hs.inj _ _ _ hj hkj)
  have hwant : ∀ {o k' m}, want' o = some (k', m) → ¬ S o ∧ want o = some (k', m) := by
    intro o k' m ho
    have hS : ¬ S o := fun hS => by
      rw [hleft o hS] at ho
      cases ho
    exact ⟨hS, (hstay o hS).symm.trans ho⟩
  constructor
  · intro h' o k' m ho
    refine ⟨fun hS => ?_, fun hk => ?_⟩
    · -- otherwise the mark of `o` would be left
      by_contra hk
      obtain ⟨i, hi, hm⟩ := h.own o k' m ho
      obtain ⟨o₁, k₁, m₁, ho₁, hi₁⟩ := h'.only i m ((hmark hk hi).trans hm)
      obtain ⟨hS₁, ho₁⟩ := hwant ho₁
      have hk₁ : k₁ ≠ k := by
        rintro rfl
        rw [hself] at hi₁
        cases hi₁
      rw [hother hk₁] at hi₁
      exact hS₁ (h.apart _ _ _ _ _ _ _ ho₁ ho hi₁ hi ▸ hS)
    · by_contra hS
      subst hk
      obtain ⟨i, hi, -⟩ := h'.own o k' m ((hstay o hS).trans ho)
      rw [hself] at hi
      cases hi
  · intro hS
    have hkey : ∀ {o k' m}, want' o = some (k', m) → want o = some (k', m) ∧ k' ≠ k := fun ho =>
      ⟨(hwant ho).2, fun hk => (hwant ho).1 ((hS _ _ _ (hwant ho).2).mpr hk)⟩
    refine ⟨fun o₁ k₁ m₁ h₁ => ?_, fun o₁ o₂ k₁ k₂ m₁ m₂ j h₁ h₂ hj₁ hj₂ => ?_, fun j m₁ hj => ?_⟩
    · obtain ⟨h₁, hk₁⟩ := hkey h₁
      obtain ⟨i, hi, hm₁⟩ := h.own o₁ k₁ m₁ h₁
      exact ⟨i, (hother hk₁).trans hi, (hmark hk₁ hi).trans hm₁⟩
    · obtain ⟨h₁, hk₁⟩ := hkey h₁
      obtain ⟨h₂, hk₂⟩ := hkey h₂
      rw [hother hk₁] at hj₁
      rw [hother hk₂] at hj₂
      exact h.apart _ _ _ _ _ _ _ h₁ h₂ hj₁ hj₂
    · simp only [Board.take] at hj
      split_ifs at hj with hkj
      obtain ⟨o₁, k₁, m₂, ho₁, hj₁⟩ := h.only j m₁ hj
      have hk₁ : k₁ ≠ k := by
        rintro rfl
        exact hkj hj₁
      exact ⟨o₁, k₁, m₂, (hstay o₁ fun hS₁ => hk₁ ((hS _ _ _ ho₁).mp hS₁)).trans ho₁,
        (hother hk₁).trans hj₁⟩

/-! ## Marks that are put up -/

theorem sound_put (h : b.Sound) (hi : b.shown i = none) : (b.put k i m).Sound := by
  have hne : ∀ k' j, b.record k' = some j → j ≠ i := by
    rintro k' j hj rfl
    obtain ⟨m', hm'⟩ := h.shown k' j hj
    rw [hi] at hm'
    cases hm'
  refine ⟨fun k₁ j hj => ?_, fun k₁ k₂ j hj hj' => ?_⟩
  · simp only [Board.put, Function.update_apply] at hj ⊢
    split_ifs at hj with hk
    · exact ⟨m, if_pos (Option.some.inj hj).symm⟩
    · rw [if_neg (hne _ _ hj)]
      exact h.shown k₁ j hj
  · simp only [Board.put, Function.update_apply] at hj hj'
    split_ifs at hj hj' with hk hk' hk'
    · exact hk.trans hk'.symm
    · exact absurd (Option.some.inj hj).symm (hne _ _ hj')
    · exact absurd (Option.some.inj hj').symm (hne _ _ hj)
    · exact h.inj _ _ _ hj hj'

/-- A mark that an owner wants is put up: it must be the right one, the first one of this owner, and the
only one with its key. -/
theorem good_put_iff [DecidableEq ω] (hs : b.Sound) (h : b.Good want) (hi : b.shown i = none) :
    (b.put k i m).Good (Function.update want o (some (k, m'))) ↔
      want o = none ∧ m = m' ∧ ∀ o' ≠ o, ∀ m'', want o' ≠ some (k, m'') := by
  have hne : ∀ {k' j}, b.record k' = some j → j ≠ i := by
    rintro k' j hj rfl
    obtain ⟨m', hm'⟩ := hs.shown k' j hj
    rw [hi] at hm'
    cases hm'
  have hself : (b.put k i m).record k = some i := Function.update_self ..
  have hother : ∀ {k'}, k' ≠ k → (b.put k i m).record k' = b.record k' := fun hk =>
    Function.update_of_ne hk ..
  have hmark : ∀ {j}, j ≠ i → (b.put k i m).shown j = b.shown j := fun hj => Function.update_of_ne hj ..
  constructor
  · intro h'
    have hwant : Function.update want o (some (k, m')) o = some (k, m') := Function.update_self ..
    refine ⟨?_, ?_, fun o' ho' m'' hk => ?_⟩
    · -- a mark that the owner has had would be left
      by_contra hsome
      obtain ⟨⟨k₀, m₀⟩, hk₀⟩ := Option.ne_none_iff_exists'.mp hsome
      obtain ⟨j, hj, hm₀⟩ := h.own o k₀ m₀ hk₀
      obtain ⟨o₁, k₁, m₁, ho₁, hj₁⟩ := h'.only j m₀ ((hmark (hne hj)).trans hm₀)
      have hk₁ : k₁ ≠ k := by
        rintro rfl
        rw [hself] at hj₁
        exact hne hj (Option.some.inj hj₁).symm
      rw [hother hk₁] at hj₁
      have hoo₁ : o₁ ≠ o := by
        rintro rfl
        rw [hwant] at ho₁
        exact hk₁ (Prod.mk.inj (Option.some.inj ho₁)).1.symm
      rw [Function.update_of_ne hoo₁] at ho₁
      exact hoo₁ (h.apart _ _ _ _ _ _ _ ho₁ hk₀ hj₁ hj)
    · obtain ⟨j, hj, hm⟩ := h'.own o k m' hwant
      obtain rfl := Option.some.inj (hself.symm.trans hj)
      have hi : (b.put k i m).shown i = some m := Function.update_self ..
      exact Option.some.inj (hi.symm.trans hm)
    · exact ho' (h'.eq_of_key ((Function.update_of_ne ho' ..).trans hk) hwant)
  · rintro ⟨hnone, rfl, hfree⟩
    have hkey : ∀ {o' k' m''}, want o' = some (k', m'') → o' ≠ o ∧ k' ≠ k := by
      intro o' k' m'' ho'
      have hoo' : o' ≠ o := by
        rintro rfl
        rw [hnone] at ho'
        cases ho'
      refine ⟨hoo', ?_⟩
      rintro rfl
      exact hfree o' hoo' m'' ho'
    refine ⟨fun o₁ k₁ m₁ h₁ => ?_, fun o₁ o₂ k₁ k₂ m₁ m₂ j h₁ h₂ hj₁ hj₂ => ?_, fun j m₁ hj => ?_⟩
    · rw [Function.update_apply] at h₁
      split_ifs at h₁ with ho₁
      · cases h₁
        exact ⟨i, hself, Function.update_self ..⟩
      · obtain ⟨j, hj, hm₁⟩ := h.own o₁ k₁ m₁ h₁
        exact ⟨j, (hother (hkey h₁).2).trans hj, (hmark (hne hj)).trans hm₁⟩
    · rw [Function.update_apply] at h₁ h₂
      split_ifs at h₁ h₂ with ho₁ ho₂ ho₂
      · exact ho₁.trans ho₂.symm
      · cases h₁
        rw [hself] at hj₁
        rw [hother (hkey h₂).2] at hj₂
        exact absurd (Option.some.inj hj₁).symm (hne hj₂)
      · cases h₂
        rw [hself] at hj₂
        rw [hother (hkey h₁).2] at hj₁
        exact absurd (Option.some.inj hj₂).symm (hne hj₁)
      · rw [hother (hkey h₁).2] at hj₁
        rw [hother (hkey h₂).2] at hj₂
        exact h.apart _ _ _ _ _ _ _ h₁ h₂ hj₁ hj₂
    · by_cases hji : j = i
      · subst hji
        exact ⟨o, k, m, Function.update_self .., hself⟩
      · rw [hmark hji] at hj
        obtain ⟨o₁, k₁, m₂, ho₁, hj₁⟩ := h.only j m₁ hj
        obtain ⟨hoo₁, hk₁⟩ := hkey ho₁
        exact ⟨o₁, k₁, m₂, (Function.update_of_ne hoo₁ ..).trans ho₁, (hother hk₁).trans hj₁⟩

end

end Boards
