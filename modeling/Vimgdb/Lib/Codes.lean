import Mathlib.InformationTheory.Coding.UniquelyDecodable
import Mathlib.Tactic.Common
import Mathlib.Data.Set.Function

/-!
# Codes

Texts that are made of words, without anything between them.

* `Dangling S`: what can be left over when two sequences of words are laid one on the other.
* `uniquelyDecodable_iff`: the criterion of Sardinas and Patterson.
* `injective_flatMap_iff`: the symbols can be told from their texts.
-/

namespace Codes

open InformationTheory

variable {α σ : Type*} {S : Set (List α)}

/-! ## Dangling suffixes -/

/-- Two sequences of words that begin with different words are laid one on the other: what is left
of the longer one. -/
inductive Dangling (S : Set (List α)) : List α → Prop
  | start {w d : List α} : w ∈ S → w ++ d ∈ S → d ≠ [] → Dangling S d
  | shorter {w d : List α} : Dangling S (w ++ d) → w ∈ S → Dangling S d
  | longer {d e : List α} : Dangling S d → d ++ e ∈ S → Dangling S e

/-- The sequences of words. -/
theorem Dangling.exists_words {d : List α} (h : Dangling S d) : ∃ u v L M, u ≠ v ∧
    (∀ w ∈ u :: L, w ∈ S) ∧ (∀ w ∈ v :: M, w ∈ S) ∧ (u :: L).flatten = (v :: M).flatten ++ d := by
  induction h with
  | @start w d hw hwd hd =>
      refine ⟨w ++ d, w, [], [], fun heq => hd ?_, ?_, ?_, by simp⟩
      · exact List.append_right_eq_self.mp heq
      · simpa using hwd
      · simpa using hw
  | @shorter w d _ hw ih =>
      obtain ⟨u, v, L, M, hne, hL, hM, hflat⟩ := ih
      refine ⟨u, v, L, M ++ [w], hne, hL, ?_, ?_⟩
      · intro x hx
        rw [← List.cons_append] at hx
        rcases List.mem_append.mp hx with hx | hx
        · exact hM x hx
        · exact (List.mem_singleton.mp hx) ▸ hw
      · rw [hflat, ← List.cons_append, List.flatten_append]
        simp
  | @longer d e _ hde ih =>
      obtain ⟨u, v, L, M, hne, hL, hM, hflat⟩ := ih
      refine ⟨v, u, M ++ [d ++ e], L, hne.symm, ?_, hL, ?_⟩
      · intro x hx
        rw [← List.cons_append] at hx
        rcases List.mem_append.mp hx with hx | hx
        · exact hM x hx
        · exact (List.mem_singleton.mp hx) ▸ hde
      · rw [hflat, ← List.cons_append, List.flatten_append]
        simp

/-- What dangles is made up for by words: at some point nothing is left over. -/
theorem Dangling.nil_of_flatten {d : List α} (h : Dangling S d) {L M : List (List α)}
    (hL : ∀ w ∈ L, w ∈ S) (hM : ∀ w ∈ M, w ∈ S) (heq : d ++ L.flatten = M.flatten) :
    Dangling S [] := by
  -- each word makes the sequences shorter
  induction hn : L.length + M.length generalizing d L M with
  | zero =>
      obtain rfl : L = [] := List.eq_nil_of_length_eq_zero (by omega)
      obtain rfl : M = [] := List.eq_nil_of_length_eq_zero (by omega)
      rw [List.flatten_nil, List.append_nil] at heq
      exact heq ▸ h
  | succ n ih =>
      cases M with
      | nil =>
          rw [List.flatten_nil] at heq
          exact (List.append_eq_nil_iff.mp heq).1 ▸ h
      | cons m M =>
          rw [List.length_cons] at hn
          rw [List.flatten_cons] at heq
          have hm := hM m List.mem_cons_self
          have hrest := fun w hw => hM w (List.mem_cons_of_mem m hw)
          rcases List.append_eq_append_iff.mp heq with ⟨e, rfl, hL'⟩ | ⟨e, rfl, hM'⟩
          · exact ih (h.longer hm) hrest hL hL'.symm (by omega)
          · exact ih (h.shorter hm) hL hrest hM'.symm (by omega)

/-- The words can be told from every text that is made of them iff no word is empty and nothing
comes to an end together. -/
theorem uniquelyDecodable_iff : UniquelyDecodable S ↔ [] ∉ S ∧ ¬ Dangling S [] := by
  constructor
  · intro h
    refine ⟨h.epsilon_not_mem, fun hnil => ?_⟩
    obtain ⟨u, v, L, M, hne, hL, hM, hflat⟩ := hnil.exists_words
    rw [List.append_nil] at hflat
    exact hne (List.cons.inj (h _ _ hL hM hflat)).1
  · rintro ⟨hempty, hnil⟩ L M hL hM hflat
    induction L generalizing M with
    | nil =>
        cases M with
        | nil => rfl
        | cons m M =>
            have hm : m = [] := (List.append_eq_nil_iff.mp hflat.symm).1
            exact absurd (hm ▸ hM m List.mem_cons_self) hempty
    | cons l L ih =>
        have hl := hL l List.mem_cons_self
        have hLrest := fun w hw => hL w (List.mem_cons_of_mem l hw)
        cases M with
        | nil =>
            have hl' : l = [] := (List.append_eq_nil_iff.mp hflat).1
            exact absurd (hl' ▸ hl) hempty
        | cons m M =>
            have hm := hM m List.mem_cons_self
            have hMrest := fun w hw => hM w (List.mem_cons_of_mem m hw)
            rw [List.flatten_cons, List.flatten_cons] at hflat
            by_cases hlm : l = m
            · subst hlm
              rw [ih M hLrest hMrest (List.append_cancel_left hflat)]
            · refine absurd ?_ hnil
              rcases List.append_eq_append_iff.mp hflat with ⟨d, rfl, hd⟩ | ⟨d, rfl, hd⟩
              · have hne : d ≠ [] := fun heq => hlm (by rw [heq, List.append_nil])
                exact (Dangling.start hl hm hne).nil_of_flatten hMrest hLrest hd.symm
              · have hne : d ≠ [] := fun heq => hlm (by rw [heq, List.append_nil])
                exact (Dangling.start hm hl hne).nil_of_flatten hLrest hMrest hd.symm

/-! ## Symbols -/

variable {A : Set σ} {text : σ → List α}

/-- The symbols can be told from every text that is made of theirs iff different ones have different
texts, and the texts can be told. -/
theorem injective_flatMap_iff :
    (∀ u v : List σ, (∀ x ∈ u, x ∈ A) → (∀ x ∈ v, x ∈ A) → u.flatMap text = v.flatMap text → u = v) ↔
      Set.InjOn text A ∧ UniquelyDecodable (text '' A) := by
  constructor
  · intro h
    refine ⟨fun x hx y hy heq => ?_, fun L M hL hM hflat => ?_⟩
    · have hxy := h [x] [y] (by simpa using hx) (by simpa using hy) (by simpa using heq)
      exact (List.cons.inj hxy).1
    · have hsymbols : ∀ {L : List (List α)}, (∀ w ∈ L, w ∈ text '' A) →
          ∃ u : List σ, (∀ x ∈ u, x ∈ A) ∧ u.map text = L := by
        intro L hL
        induction L with
        | nil => exact ⟨[], fun x hx => absurd hx List.not_mem_nil, rfl⟩
        | cons w L ih =>
            obtain ⟨x, hx, rfl⟩ := hL w List.mem_cons_self
            obtain ⟨u, hu, rfl⟩ := ih fun w hw => hL w (List.mem_cons_of_mem _ hw)
            refine ⟨x :: u, fun y hy => ?_, rfl⟩
            rcases List.mem_cons.mp hy with rfl | hy
            · exact hx
            · exact hu y hy
      obtain ⟨u, hu, rfl⟩ := hsymbols hL
      obtain ⟨v, hv, rfl⟩ := hsymbols hM
      rw [h u v hu hv hflat]
  · rintro ⟨hinj, hdec⟩ u v hu hv hflat
    have hmap : u.map text = v.map text := by
      refine hdec _ _ (fun w hw => ?_) (fun w hw => ?_) hflat
      · obtain ⟨x, hx, rfl⟩ := List.mem_map.mp hw
        exact ⟨x, hu x hx, rfl⟩
      · obtain ⟨x, hx, rfl⟩ := List.mem_map.mp hw
        exact ⟨x, hv x hx, rfl⟩
    clear hflat
    induction u generalizing v with
    | nil => exact (List.map_eq_nil_iff.mp hmap.symm).symm
    | cons x u ih =>
        cases v with
        | nil => cases hmap
        | cons y v =>
            obtain ⟨hxy, huv⟩ := List.cons.inj hmap
            rw [hinj (hu x List.mem_cons_self) (hv y List.mem_cons_self) hxy,
              ih v (fun z hz => hu z (List.mem_cons_of_mem x hz))
                (fun z hz => hv z (List.mem_cons_of_mem y hz)) huv]

end Codes
