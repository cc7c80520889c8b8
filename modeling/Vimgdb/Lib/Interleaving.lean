import Mathlib.Data.List.Chain
import Mathlib.Tactic.Common

/-!
# Texts written piece by piece by several writers

Several writers append pieces of their texts to one stream.  Every element carries the tag of the
text it belongs to, and a text is to end with a separator.

* `Layout`: whole texts, each with one separator at its end, and the beginning of a line.
* `Separate`: the beginning of the line belongs to one text.
* `Layout.extend`, `Layout.complete`: what a writer may append.
* `Separate.isChain`: the tag only changes behind a separator.
* `Separate.length_le`: behind its separator a text is there completely.
-/

namespace Interleaving

variable {ι α : Type*} {sep : α} {text : ι → List α}

/-! ## Layouts -/

/-- A list with the tag `k` on every element. -/
def tagged (k : ι) (l : List α) : List (ι × α) := l.map (k, ·)

@[simp] theorem tagged_nil (k : ι) : tagged k ([] : List α) = [] := rfl

@[simp] theorem tagged_append (k : ι) (l l' : List α) :
    tagged k (l ++ l') = tagged k l ++ tagged k l' := List.map_append

@[simp] theorem tagged_eq_nil {k : ι} {l : List α} : tagged k l = [] ↔ l = [] := List.map_eq_nil_iff

@[simp] theorem mem_tagged {k : ι} {l : List α} {b : ι × α} :
    b ∈ tagged k l ↔ b.1 = k ∧ b.2 ∈ l := by
  obtain ⟨j, a⟩ := b
  simp [tagged, and_comm, eq_comm]

/-- The list ends with its only separator. -/
def IsLine (sep : α) (l : List α) : Prop := ∃ x, l = x ++ [sep] ∧ sep ∉ x

/-- The stream consists of whole texts, each of them a line, and of `last`. -/
structure Layout (sep : α) (text : ι → List α) (stream last : List (ι × α)) : Prop where
  lines : ∃ ks : List ι, stream = ks.flatMap (fun k => tagged k (text k)) ++ last ∧
    ∀ k ∈ ks, IsLine sep (text k)
  noSep : ∀ b ∈ last, b.2 ≠ sep

/-- Each line of the stream belongs to one text, and all but the last are whole texts. -/
def Separate (sep : α) (text : ι → List α) (stream : List (ι × α)) : Prop :=
  ∃ last k, Layout sep text stream last ∧ last <+: tagged k (text k)

theorem layout_nil : Layout sep text [] [] where
  lines := ⟨[], rfl, by simp⟩
  noSep := by simp

/-- A piece without a separator belongs to the last line. -/
theorem Layout.extend {stream last : List (ι × α)} (h : Layout sep text stream last) (k : ι)
    {p : List α} (hp : sep ∉ p) :
    Layout sep text (stream ++ tagged k p) (last ++ tagged k p) where
  lines := by
    obtain ⟨ks, rfl, hlines⟩ := h.lines
    exact ⟨ks, by rw [List.append_assoc], hlines⟩
  noSep b hb := by
    rcases List.mem_append.mp hb with hb | hb
    · exact h.noSep b hb
    · exact fun heq => hp (heq ▸ (mem_tagged.mp hb).2)

/-- A separator completes the last line. -/
theorem Layout.complete {stream : List (ι × α)} {k : ι} {l : List α}
    (h : Layout sep text stream (tagged k l)) (htext : text k = l ++ [sep]) :
    Layout sep text (stream ++ tagged k [sep]) [] where
  lines := by
    obtain ⟨ks, rfl, hlines⟩ := h.lines
    refine ⟨ks ++ [k], by simp [htext], fun j hj => ?_⟩
    rcases List.mem_append.mp hj with hj | hj
    · exact hlines j hj
    · rw [List.mem_singleton.mp hj]
      exact ⟨l, htext, fun hsep => h.noSep (k, sep) (mem_tagged.mpr ⟨rfl, hsep⟩) rfl⟩
  noSep := by simp

/-! ## What the lines of a stream tell -/

theorem isChain_tagged (sep : α) (k : ι) (l : List α) :
    (tagged k l).IsChain fun b c => b.1 = c.1 ∨ b.2 = sep := by
  rw [tagged, List.isChain_map]
  exact (List.pairwise_of_forall fun _ _ => Or.inl rfl).isChain

theorem isChain_lines {ks : List ι} (h : ∀ k ∈ ks, IsLine sep (text k)) {l : List (ι × α)}
    (hl : l.IsChain fun b c => b.1 = c.1 ∨ b.2 = sep) :
    (ks.flatMap (fun k => tagged k (text k)) ++ l).IsChain fun b c => b.1 = c.1 ∨ b.2 = sep := by
  induction ks with
  | nil => exact hl
  | cons k ks ih =>
      rw [List.flatMap_cons, List.append_assoc]
      refine List.isChain_append.mpr ⟨isChain_tagged sep k _,
        ih fun j hj => h j (List.mem_cons_of_mem _ hj), fun b hb c _ => Or.inr ?_⟩
      obtain ⟨x, htext, -⟩ := h k List.mem_cons_self
      rw [htext, tagged_append] at hb
      have hlast : b = (k, sep) := by simpa [tagged] using hb.symm
      rw [hlast]

/-- The tag only changes behind a separator. -/
theorem Separate.isChain {stream : List (ι × α)} (h : Separate sep text stream) :
    stream.IsChain fun b c => b.1 = c.1 ∨ b.2 = sep := by
  obtain ⟨last, k, hlay, rest, hrest⟩ := h
  obtain ⟨ks, rfl, hlines⟩ := hlay.lines
  have htext := isChain_tagged sep k (text k)
  rw [← hrest] at htext
  exact isChain_lines hlines (List.isChain_append.mp htext).1

/-- Behind the separator of a text the stream holds the text completely. -/
theorem Separate.length_le [DecidableEq ι] {stream : List (ι × α)} (h : Separate sep text stream)
    {k : ι} (hmem : (k, sep) ∈ stream) :
    (text k).length ≤ (stream.filter (·.1 = k)).length := by
  obtain ⟨last, j, hlay, -⟩ := h
  obtain ⟨ks, rfl, -⟩ := hlay.lines
  rcases List.mem_append.mp hmem with hmem | hmem
  · obtain ⟨i, hi, hik⟩ := List.mem_flatMap.mp hmem
    obtain rfl : k = i := (mem_tagged.mp hik).1
    have hin : tagged k (text k) ∈ ks.map fun k => tagged k (text k) :=
      List.mem_map.mpr ⟨k, hi, rfl⟩
    have hsub : (tagged k (text k)).Sublist (ks.flatMap (fun k => tagged k (text k)) ++ last) :=
      (List.sublist_flatten_of_mem hin).trans (List.sublist_append_left _ _)
    have hfilter : (tagged k (text k)).filter (·.1 = k) = tagged k (text k) :=
      List.filter_eq_self.mpr fun b hb => by simpa using (mem_tagged.mp hb).1
    have := (hsub.filter (·.1 = k)).length_le
    rwa [hfilter, tagged, List.length_map] at this
  · exact absurd rfl (hlay.noSep _ hmem)

end Interleaving
