import Mathlib.Data.List.Basic
import Mathlib.Tactic.Common

/-!
# Texts with marks

A text is put together from pieces, and some pieces show something.  Lines end at a separator.

* `Piece`, `text`: the pieces and their text.
* `breaks`: the separators in a text, of which each ends a line.
* `marks`: what is shown, each with its line.
* `mem_marks`: a mark is on the line on which its piece begins.
* `Ascending`, `Ascending.append`: marks with one line after the other.
* `Nearest`, `Nearest.enter`: each mark is behind an entry of its object, with no other one between.
-/

namespace MarkedText

variable {A M N : Type*}

/-- A piece of a text, and what it shows. -/
structure Piece (A M : Type*) where
  text : List A
  shows : Option M := none
  deriving DecidableEq

/-- The text of some pieces. -/
def text (ps : List (Piece A M)) : List A := ps.flatMap Piece.text

/-- The separators in the text. -/
def breaks [DecidableEq A] (z : A) (ps : List (Piece A M)) : Nat := (text ps).count z

/-- What the pieces show, with its line; `n` is the line on which they begin. -/
def marks [DecidableEq A] (z : A) : Nat → List (Piece A M) → List (Nat × M)
  | _, [] => []
  | n, p :: ps => p.shows.toList.map (fun m => (n, m)) ++ marks z (n + p.text.count z) ps

/-- Marks of one kind. -/
def kind (f : M → Option N) (es : List (Nat × M)) : List (Nat × N) :=
  es.filterMap fun e => (f e.2).map fun m => (e.1, m)

/-- One line after the other, all in front of line `n`. -/
def Ascending (n : Nat) (es : List (Nat × M)) : Prop :=
  es.Pairwise (fun d e => d.1 < e.1) ∧ ∀ e ∈ es, e.1 < n

/-! ## Texts -/

theorem text_append (ps qs : List (Piece A M)) : text (ps ++ qs) = text ps ++ text qs :=
  List.flatMap_append

theorem text_singleton (p : Piece A M) : text [p] = p.text := List.append_nil _

section
variable [DecidableEq A] {z : A}

@[simp] theorem breaks_nil : breaks z ([] : List (Piece A M)) = 0 := rfl

@[simp] theorem breaks_append (ps qs : List (Piece A M)) :
    breaks z (ps ++ qs) = breaks z ps + breaks z qs := by
  unfold breaks
  rw [text_append, List.count_append]

@[simp] theorem breaks_cons (p : Piece A M) (ps : List (Piece A M)) :
    breaks z (p :: ps) = p.text.count z + breaks z ps := by
  unfold breaks text
  rw [List.flatMap_cons, List.count_append]

/-- There are no more lines than characters. -/
theorem breaks_le (ps : List (Piece A M)) : breaks z ps ≤ (text ps).length := List.count_le_length

/-! ## Marks -/

@[simp] theorem marks_nil (n : Nat) : marks z n ([] : List (Piece A M)) = [] := rfl

theorem marks_append (n : Nat) (ps qs : List (Piece A M)) :
    marks z n (ps ++ qs) = marks z n ps ++ marks z (n + breaks z ps) qs := by
  induction ps generalizing n with
  | nil => rfl
  | cons p ps ih =>
      rw [List.cons_append, marks, marks, ih, breaks_cons, List.append_assoc, Nat.add_assoc]

theorem marks_singleton (n : Nat) (p : Piece A M) :
    marks z n [p] = p.shows.toList.map fun m => (n, m) := List.append_nil _

/-- A mark is on the line on which its piece begins. -/
theorem mem_marks {n l : Nat} {m : M} {ps : List (Piece A M)} : (l, m) ∈ marks z n ps ↔
    ∃ pre p post, ps = pre ++ p :: post ∧ p.shows = some m ∧ l = n + breaks z pre := by
  induction ps generalizing n with
  | nil => simp
  | cons p ps ih =>
      rw [marks, List.mem_append, ih]
      constructor
      · rintro (h | ⟨pre, q, post, rfl, hq, rfl⟩)
        · obtain ⟨m', hm', heq⟩ := List.mem_map.mp h
          obtain ⟨rfl, rfl⟩ := Prod.mk.inj heq
          exact ⟨[], p, ps, rfl, Option.mem_toList.mp hm', rfl⟩
        · exact ⟨p :: pre, q, post, rfl, hq, by rw [breaks_cons, Nat.add_assoc]⟩
      · rintro ⟨pre, q, post, heq, hq, rfl⟩
        cases pre with
        | nil =>
            obtain ⟨rfl, rfl⟩ := List.cons.inj heq
            exact Or.inl (List.mem_map.mpr ⟨m, Option.mem_toList.mpr hq, rfl⟩)
        | cons p' pre =>
            obtain ⟨rfl, rfl⟩ := List.cons.inj heq
            exact Or.inr ⟨pre, q, post, rfl, hq, by rw [breaks_cons, Nat.add_assoc]⟩

theorem marks_line_le {n l : Nat} {m : M} {ps : List (Piece A M)} (h : (l, m) ∈ marks z n ps) :
    l ≤ n + breaks z ps := by
  obtain ⟨pre, p, post, rfl, -, rfl⟩ := mem_marks.mp h
  rw [breaks_append]
  omega

end

/-! ## Marks of one kind -/

theorem kind_append (f : M → Option N) (es fs : List (Nat × M)) :
    kind f (es ++ fs) = kind f es ++ kind f fs := List.filterMap_append

theorem mem_kind {f : M → Option N} {es : List (Nat × M)} {l : Nat} {x : N} :
    (l, x) ∈ kind f es ↔ ∃ m, (l, m) ∈ es ∧ f m = some x := by
  unfold kind
  rw [List.mem_filterMap]
  constructor
  · rintro ⟨⟨l', m⟩, hmem, heq⟩
    obtain ⟨x', hx', heq⟩ := Option.map_eq_some_iff.mp heq
    obtain ⟨rfl, rfl⟩ := Prod.mk.inj heq
    exact ⟨m, hmem, hx'⟩
  · rintro ⟨m, hmem, hf⟩
    exact ⟨(l, m), hmem, by rw [hf]; rfl⟩

/-! ## Ascending marks -/

theorem ascending_nil (n : Nat) : Ascending n ([] : List (Nat × M)) := ⟨.nil, nofun⟩

theorem Ascending.mono {n n' : Nat} {es : List (Nat × M)} (h : Ascending n es) (hle : n ≤ n') :
    Ascending n' es := ⟨h.1, fun e he => Nat.lt_of_lt_of_le (h.2 e he) hle⟩

/-- Marks behind a line follow those in front of it. -/
theorem Ascending.append {n n' : Nat} {es fs : List (Nat × M)} (h : Ascending n es)
    (h' : Ascending n' fs) (hle : n ≤ n') (hfs : ∀ e ∈ fs, n ≤ e.1) : Ascending n' (es ++ fs) := by
  refine ⟨List.pairwise_append.mpr ⟨h.1, h'.1, fun d hd e he => ?_⟩, fun e he => ?_⟩
  · exact Nat.lt_of_lt_of_le (h.2 d hd) (hfs e he)
  · rcases List.mem_append.mp he with he | he
    · exact Nat.lt_of_lt_of_le (h.2 e he) hle
    · exact h'.2 e he

/-- One more mark. -/
theorem Ascending.snoc {n n' l : Nat} {es : List (Nat × M)} (h : Ascending n es) (hn : n ≤ l)
    (hl : l < n') (m : M) : Ascending n' (es ++ [(l, m)]) := by
  refine h.append ⟨List.pairwise_singleton _ _, fun e he => ?_⟩ (by omega) fun e he => ?_
  · obtain rfl := List.mem_singleton.mp he
    exact hl
  · obtain rfl := List.mem_singleton.mp he
    exact hn

/-! ## Entries and marks -/

/-- Each mark is behind an entry of its object, and no other entry is between them. -/
def Nearest (es ms : List (Nat × M)) : Prop := ∀ l m, (l, m) ∈ ms →
  ∃ c, (c, m) ∈ es ∧ c ≤ l ∧ ∀ e ∈ es, e.1 ≤ l → e.1 ≤ c

theorem nearest_nil (es : List (Nat × M)) : Nearest es [] := nofun

/-- An object is entered on line `n`, and the marks from there on are its own. -/
theorem Nearest.enter {n : Nat} {es ms ms' : List (Nat × M)} {m : M} (h : Nearest es ms)
    (hes : Ascending n es) (hms : ∀ e ∈ ms, e.1 < n) (hms' : ∀ e ∈ ms', n ≤ e.1 ∧ e.2 = m) :
    Nearest (es ++ [(n, m)]) (ms ++ ms') := by
  intro l x hmem
  rcases List.mem_append.mp hmem with hmem | hmem
  · obtain ⟨c, hc, hle, hlast⟩ := h l x hmem
    refine ⟨c, List.mem_append_left _ hc, hle, fun e he hel => ?_⟩
    rcases List.mem_append.mp he with he | he
    · exact hlast e he hel
    · obtain rfl := List.mem_singleton.mp he
      exact absurd (hms _ hmem) (Nat.not_lt.mpr hel)
  · obtain ⟨hle, rfl⟩ := hms' _ hmem
    refine ⟨n, List.mem_append_right _ List.mem_cons_self, hle, fun e he _ => ?_⟩
    rcases List.mem_append.mp he with he | he
    · exact Nat.le_of_lt (hes.2 e he)
    · obtain rfl := List.mem_singleton.mp he
      exact Nat.le_refl n

end MarkedText
