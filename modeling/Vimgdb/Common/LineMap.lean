import Mathlib.Algebra.Ring.Nat
import Mathlib.Tactic.Common
import Vimgdb.Lib.MarkedText

/-!
# Line maps

A `line_map` says what is shown from a line of a window on.

* `LineMap.find`: what is shown at a line.
* `LineMap.mem_of_find`: it is one of the entries.
* `LineMap.find_eq_none_iff`, `LineMap.find_append_cons`: what is found, from the entries;
  `LineMap.find_eq_some_iff` when their lines ascend.
* `LineMap.ofMarks`: the map of some lines; `LineMap.find_ofMarks` for lines that ascend.
* `LineMap.Describes`: what a text shows is found on its lines; `LineMap.describes_iff`.
-/

namespace Vimgdb

/-- `line_map`: the entries in the order in which they were added. -/
abbrev LineMap (α : Type) := List (BitVec 32 × α)

variable {α : Type}

/-- `add` -/
def LineMap.add (m : LineMap α) (line : BitVec 32) (data : α) : LineMap α := m ++ [(line, data)]

/-- `find`: the last entry that is not behind the line. -/
def LineMap.find (m : LineMap α) (line : BitVec 32) : Option α :=
  (m.reverse.find? fun e => decide (e.1 ≤ line)).map Prod.snd

/-- The objects in the map. -/
def LineMap.objects (m : LineMap α) : List α := m.map Prod.snd

theorem LineMap.objects_add (m : LineMap α) (line : BitVec 32) (data : α) :
    (m.add line data).objects = m.objects ++ [data] := by
  unfold LineMap.add LineMap.objects
  rw [List.map_append]
  rfl

/-- What is found is in the map. -/
theorem LineMap.mem_of_find {m : LineMap α} {line : BitVec 32} {data : α}
    (h : m.find line = some data) : data ∈ m.objects := by
  obtain ⟨e, he, rfl⟩ := Option.map_eq_some_iff.mp h
  exact List.mem_map_of_mem (List.mem_reverse.mp (List.mem_of_find?_eq_some he))

/-- Nothing is found in front of the first entry. -/
theorem LineMap.find_eq_none_iff {m : LineMap α} {line : BitVec 32} :
    m.find line = none ↔ ∀ e ∈ m, ¬ e.1 ≤ line := by
  unfold LineMap.find
  rw [Option.map_eq_none_iff, List.find?_eq_none]
  simp only [List.mem_reverse, decide_eq_true_eq]

/-- An entry is found as long as those behind it are behind the line. -/
theorem LineMap.find_append_cons {m m' : LineMap α} {e : BitVec 32 × α} {line : BitVec 32}
    (h : e.1 ≤ line) (hbehind : ∀ x ∈ m', ¬ x.1 ≤ line) :
    LineMap.find (m ++ e :: m') line = some e.2 := by
  have hnone : m'.reverse.find? (fun x => decide (x.1 ≤ line)) = none := by
    rw [List.find?_eq_none]
    intro x hx
    rw [decide_eq_true_eq]
    exact hbehind x (List.mem_reverse.mp hx)
  have hfound : (e :: m.reverse).find? (fun x => decide (x.1 ≤ line)) = some e :=
    List.find?_cons_of_pos (decide_eq_true h)
  unfold LineMap.find
  rw [List.reverse_append, List.reverse_cons, List.append_assoc, List.find?_append, hnone,
    Option.none_or, List.singleton_append, hfound]
  rfl

/-- Of entries on ascending lines, the one that is found is the last one that is not behind the line. -/
theorem LineMap.find_eq_some_iff {m : LineMap α} (h : m.Pairwise fun d e => d.1 < e.1)
    (line : BitVec 32) (data : α) : m.find line = some data ↔
      ∃ c, (c, data) ∈ m ∧ c ≤ line ∧ ∀ e ∈ m, e.1 ≤ line → e.1 ≤ c := by
  constructor
  · intro hfind
    obtain ⟨e, he, rfl⟩ := Option.map_eq_some_iff.mp hfind
    obtain ⟨hle, as, bs, hsplit, has⟩ := List.find?_eq_some_iff_append.mp he
    have hm : m = bs.reverse ++ e :: as.reverse := by
      rw [← List.reverse_reverse m, hsplit, List.reverse_append, List.reverse_cons, List.append_assoc,
        List.singleton_append]
    subst hm
    refine ⟨e.1, List.mem_append_right _ List.mem_cons_self, of_decide_eq_true hle, ?_⟩
    intro x hx hxl
    rcases List.mem_append.mp hx with hx | hx
    · exact BitVec.le_of_lt ((List.pairwise_append.mp h).2.2 x hx e List.mem_cons_self)
    · rcases List.mem_cons.mp hx with rfl | hx
      · exact BitVec.le_refl _
      · have hnot := has x (List.mem_reverse.mp hx)
        rw [Bool.not_eq_true', decide_eq_false_iff_not] at hnot
        exact absurd hxl hnot
  · rintro ⟨c, hmem, hle, hlast⟩
    obtain ⟨as, bs, rfl⟩ := List.append_of_mem hmem
    refine LineMap.find_append_cons hle fun x hx hxl => ?_
    have hlt := (List.pairwise_cons.mp (List.pairwise_append.mp h).2.1).1 x hx
    have hxc := hlast x (List.mem_append_right _ (List.mem_cons_of_mem _ hx)) hxl
    exact absurd hlt (BitVec.not_lt.mpr hxc)

/-! ## The lines of a text -/

/-- The map in which `es` have been entered. -/
def LineMap.ofMarks (es : List (Nat × α)) : LineMap α := es.map fun e => (BitVec.ofNat 32 e.1, e.2)

theorem LineMap.ofMarks_append (es fs : List (Nat × α)) :
    LineMap.ofMarks (es ++ fs) = LineMap.ofMarks es ++ LineMap.ofMarks fs := List.map_append

theorem LineMap.ofMarks_snoc (es : List (Nat × α)) (l : Nat) (data : α) :
    LineMap.ofMarks (es ++ [(l, data)]) = (LineMap.ofMarks es).add (BitVec.ofNat 32 l) data :=
  LineMap.ofMarks_append es [(l, data)]

theorem LineMap.ofNat_le_iff {k l : Nat} (hk : k < 2 ^ 32) (hl : l < 2 ^ 32) :
    BitVec.ofNat 32 k ≤ BitVec.ofNat 32 l ↔ k ≤ l := by
  rw [BitVec.le_def, BitVec.toNat_ofNat, BitVec.toNat_ofNat, Nat.mod_eq_of_lt hk, Nat.mod_eq_of_lt hl]

/-- Lines that ascend do so in 32 bits. -/
theorem LineMap.pairwise_ofMarks {es : List (Nat × α)} {n : Nat} (hn : n ≤ 2 ^ 32)
    (h : MarkedText.Ascending n es) : (LineMap.ofMarks es).Pairwise fun d e => d.1 < e.1 := by
  refine List.pairwise_map.mpr (h.1.imp_of_mem fun {d e} hd he hlt => ?_)
  have hd' := h.2 d hd
  have he' := h.2 e he
  rw [BitVec.lt_def, BitVec.toNat_ofNat, BitVec.toNat_ofNat, Nat.mod_eq_of_lt (by omega),
    Nat.mod_eq_of_lt (by omega)]
  exact hlt

/-- From an entry on it is found, up to the next one. -/
theorem LineMap.find_ofMarks {es fs : List (Nat × α)} {k l n : Nat} {data : α} (hn : n ≤ 2 ^ 32)
    (h : MarkedText.Ascending n (es ++ (k, data) :: fs)) (hkl : k ≤ l) (hl : l < 2 ^ 32)
    (hfs : ∀ e ∈ fs, l < e.1) : (LineMap.ofMarks (es ++ (k, data) :: fs)).find (BitVec.ofNat 32 l) =
      some data := by
  have hlt : ∀ e ∈ es ++ (k, data) :: fs, e.1 < 2 ^ 32 := fun e he =>
    Nat.lt_of_lt_of_le (h.2 e he) hn
  rw [LineMap.ofMarks_append]
  refine LineMap.find_append_cons ((LineMap.ofNat_le_iff (by omega) hl).mpr hkl) fun x hx => ?_
  obtain ⟨e, he, rfl⟩ := List.mem_map.mp hx
  have he' := hlt e (List.mem_append_right _ (List.mem_cons_of_mem _ he))
  rw [LineMap.ofNat_le_iff he' hl]
  exact Nat.not_le.mpr (hfs e he)

/-- What is entered is found on its line. -/
theorem LineMap.find_of_mem {es : List (Nat × α)} {l n : Nat} {data : α} (hn : n ≤ 2 ^ 32)
    (h : MarkedText.Ascending n es) (hmem : (l, data) ∈ es) :
    (LineMap.ofMarks es).find (BitVec.ofNat 32 l) = some data := by
  obtain ⟨as, bs, rfl⟩ := List.append_of_mem hmem
  have hl := Nat.lt_of_lt_of_le (h.2 _ hmem) hn
  refine LineMap.find_ofMarks hn h (Nat.le_refl l) hl fun e he => ?_
  exact (List.pairwise_cons.mp (List.pairwise_append.mp h.1).2.1).1 e he

/-! ## Texts and their maps -/

/-- What a text shows is found on its lines. -/
def LineMap.Describes (m : LineMap α) (ms : List (Nat × α)) : Prop :=
  ∀ l data, (l, data) ∈ ms → m.find (BitVec.ofNat 32 l) = some data

/-- What a text shows is behind an entry of its own, with no other one between. -/
def LineMap.Covers (m : LineMap α) (ms : List (Nat × α)) : Prop :=
  ∀ l data, (l, data) ∈ ms → ∃ c, (c, data) ∈ m ∧ c ≤ BitVec.ofNat 32 l ∧
    ∀ e ∈ m, e.1 ≤ BitVec.ofNat 32 l → e.1 ≤ c

theorem LineMap.describes_iff {m : LineMap α} (h : m.Pairwise fun d e => d.1 < e.1)
    (ms : List (Nat × α)) : LineMap.Describes m ms ↔ LineMap.Covers m ms :=
  forall_congr' fun l => forall_congr' fun data => imp_congr_right fun _ =>
    LineMap.find_eq_some_iff h (BitVec.ofNat 32 l) data

/-- The map of the entries describes the marks behind them. -/
theorem LineMap.describes_ofMarks {es ms : List (Nat × α)} {n : Nat} (hn : n ≤ 2 ^ 32)
    (h : MarkedText.Ascending n es) (hms : ∀ e ∈ ms, e.1 < 2 ^ 32) (hnear : MarkedText.Nearest es ms) :
    LineMap.Describes (LineMap.ofMarks es) ms := by
  intro l data hmem
  obtain ⟨c, hc, hle, hlast⟩ := hnear l data hmem
  obtain ⟨as, bs, rfl⟩ := List.append_of_mem hc
  refine LineMap.find_ofMarks hn h hle (hms _ hmem) fun e he => ?_
  have hlt : c < e.1 := (List.pairwise_cons.mp (List.pairwise_append.mp h.1).2.1).1 e he
  by_contra hnot
  have hec := hlast e (List.mem_append_right _ (List.mem_cons_of_mem _ he)) (Nat.not_lt.mp hnot)
  omega

/-- Behind a line on which something is found, something is found. -/
theorem LineMap.find_ne_none {m : LineMap α} {k line : BitVec 32} (h : m.find k ≠ none) (hle : k ≤ line) :
    m.find line ≠ none := by
  intro hnone
  refine h (LineMap.find_eq_none_iff.mpr fun e he hek => ?_)
  exact LineMap.find_eq_none_iff.mp hnone e he (BitVec.le_trans hek hle)

/-- A map describes a text if something is found on its first line, and nothing else than what is
shown. -/
theorem LineMap.describes_of_eq {m : LineMap α} {ms : List (Nat × α)}
    (hfirst : m.find (BitVec.ofNat 32 1) ≠ none) (hms : ∀ e ∈ ms, 1 ≤ e.1 ∧ e.1 < 2 ^ 32)
    (heq : ∀ l data x, (l, data) ∈ ms → m.find (BitVec.ofNat 32 l) = some x → x = data) :
    LineMap.Describes m ms := by
  intro l data hmem
  obtain ⟨hl, hlt⟩ := hms _ hmem
  obtain ⟨x, hx⟩ := Option.ne_none_iff_exists'.mp
    (LineMap.find_ne_none hfirst ((LineMap.ofNat_le_iff (by decide) hlt).mpr hl))
  rw [hx, heq l data x hmem hx]

end Vimgdb
