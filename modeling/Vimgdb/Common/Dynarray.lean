import Vimgdb.Common.LineMap
import Vimgdb.Common.Printf

/-!
# Output buffers

A `dynarray` holds the text that is made for a window.  Beside the text, the model keeps what each
piece of it shows.

* `Dynarray`, `Dynarray.add`: the buffer, and a formatted text that is added.
* `Dynarray.nextLine`: the number of the line that comes next.
* `Dynarray.extend`: pieces that are put behind the text; `Dynarray.extend_bind` for several times.
* `Dynarray.add_spec`: what an added text does to the lines and the marks.
* `Dynarray.Shown`: something is shown on a line.
-/

namespace Vimgdb

open MarkedText Printf

/-- `dynarray`.  Its size is a power of two and an `unsigned int`, so it is 2 ^ 31 at most. -/
structure Dynarray (M : Type) where
  pieces : List (Piece Char M)
  short : (text pieces).length < 2 ^ 31

variable {M N : Type}

/-- `clear` -/
def Dynarray.empty : Dynarray M := ⟨[], Nat.two_pow_pos 31⟩

/-- `add`: the size is doubled until the text and a 0 fit.  When it wraps, the buffer is lost. -/
def Dynarray.add (b : Dynarray M) (shows : Option M) (fmt : CStr) (args : List Arg) :
    Option (Dynarray M) := do
  let t ← vsnprintf fmt args
  if h : (text (b.pieces ++ [⟨t, shows⟩])).length < 2 ^ 31 then some ⟨b.pieces ++ [⟨t, shows⟩], h⟩
  else none

/-- Pieces are put behind the text, if they fit. -/
def Dynarray.extend (b : Dynarray M) (ps : List (Piece Char M)) : Option (Dynarray M) :=
  if h : (text (b.pieces ++ ps)).length < 2 ^ 31 then some ⟨b.pieces ++ ps, h⟩ else none

/-- `data` -/
def Dynarray.data (b : Dynarray M) : CStr := text b.pieces

/-- What `printf` makes of a string, which may be a null pointer. -/
def orNull (s : Option CStr) : CStr := s.getD "(null)".toList

/-- The number of the line that comes next. -/
def Dynarray.nextLine (b : Dynarray M) : Nat := 1 + breaks '\n' b.pieces

/-- The marks around a value that has changed. -/
def changed (modified : Bool) : CStr × CStr :=
  if modified then ("\xc2\xb4c".toList, "`c".toList) else ([], [])

theorem newline_notMem_changed (modified : Bool) :
    '\n' ∉ (changed modified).1 ∧ '\n' ∉ (changed modified).2 := by
  cases modified <;> decide

theorem scanned_changed (modified : Bool) : scanned (changed modified).1 = (changed modified).1 ∧
    scanned (changed modified).2 = (changed modified).2 := by
  cases modified <;> decide

/-- What is shown, with its lines. -/
def Dynarray.marks (b : Dynarray M) : List (Nat × M) := MarkedText.marks '\n' 1 b.pieces

/-- A piece that shows `m` begins on line `l`. -/
def Dynarray.Shown (b : Dynarray M) (l : Nat) (m : M) : Prop :=
  ∃ pre p post, b.pieces = pre ++ p :: post ∧ p.shows = some m ∧ l = 1 + breaks '\n' pre

variable {b b' : Dynarray M} {shows : Option M} {fmt : CStr} {args : List Arg}

theorem Dynarray.mem_marks {l : Nat} {m : M} : (l, m) ∈ b.marks ↔ b.Shown l m :=
  MarkedText.mem_marks

/-- The lines of a buffer can be counted in 32 bits. -/
theorem Dynarray.nextLine_lt (b : Dynarray M) : b.nextLine < 2 ^ 32 := by
  have hle := (breaks_le (z := '\n') b.pieces)
  have hshort := b.short
  unfold Dynarray.nextLine
  omega

/-- A text that is added is behind the others. -/
theorem Dynarray.pieces_of_add (h : b.add shows fmt args = some b') :
    ∃ t, vsnprintf fmt args = some t ∧ b'.pieces = b.pieces ++ [⟨t, shows⟩] := by
  unfold Dynarray.add at h
  obtain ⟨t, ht, h⟩ := Option.bind_eq_some_iff.mp h
  split at h
  · cases h
    exact ⟨t, ht, rfl⟩
  · cases h

/-- With arguments that have no line breaks, the format says how many lines end. -/
theorem Dynarray.add_spec (hargs : ∀ a ∈ args, a.OneLine) (h : b.add shows fmt args = some b') :
    b'.nextLine = b.nextLine + (scanned fmt).count '\n' ∧
      b'.marks = b.marks ++ shows.toList.map fun m => (b.nextLine, m) := by
  obtain ⟨t, ht, hpieces⟩ := Dynarray.pieces_of_add h
  unfold Dynarray.nextLine Dynarray.marks
  rw [hpieces, breaks_append, marks_append, marks_singleton]
  refine ⟨?_, rfl⟩
  rw [breaks_cons, breaks_nil, count_vsnprintf hargs ht]
  omega

/-- Behind a line break all that is shown is above the next line. -/
theorem Dynarray.lt_nextLine_of_add (h : b.add shows fmt args = some b')
    (hbreak : 0 < (scanned fmt).count '\n') : ∀ e ∈ b'.marks, e.1 < b'.nextLine := by
  obtain ⟨t, ht, hpieces⟩ := Dynarray.pieces_of_add h
  have hle := le_count_vsnprintf ht
  intro e he
  unfold Dynarray.marks at he
  unfold Dynarray.nextLine
  rw [hpieces, marks_append, marks_singleton] at he
  rw [hpieces, breaks_append, breaks_cons, breaks_nil]
  rcases List.mem_append.mp he with he | he
  · have hline : e.1 ≤ 1 + breaks '\n' b.pieces := marks_line_le he
    dsimp only
    omega
  · obtain ⟨m, -, rfl⟩ := List.mem_map.mp he
    dsimp only
    omega

/-- The lines on which something is shown can be counted in 32 bits. -/
theorem Dynarray.line_of_mem_marks {e : Nat × M} (h : e ∈ b.marks) : 1 ≤ e.1 ∧ e.1 < 2 ^ 32 := by
  obtain ⟨pre, p, post, hpieces, -, hline⟩ := Dynarray.mem_marks.mp h
  have hlt := b.nextLine_lt
  unfold Dynarray.nextLine at hlt
  rw [hpieces, breaks_append] at hlt
  omega

/-! ## Several pieces -/

/-- The text that is added is one piece. -/
theorem Dynarray.add_eq (b : Dynarray M) (shows : Option M) (fmt : CStr) (args : List Arg) :
    b.add shows fmt args = (vsnprintf fmt args).bind fun t => b.extend [⟨t, shows⟩] := rfl

theorem Dynarray.extend_nil (b : Dynarray M) : b.extend [] = some b := by
  have hnil : b.pieces ++ [] = b.pieces := List.append_nil _
  unfold Dynarray.extend
  rw [dif_pos (by rw [hnil]; exact b.short)]
  congr 1
  cases b
  congr 1

theorem Dynarray.pieces_of_extend {ps : List (Piece Char M)} (h : b.extend ps = some b') :
    b'.pieces = b.pieces ++ ps := by
  unfold Dynarray.extend at h
  split at h
  · cases h
    rfl
  · cases h

/-- Pieces are put behind the text one after the other or at once. -/
theorem Dynarray.extend_bind (b : Dynarray M) (ps qs : List (Piece Char M)) :
    (b.extend ps).bind (fun b => b.extend qs) = b.extend (ps ++ qs) := by
  have hassoc : b.pieces ++ ps ++ qs = b.pieces ++ (ps ++ qs) := List.append_assoc _ _ _
  by_cases hps : (text (b.pieces ++ ps)).length < 2 ^ 31
  · have hsome : b.extend ps = some ⟨b.pieces ++ ps, hps⟩ := dif_pos hps
    rw [hsome, Option.bind_some]
    unfold Dynarray.extend
    simp only [hassoc]
  · have hnone : b.extend ps = none := dif_neg hps
    have hlong : ¬ (text (b.pieces ++ (ps ++ qs))).length < 2 ^ 31 := by
      rw [← hassoc, text_append, List.length_append]
      omega
    have hnone' : b.extend (ps ++ qs) = none := dif_neg hlong
    rw [hnone, hnone']
    rfl

end Vimgdb
