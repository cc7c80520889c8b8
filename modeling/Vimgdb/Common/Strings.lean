import Mathlib.Data.List.Basic
import Mathlib.Tactic.Common

/-!
# Strings and their escape encoding

C strings are lists of characters, one for each byte, without the terminating 0.

* `strescape` writes a string with tab, newline, carriage return, quote and backslash escaped.
* `strdeescape` undoes these escapes and leaves every other backslash alone.
-/

namespace Vimgdb

/-- A C string: its bytes without the terminating 0. -/
abbrev CStr := List Char

/-- A property of every character of a string, tested one by one. -/
theorem forall_mem_of_all {p : Char → Prop} [DecidablePred p] {s : CStr}
    (h : s.all (fun c => decide (p c)) = true) : ∀ c ∈ s, p c := by
  simpa using h

/-! ## Escaping -/

/-- The letter that stands behind the backslash for an escaped character. -/
def escapeChar : Char → Option Char
  | '\t' => some 't'
  | '\n' => some 'n'
  | '\r' => some 'r'
  | '"' => some '"'
  | '\\' => some '\\'
  | _ => none

/-- `strescape`: the text written to the destination. -/
def strescape : CStr → CStr
  | [] => []
  | c :: s =>
      match escapeChar c with
      | some e => '\\' :: e :: strescape s
      | none => c :: strescape s

/-- The character meant by a backslash and a letter. -/
def deescapeChar : Char → Option Char
  | 't' => some '\t'
  | 'n' => some '\n'
  | 'r' => some '\r'
  | '"' => some '"'
  | '\\' => some '\\'
  | _ => none

/-- `strdeescape`: the text left in the buffer.  A backslash before any other character stays, and
that character is read again as an ordinary one. -/
def strdeescape : CStr → CStr
  | [] => []
  | ['\\'] => ['\\']
  | '\\' :: c :: s =>
      match deescapeChar c with
      | some d => d :: strdeescape s
      | none => '\\' :: strdeescape (c :: s)
  | c :: s => c :: strdeescape s

theorem strdeescape_cons {c : Char} (hc : c ≠ '\\') (s : CStr) :
    strdeescape (c :: s) = c :: strdeescape s := by
  rw [strdeescape] <;> simp [hc]

theorem strdeescape_escape {c d : Char} (hc : deescapeChar c = some d) (s : CStr) :
    strdeescape ('\\' :: c :: s) = d :: strdeescape s := by
  rw [strdeescape, hc]

theorem strdeescape_keep {c : Char} (hc : deescapeChar c = none) (s : CStr) :
    strdeescape ('\\' :: c :: s) = '\\' :: strdeescape (c :: s) := by
  rw [strdeescape, hc]

theorem length_strdeescape_le (s : CStr) : (strdeescape s).length ≤ s.length := by
  fun_induction strdeescape s with
  | case1 => exact Nat.le_refl _
  | case2 => exact Nat.le_refl _
  | case3 c s d _ ih =>
      simp only [List.length_cons]
      omega
  | case4 c s _ ih =>
      simp only [List.length_cons] at ih ⊢
      omega
  | case5 c s _ _ ih =>
      simp only [List.length_cons]
      omega

/-- An escape sequence ends in a backslash iff a backslash is escaped. -/
theorem escapeChar_eq_some {c e : Char} (h : escapeChar c = some e) :
    (e == '\\') = (c == '\\') := by
  unfold escapeChar at h
  split at h <;> cases h <;> rfl

theorem escapeChar_eq_none {c : Char} (h : escapeChar c = none) : c ≠ '"' ∧ c ≠ '\\' := by
  constructor <;> rintro rfl <;> simp [escapeChar] at h

theorem newline_notMem_strescape (s : CStr) : '\n' ∉ strescape s := by
  induction s with
  | nil => simp [strescape]
  | cons c s ih =>
      rw [strescape]
      rcases he : escapeChar c with _ | e
      · rw [List.mem_cons, not_or]
        refine ⟨?_, ih⟩
        rintro rfl
        cases he
      · simp only [List.mem_cons, not_or]
        refine ⟨by decide, ?_, ih⟩
        rintro rfl
        unfold escapeChar at he
        split at he <;> cases he

/-! ## Scanned texts -/

/-- The text a lexer sees of a C string, as in `gdb_scan_string`: it ends at the first 0. -/
def scanned (line : CStr) : CStr := line.takeWhile (· ≠ '\x00')

theorem scanned_cons (c : Char) (u : CStr) :
    scanned (c :: u) = if c = '\x00' then [] else c :: scanned u := by
  by_cases hc : c = '\x00' <;> simp [scanned, hc]

theorem notMem_scanned (u : CStr) : '\x00' ∉ scanned u := by
  induction u with
  | nil => simp [scanned]
  | cons c u ih =>
      rw [scanned_cons]
      split_ifs with hc
      · simp
      · simp [Ne.symm hc, ih]

theorem scanned_append {u : CStr} (h : '\x00' ∉ u) (v : CStr) : scanned (u ++ v) = u ++ scanned v := by
  induction u with
  | nil => rfl
  | cons c u ih =>
      rw [List.mem_cons, not_or] at h
      rw [List.cons_append, scanned_cons, if_neg (Ne.symm h.1), ih h.2, List.cons_append]

theorem scanned_of_notMem {u : CStr} (h : '\x00' ∉ u) : scanned u = u := by
  have := scanned_append h []
  rwa [List.append_nil, show scanned [] = [] from rfl, List.append_nil] at this

theorem scanned_append_of_mem {u : CStr} (h : '\x00' ∈ u) (v : CStr) :
    scanned (u ++ v) = scanned u := by
  induction u with
  | nil => cases h
  | cons c u ih =>
      rw [List.cons_append, scanned_cons, scanned_cons]
      split_ifs with hc
      · rfl
      · rw [ih ((List.mem_cons.mp h).resolve_left (Ne.symm hc))]

end Vimgdb
