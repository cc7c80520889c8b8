import Vimgdb.Lexing.Gdb
import Vimgdb.Lexing.Per
import Vimgdb.Lexing.Vim

/-!
# Escaped strings through the lexers

An escaped string between quotes, read by each of the three lexers.

* `Gdb.ReadsBack`, `Vim.ReadsBack`, `Per.ReadsBack`: the lexer returns the escaped string as the
  content of one string token and leaves the following text.
* `Gdb.readsBack_iff`, `Vim.readsBack_iff`: that is so iff the string does not end in a
  backslash.  The escaped backslash in front of the closing quote is taken for an escape of the
  quote, and the string goes on in the following text.
* `Per.readsBack_iff`: the pattern of this lexer contains the closing quote, so a string that ends in
  a backslash is read back as long as no quote follows.
-/

namespace Vimgdb

open Flex Lexing

theorem strescape_eq_nil {s : CStr} : strescape s = [] ↔ s = [] := by
  cases s with
  | nil => exact iff_of_true rfl rfl
  | cons c s =>
      rw [strescape]
      cases escapeChar c <;> simp

/-- An escaped string does not begin with a quote. -/
theorem head_strescape (s : CStr) : (strescape s).head? ≠ some '"' := by
  cases s with
  | nil => simp [strescape]
  | cons c s =>
      rw [strescape]
      cases he : escapeChar c with
      | some e => simp
      | none => simpa using (escapeChar_eq_none he).1

/-- The first token and the next one determine the first two tokens of the scan. -/
theorem steps_second_token {St Tok : Type} [DecidableEq St] {rules : List (Rule St Tok)}
    {c c₁ c₂ c' : Config St} {t u t' u' : Tok} {toks : List (Nat × Tok)}
    (h₁ : next rules c = some (some t, c₁)) (h₂ : next rules c₁ = some (some u, c₂))
    (h : Steps rules c ((c.pos, t') :: (c₁.pos, u') :: toks) c') : u' = u := by
  have hlex := h.lex
  rw [lex_of_some h₁, lex_of_some h₂] at hlex
  have hfst := congrArg (fun p => p.1[1]?) hlex
  simpa [tokenAt, eq_comm] using hfst

/-! ## The lexer of gdb's output -/

namespace Gdb

/-- The tokens of the quoted string `strescape s`: its quotes, and its content unless it is
empty. -/
def quotedToks (pos : Nat) (s : CStr) : List (Nat × Tok) :=
  (pos, .chr '"') :: (if s = [] then [] else [(pos + 1, .string (strescape s))]) ++
    [(pos + (strescape s).length + 1, .chr '"')]

/-- The quoted string is read as these tokens, and `r` is left to be read. -/
def ReadsBack (s r : CStr) : Prop :=
  ∀ pos bol, Steps rules ⟨pos, .initial, bol, '"' :: (strescape s ++ '"' :: r)⟩ (quotedToks pos s)
    ⟨pos + (strescape s).length + 2, .initial, false, r⟩

theorem readsBack_iff (s r : CStr) : ReadsBack s r ↔ endsBackslash false s = false := by
  by_cases hs : s = []
  · subst hs
    refine iff_of_true (fun pos bol => ?_) rfl
    exact Steps.head (next_open pos bol _) (Steps.head (next_close _ _ _) (Steps.refl _))
  have hpos : 0 < (strescape s).length := List.length_pos_iff.mpr (mt strescape_eq_nil.mp hs)
  have hlen := strLen_strescape false s r
  constructor
  · intro h
    by_contra hend
    rw [Bool.not_eq_false] at hend
    rw [hend, if_pos rfl] at hlen
    -- the content runs over the closing quote
    have hstring := next_string (0 + 1) false (s := strescape s ++ '"' :: r) (by omega)
    have hsteps := h 0 false
    rw [quotedToks, if_neg hs] at hsteps
    have htok := steps_second_token (next_open 0 false _) hstring hsteps
    have hcontent := congrArg List.length (Tok.string.inj htok)
    rw [hlen, List.length_take, List.length_append, List.length_cons] at hcontent
    omega
  · intro hend pos bol
    rw [hend, if_neg Bool.false_ne_true, Nat.add_zero] at hlen
    have hstring := next_string (pos + 1) false (s := strescape s ++ '"' :: r) (by omega)
    rw [hlen, List.take_left, Config.advance, List.drop_left,
      Nat.add_right_comm pos 1 (strescape s).length] at hstring
    rw [quotedToks, if_neg hs]
    exact Steps.head (next_open pos bol _)
      (Steps.head hstring (Steps.head (next_close _ _ r) (Steps.refl _)))

end Gdb

/-! ## The lexer of vim's messages -/

namespace Vim

/-- The tokens of the quoted string `strescape s`; two quotes in a row are one token. -/
def quotedToks (pos : Nat) (s : CStr) : List (Nat × Tok) :=
  if s = [] then [(pos, .string [])]
  else [(pos, .chr '"'), (pos + 1, .string (strescape s)),
    (pos + (strescape s).length + 1, .chr '"')]

/-- The quoted string is read as these tokens, and `r` is left to be read. -/
def ReadsBack (s r : CStr) : Prop :=
  ∀ pos bol, Steps rules ⟨pos, .initial, bol, '"' :: (strescape s ++ '"' :: r)⟩ (quotedToks pos s)
    ⟨pos + (strescape s).length + 2, .initial, false, r⟩

theorem readsBack_iff (s r : CStr) : ReadsBack s r ↔ endsBackslash false s = false := by
  by_cases hs : s = []
  · subst hs
    refine iff_of_true (fun pos bol => ?_) rfl
    exact Steps.head (next_empty pos bol _) (Steps.refl _)
  have hpos : 0 < (strescape s).length := List.length_pos_iff.mpr (mt strescape_eq_nil.mp hs)
  have hhead : (strescape s ++ '"' :: r).head? ≠ some '"' := by
    rw [List.head?_append_of_ne_nil _ (List.length_pos_iff.mp hpos)]
    exact head_strescape s
  have hlen := strLen_strescape false s r
  constructor
  · intro h
    by_contra hend
    rw [Bool.not_eq_false] at hend
    rw [hend, if_pos rfl] at hlen
    -- the content runs over the closing quote
    have hstring := next_string (0 + 1) false (s := strescape s ++ '"' :: r) (by omega)
    have hsteps := h 0 false
    rw [quotedToks, if_neg hs] at hsteps
    have htok := steps_second_token (next_open 0 false hhead) hstring hsteps
    have hcontent := congrArg List.length (Tok.string.inj htok)
    rw [hlen, List.length_take, List.length_append, List.length_cons] at hcontent
    omega
  · intro hend pos bol
    rw [hend, if_neg Bool.false_ne_true, Nat.add_zero] at hlen
    have hstring := next_string (pos + 1) false (s := strescape s ++ '"' :: r) (by omega)
    rw [hlen, List.take_left, Config.advance, List.drop_left,
      Nat.add_right_comm pos 1 (strescape s).length] at hstring
    rw [quotedToks, if_neg hs]
    exact Steps.head (next_open pos bol hhead)
      (Steps.head hstring (Steps.head (next_close _ _ r) (Steps.refl _)))

end Vim

/-! ## The lexer of peripheral files -/

namespace Per

/-- The quoted string is read as one token, and `r` is left to be read. -/
def ReadsBack (s r : CStr) : Prop :=
  ∀ pos bol, Steps rules ⟨pos, .initial, bol, '"' :: (strescape s ++ '"' :: r)⟩
    [(pos, .string (strescape s))] ⟨pos + (strescape s).length + 2, .initial, false, r⟩

theorem readsBack_iff (s r : CStr) :
    ReadsBack s r ↔ endsBackslash false s = false ∨ '"' ∉ r := by
  have hlen := closeLen_strescape false s r
  have hnone := closeLen_eq_none_iff r
  constructor
  · intro h
    by_contra hend
    rw [not_or, Bool.not_eq_false, not_not] at hend
    obtain ⟨n, hn⟩ : ∃ n, closeLen false r = some n :=
      Option.ne_none_iff_exists'.mp (mt hnone.mp (not_not.mpr hend.2))
    have hpos := closeLen_pos hn
    have hle : n ≤ r.length := by
      rw [← longest_strBody_close] at hn
      exact Re.longest_le hn
    rw [hend.1, if_pos rfl, hn, Option.getD_some] at hlen
    -- the token runs over the closing quote
    have hlex := (h 0 false).lex
    rw [lex_of_some (next_string 0 false hlen)] at hlex
    have hfst := congrArg (fun p => p.1[0]?) hlex
    have hcontent := congrArg List.length (Tok.string.inj (Prod.mk.inj (Option.some.inj hfst)).2)
    rw [List.length_take, List.length_append, List.length_cons] at hcontent
    omega
  · intro hend pos bol
    have hlen' : closeLen false (strescape s ++ '"' :: r) = some ((strescape s).length + 1) := by
      rw [hlen]
      rcases hend with hend | hend
      · rw [hend]; rfl
      · rw [hnone.mpr hend]; simp
    have hstring := next_string pos bol hlen'
    have hadv : (Config.mk pos Start.initial bol ('"' :: (strescape s ++ '"' :: r))).advance
        ((strescape s).length + 1 + 1) .initial =
        ⟨pos + (strescape s).length + 2, .initial, false, r⟩ := by
      have htext : '"' :: (strescape s ++ '"' :: r) = ('"' :: strescape s ++ ['"']) ++ r := by simp
      have hn : (strescape s).length + 1 + 1 = ('"' :: strescape s ++ ['"']).length := by simp
      rw [Config.advance, htext, hn, List.take_left, List.drop_left, List.getLast?_concat]
      simp [Nat.add_assoc]
    rw [Nat.add_sub_cancel, List.take_left, hadv] at hstring
    exact Steps.head hstring (Steps.refl _)

end Per

/-! ## All three lexers -/

theorem endsBackslash_false_iff (s : CStr) :
    endsBackslash false s = false ↔ s.getLast? ≠ some '\\' := by
  rw [endsBackslash]
  cases s.getLast? <;> simp

/-- Each lexer reads the quoted string back and leaves the following text, iff the string does not
end in a backslash. -/
theorem quoted_strescape_reads_back_iff (s r : CStr) :
    (Gdb.ReadsBack s r ∧ Vim.ReadsBack s r ∧ Per.ReadsBack s r) ↔ s.getLast? ≠ some '\\' := by
  rw [Gdb.readsBack_iff, Vim.readsBack_iff, Per.readsBack_iff, endsBackslash_false_iff]
  constructor
  · exact fun h => h.1
  · exact fun h => ⟨h, h, Or.inl h⟩

/-- A directory name with a trailing backslash takes the next result with it, in every lexer. -/
theorem quoted_trailing_backslash_runs_on :
    ¬ Gdb.ReadsBack "C:\\".toList ",line=\"1\"\n".toList ∧
      ¬ Vim.ReadsBack "C:\\".toList " \"1\"\n".toList ∧
      ¬ Per.ReadsBack "C:\\".toList " \"1\"\n".toList := by
  rw [Gdb.readsBack_iff, Vim.readsBack_iff, Per.readsBack_iff]
  decide

end Vimgdb
