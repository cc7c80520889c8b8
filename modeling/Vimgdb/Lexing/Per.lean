import Vimgdb.Common.Numbers
import Vimgdb.Lexing.Quoted

/-!
# The lexer of peripheral files

The scanner of `user_cmd/per.l`, rule by rule and in the order of the source.

* `Tok`: the tokens, with the values they carry.
* `rules`: the rules of the scanner.
* `next_string`: the token of a quoted string.
-/

namespace Vimgdb.Per

open Flex Lexing

/-! ## Tokens -/

/-- The words of the file format. -/
inductive Word
  | property | section_ | range | register | bits | emptyline | headline | endianLittle | endianBig
  deriving DecidableEq, Repr

/-- The tokens; `eof` is the end of the input in front of the end of the text. -/
inductive Tok
  | eof
  | word (w : Word)
  | int (i : BitVec 64)
  | string (s : CStr)
  | chr (c : Char)
  deriving DecidableEq, Repr

/-- The start conditions. -/
inductive Start
  | initial
  | comment
  deriving DecidableEq, Repr

/-! ## Rules -/

/-- The words with their texts. -/
def words : List (String × Word) :=
  [
    ("property", .property), ("section", .section_), ("range", .range), ("register", .register),
    ("bits", .bits), ("emptyline", .emptyline), ("heading", .headline),
    ("little-endian", .endianLittle), ("big-endian", .endianBig)
  ]

/-- `[\ \t]` -/
def blank : Re := .cls false [(' ', ' '), ('\t', '\t')]

/-- `\r?\n` -/
def eol : Re := .seq (.opt (.chr '\r')) (.chr '\n')

/-- A pattern that returns no token. -/
def skip (start : Start) (re : Re) (next : Start) : Rule Start Tok where
  start := start
  re := re
  act _ := (none, next)

/-- `return pertext[0]`: a `char` is signed, and a token that is not positive is the end of the input. -/
def charTok (c : Char) : Tok := if 0 < c.toNat ∧ c.toNat < 128 then .chr c else .eof

/-- The character that was matched. -/
def firstChr (text : CStr) : Option Tok := text.head?.map charTok

theorem charTok_ne_int (c : Char) (v : BitVec 64) : charTok c ≠ .int v := by
  unfold charTok
  split <;> simp

/-- The text of a quoted string without its quotes. -/
def unquote (text : CStr) : CStr := (text.drop 1).take (text.length - 2)

/-- The rule for a quoted string, its quotes included. -/
def quotedString : Rule Start Tok :=
  { start := .initial, re := .seq (.chr '"') (.seq strBody (.chr '"')),
    act := fun text => (some (.string (unquote text)), .initial) }

/-- The patterns behind the words. -/
def generalRules : List (Rule Start Tok) :=
  [
    skip .initial blank .initial,
    { skip .initial (.seq (.star blank) eol) .initial with bol := true },
    skip .initial eol .initial,
    { start := .initial, re := .star (.cls false [('0', '9')]),
      act := fun text => (some (.int ((atoi text).signExtend 64)), .initial) },
    { start := .initial,
      re := .seq (.lit ['0', 'x']) (.star (.cls false [('0', '9'), ('a', 'f'), ('A', 'F')])),
      act := fun text => (some (.int (strtollHex text)), .initial) },
    -- quoted string
    quotedString,
    -- comments
    skip .initial (.lit ['/', '*']) .comment,
    skip .comment (.chr '\n') .comment,
    skip .comment .dot .comment,
    skip .comment (.seq (.lit ['*', '/']) (.seq (.opt (.chr '\r')) (.opt (.chr '\n')))) .initial,
    skip .initial (.seq (.lit ['/', '*']) (.seq (.star (.cls true [('*', '*'), ('/', '/')]))
      (.seq (.lit ['*', '/']) eol))) .initial,
    { skip .initial (.seq (.lit ['/', '/']) (.seq (.star .dot) eol)) .initial with bol := true },
    skip .initial (.seq (.lit ['/', '/']) (.seq (.star .dot) eol)) .initial,
    -- default
    { start := .initial, re := .dot, act := fun text => (firstChr text, .initial) }
  ]

/-- The scanner. -/
def rules : List (Rule Start Tok) :=
  words.map (fun p =>
    { start := .initial, re := .lit p.1.toList, act := fun _ => (some (.word p.2), .initial) }) ++
    generalRules

/-! ## Quoted strings -/

/-- A quoted string is one token, up to the last quote its pattern reaches. -/
theorem next_string (pos : Nat) (bol : Bool) {s : CStr} {n : Nat} (hn : closeLen false s = some n) :
    next rules ⟨pos, .initial, bol, '"' :: s⟩ = some (some (.string (s.take (n - 1))),
      (Config.mk pos .initial bol ('"' :: s)).advance (n + 1) .initial) := by
  have hmatch : quotedString.matchLen ⟨pos, .initial, bol, '"' :: s⟩ = some (n + 1) := by
    have hactive : quotedString.active ⟨pos, .initial, bol, '"' :: s⟩ = true := rfl
    have hderiv : quotedString.re.deriv '"' = .seq strBody (.chr '"') := by decide
    rw [Rule.matchLen, if_pos hactive, Re.longest_cons, hderiv, longest_strBody_close, hn]
  obtain ⟨l, m, hrules, hl, hm⟩ : ∃ l m, rules.filter (fun r => decide (r.start = .initial)) =
      l ++ quotedString :: m ∧ l.all (Rule.dead '"') = true ∧ m.all (Rule.single '"') = true :=
    ⟨(rules.filter (fun r => decide (r.start = .initial))).take 14,
      (rules.filter (fun r => decide (r.start = .initial))).drop 15, rfl, by decide +kernel,
      by decide +kernel⟩
  have hsel : select ⟨pos, .initial, bol, '"' :: s⟩ rules = some (quotedString, n + 1) := by
    rw [select_filter, hrules]
    refine select_of_best hmatch (fun r hr k hk => ?_) fun r hr k hk => ?_
    · have := matchLen_of_dead rfl (List.all_eq_true.mp hl r hr) hk
      omega
    · have := matchLen_of_single rfl (List.all_eq_true.mp hm r hr) hk
      omega
  have hle : n ≤ s.length := by
    rw [← longest_strBody_close] at hn
    exact Re.longest_le hn
  have htext : unquote (('"' :: s).take (n + 1)) = s.take (n - 1) := by
    rw [unquote, List.take_succ_cons, List.drop_succ_cons, List.drop_zero, List.length_cons,
      List.length_take, List.take_take]
    congr 1
    omega
  rw [next_of_select hsel n.succ_pos]
  simp only [quotedString, htext]

end Vimgdb.Per
