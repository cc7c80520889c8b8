import Vimgdb.Common.Numbers
import Vimgdb.Lexing.Closed

/-!
# The lexer of vim's netbeans messages

The scanner of `gui/vim/lexer.l`, rule by rule and in the order of the source.

* `Tok`: the tokens, with the values they carry.
* `rules`: the rules of the scanner.
* `next_open`, `next_empty`, `next_close`, `next_string`: the tokens of a quoted string.
* `quotedScanner`: a text that ends with a newline outside quoted strings is scanned alike whatever
  follows it.
-/

namespace Vimgdb.Vim

open Flex Lexing

/-! ## Tokens -/

/-- The events vim reports; `vim_event_id_t` without `E_NONE`. -/
inductive EventId
  | disconnect | startupDone | killed | fileOpened | insert | remove | keyCommand | keyAtPos
  | newDotAndMark | accept | auth | detach | version
  deriving DecidableEq, Repr

/-- The tokens; `event` stands for the tokens of the event names, `eof` for the end of the input in
front of the end of the text. -/
inductive Tok
  | eof
  | newline
  | number (num : BitVec 32)
  | bool (boolean : Bool)
  | event (e : EventId)
  | special (eventId : EventId)
  | string (s : CStr)
  | chr (c : Char)
  deriving DecidableEq, Repr

/-- The start conditions. -/
inductive Start
  | initial
  | qstring
  deriving DecidableEq, Repr

/-! ## Rules -/

/-- The names of events. -/
def eventNames : List (String × EventId) :=
  [
    ("disconnect", .disconnect), ("startupDone", .startupDone), ("killed", .killed),
    ("fileOpened", .fileOpened), ("insert", .insert), ("remove", .remove),
    ("keyCommand", .keyCommand), ("keyAtPos", .keyAtPos), ("version", .version),
    ("newDotAndMark", .newDotAndMark)
  ]

/-- The names of special events. -/
def specialNames : List (String × EventId) :=
  [
    ("DISCONNECT", .disconnect), ("ACCEPT", .accept), ("AUTH", .auth), ("DETACH", .detach)
  ]

/-- A literal pattern that returns a fixed token. -/
def keyword (s : String) (tok : Tok) : Rule Start Tok where
  start := .initial
  re := .lit s.toList
  act _ := (some tok, .initial)

/-- `return vimtext[0]`: a `char` is signed, and a token that is not positive is the end of the input. -/
def charTok (c : Char) : Tok := if c.toNat < 128 then .chr c else .eof

/-- The character that was matched. -/
def firstChr (text : CStr) : Option Tok := text.head?.map charTok

theorem charTok_ne_newline (c : Char) : charTok c ≠ .newline := by
  unfold charTok
  split <;> simp

/-- The patterns in front of the names. -/
def generalRules : List (Rule Start Tok) :=
  [
    { start := .initial, re := .seq (.opt (.chr '\r')) (.chr '\n'),
      act := fun _ => (some .newline, .initial) },
    { start := .initial, re := .seq (.opt (.chr '-')) (.star (.cls false [('0', '9')])),
      act := fun text => (some (.number (atoi text)), .initial) },
    keyword "T" (.bool true),
    keyword "F" (.bool false)
  ]

/-- The rule that opens a quoted string. -/
def openQuote : Rule Start Tok :=
  { start := .initial, re := .chr '"', act := fun text => (firstChr text, .qstring) }

/-- The rule for a quoted string without an inside. -/
def emptyString : Rule Start Tok :=
  { start := .initial, re := .lit ['"', '"'], act := fun _ => (some (.string []), .initial) }

/-- The rule that closes a quoted string. -/
def closeQuote : Rule Start Tok :=
  { start := .qstring, re := .chr '"', act := fun text => (firstChr text, .initial) }

/-- The rule for its inside. -/
def stringBody : Rule Start Tok :=
  { start := .qstring, re := strBody, act := fun text => (some (.string text), .qstring) }

/-- The rule for every other character. -/
def defaultRule : Rule Start Tok :=
  { start := .initial, re := .dot, act := fun text => (firstChr text, .initial) }

/-- The patterns for strings, and the default. -/
def stringRules : List (Rule Start Tok) :=
  [
    -- unquoted string
    { start := .initial,
      re := .seq (.cls false [('a', 'z'), ('A', 'Z')])
        (.star (.cls false
          [('a', 'z'), ('A', 'Z'), ('0', '9'), ('_', '_'), ('-', '-'), ('.', '.')])),
      act := fun text => (some (.string text), .initial) },
    -- quoted string
    openQuote,
    emptyString,
    closeQuote,
    stringBody,
    -- default
    defaultRule
  ]

/-- The scanner. -/
def rules : List (Rule Start Tok) :=
  generalRules ++ eventNames.map (fun p => keyword p.1 (.event p.2)) ++
    specialNames.map (fun p => keyword p.1 (.special p.2)) ++ stringRules

/-! ## Quoted strings -/

theorem rules_qstring :
    rules.filter (fun r => decide (r.start = .qstring)) = [closeQuote, stringBody] := rfl

/-- The rules outside a string, cut at the rules for quotes. -/
theorem rules_initial : ∃ l, rules.filter (fun r => decide (r.start = .initial)) =
      l ++ openQuote :: emptyString :: [defaultRule] ∧ l.all (Rule.dead '"') = true :=
  ⟨(rules.filter (fun r => decide (r.start = .initial))).take 19, rfl, by decide +kernel⟩

/-- A quote outside a string, not followed by a second one, opens a string. -/
theorem next_open (pos : Nat) (bol : Bool) {s : CStr} (hs : s.head? ≠ some '"') :
    next rules ⟨pos, .initial, bol, '"' :: s⟩ =
      some (some (.chr '"'), ⟨pos + 1, .qstring, false, s⟩) := by
  have hopen : openQuote.matchLen ⟨pos, .initial, bol, '"' :: s⟩ = some 1 :=
    matchLen_of_eps rfl rfl (by decide)
  have hempty : emptyString.matchLen ⟨pos, .initial, bol, '"' :: s⟩ = none := by
    have hactive : emptyString.active ⟨pos, .initial, bol, '"' :: s⟩ = true := rfl
    have hderiv : emptyString.re.deriv '"' = .seq (.chr '"') .eps := by decide
    rw [Rule.matchLen, if_pos hactive, Re.longest_cons, hderiv]
    cases s with
    | nil => rfl
    | cons d s =>
        have hne : d ≠ '"' := by simpa using hs
        have hd : (Re.seq (.chr '"') .eps).deriv d = .zero := by
          simp [Re.deriv, Re.chr, Re.inClass_singleton, Re.nullable, hne, Re.mkSeq]
        rw [Re.longest_cons, hd]
        cases s <;> rfl
  obtain ⟨l, hrules, hdead⟩ := rules_initial
  have hsel : select ⟨pos, .initial, bol, '"' :: s⟩ rules = some (openQuote, 1) := by
    rw [select_filter, hrules]
    refine select_of_best hopen (fun r hr m hm => ?_) fun r hr m hm => ?_
    · have := matchLen_of_dead rfl (List.all_eq_true.mp hdead r hr) hm
      omega
    · rcases List.mem_cons.mp hr with rfl | hr
      · rw [hempty] at hm
        cases hm
      · obtain rfl := List.mem_singleton.mp hr
        exact matchLen_of_single rfl (by decide) hm
  rw [next_of_select hsel Nat.one_pos]
  rfl

/-- Two quotes outside a string are an empty string. -/
theorem next_empty (pos : Nat) (bol : Bool) (s : CStr) :
    next rules ⟨pos, .initial, bol, '"' :: '"' :: s⟩ =
      some (some (.string []), ⟨pos + 2, .initial, false, s⟩) := by
  have hempty : emptyString.matchLen ⟨pos, .initial, bol, '"' :: '"' :: s⟩ = some 2 := by
    have hactive : emptyString.active ⟨pos, .initial, bol, '"' :: '"' :: s⟩ = true := rfl
    have hderiv : emptyString.re.deriv '"' = .seq (.chr '"') .eps := by decide
    have hderiv' : (Re.seq (.chr '"') .eps).deriv '"' = .eps := by decide
    rw [Rule.matchLen, if_pos hactive, Re.longest_cons, hderiv, Re.longest_cons, hderiv',
      Re.longest_eps]
  obtain ⟨l, hrules, hdead⟩ := rules_initial
  have hsel : select ⟨pos, .initial, bol, '"' :: '"' :: s⟩ rules = some (emptyString, 2) := by
    rw [select_filter, hrules, List.append_cons]
    refine select_of_best hempty (fun r hr m hm => ?_) fun r hr m hm => ?_
    · rcases List.mem_append.mp hr with hr | hr
      · have := matchLen_of_dead rfl (List.all_eq_true.mp hdead r hr) hm
        omega
      · obtain rfl := List.mem_singleton.mp hr
        have := matchLen_of_single (a := '"') rfl (by decide) hm
        omega
    · obtain rfl := List.mem_singleton.mp hr
      have := matchLen_of_single (a := '"') rfl (by decide) hm
      omega
  rw [next_of_select hsel Nat.two_pos]
  rfl

/-- A quote inside a string ends it. -/
theorem next_close (pos : Nat) (bol : Bool) (s : CStr) :
    next rules ⟨pos, .qstring, bol, '"' :: s⟩ =
      some (some (.chr '"'), ⟨pos + 1, .initial, false, s⟩) :=
  next_quote rules_qstring rfl rfl rfl pos bol s

/-- The inside of a string is one token. -/
theorem next_string (pos : Nat) (bol : Bool) {s : CStr} (hlen : 0 < strLen false s) :
    next rules ⟨pos, .qstring, bol, s⟩ = some (some (.string (s.take (strLen false s))),
      (Config.mk pos .qstring bol s).advance (strLen false s) .qstring) :=
  next_body rules_qstring rfl rfl rfl pos bol hlen

/-! ## Texts scanned alike whatever follows -/

/-- The start of a scan, as `vim_scan_string` leaves it. -/
def lexFrom (line : CStr) : Config Start := ⟨0, .initial, true, line⟩

/-- Something is read unless the text is at its end. -/
theorem next_isSome {c : Config Start} (hrest : c.rest ≠ []) : (next rules c).isSome = true := by
  obtain ⟨pos, st, bol, rest⟩ := c
  obtain ⟨a, s, rfl⟩ := List.exists_cons_of_ne_nil hrest
  rcases st with _ | _
  · by_cases ha : a = '\n'
    · subst ha
      have hmem : (⟨.initial, false, .seq (.opt (.chr '\r')) (.chr '\n'),
          fun _ => (some .newline, .initial)⟩ : Rule Start Tok) ∈ rules := by
        exact List.mem_append_left _ (List.mem_append_left _ (List.mem_append_left _
          List.mem_cons_self))
      exact next_isSome_of_mem hmem (matchLen_of_eps rfl rfl (by decide)) Nat.one_pos
    · refine next_isSome_of_mem (r := defaultRule) (by simp [rules, stringRules])
        (matchLen_of_eps rfl rfl ?_) Nat.one_pos
      simp [defaultRule, Re.dot, Re.deriv, Re.inClass_singleton, ha]
  · by_cases ha : a = '"'
    · subst ha
      rw [next_close]
      rfl
    · have hlen : 0 < strLen false (a :: s) := by simp [strLen, ha]
      rw [next_string pos bol hlen]
      rfl

/-- Outside quoted strings no rule matches beyond a newline. -/
private theorem vimRules_endsAt : ∀ r ∈ rules, r.start = .initial → r.re.endsAt '\n' = true := by
  decide +kernel

/-- The lexer of vim's messages is one with quoted strings. -/
theorem quotedScanner : QuotedScanner rules closeQuote stringBody .initial .qstring where
  cases st := by cases st <;> simp
  ne := nofun
  inside := rules_qstring
  quoteRe := rfl
  quoteBol := rfl
  bodyRe := rfl
  bodyBol := rfl
  bodyStart _ := rfl
  outside := vimRules_endsAt
  total _ hrest := next_isSome hrest

end Vimgdb.Vim
