import Vimgdb.Common.Escape
import Vimgdb.Common.Words

/-!
# Commands of the user interface

The line that the user interface passes on to `cmd_exec`, which deescapes and splits it.

* `sent`: the line for given arguments, each in quotes, as it comes through the netbeans protocol.
* `arguments_quotes_strescape`: the splitting pass finds the arguments.
* `countArgs_quotes`: what the counting pass finds, if arguments end in a backslash.
* `split_sent_iff`: the lines that come to the arguments they were made from.
* `cmdExec`: what happens to a line, and `cmdExec_stored_iff`: the lines with a first argument.
-/

namespace Vimgdb.Strsplit

open Escape

variable {skips : Char → Bool} {inside odd : Bool} {s r a : CStr} {args : List CStr}

/-! ## Lines of quoted arguments -/

/-- An argument in quotes, with its special characters escaped. -/
def quoted (arg : CStr) : CStr := '"' :: (strescape arg ++ ['"'])

/-- The arguments in quotes, with blanks between them, in the string of a netbeans message: the user
interface escapes the characters that `strescape` does. -/
def sent (args : List CStr) : CStr := strescape (words (args.map quoted))

/-- With a blank in front, which is skipped. -/
theorem quotes_eq (args : List CStr) :
    quotes (args.map strescape) = if args = [] then [] else ' ' :: words (args.map quoted) := by
  induction args with
  | nil => rfl
  | cons a args ih =>
      rw [if_neg (List.cons_ne_nil _ _), List.map_cons, quotes, ih]
      cases args with
      | nil => simp [words, quoted]
      | cons b args => simp [words, quoted]

theorem arguments_words_quoted (args : List CStr) :
    arguments (words (args.map quoted)) = arguments (quotes (args.map strescape)) := by
  rw [quotes_eq]
  split
  · next h => rw [h]; rfl
  · rw [arguments_blank]

theorem countArgs_blank (t : CStr) : countArgs (' ' :: t) = countArgs t := by
  rw [countArgs_rest, countArgs_rest]
  rfl

theorem countArgs_words_quoted (args : List CStr) :
    countArgs (words (args.map quoted)) = countArgs (quotes (args.map strescape)) := by
  rw [quotes_eq]
  split
  · next h => rw [h]; rfl
  · rw [countArgs_blank]

/-! ## The splitting pass -/

/-- The splitting pass knows every escape sequence. -/
theorem scanArg_strescape (a : CStr) (hr : r = [] ∨ ∃ t, r = ' ' :: t) :
    scanArg splitting true (strescape a ++ '"' :: r) = some (a.length, r) := by
  induction a with
  | nil => rcases hr with rfl | ⟨t, rfl⟩ <;> rfl
  | cons c a ih =>
      rw [strescape]
      cases hc : escapeChar c with
      | some e =>
          have hskip : splitting e = true := by
            unfold splitting
            rw [deescapeChar_of_escapeChar hc]
            rfl
          dsimp only
          rw [List.cons_append, List.cons_append, scanArg_skip hskip, ih]
          rfl
      | none =>
          obtain ⟨hquote, hbackslash⟩ := escapeChar_eq_none hc
          have hplain : Plain splitting true c (strescape a ++ '"' :: r) :=
            ⟨hquote, fun h => absurd h (by decide), fun h => absurd h hbackslash⟩
          dsimp only
          rw [List.cons_append, scanArg_plain hplain, ih]
          rfl

/-- The argument is copied without its quotes. -/
theorem copied_quoted (a : CStr) : copied (quoted a) = a := by
  show copied (strescape a ++ ['"']) = a
  induction a with
  | nil => rfl
  | cons c a ih =>
      rw [strescape]
      cases hc : escapeChar c with
      | some e =>
          dsimp only
          rw [List.cons_append, List.cons_append, copied_skip (deescapeChar_of_escapeChar hc), ih]
      | none =>
          obtain ⟨hquote, hbackslash⟩ := escapeChar_eq_none hc
          dsimp only
          rw [List.cons_append, copied_plain hquote fun h => absurd h hbackslash, ih]

/-- Whatever the arguments are, they are found. -/
theorem arguments_quotes_strescape (args : List CStr) :
    arguments (quotes (args.map strescape)) = args := by
  induction args with
  | nil => exact arguments_nil
  | cons a args ih =>
      have hscan := scanArg_strescape a (quotes_front (args.map strescape))
      rw [show true = !false from rfl, ← scanArg_quote] at hscan
      have htext : '"' :: (strescape a ++ '"' :: quotes (args.map strescape)) =
          quoted a ++ quotes (args.map strescape) := by simp [quoted]
      have hnext := nextArg_of_scanArg (by decide) hscan htext
      rw [List.map_cons, quotes, arguments_blank, arguments_some hnext, copied_quoted, ih]

/-! ## The counting pass -/

/-- The arguments that are counted from within an argument on. -/
def countFrom (inside : Bool) (s : CStr) : Nat :=
  ((argEnd counting inside s).map fun r => countArgs r + 1).getD 0

theorem countFrom_quote : countFrom inside ('"' :: s) = countFrom (!inside) s := by
  unfold countFrom
  rw [argEnd_quote]

theorem countFrom_plain {c : Char} (h : Plain counting inside c s) :
    countFrom inside (c :: s) = countFrom inside s := by
  unfold countFrom
  rw [argEnd_plain h]

/-- An escape sequence is one for the counting pass, too, unless its backslash is taken together with a
quote. -/
theorem countFrom_escape {c : Char} (hc : splitting c = true) (hs : c = '\\' → s.head? ≠ some '"') :
    countFrom inside ('\\' :: c :: s) = countFrom inside s := by
  unfold countFrom
  rw [argEnd_counting hc hs]

/-- The quote behind a backslash that is escaped does not count. -/
theorem countFrom_backslash : countFrom inside ('\\' :: '\\' :: '"' :: s) = countFrom inside s := by
  have hplain : Plain counting inside '\\' ('\\' :: '"' :: s) := by
    refine ⟨by decide, fun _ => by decide, ?_⟩
    rintro - d t heq
    obtain ⟨rfl, -⟩ := List.cons.inj heq
    rfl
  rw [countFrom_plain hplain]
  unfold countFrom
  rw [argEnd_skip rfl]

theorem countFrom_blank : countFrom false (' ' :: s) = countArgs s + 1 := by
  show countArgs (' ' :: s) + 1 = countArgs s + 1
  rw [countArgs_blank]

/-- An argument that begins. -/
theorem countArgs_cons {c : Char} (hc : c ≠ ' ') : countArgs (c :: s) = countFrom false (c :: s) := by
  have hrest : rest counting (c :: s) = argEnd counting false (c :: s) := by
    rw [rest_eq, skipBlanks_of_ne hc]
  rw [countArgs_rest, hrest]
  unfold countFrom
  cases argEnd counting false (c :: s) <;> rfl

/-- The argument ends in a backslash. -/
def endsInBackslash (a : CStr) : Bool := a.getLast? == some '\\'

/-- What is counted behind the closing quote of an argument, which is taken for an escaped one if the
argument ends in a backslash. -/
def behind (inside : Bool) (a s : CStr) : Nat :=
  if endsInBackslash a then countFrom inside s else countFrom (!inside) s

theorem behind_cons {c : Char} (h : a = [] → c ≠ '\\') :
    behind inside (c :: a) s = behind inside a s := by
  have hends : endsInBackslash (c :: a) = endsInBackslash a := by
    unfold endsInBackslash
    cases a with
    | nil => simp [h rfl]
    | cons d a => rw [List.getLast?_cons_cons]
  unfold behind
  rw [hends]

/-- No quote is at the front of an escaped text, and no blank but its own. -/
theorem head_strescape (c : Char) (a : CStr) :
    ∃ d t, strescape (c :: a) = d :: t ∧ d ≠ '"' ∧ (c ≠ ' ' → d ≠ ' ') := by
  rw [strescape]
  cases hc : escapeChar c with
  | some e => exact ⟨'\\', e :: strescape a, rfl, by decide, fun _ => by decide⟩
  | none => exact ⟨c, strescape a, rfl, (escapeChar_eq_none hc).1, id⟩

/-- A character that is no blank does not end the argument. -/
theorem countFrom_strescape_cons {c : Char} (h : inside = false → c ≠ ' ') :
    countFrom inside (strescape (c :: a) ++ '"' :: s) + behind inside a s =
      countFrom inside (strescape a ++ '"' :: s) + behind inside (c :: a) s := by
  by_cases hlast : c = '\\' ∧ a = []
  · obtain ⟨rfl, rfl⟩ := hlast
    show countFrom inside ('\\' :: '\\' :: '"' :: s) + countFrom (!inside) s =
      countFrom inside ('"' :: s) + countFrom inside s
    rw [countFrom_backslash, countFrom_quote, Nat.add_comm]
  · rw [behind_cons fun ha hc => hlast ⟨hc, ha⟩]
    congr 1
    rw [strescape]
    cases hc : escapeChar c with
    | some e =>
        have hskip : splitting e = true := by
          unfold splitting
          rw [deescapeChar_of_escapeChar hc]
          rfl
        refine countFrom_escape hskip ?_
        rintro rfl
        have hbackslash : c = '\\' := by
          have hback := deescapeChar_of_escapeChar hc
          cases hback
          rfl
        cases a with
        | nil => exact absurd ⟨hbackslash, rfl⟩ hlast
        | cons d a =>
            obtain ⟨f, t, ht, hf, -⟩ := head_strescape d a
            rw [ht]
            simpa using hf
    | none =>
        obtain ⟨hquote, hbackslash⟩ := escapeChar_eq_none hc
        exact countFrom_plain ⟨hquote, h, fun heq => absurd heq hbackslash⟩

/-- An argument in quotes. -/
theorem countFrom_inside (a s : CStr) :
    countFrom true (strescape a ++ '"' :: s) = behind true a s := by
  induction a with
  | nil => exact countFrom_quote
  | cons c a ih =>
      have hcons := @countFrom_strescape_cons true s a c (fun h => absurd h (by decide))
      omega

/-- Runs of blanks; `blank` says whether there is one in front. -/
def blankRuns : Bool → CStr → Nat
  | _, [] => 0
  | blank, c :: s =>
      if c = ' ' then (if blank then 0 else 1) + blankRuns true s else blankRuns false s

/-- An argument that is taken for text outside of quotes ends at each run of blanks. -/
theorem countFrom_outside (a s : CStr) :
    countFrom false (strescape a ++ '"' :: s) = blankRuns false a + behind false a s ∧
      countArgs (strescape a ++ '"' :: s) = blankRuns true a + behind false a s := by
  induction a with
  | nil =>
      have hquote : countFrom false ('"' :: s) = 0 + behind false [] s :=
        countFrom_quote.trans (Nat.zero_add _).symm
      exact ⟨hquote, (countArgs_cons (by decide)).trans hquote⟩
  | cons c a ih =>
      by_cases hc : c = ' '
      · subst hc
        have hcons : behind false (' ' :: a) s = behind false a s := behind_cons fun _ => by decide
        have hescape : strescape (' ' :: a) = ' ' :: strescape a := rfl
        rw [hescape, List.cons_append, countFrom_blank, countArgs_blank, hcons, ih.2, blankRuns,
          blankRuns, if_pos rfl, if_pos rfl, if_pos rfl, if_neg Bool.false_ne_true]
        omega
      · have hcons := @countFrom_strescape_cons false s a c fun _ => hc
        have hfrom : countFrom false (strescape (c :: a) ++ '"' :: s) =
            blankRuns false a + behind false (c :: a) s := by omega
        unfold blankRuns
        rw [if_neg hc, if_neg hc]
        refine ⟨hfrom, ?_⟩
        obtain ⟨d, t, ht, -, hd⟩ := head_strescape c a
        rw [ht, List.cons_append] at hfrom ⊢
        rw [countArgs_cons (hd hc), hfrom]

/-! ## Arguments that end in a backslash -/

/-- The arguments that the counting pass takes for text outside of quotes, and the text between them
for quoted: an odd number of arguments in front of them, `odd` for those before the first, ends in a
backslash. -/
def swapped : Bool → List CStr → List CStr
  | _, [] => []
  | odd, a :: args =>
      (if odd then [a] else []) ++ swapped (odd ^^ endsInBackslash a) args

/-- The runs of blanks in arguments. -/
def totalRuns : List CStr → Nat
  | [] => 0
  | a :: args => blankRuns false a + totalRuns args

/-- Whether an odd number of arguments ends in a backslash. -/
def oddBackslashes : List CStr → Bool
  | [] => false
  | a :: args => endsInBackslash a ^^ oddBackslashes args

/-- What is counted behind an argument: the closing quote has been taken for one, or not. -/
def countBehind (odd : Bool) (args : List CStr) : Nat :=
  if odd then countFrom true (quotes (args.map strescape)) else countArgs (quotes (args.map strescape))

theorem countFrom_quotes (args : List CStr) :
    countFrom false (quotes (args.map strescape)) = countArgs (quotes (args.map strescape)) + 1 := by
  rcases quotes_front (args.map strescape) with h | ⟨t, h⟩
  · rw [h]
    rfl
  · rw [h, countFrom_blank, countArgs_blank]

/-- One argument: the counting pass takes it for quoted text, or it does not. -/
theorem countBehind_cons (odd : Bool) (a : CStr) (args : List CStr) :
    countBehind odd (a :: args) = (if odd then blankRuns false a else 0) +
      (countBehind (odd ^^ endsInBackslash a) args + if odd = endsInBackslash a then 1 else 0) := by
  have hbehind := countFrom_quotes args
  unfold countBehind
  rw [List.map_cons, quotes]
  cases odd with
  | false =>
      have hcount : countArgs (' ' :: '"' :: (strescape a ++ '"' :: quotes (args.map strescape))) =
          behind true a (quotes (args.map strescape)) := by
        rw [countArgs_blank, countArgs_cons (by decide), countFrom_quote]
        exact countFrom_inside a _
      simp only [Bool.false_eq_true, if_false, hcount]
      unfold behind
      cases endsInBackslash a <;> simp [hbehind]
  | true =>
      have hblank : Plain counting true ' '
          ('"' :: (strescape a ++ '"' :: quotes (args.map strescape))) :=
        ⟨by decide, fun h => absurd h (by decide), fun h => absurd h (by decide)⟩
      rw [if_pos rfl, countFrom_plain hblank, countFrom_quote, if_pos rfl]
      have hcount := (countFrom_outside a (quotes (args.map strescape))).1
      rw [Bool.not_true, hcount]
      unfold behind
      cases endsInBackslash a <;> simp [hbehind]

/-- How many arguments are counted. -/
theorem countBehind_eq (odd : Bool) (args : List CStr) :
    countBehind odd args + (swapped odd args).length + (odd ^^ oddBackslashes args).toNat =
      args.length + totalRuns (swapped odd args) + odd.toNat := by
  induction args generalizing odd with
  | nil =>
      have hnil : countArgs [] = 0 := countArgs_none rfl
      cases odd with
      | false => exact congrArg (· + 0 + 0) hnil
      | true => rfl
  | cons a args ih =>
      have hcons := countBehind_cons odd a args
      have hrest := ih (odd ^^ endsInBackslash a)
      rw [oddBackslashes, ← Bool.xor_assoc, swapped, List.length_append, List.length_cons]
      cases odd <;> cases hends : endsInBackslash a <;> rw [hends] at hcons hrest <;>
        simp [totalRuns] at hcons hrest ⊢ <;> omega

/-- The arguments for which as many are counted as there are: the counting pass takes the closing quote
of an argument that ends in a backslash for one that is escaped, and from there to the next such
argument it takes arguments for what is between them. -/
def CountsEnough (args : List CStr) : Prop :=
  (swapped false args).length + (oddBackslashes args).toNat ≤ totalRuns (swapped false args)

theorem countsEnough_iff (args : List CStr) :
    CountsEnough args ↔ args.length ≤ countArgs (words (args.map quoted)) := by
  have hcount := countBehind_eq false args
  have hsame : countBehind false args = countArgs (words (args.map quoted)) :=
    (countArgs_words_quoted args).symm
  unfold CountsEnough
  simp at hcount
  omega

/-- What `cmd_exec` makes of the line. -/
theorem split_sent (junk : Char) (args : List CStr) : split junk (strdeescape (sent args)) =
    if args.length ≤ countArgs (words (args.map quoted)) then some args else none := by
  rw [sent, strdeescape_strescape, split_eq, arguments_words_quoted, arguments_quotes_strescape]

/-- The arguments come back iff enough are counted. -/
theorem split_sent_iff (junk : Char) (args : List CStr) :
    split junk (strdeescape (sent args)) = some args ↔ CountsEnough args := by
  rw [split_sent, countsEnough_iff]
  split
  · next h => exact iff_of_true rfl h
  · next h => exact iff_of_false nofun h

/-- A single argument that is a backslash does not come back. -/
theorem backslash_does_not_come_back :
    ¬ ∀ junk args, split junk (strdeescape (sent args)) = some args := by
  intro h
  have hback := h 'x' [['\\']]
  have hcount : ¬ CountsEnough [['\\']] := by unfold CountsEnough; decide
  rw [split_sent, if_neg (mt (countsEnough_iff _).mpr hcount)] at hback
  cases hback

/-! ## The first argument -/

/-- The quotes in a text that are not escaped; `escaped` says whether an odd number of backslashes is in
front. -/
def quoteCount : Bool → CStr → Nat
  | _, [] => 0
  | escaped, c :: s =>
      (if c = '"' ∧ !escaped then 1 else 0) + quoteCount (c == '\\' && !escaped) s

/-- Behind the blanks in front, a line has a text up to a blank or to its end whose quotes come in
pairs. -/
def FirstArgument (line : CStr) : Prop :=
  ∃ text rest, skipBlanks line = text ++ rest ∧ text ≠ [] ∧ quoteCount false text % 2 = 0 ∧
    (rest = [] ∨ ∃ t, rest = ' ' :: t)

theorem quoteCount_cons {c : Char} (hquote : c ≠ '"') (hbackslash : c ≠ '\\') (escaped : Bool) :
    quoteCount escaped (c :: s) = quoteCount false s := by
  rw [quoteCount, if_neg fun h => hquote h.1, beq_false_of_ne hbackslash]
  exact Nat.zero_add _

theorem quoteCount_skip {c : Char} : quoteCount false ('\\' :: c :: s) = quoteCount false s := by
  rw [quoteCount, if_neg fun h => absurd h.1 (by decide), quoteCount]
  simp

/-- A backslash in front of a character that it does not escape. -/
theorem quoteCount_backslash (h : ∀ d t, s = d :: t → splitting d = false) :
    quoteCount false ('\\' :: s) = quoteCount false s := by
  rw [quoteCount, if_neg fun h => absurd h.1 (by decide), Nat.zero_add]
  show quoteCount true s = quoteCount false s
  cases s with
  | nil => rfl
  | cons d t =>
      have hd := h d t rfl
      have hquote : d ≠ '"' := by
        rintro rfl
        exact absurd hd (by decide)
      have hbackslash : d ≠ '\\' := by
        rintro rfl
        exact absurd hd (by decide)
      rw [quoteCount_cons hquote hbackslash, quoteCount_cons hquote hbackslash]

/-- A character that stands for itself. -/
theorem quoteCount_plain {c : Char} {t : CStr} (h : Plain splitting inside c (s ++ t)) :
    quoteCount false (c :: s) = quoteCount false s := by
  by_cases hc : c = '\\'
  · subst hc
    refine quoteCount_backslash fun d u hd => ?_
    subst hd
    exact h.escape rfl d (u ++ t) rfl
  · exact quoteCount_cons h.quote hc false

/-- The quotes of an argument come in pairs. -/
theorem quoteCount_of_scanArg {n : Nat} (h : scanArg splitting inside s = some (n, r)) :
    ∃ text, s = text ++ r ∧ (inside.toNat + quoteCount false text) % 2 = 0 := by
  induction inside, s using scanArg_induction splitting generalizing n with
  | nil inside =>
      cases inside <;> cases h
      exact ⟨[], rfl, rfl⟩
  | quote inside s ih =>
      rw [scanArg_quote] at h
      obtain ⟨text, rfl, htext⟩ := ih h
      refine ⟨'"' :: text, rfl, ?_⟩
      have hquote : quoteCount false ('"' :: text) = 1 + quoteCount false text := rfl
      rw [hquote]
      cases inside <;> simp at htext ⊢ <;> omega
  | blank s =>
      cases h
      exact ⟨[], rfl, rfl⟩
  | skip inside c s hskip ih =>
      rw [scanArg_skip hskip] at h
      obtain ⟨⟨m, r'⟩, hr, heq⟩ := Option.map_eq_some_iff.mp h
      cases heq
      obtain ⟨text, rfl, htext⟩ := ih hr
      exact ⟨'\\' :: c :: text, rfl, by rwa [quoteCount_skip]⟩
  | plain inside c s hplain ih =>
      rw [scanArg_plain hplain] at h
      obtain ⟨⟨m, r'⟩, hr, heq⟩ := Option.map_eq_some_iff.mp h
      cases heq
      obtain ⟨text, rfl, htext⟩ := ih hr
      exact ⟨c :: text, rfl, by rwa [quoteCount_plain hplain]⟩

/-- Where the quotes of a text come in pairs, the argument ends with it, or before. -/
theorem scanArg_of_quoteCount {text : CStr} (hs : s = text ++ r)
    (hquotes : (inside.toNat + quoteCount false text) % 2 = 0) (hr : r = [] ∨ ∃ t, r = ' ' :: t) :
    scanArg splitting inside s ≠ none := by
  induction inside, s using scanArg_induction splitting generalizing text with
  | nil inside =>
      obtain ⟨rfl, rfl⟩ := List.append_eq_nil_iff.mp hs.symm
      cases inside
      · exact Option.some_ne_none _
      · exact absurd hquotes (by decide)
  | quote inside s ih =>
      cases text with
      | nil =>
          rcases hr with rfl | ⟨t, rfl⟩
          · cases hs
          · exact absurd (List.cons.inj hs).1 (by decide)
      | cons c text =>
          obtain ⟨rfl, htail⟩ := List.cons.inj hs
          rw [scanArg_quote]
          refine ih htail ?_
          have hquote : quoteCount false ('"' :: text) = 1 + quoteCount false text := rfl
          rw [hquote] at hquotes
          cases inside <;> simp at hquotes ⊢ <;> omega
  | blank s => exact Option.some_ne_none _
  | skip inside c s hskip ih =>
      rw [scanArg_skip hskip, Ne, Option.map_eq_none_iff]
      rcases text with _ | ⟨d, _ | ⟨e, text⟩⟩
      · rcases hr with rfl | ⟨t, rfl⟩
        · cases hs
        · exact absurd (List.cons.inj hs).1 (by decide)
      · rcases hr with rfl | ⟨t, rfl⟩
        · cases hs
        · obtain ⟨-, htail⟩ := List.cons.inj hs
          obtain ⟨rfl, -⟩ := List.cons.inj htail
          exact absurd hskip (by decide)
      · obtain ⟨hd, htail⟩ := List.cons.inj hs
        obtain ⟨he, htail⟩ := List.cons.inj htail
        rw [← hd, ← he, quoteCount_skip] at hquotes
        exact ih htail hquotes
  | plain inside c s hplain ih =>
      rw [scanArg_plain hplain, Ne, Option.map_eq_none_iff]
      cases text with
      | nil =>
          rcases hr with rfl | ⟨t, rfl⟩
          · cases hs
          · obtain ⟨rfl, -⟩ := List.cons.inj hs
            cases inside
            · exact absurd rfl (hplain.blank rfl)
            · exact absurd hquotes (by decide)
      | cons d text =>
          obtain ⟨hd, htail⟩ := List.cons.inj hs
          rw [← hd, quoteCount_plain (htail ▸ hplain)] at hquotes
          exact ih htail hquotes

/-- The lines in which the splitting pass finds an argument. -/
theorem arguments_ne_nil_iff (line : CStr) : arguments line ≠ [] ↔ FirstArgument line := by
  constructor
  · intro h
    rcases hnext : nextArg splitting line with _ | ⟨n, text, r⟩
    · exact absurd (arguments_none hnext) h
    · obtain ⟨c, t, hskip, hc, hscan, htext⟩ := nextArg_spec hnext
      obtain ⟨text', htext', hquotes⟩ := quoteCount_of_scanArg hscan
      have hr := blank_of_scanArg hscan
      refine ⟨text', r, hskip.trans htext', ?_, by simpa using hquotes, hr⟩
      rintro rfl
      rcases hr with rfl | ⟨t', rfl⟩
      · cases htext'
      · exact hc (List.cons.inj htext').1
  · rintro ⟨text, r, hskip, hne, hquotes, hr⟩
    obtain ⟨c, t, rfl⟩ := List.exists_cons_of_ne_nil hne
    have hscan := @scanArg_of_quoteCount false _ r _ rfl (by simpa using hquotes) hr
    obtain ⟨⟨n, r'⟩, hscan⟩ := Option.ne_none_iff_exists'.mp hscan
    have hnext : nextArg splitting line ≠ none := by
      unfold nextArg
      rw [hskip]
      dsimp only [List.cons_append]
      rw [← List.cons_append, hscan]
      exact Option.some_ne_none _
    obtain ⟨⟨m, text', r''⟩, hnext⟩ := Option.ne_none_iff_exists'.mp hnext
    rw [arguments_some hnext]
    exact List.cons_ne_nil _ _

end Vimgdb.Strsplit

namespace Vimgdb.Commands

open Strsplit

/-! ## `cmd_exec` -/

/-- The commands. -/
def userCmds : List CStr :=
  ["test", "help", "inferior", "break", "exec", "variable", "callstack", "register", "memory",
    "evaluate", "per", "ui"].map String.toList

/-- `user_cmd::lookup` -/
def lookup (name : CStr) : Bool := userCmds.contains name

/-- What is done: gdb is written to, a command is executed with `argc` and `argv`, or a file is written
to tell the user interface. -/
inductive Action
  | write (data : CStr)
  | exec (argc : Nat) (argv : List CStr)
  | sync (file : CStr)
  deriving DecidableEq

/-- What is not defined: `strsplit` writes outside of what it has allocated, or an entry of `argv` is
read that it has not stored. -/
inductive Fault
  | overflow
  | notStored (k : Int)
  deriving DecidableEq

/-- `argv[k]` -/
def entry (argv : List CStr) (k : Int) : Except Fault CStr :=
  if h : 0 ≤ k ∧ k.toNat < argv.length then .ok (argv.get ⟨k.toNat, h.2⟩) else .error (.notStored k)

/-- `cmd_exec` -/
def cmdExec (junk : Char) (line : CStr) : Except Fault (List Action) :=
  let line := strdeescape line
  match split junk line with
  | none => .error .overflow
  | some argv => do
      let name ← entry argv 0
      if lookup name then
        let file ← entry argv (argv.length - 1)
        return [.exec (argv.length - 1) argv, .sync file]
      else return [.write line, .write "\n".toList]

variable {junk : Char} {line : CStr} {argv : List CStr}

/-- The entries that are read are there if any is. -/
theorem entry_ok {k : Int} (hk : 0 ≤ k) (hlt : k < argv.length) : ∃ name, entry argv k = .ok name := by
  unfold entry
  rw [dif_pos ⟨hk, by omega⟩]
  exact ⟨_, rfl⟩

theorem cmdExec_of_split (h : split junk (strdeescape line) = some argv) (hne : argv ≠ []) :
    ∃ actions, cmdExec junk line = .ok actions := by
  have hpos := List.length_pos_iff.mpr hne
  obtain ⟨name, hname⟩ := @entry_ok argv 0 (Int.le_refl 0) (by omega)
  obtain ⟨file, hfile⟩ := @entry_ok argv (argv.length - 1) (by omega) (by omega)
  unfold cmdExec
  dsimp only
  rw [h]
  dsimp only
  rw [hname]
  show ∃ actions, (if lookup name then _ else _ : Except Fault (List Action)) = Except.ok actions
  split
  · rw [hfile]
    exact ⟨_, rfl⟩
  · exact ⟨_, rfl⟩

/-- Without arguments the first entry of `argv` is read all the same. -/
theorem cmdExec_of_nil (h : arguments (strdeescape line) = []) :
    cmdExec junk line = .error (.notStored 0) := by
  have hsplit : split junk (strdeescape line) = some [] := by
    rw [split_eq, h, if_pos (show ([] : List CStr).length ≤ _ from Nat.zero_le _)]
  unfold cmdExec
  dsimp only
  rw [hsplit]
  rfl

/-- Only stored entries of `argv` are read iff the line has a first argument. -/
theorem cmdExec_stored_iff (junk : Char) (line : CStr) :
    (∀ k, cmdExec junk line ≠ .error (.notStored k)) ↔ FirstArgument (strdeescape line) := by
  rw [← arguments_ne_nil_iff]
  constructor
  · intro h hnil
    exact h 0 (cmdExec_of_nil hnil)
  · intro h k
    rcases hsplit : split junk (strdeescape line) with _ | argv
    · unfold cmdExec
      dsimp only
      rw [hsplit]
      exact fun heq => nomatch heq
    · obtain rfl := arguments_of_split hsplit
      obtain ⟨actions, hactions⟩ := cmdExec_of_split hsplit h
      rw [hactions]
      exact fun heq => nomatch heq

/-- The line is a blank. -/
theorem blank_line_reads_argv : ¬ ∀ junk line k, cmdExec junk line ≠ .error (.notStored k) :=
  fun h => h 'x' [' '] 0 (cmdExec_of_nil ((arguments_blank []).trans arguments_nil))

end Vimgdb.Commands
