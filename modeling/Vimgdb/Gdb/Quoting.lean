import Vimgdb.Gdb.Issue

/-!
# Quoted parameters

`gdbif::mi_issue_cmd` writes a string parameter between two quotes, byte by byte.  gdb reads the
line as a sequence of arguments: a c-string ends at the first quote that has no backslash, and
backslash escapes are undone.

* `readArgs`, `readLine`: the line as gdb reads it.
* `Param`, `Cmd`: the commands with quoted parameters, their formats and arguments.
* `Plain`: the strings that c-string syntax leaves alone.
* `readArgs_spaced`: arguments between blanks are read back iff the quoted ones read the same.
* `issue_reads_back_iff`: the parameters are read back iff the quoted ones are plain and nothing
  contains a newline.
-/

namespace Vimgdb.Gdb

/-! ## Reading a line -/

/-- The text up to the first quote without a backslash, and the text behind that quote. -/
def readQuoted : CStr → Option (CStr × CStr)
  | [] => none
  | '"' :: s => some ([], s)
  | ['\\'] => none
  | '\\' :: c :: s => (readQuoted s).map fun r => ('\\' :: c :: r.1, r.2)
  | c :: s => (readQuoted s).map fun r => (c :: r.1, r.2)

/-- One argument, and the text behind it: a c-string with a blank behind its closing quote, or the
text up to the next blank. -/
def readArg : CStr → Option (CStr × CStr)
  | [] => none
  | '"' :: s =>
      (readQuoted s).bind fun r =>
        if r.2.head?.all isSpace then some (strdeescape r.1, r.2) else none
  | c :: s => some ((c :: s).takeWhile (!isSpace ·), (c :: s).dropWhile (!isSpace ·))

/-- The first `n` arguments, and the text behind them. -/
def readArgs : Nat → CStr → Option (List CStr × CStr)
  | 0, s => some ([], s.dropWhile isSpace)
  | n + 1, s =>
      (readArg (s.dropWhile isSpace)).bind fun r =>
        (readArgs n r.2).map fun t => (r.1 :: t.1, t.2)

/-- The token, the command and its first `n` arguments on a line, and the text behind them. -/
def readCommand (n : Nat) (line : CStr) : Option (CStr × CStr × List CStr × CStr) :=
  match line.dropWhile Char.isDigit with
  | '-' :: s =>
      (readArgs n (s.dropWhile (!isSpace ·))).map fun r =>
        (line.takeWhile Char.isDigit, s.takeWhile (!isSpace ·), r)
  | _ => none

/-- The same for bytes that have to be a single line. -/
def readLine (n : Nat) (bytes : CStr) : Option (CStr × CStr × List CStr × CStr) :=
  let line := bytes.takeWhile (· ≠ '\n')
  if bytes = line ++ ['\n'] then readCommand n line else none

/-! ## Commands with quoted parameters -/

/-- A word of a format. -/
structure Word where
  text : CStr
  ne_nil : text ≠ []
  literal : '%' ∉ text
  noQuote : '"' ∉ text
  noSpace : ∀ c ∈ text, isSpace c = false

/-- An array of strings whose length is an `int`. -/
structure Argv where
  strs : List CStr
  short : strs.length < 2147483648

/-- The parts of the formats that are used with quoted parameters: a literal word, `%u`, `"%s"`,
`%ssq %d`, and `"%ss %d"`, which writes the strings of an array as one parameter. -/
inductive Param
  | word (w : Word)
  | uint (v : BitVec 32)
  | quoted (s : CStr)
  | array (argv : Argv)
  | joined (argv : Argv)

/-- Its format. -/
def Param.fmt : Param → CStr
  | .word w => w.text
  | .uint _ => "%u".toList
  | .quoted _ => "\"%s\"".toList
  | .array _ => "%ssq %d".toList
  | .joined _ => "\"%ss %d\"".toList

/-- The arguments behind the format. -/
def Param.args : Param → List Arg
  | .word _ => []
  | .uint v => [.uint v]
  | .quoted s => [.str s]
  | .array argv | .joined argv => [.strs argv.strs, .int (BitVec.ofNat 32 argv.strs.length)]

/-- A command with quoted parameters: the parts of its format up to the last quoted one, and the
words behind them, each of them a sequence of `%s`. -/
structure Cmd where
  cmd : Word
  params : List Param
  rest : List (List CStr)

/-- The format of strings without blanks between them. -/
def strsFmt (ss : List CStr) : CStr := ss.flatMap fun _ => "%s".toList

/-- The format of the command: its parts with blanks between them. -/
def Cmd.fmt (c : Cmd) : CStr := [' '].intercalate (c.params.map Param.fmt ++ c.rest.map strsFmt)

/-- The arguments of the command. -/
def Cmd.args (c : Cmd) : List Arg := c.params.flatMap Param.args ++ c.rest.flatten.map Arg.str

/-- The bytes written for the command. -/
def Cmd.written (token : BitVec 32) (c : Cmd) : CStr :=
  (issueCmd token c.cmd.text c.fmt c.args).1.flatten

/-- The digits of a number are a word. -/
def Word.ofNat (v : Nat) : Word where
  text := itoa 10 v
  ne_nil := Nat.toDigits_ne_nil
  literal hmem := absurd (digits_of_itoa v _ hmem) (by decide)
  noQuote hmem := absurd (digits_of_itoa v _ hmem) (by decide)
  noSpace c hmem := isSpace_of_isDigit (digits_of_itoa v c hmem)

/-- An argument as gdb is to read it. -/
inductive Atom
  | word (w : Word)
  | quoted (s : CStr)

/-- Its value. -/
def Atom.value : Atom → CStr
  | .word w => w.text
  | .quoted s => s

/-- A string as it is written between quotes. -/
def quote (s : CStr) : CStr := '"' :: (s ++ ['"'])

/-- The text that is written for the argument. -/
def Atom.text : Atom → CStr
  | .word w => w.text
  | .quoted s => quote s

/-- The strings of an array as one parameter. -/
def Argv.join (argv : Argv) : CStr := [' '].intercalate argv.strs

/-- The arguments a part of the format stands for. -/
def Param.atoms : Param → List Atom
  | .word w => [.word w]
  | .uint v => [.word (.ofNat v.toNat)]
  | .quoted s => [.quoted s]
  | .array argv => argv.strs.map .quoted
  | .joined argv => [.quoted argv.join]

/-- The parameters gdb is to read. -/
def Cmd.values (c : Cmd) : List CStr := (c.params.flatMap Param.atoms).map Atom.value

/-- The text behind the parameters. -/
def Cmd.tail (c : Cmd) : CStr := [' '].intercalate (c.rest.map List.flatten)

/-- gdb reads the written bytes as one line with the token, the command and exactly the parameters,
in order, and leaves the text behind them. -/
def LineReadsBack (token : BitVec 32) (c : Cmd) : Prop :=
  readLine c.values.length (c.written token) =
    some (itoa 10 token.toNat, c.cmd.text, c.values, c.tail.dropWhile isSpace)

/-- A string that is the same in c-string syntax. -/
structure Plain (s : CStr) : Prop where
  noQuote : '"' ∉ s
  noEscape : ∀ c, (deescapeChar c).isSome → ¬ ['\\', c] <:+: s
  noTrailing : ¬ ['\\'] <:+ s

/-- The strings that are written in quotes. -/
def Param.quotedStrings : Param → List CStr
  | .word _ | .uint _ => []
  | .quoted s => [s]
  | .array argv => argv.strs
  | .joined argv => [argv.join]

theorem Param.mem_quotedStrings {p : Param} {s : CStr} :
    s ∈ p.quotedStrings ↔ .quoted s ∈ p.atoms := by
  cases p <;> simp [Param.quotedStrings, Param.atoms]

/-! ## Plain strings -/

theorem plain_nil : Plain [] where
  noQuote := List.not_mem_nil
  noEscape _ _ h := absurd (List.infix_nil.mp h) (List.cons_ne_nil _ _)
  noTrailing h := absurd (List.suffix_nil.mp h) (List.cons_ne_nil _ _)

theorem Plain.tail {c : Char} {s : CStr} (h : Plain (c :: s)) : Plain s where
  noQuote hmem := h.noQuote (List.mem_cons_of_mem _ hmem)
  noEscape d hd hin := h.noEscape d hd (hin.trans (List.suffix_cons c s).isInfix)
  noTrailing hsuf := h.noTrailing (hsuf.trans (List.suffix_cons c s))

theorem Plain.cons {c : Char} {s : CStr} (hquote : c ≠ '"') (hslash : c ≠ '\\') (h : Plain s) :
    Plain (c :: s) where
  noQuote hmem := (List.mem_cons.mp hmem).elim (fun heq => hquote heq.symm) h.noQuote
  noEscape d hd hin := by
    rcases List.infix_cons_iff.mp hin with hpre | hin
    · exact hslash (List.cons_prefix_cons.mp hpre).1.symm
    · exact h.noEscape d hd hin
  noTrailing hsuf := by
    rcases List.suffix_cons_iff.mp hsuf with heq | hsuf
    · exact hslash (List.cons.inj heq).1.symm
    · exact h.noTrailing hsuf

/-- A backslash may stand before a character that it does not escape. -/
theorem Plain.backslash {c : Char} {s : CStr} (hc : deescapeChar c = none) (h : Plain (c :: s)) :
    Plain ('\\' :: c :: s) where
  noQuote hmem := (List.mem_cons.mp hmem).elim (fun heq => absurd heq (by decide)) h.noQuote
  noEscape d hd hin := by
    rcases List.infix_cons_iff.mp hin with hpre | hin
    · have heq : d = c := (List.cons_prefix_cons.mp (List.cons_prefix_cons.mp hpre).2).1
      simp [heq, hc] at hd
    · exact h.noEscape d hd hin
  noTrailing hsuf := by
    rcases List.suffix_cons_iff.mp hsuf with heq | hsuf
    · exact absurd (List.cons.inj heq).2 (by simp)
    · exact h.noTrailing hsuf

/-- The character behind a backslash of a plain string is not escaped by it. -/
theorem Plain.deescapeChar_eq {c : Char} {s : CStr} (h : Plain ('\\' :: c :: s)) :
    deescapeChar c = none := by
  by_contra hc
  exact h.noEscape c (Option.isSome_iff_ne_none.mpr hc) ⟨[], s, rfl⟩

theorem Plain.strdeescape_eq {s : CStr} (h : Plain s) : strdeescape s = s := by
  fun_induction strdeescape s with
  | case1 => rfl
  | case2 => rfl
  | case3 c s d hd _ => simp [h.deescapeChar_eq] at hd
  | case4 c s _ ih => rw [ih h.tail]
  | case5 c s _ _ ih => rw [ih h.tail]

/-! ## c-strings -/

theorem readQuoted_cons {c : Char} (hquote : c ≠ '"') (hslash : c ≠ '\\') (s : CStr) :
    readQuoted (c :: s) = (readQuoted s).map fun r => (c :: r.1, r.2) := by
  rw [readQuoted] <;> simp [hquote, hslash]

/-- A plain string is read up to the quote that was written behind it. -/
theorem Plain.readQuoted_eq {s : CStr} (h : Plain s) (u : CStr) :
    readQuoted (s ++ '"' :: u) = some (s, u) := by
  fun_induction readQuoted s with
  | case1 => rfl
  | case2 s => exact absurd List.mem_cons_self h.noQuote
  | case3 => exact absurd (List.suffix_refl _) h.noTrailing
  | case4 c s ih =>
      rw [List.cons_append, List.cons_append, readQuoted, ih h.tail.tail]
      rfl
  | case5 c s hquote _ hslash ih =>
      have hc : c ≠ '\\' := by
        rintro rfl
        cases s with
        | nil => exact h.noTrailing (List.suffix_refl _)
        | cons d s => exact hslash d s rfl rfl
      rw [List.cons_append, readQuoted_cons hquote hc, ih h.tail]
      rfl

/-- The text of a c-string stands before its closing quote. -/
theorem eq_of_readQuoted {x t r : CStr} (h : readQuoted x = some (t, r)) : x = t ++ '"' :: r := by
  fun_induction readQuoted x generalizing t with
  | case1 => cases h
  | case2 s =>
      cases h
      rfl
  | case3 => cases h
  | case4 c s ih =>
      obtain ⟨⟨t', r'⟩, hread, heq⟩ := Option.map_eq_some_iff.mp h
      cases heq
      rw [ih hread]
      rfl
  | case5 c s _ _ _ ih =>
      obtain ⟨⟨t', r'⟩, hread, heq⟩ := Option.map_eq_some_iff.mp h
      cases heq
      rw [ih hread]
      rfl

/-- A c-string that stays the same when it is read is plain. -/
theorem plain_of_readQuoted {x t r : CStr} (h : readQuoted x = some (t, r))
    (heq : strdeescape t = t) : Plain t := by
  fun_induction readQuoted x generalizing t with
  | case1 => cases h
  | case2 s =>
      cases h
      exact plain_nil
  | case3 => cases h
  | case4 c s ih =>
      obtain ⟨⟨t', r'⟩, hread, hpair⟩ := Option.map_eq_some_iff.mp h
      cases hpair
      cases hc : deescapeChar c with
      | some d =>
          -- an escape makes the text shorter
          rw [strdeescape_escape hc] at heq
          have hlen := length_strdeescape_le t'
          rw [(List.cons.inj heq).2] at hlen
          simp only [List.length_cons] at hlen
          omega
      | none =>
          have hslash : c ≠ '\\' := by
            rintro rfl
            exact absurd hc (by decide)
          have hquote : c ≠ '"' := by
            rintro rfl
            exact absurd hc (by decide)
          rw [strdeescape_keep hc, strdeescape_cons hslash] at heq
          have hplain := ih hread (List.cons.inj (List.cons.inj heq).2).2
          exact (hplain.cons hquote hslash).backslash hc
  | case5 c s hquote hend hslash ih =>
      obtain ⟨⟨t', r'⟩, hread, hpair⟩ := Option.map_eq_some_iff.mp h
      cases hpair
      have hc : c ≠ '\\' := by
        rintro rfl
        cases s with
        | nil => cases hread
        | cons d s => exact hslash d s rfl rfl
      rw [strdeescape_cons hc] at heq
      exact (ih hread (List.cons.inj heq).2).cons hquote hc

theorem replicate_append_cons {α : Type} (j : Nat) (a : α) (l : List α) :
    List.replicate j a ++ a :: l = a :: (List.replicate j a ++ l) := by
  induction j with
  | zero => rfl
  | succ j ih => rw [List.replicate_succ, List.cons_append, ih, List.cons_append]

/-- Backslashes and a string are not what is read from a c-string that runs on behind the quote
written at the end of that string. -/
theorem strdeescape_ne_of_quote (j : Nat) (s x : CStr) :
    strdeescape (s ++ '"' :: x) ≠ List.replicate j '\\' ++ s := by
  fun_induction strdeescape s generalizing j with
  | case1 =>
      rw [List.nil_append, strdeescape_cons (by decide)]
      cases j <;> simp [List.replicate_succ]
  | case2 =>
      rw [List.cons_append, List.nil_append, strdeescape_escape (d := '"') rfl,
        replicate_append_cons]
      simp
  | case3 c s d hd ih =>
      rw [List.cons_append, List.cons_append, strdeescape_escape hd, replicate_append_cons]
      intro heq
      obtain ⟨hslash, hrest⟩ := List.cons.inj heq
      have hc : c = '\\' := by
        rw [hslash] at hd
        unfold deescapeChar at hd
        split at hd <;> simp_all
      -- one more backslash is left over
      rw [hc, replicate_append_cons] at hrest
      exact ih (j + 1) hrest
  | case4 c s hc ih =>
      rw [List.cons_append, List.cons_append, strdeescape_keep hc, replicate_append_cons]
      exact fun heq => ih j (List.cons.inj heq).2
  | case5 c s hend hslash ih =>
      have hc : c ≠ '\\' := by
        rintro rfl
        cases s with
        | nil => exact hend rfl rfl
        | cons d s => exact hslash d s rfl rfl
      rw [List.cons_append, strdeescape_cons hc]
      intro heq
      cases j with
      | zero => exact ih 0 (List.cons.inj heq).2
      | succ j => exact hc (List.cons.inj heq).1

/-! ## Arguments -/

/-- Nothing, or a blank. -/
def Ends (u : CStr) : Prop := u.head?.all isSpace

/-- What is read from a string between quotes is that string only if it is plain. -/
theorem plain_of_readQuoted_eq {s u t r : CStr} (h : readQuoted (s ++ '"' :: u) = some (t, r))
    (heq : strdeescape t = s) : Plain s := by
  have htext := eq_of_readQuoted h
  rcases List.append_eq_append_iff.mp htext with ⟨x, ht, hx⟩ | ⟨x, hs, hx⟩
  · cases x with
    | nil =>
        rw [List.append_nil] at ht
        subst ht
        exact plain_of_readQuoted h heq
    | cons a x =>
        obtain rfl : a = '"' := (List.cons.inj hx).1.symm
        rw [ht] at heq
        exact absurd heq (strdeescape_ne_of_quote 0 s x)
  · cases x with
    | nil =>
        rw [List.append_nil] at hs
        subst hs
        exact plain_of_readQuoted h heq
    | cons a x =>
        have hlen := length_strdeescape_le t
        rw [heq, hs] at hlen
        simp only [List.length_append, List.length_cons] at hlen
        omega

theorem readArg_quote (s u : CStr) :
    readArg (quote s ++ u) = (readQuoted (s ++ '"' :: u)).bind fun r =>
      if r.2.head?.all isSpace then some (strdeescape r.1, r.2) else none := by
  simp [quote, readArg]

theorem Plain.readArg_eq {s u : CStr} (h : Plain s) (hu : Ends u) :
    readArg (quote s ++ u) = some (s, u) := by
  rw [readArg_quote, h.readQuoted_eq, Option.bind_some]
  exact (if_pos hu).trans (by rw [h.strdeescape_eq])

theorem plain_of_readArg {s u v : CStr} (h : readArg (quote s ++ u) = some (s, v)) : Plain s := by
  rw [readArg_quote] at h
  obtain ⟨⟨t, r⟩, hread, hr⟩ := Option.bind_eq_some_iff.mp h
  split_ifs at hr
  exact plain_of_readQuoted_eq hread (congrArg Prod.fst (Option.some.inj hr))

theorem takeWhile_append_of_ends {w u : CStr} (hw : ∀ c ∈ w, isSpace c = false) (hu : Ends u) :
    (w ++ u).takeWhile (!isSpace ·) = w ∧ (w ++ u).dropWhile (!isSpace ·) = u := by
  rw [List.takeWhile_append_of_pos (by simpa using hw),
    List.dropWhile_append_of_pos (by simpa using hw)]
  cases u with
  | nil => simp
  | cons c u =>
      have hc : isSpace c = true := hu
      simp [hc]

theorem Word.readArg_eq (w : Word) {u : CStr} (hu : Ends u) :
    readArg (w.text ++ u) = some (w.text, u) := by
  obtain ⟨htake, hdrop⟩ := takeWhile_append_of_ends w.noSpace hu
  cases htext : w.text with
  | nil => exact absurd htext w.ne_nil
  | cons c s =>
      have hc : c ≠ '"' := fun heq => w.noQuote (by rw [htext, heq]; exact List.mem_cons_self)
      rw [htext] at htake hdrop
      rw [List.cons_append] at htake hdrop ⊢
      rw [readArg, htake, hdrop]
      exact hc

/-! ## Arguments between blanks -/

/-- Arguments with blanks between them, in front of `tail`. -/
inductive Spaced (tail : CStr) : List Atom → CStr → Prop
  | done {u : CStr} : u.dropWhile isSpace = tail.dropWhile isSpace → Spaced tail [] u
  | arg {as : List Atom} {u : CStr} (a : Atom) : Spaced tail as u → Ends u →
      Spaced tail (a :: as) (a.text ++ u)
  | blank {as : List Atom} {u : CStr} : Spaced tail as u → Spaced tail as (' ' :: u)

theorem readArgs_blank (n : Nat) (u : CStr) : readArgs n (' ' :: u) = readArgs n u := by
  have hdrop : (' ' :: u).dropWhile isSpace = u.dropWhile isSpace := rfl
  cases n with
  | zero => rw [readArgs, readArgs, hdrop]
  | succ n => rw [readArgs, readArgs, hdrop]

/-- No blank stands at the front of an argument. -/
theorem Atom.dropWhile_text (a : Atom) (u : CStr) :
    (a.text ++ u).dropWhile isSpace = a.text ++ u := by
  cases a with
  | word w =>
      cases htext : w.text with
      | nil => exact absurd htext w.ne_nil
      | cons c s =>
          have hc := w.noSpace c (by rw [htext]; exact List.mem_cons_self)
          simp [Atom.text, htext, hc]
  | quoted s => rfl

theorem Atom.readArg_eq {a : Atom} {u : CStr} (ha : ∀ s, a = .quoted s → Plain s) (hu : Ends u) :
    readArg (a.text ++ u) = some (a.value, u) := by
  cases a with
  | word w => exact w.readArg_eq hu
  | quoted s => exact (ha s rfl).readArg_eq hu

theorem Atom.plain_of_readArg {a : Atom} {u v : CStr}
    (h : readArg (a.text ++ u) = some (a.value, v)) (s : CStr) (ha : a = .quoted s) : Plain s := by
  subst ha
  exact Gdb.plain_of_readArg h

/-- The arguments are read back iff the quoted ones are plain. -/
theorem readArgs_spaced_iff {tail : CStr} {as : List Atom} {u : CStr} (h : Spaced tail as u) :
    readArgs as.length u = some (as.map Atom.value, tail.dropWhile isSpace) ↔
      ∀ s, .quoted s ∈ as → Plain s := by
  induction h with
  | done hu => simp [readArgs, hu]
  | blank _ ih => rw [readArgs_blank, ih]
  | @arg as u a _ hu ih =>
      rw [List.length_cons, readArgs, a.dropWhile_text]
      constructor
      · intro hread s hs
        obtain ⟨⟨v, u'⟩, harg, hrest⟩ := Option.bind_eq_some_iff.mp hread
        obtain ⟨⟨vs, t⟩, hvs, heq⟩ := Option.map_eq_some_iff.mp hrest
        simp only [List.map_cons, Prod.mk.injEq, List.cons.injEq] at heq
        obtain ⟨⟨hv, hvals⟩, ht⟩ := heq
        rw [hv] at harg
        have ha := Atom.plain_of_readArg harg
        -- the first argument ends where it was written to end
        have hu' : u' = u :=
          congrArg Prod.snd (Option.some.inj (harg.symm.trans (Atom.readArg_eq ha hu)))
        rw [hvals, ht, hu'] at hvs
        rcases List.mem_cons.mp hs with heq | hmem
        · exact ha s heq.symm
        · exact ih.mp hvs s hmem
      · intro hplain
        have ha : ∀ s, a = .quoted s → Plain s := fun s heq =>
          hplain s (heq ▸ List.mem_cons_self)
        rw [Atom.readArg_eq ha hu, Option.bind_some,
          ih.mpr fun s hs => hplain s (List.mem_cons_of_mem _ hs)]
        rfl

/-! ## The text of a command -/

theorem intercalate_cons (a : CStr) (l : List CStr) :
    [' '].intercalate (a :: l) = a ++ l.flatMap (' ' :: ·) := by
  induction l generalizing a with
  | nil => simp
  | cons b l ih => simp [List.intercalate_cons_cons, ih]

/-- The text a part of the format stands for. -/
def Param.text (p : Param) : CStr := [' '].intercalate (p.atoms.map Atom.text)

/-- The text behind the command. -/
def Cmd.text (c : Cmd) : CStr :=
  [' '].intercalate (c.params.map Param.text ++ c.rest.map List.flatten)

/-- The format is valid, and what is written is `text`. -/
structure Writes (fmt : CStr) (args : List Arg) (text : CStr) : Prop where
  ok : (formatLoop fmt args).2 = .ok
  flatten_eq : (formatLoop fmt args).1.flatten = text

theorem Writes.literal {fmt text w : CStr} {args : List Arg} (hw : '%' ∉ w)
    (h : Writes fmt args text) : Writes (w ++ fmt) args (w ++ text) := by
  have hflat : (w.map ([·])).flatten = w := by rw [← List.flatMap_def, List.flatMap_singleton']
  constructor
  · rw [formatLoop_literal hw, h.ok]
  · rw [formatLoop_literal hw, List.flatten_append, hflat, h.flatten_eq]

theorem flatten_writeArray (quoted : Bool) (argv : List CStr) :
    (writeArray quoted argv).flatten =
      [' '].intercalate (argv.map fun s => if quoted then quote s else s) := by
  induction argv with
  | nil => rfl
  | cons s argv ih =>
      have hone : (if quoted then [['"'], s, ['"']] else [s]).flatten =
          if quoted then quote s else s := by
        cases quoted <;> simp [quote]
      cases argv with
      | nil => simp [writeArray, hone]
      | cons t argv =>
          have hsplit : writeArray quoted (s :: t :: argv) =
              (if quoted then [['"'], s, ['"']] else [s]) ++ [' '] :: writeArray quoted (t :: argv) :=
            rfl
          rw [hsplit, List.flatten_append, List.flatten_cons, ih, hone]
          simp only [List.map_cons, List.intercalate_cons_cons, List.append_assoc]

theorem toNat_argc (argv : Argv) :
    (BitVec.ofNat 32 argv.strs.length).toNat = argv.strs.length := by
  have := argv.short
  rw [BitVec.toNat_ofNat]
  omega

theorem Writes.array {fmt text : CStr} {args : List Arg} (argv : Argv) (h : Writes fmt args text) :
    Writes ("%ssq %d".toList ++ fmt)
      (.strs argv.strs :: .int (BitVec.ofNat 32 argv.strs.length) :: args)
      ([' '].intercalate (argv.strs.map quote) ++ text) := by
  have hfmt : "%ssq %d".toList ++ fmt = '%' :: 's' :: 's' :: 'q' :: ' ' :: '%' :: 'd' :: fmt := rfl
  have hle : (BitVec.ofNat 32 argv.strs.length).toNat ≤ argv.strs.length :=
    Nat.le_of_eq (toNat_argc argv)
  rw [hfmt]
  constructor
  · rw [formatLoop, if_pos hle, h.ok]
  · rw [formatLoop, if_pos hle, List.flatten_append, flatten_writeArray, h.flatten_eq, toNat_argc,
      List.take_length]
    simp

theorem Writes.strings {fmt text : CStr} {args : List Arg} (argv : Argv)
    (h : Writes fmt args text) :
    Writes ("%ss %d".toList ++ fmt)
      (.strs argv.strs :: .int (BitVec.ofNat 32 argv.strs.length) :: args)
      (argv.join ++ text) := by
  have hfmt : "%ss %d".toList ++ fmt = '%' :: 's' :: 's' :: ' ' :: '%' :: 'd' :: fmt := rfl
  have hle : (BitVec.ofNat 32 argv.strs.length).toNat ≤ argv.strs.length :=
    Nat.le_of_eq (toNat_argc argv)
  rw [hfmt]
  constructor
  · rw [formatLoop, if_pos hle, h.ok]
  · rw [formatLoop, if_pos hle, List.flatten_append, flatten_writeArray, h.flatten_eq, toNat_argc,
      List.take_length]
    simp [Argv.join]

theorem Writes.str {fmt text : CStr} {args : List Arg} (s : CStr) (h : Writes fmt args text)
    (hs : fmt.head? ≠ some 's') :
    Writes ('%' :: 's' :: fmt) (.str s :: args) (s ++ text) := by
  constructor
  · rw [formatLoop_str hs, write, h.ok]
  · rw [formatLoop_str hs, write, List.flatten_cons, h.flatten_eq]

theorem Writes.uint {fmt text : CStr} {args : List Arg} (v : BitVec 32) (h : Writes fmt args text) :
    Writes ('%' :: 'u' :: fmt) (.uint v :: args) (itoa 10 v.toNat ++ text) := by
  constructor
  · rw [formatLoop, write, h.ok]
  · rw [formatLoop, write, List.flatten_cons, h.flatten_eq]

/-- A part of the format writes its text. -/
theorem Param.writes {fmt text : CStr} {args : List Arg} (p : Param) (h : Writes fmt args text) :
    Writes (p.fmt ++ fmt) (p.args ++ args) (p.text ++ text) := by
  have hclose : Writes ('"' :: fmt) args ('"' :: text) := h.literal (w := ['"']) (by decide)
  cases p with
  | word w =>
      have htext : (Param.word w).text = w.text := List.intercalate_singleton
      rw [htext]
      exact h.literal w.literal
  | uint v =>
      have htext : (Param.uint v).text = itoa 10 v.toNat := List.intercalate_singleton
      rw [htext]
      exact h.uint v
  | quoted s =>
      have htext : (Param.quoted s).text ++ text = '"' :: (s ++ '"' :: text) := by
        simp [Param.text, Param.atoms, Atom.text, quote]
      rw [htext]
      exact (hclose.str s (by simp)).literal (w := ['"']) (by decide)
  | array argv =>
      have htext : (Param.array argv).text = [' '].intercalate (argv.strs.map quote) := by
        rw [Param.text, Param.atoms, List.map_map]
        rfl
      rw [htext]
      exact h.array argv
  | joined argv =>
      have htext : (Param.joined argv).text ++ text = '"' :: (argv.join ++ '"' :: text) := by
        simp [Param.text, Param.atoms, Atom.text, quote]
      rw [htext]
      exact (hclose.strings argv).literal (w := ['"']) (by decide)

/-- So does a word made of strings. -/
theorem Writes.strs {fmt text : CStr} {args : List Arg} (ss : List CStr) (h : Writes fmt args text)
    (hs : fmt.head? ≠ some 's') :
    Writes (strsFmt ss ++ fmt) (ss.map .str ++ args) (ss.flatten ++ text) := by
  induction ss with
  | nil => exact h
  | cons s ss ih =>
      have hhead : (strsFmt ss ++ fmt).head? ≠ some 's' := by
        cases ss with
        | nil => exact hs
        | cons t ss => exact fun heq => absurd (Option.some.inj heq) (by decide)
      simpa [strsFmt] using ih.str s hhead

theorem head_behind (l : List CStr) : (l.flatMap (' ' :: ·)).head? ≠ some 's' := by
  cases l <;> simp

/-- The words at the end of a command, with a blank in front of each. -/
theorem writes_rest (rest : List (List CStr)) :
    Writes ((rest.map strsFmt).flatMap (' ' :: ·)) (rest.flatten.map .str)
      ((rest.map List.flatten).flatMap (' ' :: ·)) := by
  induction rest with
  | nil => exact ⟨rfl, rfl⟩
  | cons ss rest ih =>
      simpa using (ih.strs ss (head_behind _)).literal (w := [' ']) (by decide)

/-- The parts of a command and the words behind them, with a blank in front of each. -/
theorem writes_params (params : List Param) (rest : List (List CStr)) :
    Writes ((params.map Param.fmt ++ rest.map strsFmt).flatMap (' ' :: ·))
      (params.flatMap Param.args ++ rest.flatten.map .str)
      ((params.map Param.text ++ rest.map List.flatten).flatMap (' ' :: ·)) := by
  induction params with
  | nil => exact writes_rest rest
  | cons p params ih => simpa using (p.writes ih).literal (w := [' ']) (by decide)

/-- The format of a command is valid and writes its text. -/
theorem Cmd.writes (c : Cmd) : Writes c.fmt c.args c.text := by
  obtain ⟨cmd, params, rest⟩ := c
  cases params with
  | cons p params =>
      simpa [Cmd.fmt, Cmd.args, Cmd.text, intercalate_cons] using p.writes (writes_params params rest)
  | nil =>
      cases rest with
      | nil => exact ⟨rfl, rfl⟩
      | cons ss rest =>
          simpa [Cmd.fmt, Cmd.args, Cmd.text, intercalate_cons]
            using (writes_rest rest).strs ss (head_behind _)

/-! ## The arguments on the line -/

theorem ends_behind (l : List CStr) {u : CStr} (hu : Ends u) :
    Ends (l.flatMap (' ' :: ·) ++ u) := by
  cases l with
  | nil => exact hu
  | cons a l => rfl

theorem spaced_behind {tail u : CStr} {as : List Atom} (h : Spaced tail as u) (hu : Ends u)
    (l : List Atom) :
    Spaced tail (l ++ as) ((l.map Atom.text).flatMap (' ' :: ·) ++ u) := by
  induction l with
  | nil => exact h
  | cons a l ih => simpa using (ih.arg a (ends_behind _ hu)).blank

/-- The arguments of one part of a format. -/
theorem Param.spaced {tail u : CStr} {as : List Atom} (p : Param) (h : Spaced tail as u)
    (hu : Ends u) : Spaced tail (p.atoms ++ as) (p.text ++ u) := by
  rw [Param.text]
  cases p.atoms with
  | nil => exact h
  | cons a l =>
      rw [List.map_cons, intercalate_cons, List.append_assoc]
      exact (spaced_behind h hu l).arg a (ends_behind _ hu)

theorem spaced_params (params : List Param) (rest : List (List CStr)) :
    Spaced ([' '].intercalate (rest.map List.flatten)) (params.flatMap Param.atoms)
      ((params.map Param.text ++ rest.map List.flatten).flatMap (' ' :: ·)) := by
  induction params with
  | nil =>
      refine .done ?_
      cases rest with
      | nil => rfl
      | cons ss rest =>
          rw [List.map_nil, List.nil_append, List.map_cons, intercalate_cons, List.flatMap_cons]
          rfl
  | cons p params ih =>
      have hends := ends_behind (params.map Param.text ++ rest.map List.flatten) (u := []) rfl
      rw [List.append_nil] at hends
      simpa using (p.spaced ih hends).blank

/-- What stands behind the command on the line. -/
def Cmd.lead (c : Cmd) : CStr := if c.fmt = [] then [] else ' ' :: c.text

theorem Cmd.text_eq_nil {c : Cmd} (h : c.fmt = []) : c.text = [] := by
  rw [← c.writes.flatten_eq, h]
  rfl

theorem Cmd.spaced (c : Cmd) : Spaced c.tail (c.params.flatMap Param.atoms) c.lead := by
  obtain ⟨cmd, params, rest⟩ := c
  cases params with
  | nil =>
      rw [Cmd.lead]
      split_ifs with hfmt
      · exact .done (by rw [← Cmd.text_eq_nil hfmt]; rfl)
      · exact .blank (.done rfl)
  | cons p params =>
      have hfmt : Cmd.fmt ⟨cmd, p :: params, rest⟩ ≠ [] := by
        have hp : p.fmt ≠ [] := by
          cases p with
          | word w => exact w.ne_nil
          | _ => exact List.cons_ne_nil _ _
        simp [Cmd.fmt, intercalate_cons, hp]
      rw [Cmd.lead, if_neg hfmt]
      simpa [Cmd.text, Cmd.tail, intercalate_cons] using spaced_params (p :: params) rest

theorem Cmd.ends_lead (c : Cmd) : Ends c.lead := by
  rw [Cmd.lead]
  split_ifs
  · rfl
  · rfl

/-! ## The line -/

theorem mem_intercalate {c : Char} (hc : c ≠ ' ') (l : List CStr) :
    c ∈ [' '].intercalate l ↔ ∃ s ∈ l, c ∈ s := by
  cases l with
  | nil => simp
  | cons a l => simp [intercalate_cons, hc]

theorem Param.newline_mem_text {p : Param} :
    '\n' ∈ p.text ↔ ∃ s ∈ p.quotedStrings, '\n' ∈ s := by
  rw [Param.text, mem_intercalate (by decide)]
  constructor
  · rintro ⟨_, hmem, hnl⟩
    obtain ⟨a, ha, rfl⟩ := List.mem_map.mp hmem
    cases a with
    | word w => exact absurd (w.noSpace _ hnl) (by decide)
    | quoted s => exact ⟨s, Param.mem_quotedStrings.mpr ha, by simpa [Atom.text, quote] using hnl⟩
  · rintro ⟨s, hs, hnl⟩
    exact ⟨quote s, List.mem_map.mpr ⟨_, Param.mem_quotedStrings.mp hs, rfl⟩,
      by simpa [quote] using hnl⟩

theorem Cmd.newline_mem_lead {c : Cmd} :
    '\n' ∈ c.lead ↔
      (∃ p ∈ c.params, ∃ s ∈ p.quotedStrings, '\n' ∈ s) ∨ ∃ ss ∈ c.rest, ∃ s ∈ ss, '\n' ∈ s := by
  have hlead : '\n' ∈ c.lead ↔ '\n' ∈ c.text := by
    rw [Cmd.lead]
    split_ifs with hfmt
    · rw [Cmd.text_eq_nil hfmt]
    · simp
  rw [hlead, Cmd.text, mem_intercalate (by decide)]
  simp only [List.mem_append, List.mem_map, or_and_right, exists_or, exists_exists_and_eq_and,
    Param.newline_mem_text, List.mem_flatten]

theorem written_eq (token : BitVec 32) (c : Cmd) :
    c.written token = itoa 10 token.toNat ++ '-' :: (c.cmd.text ++ c.lead) ++ ['\n'] := by
  rw [Cmd.written, issueCmd, if_pos c.writes.ok, Cmd.lead]
  split_ifs with hfmt
  · simp [c.writes.flatten_eq, Cmd.text_eq_nil hfmt]
  · simp [c.writes.flatten_eq]

theorem readLine_append (n : Nat) (line : CStr) :
    readLine n (line ++ ['\n']) = if '\n' ∈ line then none else readCommand n line := by
  rw [readLine]
  split_ifs with heq hmem hmem
  · -- what is taken up to the first newline contains none
    rw [List.append_cancel_right heq] at hmem
    simpa using List.all_eq_true.mp List.all_takeWhile _ hmem
  · rw [← List.append_cancel_right heq]
  · rfl
  · have hall : ∀ c ∈ line, decide (c ≠ '\n') = true := fun c hc =>
      decide_eq_true fun h => hmem (h ▸ hc)
    rw [List.takeWhile_append_of_pos hall] at heq
    exact absurd (by simp) heq

theorem readCommand_eq (n token : Nat) (w : Word) {u : CStr} (hu : Ends u) :
    readCommand n (itoa 10 token ++ '-' :: (w.text ++ u)) =
      (readArgs n u).map fun r => (itoa 10 token, w.text, r) := by
  have hdigits := digits_of_itoa token
  obtain ⟨htake, hdrop⟩ := takeWhile_append_of_ends w.noSpace hu
  rw [readCommand, List.dropWhile_append_of_pos hdigits, List.takeWhile_append_of_pos hdigits]
  simp [htake, hdrop]

/-- The line of a command is read back as its parameters iff the strings written in quotes are plain
and no string of the command contains a newline. -/
theorem issue_reads_back_iff (token : BitVec 32) (c : Cmd) :
    LineReadsBack token c ↔
      (∀ p ∈ c.params, ∀ s ∈ p.quotedStrings, Plain s ∧ '\n' ∉ s) ∧
        ∀ ss ∈ c.rest, ∀ s ∈ ss, '\n' ∉ s := by
  have hline : '\n' ∈ itoa 10 token.toNat ++ '-' :: (c.cmd.text ++ c.lead) ↔ '\n' ∈ c.lead := by
    have htoken : '\n' ∉ itoa 10 token.toNat := fun h =>
      absurd (digits_of_itoa _ _ h) (by decide)
    have hcmd : '\n' ∉ c.cmd.text := fun h => absurd (c.cmd.noSpace _ h) (by decide)
    simp [htoken, hcmd]
  have hplain : (∀ s, .quoted s ∈ c.params.flatMap Param.atoms → Plain s) ↔
      ∀ p ∈ c.params, ∀ s ∈ p.quotedStrings, Plain s := by
    simp only [List.mem_flatMap, Param.mem_quotedStrings]
    exact ⟨fun h p hp s hs => h s ⟨p, hp, hs⟩, fun h s ⟨p, hp, hs⟩ => h p hp s hs⟩
  have hargs := readArgs_spaced_iff c.spaced
  rw [hplain] at hargs
  have hlen : c.values.length = (c.params.flatMap Param.atoms).length := List.length_map _
  rw [LineReadsBack, written_eq, readLine_append, hlen]
  split_ifs with hnl
  · rw [hline, Cmd.newline_mem_lead] at hnl
    refine ⟨nofun, fun ⟨hquoted, hrest⟩ => ?_⟩
    rcases hnl with ⟨p, hp, s, hs, hmem⟩ | ⟨ss, hss, s, hs, hmem⟩
    · exact absurd hmem (hquoted p hp s hs).2
    · exact absurd hmem (hrest ss hss s hs)
  · rw [hline, Cmd.newline_mem_lead] at hnl
    push Not at hnl
    rw [readCommand_eq _ _ _ c.ends_lead]
    constructor
    · intro hread
      obtain ⟨r, hr, heq⟩ := Option.map_eq_some_iff.mp hread
      have hr' : r = (c.values, c.tail.dropWhile isSpace) :=
        (Prod.mk.inj (Prod.mk.inj heq).2).2
      rw [hr'] at hr
      exact ⟨fun p hp s hs => ⟨hargs.mp hr p hp s hs, hnl.1 p hp s hs⟩, hnl.2⟩
    · rintro ⟨hquoted, -⟩
      rw [hargs.mpr fun p hp s hs => (hquoted p hp s hs).1]
      rfl

/-! ## The commands that carry what the user typed -/

/-- A word written out in the source. -/
def Word.lit (s : String) (h : s.toList ≠ [] ∧ '%' ∉ s.toList ∧ '"' ∉ s.toList ∧
    s.toList.all (fun c => decide (isSpace c = false)) = true) : Word :=
  ⟨s.toList, h.1, h.2.1, h.2.2.1, forall_mem_of_all h.2.2.2⟩

/-- `cmd_break_exec`, `ADD`. -/
def breakInsert (argv : Argv) : Cmd := ⟨.lit "break-insert" (by decide), [.array argv], []⟩

/-- `gdb_variable_t::acquire` with a running inferior: the key is quoted, the expression is not. -/
def varCreate (threadid frame : BitVec 32) (key scope register expr : CStr) : Cmd where
  cmd := .lit "var-create" (by decide)
  params := [.word (.lit "--thread" (by decide)), .uint threadid,
    .word (.lit "--frame" (by decide)), .uint frame, .quoted key]
  rest := [[scope], [register, expr]]

/-- `gdb_variable_t::set`. -/
def varAssign (name : CStr) (argv : Argv) : Cmd :=
  ⟨.lit "var-assign" (by decide), [.quoted name, .joined argv], []⟩

example (argv : Argv) : (breakInsert argv).fmt = "%ssq %d".toList := rfl

example (t f : BitVec 32) (key scope register expr : CStr) :
    (varCreate t f key scope register expr).fmt =
      "--thread %u --frame %u \"%s\" %s %s%s".toList := rfl

example (name : CStr) (argv : Argv) : (varAssign name argv).fmt = "\"%s\" \"%ss %d\"".toList := rfl

/-- A breakpoint whose condition compares with a string: the c-string ends at the first quote of the
condition, and no blank follows. -/
theorem condition_not_read_back :
    ¬ LineReadsBack 1 (breakInsert ⟨["-c".toList, "s == \"a\"".toList, "main".toList], by decide⟩) := by
  rw [LineReadsBack]
  decide +kernel

end Vimgdb.Gdb
