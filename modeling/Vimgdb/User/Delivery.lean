import Vimgdb.Common.Events
import Vimgdb.Lexing.RoundTrip
import Vimgdb.User.Commands

/-!
# Commands from both user interfaces

How the words of a command come from a line that is typed to the callback.

* `arguments_append`: a word behind a line is one of its words, unless a quote is open.
* `Curses.readline`: the line editor of the terminal.
* `nbkey`, `nbkey_lexed`: what the plugin sends, and that the lexer reads it as one string.
* `vimReadline`: the loop over vim's events.
* `Ui.line`, `Ui.words`: the line for `cmd_exec`, and the words in it that are typed.
* `Delivered`: the callback has these words, and only the sync file is written.
* `delivered_iff`: the lines that are delivered.
-/

namespace Vimgdb.Strsplit

variable {s t x text r : CStr} {inside escaped : Bool} {n : Nat}

/-! ## A word behind a line -/

theorem quoteCount_append_blank (escaped : Bool) (s t : CStr) :
    quoteCount escaped (s ++ ' ' :: t) = quoteCount escaped s + quoteCount false t := by
  induction s generalizing escaped with
  | nil => rw [List.nil_append, quoteCount_cons (by decide) (by decide)]; exact (Nat.zero_add _).symm
  | cons c s ih => rw [List.cons_append, quoteCount, quoteCount, ih, Nat.add_assoc]

theorem quoteCount_eq_zero (hs : '"' ∉ s) : quoteCount escaped s = 0 := by
  induction s generalizing escaped with
  | nil => rfl
  | cons c s ih =>
      rw [List.mem_cons, not_or] at hs
      rw [quoteCount, if_neg fun h => hs.1 h.1.symm, ih hs.2]

/-- A blank behind a text is read as one. -/
theorem Plain.append_blank {c : Char} (h : Plain splitting inside c s) : Plain splitting inside c (s ++ ' ' :: x) := by
  refine ⟨h.quote, h.blank, fun hc d t hd => ?_⟩
  cases s with
  | nil =>
      obtain ⟨rfl, -⟩ := List.cons.inj hd
      rfl
  | cons e s =>
      obtain ⟨rfl, -⟩ := List.cons.inj hd
      exact h.escape hc _ s rfl

/-- An argument that ends does so with a blank behind it. -/
theorem scanArg_append_some (h : scanArg splitting inside s = some (n, r)) :
    scanArg splitting inside (s ++ ' ' :: x) = some (n, r ++ ' ' :: x) := by
  induction inside, s using scanArg_induction splitting generalizing n with
  | nil inside =>
      cases inside <;> cases h
      rfl
  | quote inside s ih =>
      rw [scanArg_quote] at h
      rw [List.cons_append, scanArg_quote, ih h]
  | blank s =>
      cases h
      rfl
  | skip inside c s hskip ih =>
      rw [scanArg_skip hskip] at h
      obtain ⟨⟨m, r'⟩, hr, heq⟩ := Option.map_eq_some_iff.mp h
      cases heq
      rw [List.cons_append, List.cons_append, scanArg_skip hskip, ih hr]
      rfl
  | plain inside c s hplain ih =>
      rw [scanArg_plain hplain] at h
      obtain ⟨⟨m, r'⟩, hr, heq⟩ := Option.map_eq_some_iff.mp h
      cases heq
      rw [List.cons_append, scanArg_plain hplain.append_blank, ih hr]
      rfl

/-- A quote that is open takes the word with it. -/
theorem scanArg_append_none (hx : '"' ∉ x) (h : scanArg splitting inside s = none) :
    scanArg splitting inside (s ++ ' ' :: x) = none := by
  induction inside, s using scanArg_induction splitting with
  | nil inside =>
      cases inside with
      | false => cases h
      | true =>
          rcases hscan : scanArg splitting true ([] ++ ' ' :: x) with _ | ⟨m, r⟩
          · rfl
          · obtain ⟨text, htext, hquotes⟩ := quoteCount_of_scanArg hscan
            have hzero : quoteCount false text = 0 := by
              refine quoteCount_eq_zero fun hmem => ?_
              have hmem' : '"' ∈ ' ' :: x := by
                rw [← List.nil_append (' ' :: x), htext]
                exact List.mem_append_left r hmem
              rcases List.mem_cons.mp hmem' with hblank | hmem'
              · exact absurd hblank (by decide)
              · exact hx hmem'
            rw [hzero] at hquotes
            exact absurd hquotes (by decide)
  | quote inside s ih =>
      rw [scanArg_quote] at h
      rw [List.cons_append, scanArg_quote, ih h]
  | blank s => cases h
  | skip inside c s hskip ih =>
      rw [scanArg_skip hskip] at h
      rw [List.cons_append, List.cons_append, scanArg_skip hskip, ih (Option.map_eq_none_iff.mp h)]
      rfl
  | plain inside c s hplain ih =>
      rw [scanArg_plain hplain] at h
      rw [List.cons_append, scanArg_plain hplain.append_blank, ih (Option.map_eq_none_iff.mp h)]
      rfl

/-- A word behind a line is one of its arguments, unless a quote is open. -/
theorem arguments_append (hx : Field x) (t : CStr) :
    arguments (t ++ ' ' :: x) = arguments t ++ if quoteCount false t % 2 = 0 then [x] else [] := by
  induction hlen : t.length using Nat.strong_induction_on generalizing t with
  | _ k ih =>
      subst hlen
      cases t with
      | nil =>
          have hone := arguments_field hx (Or.inl (rfl : ([] : CStr) = []))
          rw [List.append_nil, arguments_nil] at hone
          rw [List.nil_append, arguments_blank, hone, arguments_nil]
          rfl
      | cons c t =>
          by_cases hc : c = ' '
          · subst hc
            rw [List.cons_append, arguments_blank, arguments_blank, ih _ (Nat.lt_succ_self _) t rfl,
              quoteCount_cons (by decide) (by decide)]
          rcases hscan : scanArg splitting false (c :: t) with _ | ⟨n, r⟩
          · have hodd : ¬ quoteCount false (c :: t) % 2 = 0 := fun heven =>
              scanArg_of_quoteCount (List.append_nil _).symm (by simpa using heven) (Or.inl rfl) hscan
            have hnone := scanArg_append_none hx.quote hscan
            rw [if_neg hodd, List.append_nil, arguments_none (nextArg_of_scanArg_none hc hscan)]
            exact arguments_none (nextArg_of_scanArg_none hc hnone)
          · obtain ⟨text, htext, heven⟩ := quoteCount_of_scanArg hscan
            have hnext := nextArg_of_scanArg hc hscan htext
            have hscan' : scanArg splitting false (c :: (t ++ ' ' :: x)) = some (n, r ++ ' ' :: x) :=
              scanArg_append_some hscan
            have hnext' := nextArg_of_scanArg hc hscan'
              (by rw [← List.cons_append, htext, List.append_assoc])
            have hparity : quoteCount false (c :: t) % 2 = quoteCount false r % 2 := by
              rw [htext]
              rcases blank_of_scanArg hscan with rfl | ⟨r, rfl⟩
              · rw [List.append_nil]
                simpa [quoteCount] using heven
              · rw [quoteCount_append_blank, quoteCount_cons (by decide) (by decide)]
                simp only [Bool.toNat_false] at heven
                omega
            rw [arguments_some hnext, List.cons_append, arguments_some hnext', ih _ (length_nextArg_lt hnext) r rfl,
              hparity, List.cons_append]

end Vimgdb.Strsplit

namespace Vimgdb.Commands

open Escape Strsplit

/-! ## The line editor -/

namespace Curses

/-- The loop of `readline`, with what is in front of `line + i`: the line, and the keys that are left.  It
waits for more keys where there is no result. -/
def readline : CStr → CStr → Option (CStr × CStr)
  | _, [] => none
  | line, c :: keys =>
      if c = '\n' ∨ c = '\r' then some (line, keys)
      else if c = '\x7f' then readline line.dropLast keys
      else readline (line ++ [c]) keys

/-- A key that is put in the line. -/
def Shown (c : Char) : Prop := c ≠ '\n' ∧ c ≠ '\r' ∧ c ≠ '\x7f'

/-- What is typed is the line. -/
theorem readline_typed {typed : CStr} (h : ∀ c ∈ typed, Shown c) (line keys : CStr) :
    readline line (typed ++ '\n' :: keys) = some (line ++ typed, keys) := by
  induction typed generalizing line with
  | nil => rw [List.append_nil line]; rfl
  | cons c typed ih =>
      obtain ⟨⟨hnewline, hreturn, hdelete⟩, htyped⟩ := List.forall_mem_cons.mp h
      rw [List.cons_append, readline, if_neg (not_or.mpr ⟨hnewline, hreturn⟩), if_neg hdelete, ih htyped,
        List.append_assoc]
      rfl

end Curses

/-! ## The plugin -/

/-- `s:sync_file` -/
def syncFile : CStr := "/tmp/vimgdb_sync".toList

/-- `escape(…, '"')` -/
def escapeQuotes : CStr → CStr
  | [] => []
  | c :: s => if c = '"' then '\\' :: '"' :: escapeQuotes s else c :: escapeQuotes s

/-- `vimgdb#util#cmd`: what `nbkey` is executed with. -/
def nbkey (cmd : CStr) : CStr := escapeQuotes (cmd ++ ' ' :: syncFile)

theorem escapeQuotes_append (s t : CStr) : escapeQuotes (s ++ t) = escapeQuotes s ++ escapeQuotes t := by
  induction s with
  | nil => rfl
  | cons c s ih =>
      rw [List.cons_append, escapeQuotes, escapeQuotes, ih]
      split <;> rfl

theorem nbkey_eq (cmd : CStr) : nbkey cmd = escapeQuotes cmd ++ ' ' :: syncFile := by
  rw [nbkey, escapeQuotes_append]
  rfl

section Lexer

open Flex Lexing Vim

/-- The string that the plugin sends ends at its quote unless there is a backslash in front. -/
theorem strLen_escapeQuotes {s : CStr} {prev : Bool} (h : endsBackslash prev s = false) (r : CStr) :
    strLen prev (escapeQuotes s ++ '"' :: r) = (escapeQuotes s).length := by
  induction s generalizing prev with
  | nil =>
      obtain rfl : prev = false := h
      rfl
  | cons c s ih =>
      rw [endsBackslash_cons] at h
      unfold escapeQuotes
      split
      · next hquote =>
        have hrest := ih h
        rw [hquote] at hrest
        rw [List.cons_append, List.cons_append, strLen, if_neg (by simp), List.length_cons, List.length_cons, ← hrest]
        rfl
      · next hquote => rw [List.cons_append, strLen, if_neg (by simp [hquote]), ih h, List.length_cons]

/-- The lexer takes what is between the quotes for one string, so that it is the data of the event. -/
theorem nbkey_lexed (cmd r : CStr) (pos : Nat) (bol : Bool) :
    Steps rules ⟨pos, .initial, bol, '"' :: (nbkey cmd ++ '"' :: r)⟩
      [(pos, .chr '"'), (pos + 1, .string (nbkey cmd)), (pos + 1 + (nbkey cmd).length, .chr '"')]
      ⟨pos + 1 + (nbkey cmd).length + 1, .initial, false, r⟩ := by
  have hends : endsBackslash false (cmd ++ ' ' :: syncFile) = false := by
    unfold endsBackslash
    rw [List.getLast?_append_of_ne_nil _ (List.cons_ne_nil _ _)]
    rfl
  have hlen : strLen false (nbkey cmd ++ '"' :: r) = (nbkey cmd).length := strLen_escapeQuotes hends r
  have hhead : (nbkey cmd ++ '"' :: r).head? ≠ some '"' := by
    rw [nbkey_eq]
    cases cmd with
    | nil => exact fun h => absurd h (by simp [escapeQuotes])
    | cons c cmd =>
        rw [escapeQuotes]
        split
        · simp
        · next hquote => simpa using hquote
  have hstring := next_string (pos + 1) false (s := nbkey cmd ++ '"' :: r) (by
    rw [hlen, nbkey_eq, List.length_append]
    exact Nat.lt_add_left _ (Nat.succ_pos _))
  rw [hlen, List.take_left, Config.advance, List.drop_left] at hstring
  exact Steps.head (next_open pos bol hhead) (Steps.head hstring (Steps.head (next_close _ _ r) (Steps.refl _)))

end Lexer

/-! ## The line for `cmd_exec` -/

inductive Ui
  | curses
  | vim

/-- `vimui::readline`: the events up to a command, or to the end of the connection. -/
def vimReadline : List Vim.Event → Option (Option CStr × List Vim.Event)
  | [] => none
  | e :: events =>
      match e.evtId with
      | some .keyCommand => some (e.data, events)
      | some .disconnect => some (none, events)
      | _ => vimReadline events

/-- The line that `readline` returns for a text that is typed. -/
def Ui.line : Ui → CStr → CStr
  | .curses, typed => typed
  | .vim, typed => nbkey typed

/-- The events in front of a command do not change its line. -/
theorem vimReadline_command {before events : List Vim.Event} (typed : CStr)
    (h : ∀ e ∈ before, e.evtId ≠ some .keyCommand ∧ e.evtId ≠ some .disconnect) :
    vimReadline (before ++ ⟨some (nbkey typed), some .keyCommand⟩ :: events)
      = some (some (Ui.vim.line typed), events) := by
  induction before with
  | nil => rfl
  | cons e before ih =>
      obtain ⟨⟨hkey, hdisconnect⟩, hbefore⟩ := List.forall_mem_cons.mp h
      rw [List.cons_append, vimReadline]
      split
      · contradiction
      · contradiction
      · exact ih hbefore

/-- The part of the line that is typed. -/
def Ui.part : Ui → CStr → CStr
  | .curses, typed => typed
  | .vim, typed => escapeQuotes typed

/-- The words of this part. -/
def Ui.words (ui : Ui) (typed : CStr) : List CStr := arguments (strdeescape (ui.part typed))

theorem strdeescape_append_blank (s t : CStr) :
    strdeescape (s ++ ' ' :: t) = strdeescape s ++ ' ' :: strdeescape t := by
  fun_induction strdeescape s with
  | case1 => exact strdeescape_cons (by decide) t
  | case2 =>
      show strdeescape ('\\' :: ' ' :: t) = _
      rw [strdeescape_keep rfl, strdeescape_cons (by decide)]
      rfl
  | case3 c s d hd ih => rw [List.cons_append, List.cons_append, strdeescape_escape hd, ih, List.cons_append]
  | case4 c s hc ih =>
      rw [List.cons_append] at ih
      rw [List.cons_append, List.cons_append, strdeescape_keep hc, ih, List.cons_append]
  | case5 c s hlast hescape ih =>
      have hc : c ≠ '\\' := by
        rintro rfl
        cases s with
        | nil => exact hlast rfl rfl
        | cons d s => exact hescape d s rfl rfl
      rw [List.cons_append, strdeescape_cons hc, ih, List.cons_append]

variable {junk : Char} {ui : Ui} {typed s t x text : CStr} {ws : List CStr} {inside escaped : Bool} {n : Nat} {r : CStr}

theorem strdeescape_syncFile : strdeescape syncFile = syncFile := by decide

/-- What `cmd_exec` splits if the line is from vim. -/
theorem strdeescape_nbkey (typed : CStr) :
    strdeescape (nbkey typed) = strdeescape (escapeQuotes typed) ++ ' ' :: syncFile := by
  rw [nbkey_eq, strdeescape_append_blank, strdeescape_syncFile]

/-- Every text can be typed. -/
theorem exists_part (ui : Ui) (s : CStr) : ∃ typed, strdeescape (ui.part typed) = s := by
  cases ui with
  | curses => exact ⟨strescape s, strdeescape_strescape s⟩
  | vim =>
      induction s with
      | nil => exact ⟨[], rfl⟩
      | cons c s ih =>
          obtain ⟨typed, htyped⟩ := ih
          by_cases hquote : c = '"'
          · subst hquote
            refine ⟨'"' :: typed, ?_⟩
            show strdeescape ('\\' :: '"' :: escapeQuotes typed) = _
            rw [strdeescape_escape rfl]
            exact congrArg _ htyped
          · by_cases hbackslash : c = '\\'
            · subst hbackslash
              refine ⟨'\\' :: '\\' :: typed, ?_⟩
              show strdeescape ('\\' :: '\\' :: escapeQuotes typed) = _
              rw [strdeescape_escape rfl]
              exact congrArg _ htyped
            · refine ⟨c :: typed, ?_⟩
              show strdeescape (escapeQuotes (c :: typed)) = _
              rw [escapeQuotes, if_neg hquote, strdeescape_cons hbackslash]
              exact congrArg _ htyped

/-- Every list of words can be typed. -/
theorem exists_words (ui : Ui) (ws : List CStr) : ∃ typed, ui.words typed = ws := by
  obtain ⟨typed, htyped⟩ := exists_part ui (quotes (ws.map strescape))
  exact ⟨typed, by rw [Ui.words, htyped, arguments_quotes_strescape]⟩

/-! ## What is delivered -/

/-- The words that the callback of a command is executed with. -/
def received : Action → Option (List CStr)
  | .exec argc argv => some (argv.take argc)
  | _ => none

/-- The file that is opened for writing. -/
def opened : Action → Option CStr
  | .sync file => some file
  | _ => none

/-- The callback is executed once, with these words, and only vim's sync file is written. -/
def Delivered (junk : Char) (ui : Ui) (typed : CStr) (ws : List CStr) : Prop :=
  ∃ actions, cmdExec junk (ui.line typed) = .ok actions ∧ actions.filterMap received = [ws]
    ∧ ∀ file ∈ actions.filterMap opened, ui = .vim ∧ file = syncFile

theorem entry_last {name : CStr} :
    entry (name :: ws) ((name :: ws).length - 1) = .ok ((name :: ws).getLast (List.cons_ne_nil name ws)) := by
  unfold entry
  rw [dif_pos (by rw [List.length_cons]; omega), List.getLast_eq_getElem]
  simp

/-- What `cmd_exec` does with the words of a command: the last one is taken for the sync file. -/
theorem cmdExec_command {line name : CStr} (hargs : arguments (strdeescape line) = name :: ws)
    (hname : lookup name = true) : cmdExec junk line =
      if (name :: ws).length ≤ countArgs (strdeescape line) then
        .ok [.exec ws.length (name :: ws), .sync ((name :: ws).getLast (List.cons_ne_nil name ws))]
      else .error .overflow := by
  unfold cmdExec
  dsimp only
  rw [split_eq, hargs]
  by_cases hcount : (name :: ws).length ≤ countArgs (strdeescape line)
  · rw [if_pos hcount, if_pos hcount]
    show ((entry (name :: ws) 0).bind fun name' => if lookup name' then
      (entry (name :: ws) ((name :: ws).length - 1)).bind fun file => _ else _) = _
    rw [entry_last]
    show (if lookup name then _ else _ : Except Fault (List Action)) = _
    rw [if_pos hname]
    rfl
  · rw [if_neg hcount, if_neg hcount]

theorem field_syncFile : Field syncFile where
  ne_nil := by decide
  blank := by decide
  quote := by decide
  unescaped u c v h := by
    have hmem : '\\' ∈ syncFile := by
      rw [h]
      exact List.mem_append_right u List.mem_cons_self
    exact absurd hmem (by decide)

/-- Without a sync file behind them, the words lose the last one. -/
theorem not_delivered {name : CStr} (hargs : arguments (strdeescape (ui.line typed)) = name :: ws)
    (hname : lookup name = true) : ¬ Delivered junk ui typed (name :: ws) := by
  rintro ⟨actions, hactions, hreceived, -⟩
  rw [cmdExec_command hargs hname] at hactions
  split at hactions
  · cases hactions
    have hlen := congrArg List.length (List.cons.inj hreceived).1
    rw [List.length_take, List.length_cons] at hlen
    omega
  · cases hactions

/-- From vim a command is delivered if no quote is open behind what is typed, and the counting pass of `strsplit`
finds the sync file, too. -/
theorem delivered_vim_iff {name : CStr} (hws : Ui.vim.words typed = name :: ws) (hname : lookup name = true) :
    Delivered junk .vim typed (name :: ws) ↔ quoteCount false (strdeescape (escapeQuotes typed)) % 2 = 0
      ∧ (name :: ws).length < countArgs (strdeescape (nbkey typed)) := by
  have hargs := arguments_append field_syncFile (strdeescape (escapeQuotes typed))
  have htyped : arguments (strdeescape (escapeQuotes typed)) = name :: ws := hws
  rw [htyped, ← strdeescape_nbkey] at hargs
  by_cases hquotes : quoteCount false (strdeescape (escapeQuotes typed)) % 2 = 0
  · rw [if_pos hquotes] at hargs
    rw [and_iff_right hquotes]
    have hexec := @cmdExec_command junk (ws ++ [syncFile]) (nbkey typed) name hargs hname
    have hlen : (name :: (ws ++ [syncFile])).length = (name :: ws).length + 1 := by simp
    rw [hlen] at hexec
    constructor
    · rintro ⟨actions, hactions, -⟩
      by_contra hcount
      rw [if_neg (mt Nat.lt_of_succ_le hcount)] at hexec
      cases hexec.symm.trans hactions
    · intro hcount
      rw [if_pos (Nat.succ_le_of_lt hcount)] at hexec
      refine ⟨_, hexec, ?_, ?_⟩
      · simp [received]
      · simp [opened]
  · rw [if_neg hquotes, List.append_nil] at hargs
    exact iff_of_false (not_delivered hargs hname) fun h => hquotes h.1

/-! ## Words without special characters -/

/-- A word that is typed as it is. -/
structure PlainWord (w : CStr) : Prop where
  ne_nil : w ≠ []
  blank : ' ' ∉ w
  quote : '"' ∉ w
  backslash : '\\' ∉ w

theorem PlainWord.field {w : CStr} (h : PlainWord w) : Field w where
  ne_nil := h.ne_nil
  blank := h.blank
  quote := h.quote
  unescaped u _ _ hw := absurd (hw ▸ List.mem_append_right u List.mem_cons_self) h.backslash

theorem escapeQuotes_of_notMem (hs : '"' ∉ s) : escapeQuotes s = s := by
  induction s with
  | nil => rfl
  | cons c s ih =>
      rw [List.mem_cons, not_or] at hs
      rw [escapeQuotes, if_neg (Ne.symm hs.1), ih hs.2]

theorem strdeescape_of_notMem (hs : '\\' ∉ s) : strdeescape s = s := by
  induction s with
  | nil => rfl
  | cons c s ih =>
      rw [List.mem_cons, not_or] at hs
      rw [strdeescape_cons (Ne.symm hs.1), ih hs.2]

theorem notMem_words {c : Char} (hc : c ≠ ' ') (h : ∀ w ∈ ws, c ∉ w) : c ∉ words ws := by
  intro hmem
  rcases mem_words hmem with hblank | ⟨w, hw, hcw⟩
  · exact hc hblank
  · exact h w hw hcw

theorem part_words (h : ∀ w ∈ ws, PlainWord w) (ui : Ui) : strdeescape (ui.part (words ws)) = words ws := by
  have hbackslash := notMem_words (by decide) fun w hw => (h w hw).backslash
  cases ui with
  | curses => exact strdeescape_of_notMem hbackslash
  | vim =>
      show strdeescape (escapeQuotes (words ws)) = words ws
      rw [escapeQuotes_of_notMem (notMem_words (by decide) fun w hw => (h w hw).quote),
        strdeescape_of_notMem hbackslash]

/-- Words that are typed with blanks between them. -/
theorem words_typed (h : ∀ w ∈ ws, PlainWord w) (ui : Ui) : ui.words (words ws) = ws := by
  rw [Ui.words, part_words h, arguments_words fun w hw => (h w hw).field]

/-- No quote is open behind them, and all are counted. -/
theorem plain_counted (h : ∀ w ∈ ws, PlainWord w) :
    quoteCount false (strdeescape (escapeQuotes (words ws))) % 2 = 0
      ∧ ws.length < countArgs (strdeescape (nbkey (words ws))) := by
  have hpart : strdeescape (escapeQuotes (words ws)) = words ws := part_words h .vim
  have hzero : quoteCount false (words ws) = 0 :=
    quoteCount_eq_zero (notMem_words (by decide) fun w hw => (h w hw).quote)
  rw [hpart, hzero]
  refine ⟨rfl, ?_⟩
  have hargs := arguments_append field_syncFile (words ws)
  rw [arguments_words fun w hw => (h w hw).field, hzero, if_pos rfl] at hargs
  have hclear : Clear (words ws ++ ' ' :: syncFile) := by
    intro u v hline
    have hmem : '"' ∈ words ws ++ ' ' :: syncFile := by
      rw [hline]
      exact List.mem_append_right u List.mem_cons_self
    rcases List.mem_append.mp hmem with hmem | hmem
    · exact absurd hmem (notMem_words (by decide) fun w hw => (h w hw).quote)
    · exact absurd hmem (by decide)
  rw [strdeescape_nbkey, hpart, countArgs_of_clear hclear, hargs, List.length_append]
  exact Nat.lt_succ_self _

theorem plain_delivered {name : CStr} (h : ∀ w ∈ name :: ws, PlainWord w) (hname : lookup name = true) :
    Delivered junk .vim (words (name :: ws)) (name :: ws) :=
  (delivered_vim_iff (words_typed h .vim) hname).mpr (plain_counted h)

/-! ## Both interfaces -/

/-- Each list of words can be typed.  A command comes to its callback if it is from vim, no quote is open behind
what is typed, and the counting pass of `strsplit` finds the sync file, too. -/
theorem delivered_iff {name : CStr} (hname : lookup name = true) :
    (∃ typed, ui.words typed = name :: ws) ∧ ∀ typed, ui.words typed = name :: ws →
      (Delivered junk ui typed (name :: ws) ↔ ui = .vim
        ∧ quoteCount false (strdeescape (escapeQuotes typed)) % 2 = 0
        ∧ (name :: ws).length < countArgs (strdeescape (nbkey typed))) := by
  refine ⟨exists_words ui _, fun typed hws => ?_⟩
  cases ui with
  | curses => exact iff_of_false (not_delivered hws hname) nofun
  | vim => rw [delivered_vim_iff hws hname, eq_self, true_and]

theorem help_words : ∀ w ∈ ["help".toList, "break".toList], PlainWord w := by
  intro w hw
  rcases List.mem_pair.mp hw with rfl | rfl <;> exact ⟨by decide, by decide, by decide, by decide⟩

/-- `help break` in vim. -/
theorem help_delivered : lookup "help".toList = true ∧
    Delivered 'x' .vim (words ["help".toList, "break".toList]) ["help".toList, "break".toList] :=
  ⟨by decide, ((delivered_iff (by decide)).2 _ (words_typed help_words .vim)).mpr ⟨rfl, plain_counted help_words⟩⟩

/-- In the terminal the callback of `help` misses its argument, and the file `break` is written. -/
theorem terminal_drops_word :
    ¬ ∀ junk ui typed name ws, Ui.words ui typed = name :: ws → lookup name = true →
      Delivered junk ui typed (name :: ws) := by
  intro h
  have hwords := words_typed help_words .curses
  have hargs : arguments (strdeescape (Ui.curses.line _)) = _ := hwords
  exact not_delivered hargs (by decide) (h 'x' .curses _ _ _ hwords (by decide))

end Vimgdb.Commands
