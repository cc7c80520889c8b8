import Mathlib.Data.List.Chain
import Vimgdb.User.Delivery

/-!
# The command `Inferior` of the plugin

What `inferior.vim` makes of the text behind `Inferior`, and the words that come to a callback from there.

* `fargs`: the arguments that vim makes of a text.
* `inferior`: the command that `s:inferior` passes on.
* `callbacks`: the words that callbacks are executed with.
* `Steady`, `words_fargs`, `total_fargs`: the texts that come back when their arguments are joined.
* `strdeescape_escapeQuotes`, `nonQuotes_escapeQuotes`: and those that come through netbeans.
* `comes_through`: no text comes to a callback with more characters than it has.
* `callbacks_path`, `path_of_arguments`: the names that come to a callback.
* `callbacks_quoted`, `quoted_of_callback`: the arguments of the program that do.
-/

namespace Vimgdb.Plugin

open Strsplit Escape Commands

/-! ## Arguments -/

/-- A blank or a tab. -/
def isWhite (c : Char) : Bool := c == ' ' || c == '\t'

/-- The characters in front of which a backslash is taken away. -/
def isEscaped (c : Char) : Bool := isWhite c || c == '\\'

/-- What is in front of the first blank, and what is between the following ones. -/
def pieces : CStr → CStr × List CStr
  | [] => ([], [])
  | ['\\'] => (['\\'], [])
  | '\\' :: c :: s =>
      if isEscaped c then (c :: (pieces s).1, (pieces s).2)
      else ('\\' :: (pieces (c :: s)).1, (pieces (c :: s)).2)
  | c :: s => if isWhite c then ([], (pieces s).1 :: (pieces s).2) else (c :: (pieces s).1, (pieces s).2)

/-- All of it. -/
def parts (s : CStr) : List CStr := (pieces s).1 :: (pieces s).2

/-- `<f-args>`: several blanks are like one. -/
def fargs (s : CStr) : List CStr := (parts s).filter (!·.isEmpty)

/-! ## Commands -/

/-- What the plugin asks vim for: the working directory, and which files can be read. -/
structure Editor where
  getcwd : CStr
  filereadable : CStr → Bool
  rooted : getcwd.head? = some '/'

/-- A file as an absolute path. -/
def Editor.absolute (vim : Editor) (file : CStr) : CStr :=
  if file.head? ≠ some '/' then vim.getcwd ++ "/".toList ++ file else file

/-- `s:inferior`: the command that `vimgdb#util#cmd` is called with, unless the name of a file is missing; `==`
is that of `noignorecase`.  `join` puts blanks between the arguments. -/
def inferior (vim : Editor) : List CStr → Option CStr
  | [] => none
  | sub :: args =>
      if sub = "open".toList ∨ sub = "view".toList then some "inferior view".toList
      else if sub = "bin".toList ∨ sub = "sym".toList then
        args.head?.map fun file => "inferior ".toList ++ sub ++ " ".toList ++ vim.absolute file
      else if vim.filereadable sub then some ("inferior ".toList ++ " ".toList ++ vim.absolute sub)
      else some ("inferior ".toList ++ words (sub :: args))

/-- The words of the callbacks that are executed for `Inferior` and a text. -/
def callbacks (junk : Char) (vim : Editor) (text : CStr) : Except Fault (List (List CStr)) :=
  match inferior vim (fargs text) with
  | none => .ok []
  | some cmd => (cmdExec junk (nbkey cmd)).map (List.filterMap received)

variable {s t w : CStr} {c : Char} {ws extra : List CStr} {junk : Char} {vim : Editor}

/-! ## Pieces -/

theorem pieces_escape (hc : isEscaped c = true) (s : CStr) :
    pieces ('\\' :: c :: s) = (c :: (pieces s).1, (pieces s).2) := by
  rw [pieces, if_pos hc]

theorem pieces_white (hc : isWhite c = true) (s : CStr) :
    pieces (c :: s) = ([], (pieces s).1 :: (pieces s).2) := by
  have hne : c ≠ '\\' := by
    rintro rfl
    exact absurd hc (by decide)
  rw [pieces, if_pos hc] <;> simp [hne]

/-- A character that stays where it is. -/
theorem pieces_plain (hwhite : isWhite c = false) (h : c = '\\' → ∀ d ∈ s.head?, isEscaped d = false) :
    pieces (c :: s) = (c :: (pieces s).1, (pieces s).2) := by
  by_cases hc : c = '\\'
  · subst hc
    cases s with
    | nil => rfl
    | cons d s => rw [pieces, if_neg (by simp [h rfl d rfl])]
  · rw [pieces, if_neg (by simp [hwhite])] <;> simp [hc]

/-- The cases of `pieces`. -/
theorem pieces_induction {motive : CStr → Prop} (nil : motive [])
    (escape : ∀ c s, isEscaped c = true → motive s → motive ('\\' :: c :: s))
    (white : ∀ c s, isWhite c = true → motive s → motive (c :: s))
    (plain : ∀ c s, isWhite c = false → (c = '\\' → ∀ d ∈ s.head?, isEscaped d = false) → motive s →
      motive (c :: s)) (s : CStr) : motive s := by
  fun_induction pieces s with
  | case1 => exact nil
  | case2 => exact plain _ _ rfl (fun _ d hd => by cases hd) nil
  | case3 c s hc ih => exact escape c s hc ih
  | case4 c s hc ih =>
      refine plain _ _ rfl (fun _ d hd => ?_) ih
      rw [← Option.some.inj hd]
      exact Bool.eq_false_iff.mpr hc
  | case5 c s hlast hescape hc ih => exact white c s hc ih
  | case6 c s hlast hescape hc ih =>
      refine plain c s (Bool.eq_false_iff.mpr hc) ?_ ih
      rintro rfl d hd
      cases s with
      | nil => cases hd
      | cons e s => exact absurd rfl (hescape e s rfl)

/-! ## Texts that stay as they are -/

/-- A blank has no blank behind it, and a backslash neither a blank nor a backslash. -/
def Follows (c d : Char) : Prop := (c = ' ' → d ≠ ' ') ∧ (c = '\\' → d ≠ ' ' ∧ d ≠ '\\')

/-- A text that vim keeps when it is split and joined. -/
structure Steady (s : CStr) : Prop where
  tab : '\t' ∉ s
  chain : s.IsChain Follows

theorem Steady.tail (h : Steady (c :: s)) : Steady s :=
  ⟨fun htab => h.tab (List.mem_cons_of_mem _ htab), (List.isChain_cons.mp h.chain).2⟩

theorem Steady.infix {u : CStr} (h : Steady u) (hs : s <:+: u) : Steady s :=
  ⟨fun htab => h.tab (hs.subset htab), h.chain.infix hs⟩

theorem Steady.not_escaped (h : Steady ('\\' :: c :: s)) : isEscaped c = false := by
  have hfollows := (List.isChain_cons.mp h.chain).1 c rfl
  have htab : c ≠ '\t' := by
    rintro rfl
    exact h.tab (by simp)
  have hc := hfollows.2 rfl
  simp [isEscaped, isWhite, htab, hc.1, hc.2]

/-- The only white character is the blank. -/
theorem Steady.eq_blank (h : Steady (c :: s)) (hc : isWhite c = true) : c = ' ' := by
  have htab : c ≠ '\t' := by
    rintro rfl
    exact h.tab List.mem_cons_self
  simpa [isWhite, htab] using hc

theorem words_cons (c : Char) (w : CStr) (ws : List CStr) : words ((c :: w) :: ws) = c :: words (w :: ws) := by
  cases ws <;> rfl

theorem words_parts (h : Steady s) : words (parts s) = s := by
  induction s using pieces_induction with
  | nil => rfl
  | escape c s hc ih => exact absurd hc (by simp [h.not_escaped])
  | white c s hc ih =>
      obtain rfl := h.eq_blank hc
      unfold parts at ih ⊢
      rw [pieces_white hc]
      exact congrArg _ (ih h.tail)
  | plain c s hwhite hc ih =>
      unfold parts at ih ⊢
      rw [pieces_plain hwhite hc, words_cons, ih h.tail]

/-- A piece is empty where there is a blank at the front. -/
theorem nil_notMem_pieces (h : Steady s) (hlast : s.getLast? ≠ some ' ') :
    [] ∉ (pieces s).2 ∧ ((pieces s).1 = [] → s = [] ∨ s.head? = some ' ') := by
  induction s using pieces_induction with
  | nil => exact ⟨List.not_mem_nil, fun _ => .inl rfl⟩
  | escape c s hc ih => exact absurd hc (by simp [h.not_escaped])
  | white c s hc ih =>
      obtain rfl := h.eq_blank hc
      cases s with
      | nil => exact absurd rfl hlast
      | cons d s =>
          rw [List.getLast?_cons_cons] at hlast
          obtain ⟨hmem, hfront⟩ := ih h.tail hlast
          have hd := ((List.isChain_cons.mp h.chain).1 d rfl).1 rfl
          rw [pieces_white hc]
          refine ⟨fun hnil => ?_, fun _ => .inr rfl⟩
          rcases List.mem_cons.mp hnil with hnil | hnil
          · rcases hfront hnil.symm with heq | heq
            · cases heq
            · exact hd (Option.some.inj heq)
          · exact hmem hnil
  | plain c s hwhite hc ih =>
      have hrest : s.getLast? ≠ some ' ' := by
        cases s with
        | nil => exact nofun
        | cons d s => rwa [List.getLast?_cons_cons] at hlast
      rw [pieces_plain hwhite hc]
      exact ⟨(ih h.tail hrest).1, nofun⟩

theorem fargs_eq_parts (hfront : (pieces s).1 ≠ []) (hmem : [] ∉ (pieces s).2) : fargs s = parts s := by
  refine List.filter_eq_self.mpr fun w hw => ?_
  rw [Bool.not_eq_true', List.isEmpty_eq_false_iff]
  rintro rfl
  exact (List.mem_cons.mp hw).elim (fun h => hfront h.symm) hmem

/-- A text without blanks at its ends comes back when its arguments are joined. -/
theorem words_fargs (h : Steady s) (hhead : s.head? ≠ some ' ') (hlast : s.getLast? ≠ some ' ') :
    words (fargs s) = s := by
  by_cases hs : s = []
  · rw [hs]
    rfl
  obtain ⟨hmem, hfront⟩ := nil_notMem_pieces h hlast
  rw [fargs_eq_parts (fun h => (hfront h).elim hs hhead) hmem, words_parts h]

/-- Splitting loses a character for each escape sequence and for each blank that has another one in front. -/
theorem total_pieces (s : CStr) :
    nonQuotes (pieces s).1 + 1 + total ((pieces s).2.filter (!·.isEmpty)) ≤ nonQuotes s + 1 ∧
      (nonQuotes (pieces s).1 + 1 + total ((pieces s).2.filter (!·.isEmpty)) = nonQuotes s + 1 →
        [] ∉ (pieces s).2 ∧ (∀ w ∈ parts s, '\t' ∉ w) ∧ ('\t' ∉ s → Steady s)) := by
  induction s using pieces_induction with
  | nil =>
      refine ⟨Nat.le_refl _, fun _ => ⟨List.not_mem_nil, ?_, fun _ => ⟨List.not_mem_nil, .nil⟩⟩⟩
      exact List.forall_mem_singleton.mpr List.not_mem_nil
  | escape c s hc ih =>
      have hquote : c ≠ '"' := by
        rintro rfl
        exact absurd hc (by decide)
      rw [pieces_escape hc, nonQuotes_cons hquote, nonQuotes_cons (by decide), nonQuotes_cons hquote]
      dsimp only
      exact ⟨by omega, fun heq => by omega⟩
  | white c s hc ih =>
      have hquote : c ≠ '"' := by
        rintro rfl
        exact absurd hc (by decide)
      have hnil : nonQuotes [] = 0 := rfl
      unfold parts at ih ⊢
      rw [pieces_white hc, nonQuotes_cons hquote]
      dsimp only
      by_cases hfront : (pieces s).1 = []
      · rw [List.filter_cons_of_neg (by simp [hfront]), hnil]
        rw [hfront, hnil] at ih
        exact ⟨by omega, fun heq => by omega⟩
      · rw [List.filter_cons_of_pos (by simp [hfront]), total, hnil]
        refine ⟨by omega, fun heq => ?_⟩
        obtain ⟨hnil, htab, hsteady⟩ := ih.2 (by omega)
        refine ⟨fun h => ?_, List.forall_mem_cons.mpr ⟨List.not_mem_nil, htab⟩, fun hmem => ?_⟩
        · exact (List.mem_cons.mp h).elim (fun h => hfront h.symm) hnil
        rw [List.mem_cons, not_or] at hmem
        have hs := hsteady hmem.2
        have hblank : c = ' ' := by simpa [isWhite, Ne.symm hmem.1] using hc
        subst hblank
        refine ⟨fun h => (List.mem_cons.mp h).elim hmem.1 hmem.2, List.isChain_cons.mpr ⟨?_, hs.chain⟩⟩
        intro d hd
        refine ⟨fun _ hblank => ?_, fun h => absurd h (by decide)⟩
        subst hblank
        obtain ⟨s', rfl⟩ := List.head?_eq_some_iff.mp hd
        exact hfront (by rw [pieces_white rfl])
  | plain c s hwhite hc ih =>
      unfold parts at ih ⊢
      rw [pieces_plain hwhite hc]
      dsimp only
      have hsame : ∀ u, nonQuotes (c :: u) = nonQuotes [c] + nonQuotes u := fun u => nonQuotes_append [c] u
      rw [hsame, hsame s]
      refine ⟨by omega, fun heq => ?_⟩
      obtain ⟨hnil, htab, hsteady⟩ := ih.2 (by omega)
      have hne : c ≠ '\t' := by
        rintro rfl
        exact absurd hwhite (by decide)
      rw [List.forall_mem_cons] at htab
      refine ⟨hnil, List.forall_mem_cons.mpr ⟨fun h => ?_, htab.2⟩, fun hmem => ?_⟩
      · rcases List.mem_cons.mp h with h | h
        · exact hne h.symm
        · exact htab.1 h
      · have hs := hsteady fun h => hmem (List.mem_cons_of_mem _ h)
        refine ⟨hmem, List.isChain_cons.mpr ⟨fun d hd => ⟨?_, fun hback => ?_⟩, hs.chain⟩⟩
        · rintro rfl
          exact absurd hwhite (by decide)
        · have hd' := hc hback d hd
          simp only [isEscaped, isWhite, Bool.or_eq_false_iff, beq_eq_false_iff_ne] at hd'
          exact ⟨hd'.1.1, hd'.2⟩

/-- The arguments have at most the characters of a text. -/
theorem total_fargs (s : CStr) : total (fargs s) ≤ nonQuotes s + 1 ∧
    (total (fargs s) = nonQuotes s + 1 →
      (∀ w ∈ fargs s, '\t' ∉ w) ∧ ('\t' ∉ s → Steady s ∧ words (fargs s) = s)) := by
  obtain ⟨hle, heq⟩ := total_pieces s
  by_cases hfront : (pieces s).1 = []
  · have hfargs : fargs s = (pieces s).2.filter (!·.isEmpty) := List.filter_cons_of_neg (by simp [hfront])
    rw [hfargs]
    exact ⟨by omega, fun h => by omega⟩
  · have htotal : total (fargs s) = nonQuotes (pieces s).1 + 1 + total ((pieces s).2.filter (!·.isEmpty)) :=
      congrArg total (List.filter_cons_of_pos (by simpa using hfront))
    rw [htotal]
    refine ⟨hle, fun h => ?_⟩
    obtain ⟨hnil, htab, hsteady⟩ := heq h
    rw [fargs_eq_parts hfront hnil]
    exact ⟨htab, fun hmem => ⟨hsteady hmem, words_parts (hsteady hmem)⟩⟩

/-! ## Through netbeans -/

theorem strdeescape_escapeQuotes_cons (hc : c ≠ '\\') (s : CStr) :
    strdeescape (escapeQuotes (c :: s)) = c :: strdeescape (escapeQuotes s) := by
  rw [escapeQuotes]
  split
  · next hquote =>
      rw [hquote]
      exact strdeescape_escape rfl _
  · exact strdeescape_cons hc _

/-- A backslash that escapes the character behind it; a quote has got a backslash of its own. -/
theorem strdeescape_escapeQuotes_escape {d : Char} (hc : deescapeChar c = some d) (hquote : c ≠ '"') (s : CStr) :
    strdeescape (escapeQuotes ('\\' :: c :: s)) = d :: strdeescape (escapeQuotes s) := by
  rw [escapeQuotes, if_neg (by decide), escapeQuotes, if_neg hquote, strdeescape_escape hc]

/-- A backslash that stays. -/
theorem strdeescape_escapeQuotes_keep (h : ∀ d ∈ s.head?, d = '"' ∨ deescapeChar d = none) :
    strdeescape (escapeQuotes ('\\' :: s)) = '\\' :: strdeescape (escapeQuotes s) := by
  rw [escapeQuotes, if_neg (by decide)]
  cases s with
  | nil => rfl
  | cons d s =>
      rw [escapeQuotes]
      split
      · next hquote =>
          rw [strdeescape_escape rfl, strdeescape_escape rfl, strdeescape_cons (by decide)]
      · next hquote => exact strdeescape_keep ((h d rfl).resolve_left hquote) _

/-- Without escape sequences, a text comes through. -/
theorem strdeescape_escapeQuotes (h : Unescaped s) : strdeescape (escapeQuotes s) = s := by
  induction s with
  | nil => rfl
  | cons c s ih =>
      obtain ⟨hc, hs⟩ := unescaped_cons.mp h
      by_cases hback : c = '\\'
      · subst hback
        rw [strdeescape_escapeQuotes_keep, ih hs]
        intro d hd
        obtain ⟨t, rfl⟩ := List.head?_eq_some_iff.mp hd
        exact .inr (hc rfl d t rfl)
      · rw [strdeescape_escapeQuotes_cons hback, ih hs]

theorem deescapeChar_eq_quote (h : deescapeChar c = some '"') : c = '"' := by
  unfold deescapeChar at h
  split at h <;> simp_all

/-- Otherwise it loses a character for each of them. -/
theorem nonQuotes_escapeQuotes (s : CStr) : nonQuotes (strdeescape (escapeQuotes s)) ≤ nonQuotes s ∧
    (nonQuotes (strdeescape (escapeQuotes s)) = nonQuotes s → strdeescape (escapeQuotes s) = s) := by
  induction hlen : s.length using Nat.strong_induction_on generalizing s with
  | _ k ih =>
      subst hlen
      cases s with
      | nil => exact ⟨Nat.le_refl _, fun _ => rfl⟩
      | cons c s =>
          have hsame : ∀ u, nonQuotes (c :: u) = nonQuotes [c] + nonQuotes u := fun u => nonQuotes_append [c] u
          obtain ⟨hle, heq⟩ := ih _ (Nat.lt_succ_self _) s rfl
          by_cases hescape : c = '\\' ∧ ∃ d t e, s = d :: t ∧ d ≠ '"' ∧ deescapeChar d = some e
          · obtain ⟨rfl, d, t, e, rfl, hquote, hd⟩ := hescape
            have he : e ≠ '"' := by
              rintro rfl
              exact hquote (deescapeChar_eq_quote hd)
            have ht := (ih t.length (by rw [List.length_cons, List.length_cons]; omega) t rfl).1
            rw [strdeescape_escapeQuotes_escape hd hquote, nonQuotes_cons he, nonQuotes_cons (by decide),
              nonQuotes_cons hquote]
            exact ⟨by omega, fun h => by omega⟩
          · have hstep : strdeescape (escapeQuotes (c :: s)) = c :: strdeescape (escapeQuotes s) := by
              by_cases hc : c = '\\'
              · subst hc
                refine strdeescape_escapeQuotes_keep fun d hd => ?_
                by_contra hcon
                rw [not_or] at hcon
                obtain ⟨t, rfl⟩ := List.head?_eq_some_iff.mp hd
                obtain ⟨e, he⟩ := Option.ne_none_iff_exists'.mp hcon.2
                exact hescape ⟨rfl, d, t, e, rfl, hcon.1, he⟩
              · exact strdeescape_escapeQuotes_cons hc s
            rw [hstep, hsame, hsame s]
            exact ⟨by omega, fun h => congrArg _ (heq (by omega))⟩

/-- No text comes to a callback with more characters than it has, so that nothing is lost if all of them
come. -/
theorem comes_through {text : CStr} (hs : nonQuotes s + 1 ≤ total (fargs text))
    (htotal : total ws = nonQuotes text + 1)
    (h : arguments (strdeescape (escapeQuotes s)) = ws ++ extra) :
    extra = [] ∧ total (fargs text) = nonQuotes text + 1 ∧ Unescaped s ∧ arguments s = ws := by
  have hargs := (total_arguments (strdeescape (escapeQuotes s))).1
  rw [h, total_append] at hargs
  have hlost := nonQuotes_escapeQuotes s
  have hfargs := (total_fargs text).1
  have hself := hlost.2 (by omega)
  rw [hself] at hargs h
  have hextra : extra = [] := by
    cases extra with
    | nil => rfl
    | cons a extra =>
        rw [total] at hargs
        omega
  subst hextra
  rw [List.append_nil] at h
  exact ⟨rfl, by omega, hargs.2 (by omega), h⟩

/-! ## What comes to a callback -/

theorem strdeescape_escapeQuotes_append (s t : CStr) : strdeescape (escapeQuotes (s ++ ' ' :: t)) =
    strdeescape (escapeQuotes s) ++ ' ' :: strdeescape (escapeQuotes t) := by
  have hblank : escapeQuotes (' ' :: t) = ' ' :: escapeQuotes t := rfl
  rw [escapeQuotes_append, hblank, strdeescape_append_blank]

/-- The command `inferior` with one of its sub-commands, and what is behind them. -/
def command (sub rest : CStr) : CStr := "inferior".toList ++ ' ' :: (sub ++ ' ' :: rest)

theorem field_inferior : Field "inferior".toList :=
  PlainWord.field ⟨by decide, by decide, by decide, by decide⟩

variable {sub rest text : CStr}

/-- The line that `cmd_exec` splits for a command. -/
theorem strdeescape_command (hsub : Field sub) (rest : CStr) : strdeescape (nbkey (command sub rest)) =
    command sub (strdeescape (escapeQuotes rest)) ++ ' ' :: syncFile := by
  unfold command
  rw [strdeescape_nbkey, strdeescape_escapeQuotes_append, strdeescape_escapeQuotes_append,
    strdeescape_escapeQuotes field_inferior.unescaped, strdeescape_escapeQuotes hsub.unescaped]

theorem arguments_sub (hsub : Field sub) (rest : CStr) :
    arguments (command sub rest) = "inferior".toList :: sub :: arguments rest := by
  unfold command
  rw [arguments_field field_inferior (.inr ⟨_, rfl⟩), arguments_blank, arguments_field hsub (.inr ⟨_, rfl⟩),
    arguments_blank]

theorem unescaped_command (hsub : Field sub) (hrest : Unescaped rest) : Unescaped (command sub rest) := by
  unfold command
  have htail := hsub.unescaped.append hrest (c := ' ') (fun _ => rfl) (by decide)
  exact field_inferior.unescaped.append htail (fun _ => rfl) (by decide)

/-- The words of the callback that `cmd_exec` executes. -/
theorem received_cmdExec {line name : CStr} (hargs : arguments (strdeescape line) = name :: ws)
    (hname : lookup name = true) : (cmdExec junk line).map (List.filterMap received) =
      if (name :: ws).length ≤ countArgs (strdeescape line) then .ok [(name :: ws).take ws.length]
      else .error .overflow := by
  rw [cmdExec_command hargs hname]
  split <;> rfl

/-- A callback gets no other words than those of its command. -/
theorem callbacks_command (hsub : Field sub) (h : inferior vim (fargs text) = some (command sub rest)) :
    callbacks junk vim text = .error .overflow ∨ ∃ args extra,
      args ++ extra = "inferior".toList :: sub :: arguments (strdeescape (escapeQuotes rest)) ∧
        callbacks junk vim text = .ok [args] := by
  have hline := arguments_append field_syncFile (command sub (strdeescape (escapeQuotes rest)))
  rw [← strdeescape_command hsub, arguments_sub hsub, List.cons_append] at hline
  have hcmd : callbacks junk vim text =
      (cmdExec junk (nbkey (command sub rest))).map (List.filterMap received) := by
    unfold callbacks
    rw [h]
  generalize htail : sub :: arguments (strdeescape (escapeQuotes rest)) ++ _ = tail at hline
  rw [hcmd, received_cmdExec hline (by decide)]
  split
  · refine .inr ?_
    split at htail
    · refine ⟨_, [], List.append_nil _, ?_⟩
      rw [← htail, List.length_append, List.length_singleton, List.take_succ_cons, List.take_left]
    · rw [List.append_nil] at htail
      exact ⟨_, _, List.take_append_drop tail.length _, by rw [htail]⟩
  · exact .inl rfl

/-- Without escape sequences, it gets all of them that are in front of the sync file. -/
theorem callbacks_unescaped (hsub : Field sub) (h : inferior vim (fargs text) = some (command sub rest))
    (hrest : Unescaped rest) (hargs : arguments (rest ++ ' ' :: syncFile) = ws ++ [syncFile]) :
    callbacks junk vim text = .ok ["inferior".toList :: sub :: ws] := by
  have hunescaped : Unescaped (command sub rest ++ ' ' :: syncFile) :=
    (unescaped_command hsub hrest).append field_syncFile.unescaped (c := ' ') (fun _ => rfl) (by decide)
  have hline : strdeescape (nbkey (command sub rest)) = command sub rest ++ ' ' :: syncFile := by
    rw [strdeescape_command hsub, strdeescape_escapeQuotes hrest]
  have hall : arguments (strdeescape (nbkey (command sub rest))) =
      "inferior".toList :: (sub :: ws ++ [syncFile]) := by
    have hbehind : command sub rest ++ ' ' :: syncFile = command sub (rest ++ ' ' :: syncFile) := by
      unfold command
      rw [List.append_assoc, List.cons_append, List.append_assoc, List.cons_append]
    rw [hline, hbehind, arguments_sub hsub, hargs]
    rfl
  have hcmd : callbacks junk vim text =
      (cmdExec junk (nbkey (command sub rest))).map (List.filterMap received) := by
    unfold callbacks
    rw [h]
  rw [hcmd, received_cmdExec hall (by decide), if_pos]
  · rw [List.length_append, List.length_singleton, List.take_succ_cons, List.take_left]
  · rw [← hall, hline, countArgs_of_clear hunescaped.clear]

/-! ## Files -/

/-- The names that come to `bin` and `sym` as they are. -/
structure Path (text : CStr) : Prop where
  rooted : text.head? = some '/'
  field : Field text
  tab : '\t' ∉ text

/-- An argument that ends at a blank. -/
theorem pieces_append (h : ∀ c ∈ w, isWhite c = false ∧ c ≠ '\\') (s : CStr) :
    pieces (w ++ ' ' :: s) = (w, parts s) := by
  induction w with
  | nil => exact pieces_white rfl s
  | cons c w ih =>
      rw [List.forall_mem_cons] at h
      rw [List.cons_append, pieces_plain h.1.1 fun hc => absurd hc h.1.2, ih h.2]

theorem fargs_append (hne : w ≠ []) (h : ∀ c ∈ w, isWhite c = false ∧ c ≠ '\\') (s : CStr) :
    fargs (w ++ ' ' :: s) = w :: fargs s := by
  unfold fargs
  rw [show parts (w ++ ' ' :: s) = w :: parts s by rw [parts, pieces_append h],
    List.filter_cons_of_pos (by simpa using hne)]

theorem Steady.of_field (h : Field s) (htab : '\t' ∉ s) : Steady s := by
  obtain ⟨-, hblank, -, hunescaped⟩ := h
  refine ⟨htab, ?_⟩
  induction s with
  | nil => exact .nil
  | cons c s ih =>
      rw [List.mem_cons, not_or] at hblank htab
      obtain ⟨hc, hs⟩ := unescaped_cons.mp hunescaped
      refine List.isChain_cons.mpr ⟨fun d hd => ⟨fun hblank' => absurd hblank'.symm hblank.1, fun hback => ?_⟩,
        ih htab.2 hblank.2 hs⟩
      obtain ⟨t, rfl⟩ := List.head?_eq_some_iff.mp hd
      constructor
      · rintro rfl
        exact hblank.2 List.mem_cons_self
      · rintro rfl
        cases hc hback _ t rfl

/-- A text without blanks is one piece. -/
theorem pieces_self (h : Steady s) (hblank : ' ' ∉ s) : pieces s = (s, []) := by
  induction s using pieces_induction with
  | nil => rfl
  | escape c s hc ih => exact absurd hc (by simp [h.not_escaped])
  | white c s hc ih => exact absurd (h.eq_blank hc ▸ List.mem_cons_self) hblank
  | plain c s hwhite hc ih =>
      rw [pieces_plain hwhite hc, ih h.tail fun h => hblank (List.mem_cons_of_mem _ h)]

theorem Path.fargs_eq (h : Path text) : fargs text = [text] := by
  unfold fargs
  rw [show parts text = [text] by rw [parts, pieces_self (.of_field h.field h.tab) h.field.blank],
    List.filter_cons_of_pos (by simpa using h.field.ne_nil)]
  rfl

/-- The first argument begins with the character that the line begins with. -/
theorem rooted_of_arguments {a : CStr} (hs : s.head? = some '/') (h : (arguments s).head? = some a) :
    a.head? = some '/' := by
  obtain ⟨t, rfl⟩ := List.head?_eq_some_iff.mp hs
  rcases hnext : nextArg splitting ('/' :: t) with _ | ⟨n, text, r⟩
  · rw [arguments_none hnext] at h
    cases h
  · obtain ⟨c, t', hskip, hc, hscan, htext⟩ := nextArg_spec hnext
    rw [skipBlanks_of_ne (by decide)] at hskip
    rw [arguments_some hnext] at h
    obtain rfl := Option.some.inj h
    have hlt := length_scanArg_lt hc hscan
    cases text with
    | nil =>
        rw [htext] at hlt
        exact absurd hlt (Nat.lt_irrefl _)
    | cons d text =>
        obtain ⟨rfl, -⟩ := List.cons.inj (hskip.trans htext)
        rw [copied_plain (by decide) fun h => absurd h (by decide)]
        rfl

/-- A name that comes to a callback. -/
theorem path_of_arguments {file : CStr} (hfile : (fargs text).head? = some file)
    (h : arguments (strdeescape (escapeQuotes (vim.absolute file))) = text :: extra) : Path text ∧ extra = [] := by
  have hplain : ∀ {s : CStr}, s.head? = some '/' → (strdeescape (escapeQuotes s)).head? = some '/' := by
    intro s hs
    obtain ⟨t, rfl⟩ := List.head?_eq_some_iff.mp hs
    rw [strdeescape_escapeQuotes_cons (by decide)]
    rfl
  have hrooted : (vim.absolute file).head? = some '/' := by
    unfold Editor.absolute
    split
    · obtain ⟨cwd, hcwd⟩ := List.head?_eq_some_iff.mp vim.rooted
      rw [hcwd]
      rfl
    · next hslash => exact not_not.mp hslash
  have htext := rooted_of_arguments (hplain hrooted) (by rw [h]; rfl)
  -- vim takes the character at the front of the text for the one at the front of the name
  obtain ⟨t, rfl⟩ := List.head?_eq_some_iff.mp htext
  obtain ⟨more, hfargs⟩ := List.head?_eq_some_iff.mp hfile
  have hpieces : pieces ('/' :: t) = ('/' :: (pieces t).1, (pieces t).2) :=
    pieces_plain rfl fun h => absurd h (by decide)
  have hslash : file = '/' :: (pieces t).1 := by
    unfold fargs parts at hfargs
    rw [hpieces, List.filter_cons_of_pos rfl] at hfargs
    exact (List.cons.inj hfargs).1.symm
  have habsolute : vim.absolute file = file := by
    unfold Editor.absolute
    rw [hslash, if_neg (by simp)]
  rw [habsolute] at h
  have htotal : total (fargs ('/' :: t)) = nonQuotes file + 1 + total more := by rw [hfargs, total]
  obtain ⟨hextra, heq, hunescaped, hargs⟩ := @comes_through file ['/' :: t] extra ('/' :: t)
    (by omega) rfl h
  have hle := (total_arguments file).1.1
  rw [hargs] at hle
  have hmore : more = [] := by
    cases more with
    | nil => rfl
    | cons w more =>
        simp only [total] at htotal hle
        omega
  subst hmore
  obtain ⟨hwords, hself⟩ := (total_fargs ('/' :: t)).2 heq
  rw [hfargs] at hwords hself
  have htab : '\t' ∉ '/' :: t := fun hmem =>
    hwords file List.mem_cons_self
      (mem_of_mem_arguments hunescaped (by rw [hargs]; exact List.mem_cons_self) hmem)
  obtain rfl : file = '/' :: t := (hself htab).2
  have hmem : '/' :: t ∈ arguments ('/' :: t) := by
    rw [hargs]
    exact List.mem_cons_self
  obtain ⟨hquote, hblank⟩ := of_mem_arguments hunescaped hmem
  exact ⟨⟨rfl, ⟨List.cons_ne_nil _ _, (hblank hquote).2, hquote, hunescaped⟩, htab⟩, hextra⟩

theorem command_eq (sub rest : CStr) :
    command sub rest = "inferior ".toList ++ sub ++ " ".toList ++ rest := by
  rw [List.append_assoc, List.append_assoc]
  rfl

/-- What `s:inferior` makes of a file. -/
theorem inferior_file (hsub : sub = "bin".toList ∨ sub = "sym".toList) (args : List CStr) :
    inferior vim (sub :: args) = args.head?.map fun file => command sub (vim.absolute file) := by
  have hwindow : ¬ (sub = "open".toList ∨ sub = "view".toList) := by
    rcases hsub with rfl | rfl <;> decide
  unfold inferior
  dsimp only
  rw [if_neg hwindow, if_pos hsub]
  simp only [command_eq]

theorem fargs_sub (hsub : sub = "bin".toList ∨ sub = "sym".toList ∨ sub = "args".toList ∨ sub = "tty".toList)
    (text : CStr) : fargs (sub ++ ' ' :: text) = sub :: fargs text := by
  have hplain : sub.all (fun c => !isWhite c && c != '\\') = true := by
    rcases hsub with rfl | rfl | rfl | rfl <;> rfl
  refine fargs_append ?_ (fun c hc => ?_) text
  · rcases hsub with rfl | rfl | rfl | rfl <;> exact List.cons_ne_nil _ _
  · simpa using List.all_eq_true.mp hplain c hc

/-! ## Arguments of the program -/

theorem getLast?_quotes (ws : List CStr) : (quotes ws).getLast? ≠ some ' ' := by
  induction ws with
  | nil => exact nofun
  | cons w ws ih =>
      rw [quotes, List.getLast?_cons_cons, ← List.cons_append,
        List.getLast?_append_of_ne_nil _ (List.cons_ne_nil _ _)]
      cases ws with
      | nil => decide
      | cons x ws =>
          rw [quotes] at ih ⊢
          rwa [List.getLast?_cons_cons]

/-- Between quotes, texts stay as they are. -/
theorem steady_quotes (h : ∀ w ∈ ws, Steady w) : Steady (quotes ws) := by
  induction ws with
  | nil => exact ⟨List.not_mem_nil, .nil⟩
  | cons w ws ih =>
      rw [List.forall_mem_cons] at h
      have hws := ih h.2
      have hquote : ∀ d, Follows '"' d :=
        fun d => ⟨fun h => absurd h (by decide), fun h => absurd h (by decide)⟩
      have htail : List.IsChain Follows ('"' :: quotes ws) :=
        List.isChain_cons.mpr ⟨fun d _ => hquote d, hws.chain⟩
      have hclosed : List.IsChain Follows (w ++ '"' :: quotes ws) := by
        refine List.isChain_append.mpr ⟨h.1.chain, htail, fun c _ d hd => ?_⟩
        obtain rfl := Option.some.inj hd
        exact ⟨fun _ => by decide, fun _ => by decide⟩
      have hopened := List.isChain_cons.mpr ⟨fun d _ => hquote d, hclosed⟩
      refine ⟨fun hmem => ?_, List.isChain_cons.mpr ⟨fun d hd => ?_, hopened⟩⟩
      · rw [quotes, List.mem_cons, List.mem_cons, List.mem_append, List.mem_cons] at hmem
        rcases hmem with hmem | hmem | hmem | hmem | hmem
        · exact absurd hmem (by decide)
        · exact absurd hmem (by decide)
        · exact h.1.tab hmem
        · exact absurd hmem (by decide)
        · exact hws.tab hmem
      · obtain rfl := Option.some.inj hd
        exact ⟨fun _ => by decide, fun h => absurd h (by decide)⟩

/-- The arguments of a text that begins with a quote. -/
theorem fargs_quote_ne_nil (s : CStr) : fargs ('"' :: s) ≠ [] := by
  rw [fargs, parts, pieces_plain rfl fun h => absurd h (by decide), List.filter_cons_of_pos rfl]
  exact List.cons_ne_nil _ _

/-- Arguments that come to a callback. -/
theorem quoted_of_callback {arg : CStr} {args : List CStr} (hline : ∀ w ∈ arg :: args, '\n' ∉ w)
    (h : arguments (strdeescape (escapeQuotes (words (fargs ('"' :: (arg ++ '"' :: quotes args)))))) =
      arg :: args ++ extra) : (∀ w ∈ arg :: args, Quoted w ∧ Steady w) ∧ extra = [] := by
  have hquotes : quotes (arg :: args) = ' ' :: '"' :: (arg ++ '"' :: quotes args) := rfl
  generalize htext : '"' :: (arg ++ '"' :: quotes args) = text at h hquotes
  have hne : fargs text ≠ [] := htext ▸ fargs_quote_ne_nil _
  have htotal : total (arg :: args) = nonQuotes text + 1 := by
    rw [total_quotes, hquotes, nonQuotes_cons (by decide)]
  obtain ⟨hextra, heq, hunescaped, hargs⟩ := comes_through (Nat.le_of_eq (total_words hne).symm) htotal h
  obtain ⟨hwords, hself⟩ := (total_fargs text).2 heq
  have htab : ∀ w ∈ arg :: args, '\t' ∉ w := by
    intro w hw hmem
    rcases mem_words (mem_of_mem_arguments hunescaped (by rw [hargs]; exact hw) hmem) with h | ⟨x, hx, h⟩
    · exact absurd h (by decide)
    · exact hwords x hx h
  have hnotMem : '\t' ∉ quotes (arg :: args) := by
    intro hmem
    rcases mem_quotes hmem with h | h | ⟨w, hw, h⟩
    · exact absurd h (by decide)
    · exact absurd h (by decide)
    · exact htab w hw h
  rw [hquotes, List.mem_cons, not_or] at hnotMem
  obtain ⟨hsteady, hwhole⟩ := hself hnotMem.2
  rw [hwhole] at hargs
  have hfirst : arguments (firstLine (quotes (arg :: args))) = arg :: args := by
    have hend : '\n' ∉ quotes (arg :: args) := by
      intro hmem
      rcases mem_quotes hmem with h | h | ⟨w, hw, h⟩
      · exact absurd h (by decide)
      · exact absurd h (by decide)
      · exact hline w hw h
    rw [firstLine_self hend, hquotes, arguments_blank, hargs]
  have hall : Steady (quotes (arg :: args)) := by
    rw [hquotes]
    refine ⟨List.not_mem_cons_of_ne_of_not_mem hnotMem.1 hnotMem.2, List.isChain_cons.mpr ⟨?_, hsteady.chain⟩⟩
    rw [← htext]
    intro d hd
    obtain rfl := Option.some.inj hd
    exact ⟨fun _ => by decide, fun h => absurd h (by decide)⟩
  refine ⟨fun w hw => ⟨(quoted_of_arguments hfirst).1 w hw, ?_⟩, hextra⟩
  obtain ⟨a, b, hab⟩ := exists_of_mem_quotes hw
  exact hall.infix ⟨a, '"' :: b, hab.symm⟩

/-- What `s:inferior` makes of another sub-command. -/
theorem inferior_other (hsub : sub = "args".toList ∨ sub = "tty".toList) (hfile : vim.filereadable sub = false)
    {w : CStr} (ws : List CStr) : inferior vim (sub :: w :: ws) = some (command sub (words (w :: ws))) := by
  have hwindow : ¬ (sub = "open".toList ∨ sub = "view".toList) := by
    rcases hsub with rfl | rfl <;> decide
  have hname : ¬ (sub = "bin".toList ∨ sub = "sym".toList) := by
    rcases hsub with rfl | rfl <;> decide
  unfold inferior
  dsimp only
  rw [if_neg hwindow, if_neg hname, if_neg (by rw [hfile]; exact Bool.false_ne_true)]
  rfl

/-- Quoted arguments come to the callback. -/
theorem callbacks_quoted {arg : CStr} {args : List CStr} (hfile : vim.filereadable "args".toList = false)
    (h : ∀ w ∈ arg :: args, Quoted w ∧ Steady w) :
    callbacks junk vim ("args".toList ++ quotes (arg :: args)) =
      .ok ["inferior".toList :: "args".toList :: arg :: args] := by
  have hquotes : quotes (arg :: args) = ' ' :: '"' :: (arg ++ '"' :: quotes args) := rfl
  have hsteady := steady_quotes fun w hw => (h w hw).2
  have hlast := getLast?_quotes (arg :: args)
  have hunescaped := unescaped_quotes fun w hw => (h w hw).1
  have hargs := arguments_quotes_append (fun w hw => (h w hw).1) (r := ' ' :: syncFile) (.inr ⟨_, rfl⟩)
  have hsync : arguments syncFile = [syncFile] :=
    arguments_words (List.forall_mem_singleton.mpr field_syncFile)
  have hne := fargs_quote_ne_nil (arg ++ '"' :: quotes args)
  have hhead : ('"' :: (arg ++ '"' :: quotes args)).head? ≠ some ' ' := by simp
  rw [hquotes] at hsteady hlast hunescaped hargs ⊢
  rw [List.getLast?_cons_cons] at hlast
  rw [List.cons_append, arguments_blank, arguments_blank, hsync] at hargs
  generalize '"' :: (arg ++ '"' :: quotes args) = text at hsteady hlast hunescaped hargs hne hhead ⊢
  have hself := words_fargs hsteady.tail hhead hlast
  obtain ⟨w, ws, hws⟩ := List.exists_cons_of_ne_nil hne
  have hcmd : inferior vim (fargs ("args".toList ++ ' ' :: text)) = some (command "args".toList text) := by
    rw [fargs_sub (.inr (.inr (.inl rfl))), hws, inferior_other (.inl rfl) hfile, ← hws, hself]
  exact callbacks_unescaped (PlainWord.field ⟨by decide, by decide, by decide, by decide⟩) hcmd
    (unescaped_cons.mp hunescaped).2 hargs

/-- A name comes to the callback. -/
theorem callbacks_path (hsub : sub = "bin".toList ∨ sub = "sym".toList) (h : Path text) :
    callbacks junk vim (sub ++ ' ' :: text) = .ok ["inferior".toList :: sub :: [text]] := by
  have habsolute : vim.absolute text = text := if_neg (not_not.mpr h.rooted)
  have hcmd : inferior vim (fargs (sub ++ ' ' :: text)) = some (command sub text) := by
    rw [fargs_sub (hsub.imp id .inl), h.fargs_eq, inferior_file hsub, ← habsolute]
    simp [habsolute]
  have hfield : Field sub := by
    rcases hsub with rfl | rfl <;> exact PlainWord.field ⟨by decide, by decide, by decide, by decide⟩
  refine callbacks_unescaped hfield hcmd h.field.unescaped ?_
  rw [arguments_field h.field (.inr ⟨_, rfl⟩), arguments_blank]
  exact congrArg _ (arguments_words (List.forall_mem_singleton.mpr field_syncFile))

/-- The kind of a terminal comes to the callback. -/
theorem callbacks_tty {kind : CStr} (hfile : vim.filereadable "tty".toList = false)
    (hkind : kind = "internal".toList ∨ kind = "external".toList) :
    callbacks junk vim ("tty".toList ++ ' ' :: kind) = .ok ["inferior".toList :: "tty".toList :: [kind]] := by
  have hplain : PlainWord kind := by
    rcases hkind with rfl | rfl <;> exact ⟨by decide, by decide, by decide, by decide⟩
  have hfargs : fargs kind = [kind] := by
    rcases hkind with rfl | rfl <;> decide
  have hcmd : inferior vim (fargs ("tty".toList ++ ' ' :: kind)) = some (command "tty".toList kind) := by
    rw [fargs_sub (.inr (.inr (.inr rfl))), hfargs, inferior_other (.inr rfl) hfile]
    rfl
  refine callbacks_unescaped (PlainWord.field ⟨by decide, by decide, by decide, by decide⟩) hcmd
    hplain.field.unescaped ?_
  rw [arguments_field hplain.field (.inr ⟨_, rfl⟩), arguments_blank]
  exact congrArg _ (arguments_words (List.forall_mem_singleton.mpr field_syncFile))

end Vimgdb.Plugin
