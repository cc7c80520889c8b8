import Vimgdb.Common.Words
import Vimgdb.User.Breakpoints

/-!
# Sessions

The commands that are exported for breakpoints, variables and the arguments of the program, and what
becomes of them when they are read back.

* `exportBreaks`, `exportVars`, `exportArgs`: the files that are written.
* `Session.Restored`: each line of the files gives its command the arguments it was written for.
* `exportBreaks_iff`, `exportVars_iff`, `exportArgs_iff`: the files for which that is so.
* `restored_iff`: the sessions that come back.
-/

namespace Vimgdb.Session

open Gdb Strsplit Breakpt

/-! ## What is exported -/

/-- The arguments of `Break add` for a breakpoint. -/
def options (b : Breakpoint) : List CStr :=
  (match b.condition with
    | some condition => ["-c".toList, condition]
    | none => []) ++
  (match b.ignoreCnt with
    | some ignoreCnt => ["-i".toList, ignoreCnt]
    | none => []) ++
  (if b.temporary then ["-t".toList] else []) ++
  [location b]

/-- The line that `cmd_break_exec` writes for a breakpoint. -/
def exportBreak (b : Breakpoint) : CStr :=
  "Break add ".toList ++
  (match b.condition with
    | some condition => "-c ".toList ++ condition ++ " ".toList
    | none => []) ++
  (match b.ignoreCnt with
    | some ignoreCnt => "-i ".toList ++ ignoreCnt ++ " ".toList
    | none => []) ++
  (if b.temporary then "-t ".toList else []) ++
  location b ++ "\n".toList

/-- `cmd_break_exec` for `export`. -/
def exportBreaks (bs : List Breakpoint) : CStr := bs.flatMap exportBreak ++ "\n".toList

/-- `cmd_var_exec` for `export`: a line for each expression. -/
def exportVars (exps : List CStr) : CStr :=
  exps.flatMap (fun exp => "Variable add ".toList ++ exp ++ "\n".toList) ++ "\n".toList

/-- `cmd_inferior_exec` for `export`: the arguments of the program. -/
def exportArgs (args : List CStr) : CStr :=
  (if args.length > 0 then "Inferior args".toList else []) ++
  args.flatMap (fun arg => " \"".toList ++ arg ++ "\"".toList) ++ "\n\n".toList

/-- The lines of a file that are commands. -/
def commands (file : CStr) : List CStr := (file.splitOn '\n').filter (· ≠ [])

/-- The arguments of the sub-command in a line. -/
def commandArgs (junk : Char) (line : CStr) : Option (List CStr) :=
  (split junk line).map (List.drop 2)

/-- What is exported: the breakpoints, the expressions of the variables, and the arguments of the
program. -/
structure State where
  breakpoints : List Breakpoint
  exps : List CStr
  arguments : List CStr

/-- The lines of the files give `Break add`, `Variable add`, which uses its first argument, and
`Inferior args` what they have been written for. -/
structure State.Restored (junk : Char) (s : State) : Prop where
  breakpoints : (commands (exportBreaks s.breakpoints)).map (commandArgs junk) =
    s.breakpoints.map fun b => some (options b)
  exps : (commands (exportVars s.exps)).map
      (fun line => (commandArgs junk line).bind List.head?) = s.exps.map some
  arguments : (commands (exportArgs s.arguments)).map (commandArgs junk) =
    if s.arguments = [] then [] else [some s.arguments]

/-- What is printed without quotes has a character, no blanks, quotes or ends of line, and no escape
sequences; what is printed in quotes has no quotes, ends of line or escape sequences and no backslash
at its end. -/
structure State.Printable (s : State) : Prop where
  breakpoints : ∀ b ∈ s.breakpoints, ∀ w ∈ options b, Field w ∧ '\n' ∉ w
  exps : ∀ exp ∈ s.exps, Field exp ∧ '\n' ∉ exp
  arguments : ∀ arg ∈ s.arguments, Quoted arg ∧ '\n' ∉ arg

/-! ## Lines of a file -/

theorem commands_line {line rest : CStr} (h : '\n' ∉ line) (hne : line ≠ []) :
    commands (line ++ '\n' :: rest) = line :: commands rest := by
  unfold commands List.splitOn
  rw [List.splitOnP_append_cons_of_forall_mem]
  · rw [List.filter_cons_of_pos (by simpa using hne)]
  · intro c hc
    rw [beq_eq_false_iff_ne]
    rintro rfl
    exact h hc
  · rfl

/-- The first line of a text is a line of the file. -/
theorem commands_firstLine {text rest : CStr} (hne : firstLine text ≠ []) :
    ∃ more, commands (text ++ '\n' :: rest) = firstLine text :: more := by
  by_cases h : '\n' ∈ text
  · have hdrop : text.dropWhile (· ≠ '\n') ≠ [] := by
      rw [Ne, List.dropWhile_eq_nil_iff]
      intro hall
      exact absurd (hall _ h) (by simp)
    obtain ⟨c, t, ht⟩ := List.exists_cons_of_ne_nil hdrop
    have hc : c = '\n' := by
      have hhead := List.head_dropWhile_not (· ≠ '\n') (l := text) hdrop
      simp only [ht, List.head_cons] at hhead
      simpa using hhead
    have htext : text = firstLine text ++ '\n' :: t := by
      rw [← hc, ← ht]
      exact List.takeWhile_append_dropWhile.symm
    have hline : '\n' ∉ firstLine text := by
      intro hmem
      have := List.mem_takeWhile_imp hmem
      simp at this
    refine ⟨commands (t ++ '\n' :: rest), ?_⟩
    conv_lhs => rw [htext]
    rw [List.append_assoc, List.cons_append]
    exact commands_line hline hne
  · rw [firstLine_self h] at hne ⊢
    exact ⟨_, commands_line h hne⟩

/-- A file with a line for each of some objects: the lines say what they should iff the first line of
each object's text does, if texts that do so end with their first line. -/
theorem map_commands_iff {A B : Type*} {text : A → CStr} {read : CStr → B} {expected : A → B}
    {P : A → Prop} (hne : ∀ x, firstLine (text x) ≠ [])
    (hread : ∀ x, read (firstLine (text x)) = expected x ↔ P x) (hend : ∀ x, P x → '\n' ∉ text x)
    (xs : List A) :
    (commands (xs.flatMap (fun x => text x ++ "\n".toList) ++ "\n".toList)).map read =
      xs.map expected ↔ ∀ x ∈ xs, P x := by
  induction xs with
  | nil => exact iff_of_true rfl (List.forall_mem_nil _)
  | cons x xs ih =>
      have hfile : (x :: xs).flatMap (fun x => text x ++ "\n".toList) ++ "\n".toList =
          text x ++ '\n' :: (xs.flatMap (fun x => text x ++ "\n".toList) ++ "\n".toList) := by
        rw [List.flatMap_cons, List.append_assoc, List.append_assoc]
        rfl
      rw [hfile, List.map_cons, List.forall_mem_cons]
      constructor
      · intro h
        obtain ⟨more, hmore⟩ := @commands_firstLine (text x)
          (xs.flatMap (fun x => text x ++ "\n".toList) ++ "\n".toList) (hne x)
        rw [hmore, List.map_cons] at h
        have hx := (hread x).mp (List.cons.inj h).1
        refine ⟨hx, ih.mp ?_⟩
        rw [commands_line (hend x hx) (firstLine_self (hend x hx) ▸ hne x), List.cons.injEq] at hmore
        rw [hmore.2]
        exact (List.cons.inj h).2
      · rintro ⟨hx, hxs⟩
        have hself := firstLine_self (hend x hx)
        rw [commands_line (hend x hx) (hself ▸ hne x), List.map_cons, ih.mpr hxs, ← (hread x).mpr hx,
          hself]

/-! ## What comes back -/

variable {junk : Char}

theorem field_of_all {w : CStr} (h : w ≠ []) (hall : ∀ c ∈ w, c ≠ ' ' ∧ c ≠ '"' ∧ c ≠ '\\') :
    Field w := by
  refine ⟨h, fun hc => (hall _ hc).1 rfl, fun hc => (hall _ hc).2.1 rfl, ?_⟩
  rintro u c v rfl
  exact absurd rfl (hall '\\' (by simp)).2.2

/-- The command in front of a line. -/
theorem arguments_command {cmd sub : CStr} (hcmd : Field cmd) (hsub : Field sub) (line : CStr) :
    arguments (cmd ++ ' ' :: (sub ++ ' ' :: line)) = cmd :: sub :: arguments line := by
  rw [arguments_field hcmd (.inr ⟨_, rfl⟩), arguments_blank, arguments_field hsub (.inr ⟨_, rfl⟩),
    arguments_blank]

/-- The first line of a command has the command. -/
theorem firstLine_command {cmd : CStr} (h : '\n' ∉ cmd) (line : CStr) :
    firstLine (cmd ++ line) = cmd ++ firstLine line := by
  unfold firstLine
  rw [List.takeWhile_append_of_pos]
  intro c hc
  rw [decide_eq_true_eq]
  rintro rfl
  exact h hc

/-- The line for a breakpoint. -/
def breakText (b : Breakpoint) : CStr := "Break add ".toList ++ words (options b)

theorem exportBreak_eq (b : Breakpoint) : exportBreak b = breakText b ++ "\n".toList := by
  unfold exportBreak breakText options
  cases b.condition <;> cases b.ignoreCnt <;> cases b.temporary <;> simp [words]

/-- The text that follows a command, in a first line. -/
theorem firstLine_subcommand {cmd sub : CStr} (hcmd : '\n' ∉ cmd) (hsub : '\n' ∉ sub)
    (line : CStr) : firstLine (cmd ++ ' ' :: (sub ++ ' ' :: line)) =
      cmd ++ ' ' :: (sub ++ ' ' :: firstLine line) := by
  have hblank : ∀ t, firstLine (' ' :: t) = ' ' :: firstLine t := fun t => rfl
  rw [firstLine_command hcmd, hblank, firstLine_command hsub, hblank]

/-- A command that gets the texts behind it has been given fields. -/
theorem fields_of_commandArgs {cmd sub : CStr} (hcmd : Field cmd ∧ '\n' ∉ cmd)
    (hsub : Field sub ∧ '\n' ∉ sub) {ws extra : List CStr} (hws : ws ≠ [])
    (h : commandArgs junk (firstLine (cmd ++ ' ' :: (sub ++ ' ' :: words ws))) =
      some (ws ++ extra)) : ∀ w ∈ ws, Field w ∧ '\n' ∉ w := by
  obtain ⟨args, hsplit, hargs⟩ := Option.map_eq_some_iff.mp h
  have harguments := arguments_of_split hsplit
  rw [firstLine_subcommand hcmd.2 hsub.2, arguments_command hcmd.1 hsub.1] at harguments
  rw [← harguments] at hargs
  obtain ⟨hfields, hline⟩ := fields_of_arguments hws hargs
  intro w hw
  refine ⟨hfields w hw, fun hmem => hline ?_⟩
  obtain ⟨a, b, hab⟩ := exists_of_mem_words hw
  rw [hab]
  exact List.mem_append_left b (List.mem_append_right a hmem)

/-- A command gets the fields behind it. -/
theorem commandArgs_words {cmd sub : CStr} (hcmd : Field cmd ∧ '\n' ∉ cmd)
    (hsub : Field sub ∧ '\n' ∉ sub) {ws : List CStr} (hws : ws ≠ [])
    (h : ∀ w ∈ ws, Field w ∧ '\n' ∉ w) :
    '\n' ∉ cmd ++ ' ' :: (sub ++ ' ' :: words ws) ∧
      commandArgs junk (firstLine (cmd ++ ' ' :: (sub ++ ' ' :: words ws))) = some ws := by
  obtain ⟨w, ws', rfl⟩ := List.exists_cons_of_ne_nil hws
  have hline : words (cmd :: sub :: w :: ws') = cmd ++ ' ' :: (sub ++ ' ' :: words (w :: ws')) := rfl
  have hall : ∀ x ∈ cmd :: sub :: w :: ws', Field x ∧ '\n' ∉ x :=
    List.forall_mem_cons.mpr ⟨hcmd, List.forall_mem_cons.mpr ⟨hsub, h⟩⟩
  have hend : '\n' ∉ words (cmd :: sub :: w :: ws') := by
    intro hmem
    rcases mem_words hmem with heq | ⟨x, hx, hc⟩
    · exact absurd heq (by decide)
    · exact (hall x hx).2 hc
  rw [← hline]
  refine ⟨hend, ?_⟩
  unfold commandArgs
  have hunescaped := unescaped_words fun x hx => (hall x hx).1.unescaped
  rw [firstLine_self hend, split_of_unescaped junk hunescaped,
    arguments_words fun x hx => (hall x hx).1]
  rfl

theorem options_ne_nil (b : Breakpoint) : options b ≠ [] := by
  unfold options
  exact List.append_ne_nil_of_right_ne_nil _ (List.cons_ne_nil _ _)

/-- The characters of the words of a command. -/
def inWord (c : Char) : Bool := c != ' ' && c != '"' && c != '\\' && c != '\n'

/-- A word of a command. -/
theorem field_word {w : CStr} (hne : w ≠ []) (h : w.all inWord = true) : Field w ∧ '\n' ∉ w := by
  have hall : ∀ c ∈ w, inWord c = true := List.all_eq_true.mp h
  unfold inWord at hall
  refine ⟨field_of_all hne fun c hc => ?_, fun hc => absurd (hall _ hc) (by decide)⟩
  have hc := hall c hc
  simp only [Bool.and_eq_true, bne_iff_ne] at hc
  exact ⟨hc.1.1.1, hc.1.1.2, hc.1.2⟩

theorem exportBreaks_iff (bs : List Breakpoint) :
    (commands (exportBreaks bs)).map (commandArgs junk) = bs.map (fun b => some (options b)) ↔
      ∀ b ∈ bs, ∀ w ∈ options b, Field w ∧ '\n' ∉ w := by
  have hfile : exportBreaks bs = bs.flatMap (fun b => breakText b ++ "\n".toList) ++ "\n".toList := by
    unfold exportBreaks
    rw [funext exportBreak_eq]
  have hcmd : Field "Break".toList ∧ '\n' ∉ "Break".toList := field_word (List.cons_ne_nil _ _) rfl
  have hsub : Field "add".toList ∧ '\n' ∉ "add".toList := field_word (List.cons_ne_nil _ _) rfl
  rw [hfile]
  apply map_commands_iff (P := fun b => ∀ w ∈ options b, Field w ∧ '\n' ∉ w)
  · intro b
    exact List.cons_ne_nil _ _
  · intro b
    constructor
    · intro h
      apply @fields_of_commandArgs junk _ _ hcmd hsub _ [] (options_ne_nil b)
      rw [List.append_nil]
      exact h
    · intro h
      exact (commandArgs_words hcmd hsub (options_ne_nil b) h).2
  · intro b h
    exact (@commandArgs_words junk _ _ hcmd hsub _ (options_ne_nil b) h).1

theorem exportVars_iff (exps : List CStr) :
    (commands (exportVars exps)).map (fun line => (commandArgs junk line).bind List.head?) =
      exps.map some ↔ ∀ exp ∈ exps, Field exp ∧ '\n' ∉ exp := by
  have hcmd : Field "Variable".toList ∧ '\n' ∉ "Variable".toList :=
    field_word (List.cons_ne_nil _ _) rfl
  have hsub : Field "add".toList ∧ '\n' ∉ "add".toList := field_word (List.cons_ne_nil _ _) rfl
  apply @map_commands_iff _ _ fun exp => "Variable add ".toList ++ exp
  · intro exp
    exact List.cons_ne_nil _ _
  · intro exp
    constructor
    · intro h
      obtain ⟨args, hargs, hhead⟩ := Option.bind_eq_some_iff.mp h
      obtain ⟨extra, rfl⟩ := List.head?_eq_some_iff.mp hhead
      exact @fields_of_commandArgs junk _ _ hcmd hsub [exp] extra (List.cons_ne_nil _ _) hargs exp
        (List.mem_singleton_self exp)
    · intro h
      have hargs := (@commandArgs_words junk _ _ hcmd hsub [exp] (List.cons_ne_nil _ _)
        (List.forall_mem_singleton.mpr h)).2
      exact Option.bind_eq_some_iff.mpr ⟨[exp], hargs, rfl⟩
  · intro exp h
    exact (@commandArgs_words junk _ _ hcmd hsub [exp] (List.cons_ne_nil _ _)
      (List.forall_mem_singleton.mpr h)).1

/-- The arguments of a line with a command and texts in quotes. -/
theorem arguments_command_quotes {cmd sub line : CStr} (hcmd : Field cmd) (hsub : Field sub)
    (h : line = [] ∨ ∃ t, line = ' ' :: t) :
    arguments (cmd ++ ' ' :: (sub ++ line)) = cmd :: sub :: arguments line := by
  rw [arguments_field hcmd (.inr ⟨_, rfl⟩), arguments_blank, arguments_field hsub h]

/-- A command that gets the texts in the quotes behind it has been given texts that can be quoted. -/
theorem quoted_of_commandArgs {cmd sub : CStr} (hcmd : Field cmd ∧ '\n' ∉ cmd)
    (hsub : Field sub ∧ '\n' ∉ sub) {ws : List CStr}
    (h : commandArgs junk (firstLine (cmd ++ ' ' :: (sub ++ quotes ws))) = some ws) :
    ∀ w ∈ ws, Quoted w ∧ '\n' ∉ w := by
  obtain ⟨args, hsplit, hargs⟩ := Option.map_eq_some_iff.mp h
  have hblank : ∀ t, firstLine (' ' :: t) = ' ' :: firstLine t := fun t => rfl
  have harguments := arguments_of_split hsplit
  rw [firstLine_command hcmd.2, hblank, firstLine_command hsub.2,
    arguments_command_quotes hcmd.1 hsub.1 (firstLine_quotes_front _)] at harguments
  rw [← harguments] at hargs
  obtain ⟨hquoted, hline⟩ := quoted_of_arguments hargs
  intro w hw
  refine ⟨hquoted w hw, fun hmem => hline ?_⟩
  obtain ⟨a, b, hab⟩ := exists_of_mem_quotes hw
  rw [hab]
  exact List.mem_append_left _ (List.mem_append_right a hmem)

/-- A command gets the texts in the quotes behind it. -/
theorem commandArgs_quotes {cmd sub : CStr} (hcmd : Field cmd ∧ '\n' ∉ cmd)
    (hsub : Field sub ∧ '\n' ∉ sub) {ws : List CStr} (h : ∀ w ∈ ws, Quoted w ∧ '\n' ∉ w) :
    '\n' ∉ cmd ++ ' ' :: (sub ++ quotes ws) ∧
      commandArgs junk (cmd ++ ' ' :: (sub ++ quotes ws)) = some ws := by
  obtain ⟨hargs, hquotes⟩ := arguments_quotes fun w hw => (h w hw).1
  constructor
  · rw [List.mem_append, List.mem_cons, List.mem_append]
    rintro (hc | hc | hc | hc)
    · exact hcmd.2 hc
    · exact absurd hc (by decide)
    · exact hsub.2 hc
    · rcases mem_quotes hc with heq | heq | ⟨w, hw, hc⟩
      · exact absurd heq (by decide)
      · exact absurd heq (by decide)
      · exact (h w hw).2 hc
  · have hsubline : Unescaped (sub ++ quotes ws) := by
      rcases quotes_front ws with hnil | ⟨t, ht⟩
      · rw [hnil, List.append_nil]
        exact hsub.1.unescaped
      · rw [ht] at hquotes ⊢
        exact hsub.1.unescaped.append (unescaped_cons.mp hquotes).2 (fun _ => rfl) (by decide)
    have hline := hcmd.1.unescaped.append hsubline (c := ' ') (fun _ => rfl) (by decide)
    unfold commandArgs
    rw [split_of_unescaped junk hline,
      arguments_command_quotes hcmd.1 hsub.1 (quotes_front ws), hargs, Option.map_some]
    rfl

theorem exportArgs_eq {args : List CStr} (h : args ≠ []) :
    exportArgs args =
      "Inferior".toList ++ ' ' :: ("args".toList ++ quotes args) ++ '\n' :: "\n".toList := by
  have hquotes : args.flatMap (fun arg => " \"".toList ++ arg ++ "\"".toList) = quotes args := by
    clear h
    induction args with
    | nil => rfl
    | cons a args ih =>
        rw [List.flatMap_cons, ih]
        simp [quotes]
  unfold exportArgs
  rw [hquotes, if_pos (List.length_pos_of_ne_nil h)]
  rfl

theorem exportArgs_iff (args : List CStr) :
    (commands (exportArgs args)).map (commandArgs junk) = (if args = [] then [] else [some args]) ↔
      ∀ arg ∈ args, Quoted arg ∧ '\n' ∉ arg := by
  have hcmd : Field "Inferior".toList ∧ '\n' ∉ "Inferior".toList :=
    field_word (List.cons_ne_nil _ _) rfl
  have hsub : Field "args".toList ∧ '\n' ∉ "args".toList := field_word (List.cons_ne_nil _ _) rfl
  by_cases hne : args = []
  · subst hne
    exact iff_of_true rfl (List.forall_mem_nil _)
  rw [exportArgs_eq hne, if_neg hne]
  generalize "Inferior".toList = cmd at hcmd
  generalize "args".toList = sub at hsub
  have hcons : cmd ++ ' ' :: (sub ++ quotes args) ≠ [] := by simp
  constructor
  · intro h
    have hfirst : firstLine (cmd ++ ' ' :: (sub ++ quotes args)) ≠ [] := by
      rw [firstLine_command hcmd.2]
      exact List.append_ne_nil_of_left_ne_nil hcmd.1.ne_nil _
    obtain ⟨more, hmore⟩ := @commands_firstLine _ "\n".toList hfirst
    rw [hmore, List.map_cons] at h
    exact quoted_of_commandArgs hcmd hsub (List.cons.inj h).1
  · intro h
    obtain ⟨hline, hargs⟩ := @commandArgs_quotes junk _ _ hcmd hsub _ h
    have hend : commands "\n".toList = [] := by decide
    rw [commands_line hline hcons, List.map_cons, hargs, hend]
    rfl

/-- A session comes back iff what it prints is printable. -/
theorem restored_iff (junk : Char) (s : State) : s.Restored junk ↔ s.Printable := by
  constructor
  · rintro ⟨hbreaks, hvars, hargs⟩
    exact ⟨(exportBreaks_iff _).mp hbreaks, (exportVars_iff _).mp hvars, (exportArgs_iff _).mp hargs⟩
  · rintro ⟨hbreaks, hvars, hargs⟩
    exact ⟨(exportBreaks_iff _).mpr hbreaks, (exportVars_iff _).mpr hvars,
      (exportArgs_iff _).mpr hargs⟩

/-- A condition with blanks is split into three arguments. -/
theorem condition_not_restored : ¬ ∀ s : State, s.Restored 'x' := by
  intro h
  let b : Breakpoint :=
    { filename := some "main.c".toList, line := some 7, condition := some "a > 1".toList }
  have hbreaks := (h ⟨[b], [], []⟩).breakpoints
  exact absurd hbreaks (by decide +kernel)

end Vimgdb.Session
