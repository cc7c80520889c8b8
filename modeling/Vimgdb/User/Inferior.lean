import Vimgdb.Lib.Runs
import Vimgdb.User.Plugin
import Vimgdb.User.Session

/-!
# The debugged program

`cmd_inferior_exec` gives gdb the files, the arguments and the terminal of the program, and keeps what it
has given.

* `Remote`: what gdb has been given.
* `State`, `exec`: the variables, and a command.
* `Agrees`: the variables are what gdb has been given.
* `run_agrees_iff`: the runs in which they always are.
* `exportInferior`, `importFile`: the file that is written, and what vim and the callback make of it.
* `imported_iff`: when the settings come back.
-/

namespace Vimgdb.Inferior

open Gdb Runs Session Strsplit Plugin Commands

/-! ## The variables -/

/-- A terminal for the program: one that has been allocated, by its number, the one of an xterm, or
another one. -/
inductive Tty
  | internal (pty : Nat)
  | external (pts : CStr)
  | device (pts : CStr)
  deriving DecidableEq

/-- What gdb has been given: parameters as they have been written. -/
structure Remote where
  exec : Option CStr := none
  sym : Option CStr := none
  arguments : CStr := []
  tty : Option Tty := none

/-- The static variables, and gdb. -/
structure State where
  infFileBin : Option CStr := none
  infFileSym : Option CStr := none
  infArgv : List CStr := []
  infTerm : Option Nat := none
  /-- How many terminals have been allocated. -/
  ptys : Nat := 0
  gdb : Remote := {}

/-- What a command finds: whether gdb accepts what it is given, whether the thread for the output begins,
the terminal that xterm writes to its file, if it does in time, whether a terminal can be opened, and what
is behind 127 characters of a name. -/
structure Found where
  ok : Bool := true
  thread : Bool := true
  xterm : Option CStr := some "/dev/pts/1".toList
  opened : CStr → Bool := fun _ => true
  junk : CStr := []

/-! ## Commands -/

/-- The sub-commands of `Inferior`, and those of other commands. -/
inductive Sub
  | bin
  | sym
  | args
  | tty
  | other
  deriving DecidableEq

/-- The sub-commands. -/
def subcmds : List CStr :=
  ["bin", "sym", "args", "tty", "add", "delete", "enable", "disable", "run", "continue", "next", "nexti",
    "step", "stepi", "return", "break", "setpc", "goto", "fold", "set", "complete", "view", "format",
    "export"].map String.toList

/-- `user_subcmd::lookup` -/
def lookup (name : CStr) : Option Sub :=
  if name = "bin".toList then some .bin
  else if name = "sym".toList then some .sym
  else if name = "args".toList then some .args
  else if name = "tty".toList then some .tty
  else if name ∈ subcmds then some .other
  else none

/-- `%ss %d`: what is written for some parameters. -/
def told (argv : List CStr) : CStr := (writeArray false argv).flatten

/-- `%ssq %d` -/
def toldQuoted (argv : List CStr) : CStr := (writeArray true argv).flatten

/-- A file, with its symbols. -/
def State.file (s : State) (argv : List CStr) (f : Found) : State :=
  if f.ok then
    { s with
      infFileBin := argv.head?
      infFileSym := argv.head?
      gdb := { s.gdb with exec := some (told argv), sym := some (told argv) } }
  else s

/-- `sym` -/
def State.symFile (s : State) (argv : List CStr) (f : Found) : State :=
  if f.ok then { s with infFileSym := argv.head?, gdb := { s.gdb with sym := some (told argv) } } else s

/-- `bin` -/
def State.binFile (s : State) (argv : List CStr) (f : Found) : State :=
  if f.ok then { s with infFileBin := argv.head?, gdb := { s.gdb with exec := some (told argv) } } else s

/-- `args` -/
def State.args (s : State) (argv : List CStr) (f : Found) : State :=
  if f.ok then { s with infArgv := argv, gdb := { s.gdb with arguments := toldQuoted argv } } else s

/-- `tty internal`: a terminal that exists is kept. -/
def State.ttyInternal (s : State) (f : Found) : State :=
  match s.infTerm with
  | some _ => s
  | none =>
      if f.thread then
        let s := { s with infTerm := some s.ptys, ptys := s.ptys + 1 }
        if f.ok then { s with gdb := { s.gdb with tty := some (.internal (s.ptys - 1)) } } else s
      else { s with ptys := s.ptys + 1 }

/-- The terminal that is to be used: that of an xterm, or the one in `argv[2]`, of which 127 characters are
copied. -/
def Found.terminal (f : Found) (argv2 : CStr) : Option Tty :=
  if argv2 = "external".toList then f.xterm.map .external
  else some (.device (if argv2.length < 127 then argv2 else argv2.take 127 ++ f.junk))

/-- The name of a terminal in the file system. -/
def Tty.name : Tty → CStr
  | internal _ => []
  | external pts | device pts => pts

/-- The terminal that gdb is given in the end. -/
def Found.accepted (f : Found) (argv2 : CStr) : Option Tty :=
  (f.terminal argv2).filter fun tty => f.opened tty.name && f.ok

/-- `tty` for another terminal: the one that has been allocated is closed before. -/
def State.ttyOther (s : State) (argv2 : CStr) (f : Found) : State :=
  match f.accepted argv2 with
  | some tty => { s with infTerm := none, gdb := { s.gdb with tty := some tty } }
  | none => { s with infTerm := none }

/-- `cmd_inferior_exec`, behind `argv[0]`. -/
def exec (argv : List CStr) (f : Found) (s : State) : State :=
  match argv with
  | [] => s
  | name :: argv =>
      match lookup name, argv with
      | none, _ => s.file (name :: argv) f
      | some .bin, _ :: _ => s.binFile argv f
      | some .sym, _ :: _ => s.symFile argv f
      | some .args, _ :: _ => s.args argv f
      | some .tty, argv2 :: _ =>
          if argv2 = "internal".toList then s.ttyInternal f else s.ttyOther argv2 f
      | _, _ => s

/-! ## Agreement -/

/-- The variables are what gdb has been given. -/
structure Agrees (s : State) : Prop where
  exec : s.gdb.exec = s.infFileBin
  sym : s.gdb.sym = s.infFileSym
  arguments : s.gdb.arguments = toldQuoted s.infArgv
  tty : ∀ pty, s.gdb.tty = some (.internal pty) ↔ s.infTerm = some pty

/-- A command is executed. -/
def Step (s : State) (c : List CStr × Found) (t : State) : Prop := t = exec c.1 c.2 s

/-- A file that gdb accepts is a single parameter.  gdb accepts a terminal that is allocated, and while
there is one the terminal that replaces it. -/
def Meets (s : State) (c : List CStr × Found) : Prop :=
  match c.1 with
  | [] => True
  | name :: argv =>
      match lookup name, argv with
      | none, _ => c.2.ok = true → argv = []
      | some .bin, _ :: more | some .sym, _ :: more => c.2.ok = true → more = []
      | some .tty, argv2 :: _ =>
          if argv2 = "internal".toList then s.infTerm = none → c.2.thread = true → c.2.ok = true
          else s.infTerm ≠ none → c.2.accepted argv2 ≠ none
      | _, _ => True

variable {s t : State} {f : Found} {argv : List CStr} {c : List CStr × Found}

theorem told_singleton (a : CStr) : told [a] = a := by
  simp [told, writeArray]

/-- Several parameters are longer than the first one. -/
theorem told_eq_iff {a : CStr} {more : List CStr} : told (a :: more) = a ↔ more = [] := by
  cases more with
  | nil => exact iff_of_true (told_singleton a) rfl
  | cons b more =>
      refine iff_of_false (fun h => ?_) (List.cons_ne_nil b more)
      have hlength := congrArg List.length h
      simp [told, writeArray] at hlength

theorem agrees_init : Agrees {} where
  exec := rfl
  sym := rfl
  arguments := rfl
  tty _ := iff_of_false nofun nofun


/-! ## Steps -/

/-- Files. -/
theorem agrees_file_iff (hs : Agrees s) (a : CStr) (more : List CStr) :
    Agrees (s.file (a :: more) f) ↔ (f.ok = true → more = []) := by
  unfold State.file
  split
  next hok =>
    rw [forall_prop_of_true hok]
    constructor
    · intro h
      exact told_eq_iff.mp (Option.some.inj h.exec)
    · rintro rfl
      exact ⟨congrArg some (told_singleton a), congrArg some (told_singleton a), hs.arguments, hs.tty⟩
  next hok => exact iff_of_true hs fun h => absurd h hok

theorem agrees_symFile_iff (hs : Agrees s) (a : CStr) (more : List CStr) :
    Agrees (s.symFile (a :: more) f) ↔ (f.ok = true → more = []) := by
  unfold State.symFile
  split
  next hok =>
    rw [forall_prop_of_true hok]
    constructor
    · intro h
      exact told_eq_iff.mp (Option.some.inj h.sym)
    · rintro rfl
      exact ⟨hs.exec, congrArg some (told_singleton a), hs.arguments, hs.tty⟩
  next hok => exact iff_of_true hs fun h => absurd h hok

theorem agrees_binFile_iff (hs : Agrees s) (a : CStr) (more : List CStr) :
    Agrees (s.binFile (a :: more) f) ↔ (f.ok = true → more = []) := by
  unfold State.binFile
  split
  next hok =>
    rw [forall_prop_of_true hok]
    constructor
    · intro h
      exact told_eq_iff.mp (Option.some.inj h.exec)
    · rintro rfl
      exact ⟨congrArg some (told_singleton a), hs.sym, hs.arguments, hs.tty⟩
  next hok => exact iff_of_true hs fun h => absurd h hok

theorem Agrees.args (hs : Agrees s) (argv : List CStr) (f : Found) : Agrees (s.args argv f) := by
  unfold State.args
  split
  · exact ⟨hs.exec, hs.sym, rfl, hs.tty⟩
  · exact hs

/-- A terminal that is allocated is the one of gdb. -/
theorem agrees_ttyInternal_iff (hs : Agrees s) :
    Agrees (s.ttyInternal f) ↔ (s.infTerm = none → f.thread = true → f.ok = true) := by
  unfold State.ttyInternal
  split
  next pty hterm =>
    refine iff_of_true hs fun h => ?_
    rw [hterm] at h
    cases h
  next hterm =>
    have hnone : ∀ pty, s.gdb.tty ≠ some (.internal pty) := by
      intro pty h
      have hpty := (hs.tty pty).mp h
      rw [hterm] at hpty
      cases hpty
    rw [forall_prop_of_true hterm]
    split
    next hthread =>
      rw [forall_prop_of_true hthread]
      split
      next hok =>
        refine iff_of_true ⟨hs.exec, hs.sym, hs.arguments, fun pty => ?_⟩ hok
        simp
      next hok =>
        refine iff_of_false (fun h => ?_) hok
        exact hnone s.ptys ((h.tty s.ptys).mpr rfl)
    next hthread =>
      refine iff_of_true ⟨hs.exec, hs.sym, hs.arguments, fun pty => ?_⟩ fun h => absurd h hthread
      exact hs.tty pty

/-- Another terminal is not one that has been allocated. -/
theorem accepted_ne_internal {argv2 : CStr} {tty : Tty} (h : f.accepted argv2 = some tty) (pty : Nat) :
    tty ≠ .internal pty := by
  rintro rfl
  obtain ⟨hterminal, -⟩ := Option.filter_eq_some_iff.mp h
  unfold Found.terminal at hterminal
  split at hterminal
  · obtain ⟨pts, -, hpts⟩ := Option.map_eq_some_iff.mp hterminal
    cases hpts
  · cases hterminal

/-- The terminal that has been closed is not the one of gdb any more. -/
theorem agrees_ttyOther_iff (hs : Agrees s) (argv2 : CStr) :
    Agrees (s.ttyOther argv2 f) ↔ (s.infTerm ≠ none → f.accepted argv2 ≠ none) := by
  unfold State.ttyOther
  split
  next tty haccepted =>
    have hother := accepted_ne_internal haccepted
    refine iff_of_true ⟨hs.exec, hs.sym, hs.arguments, fun pty => ?_⟩ fun _ h => ?_
    · exact iff_of_false (fun h => hother pty (Option.some.inj h)) fun h => by cases h
    · rw [haccepted] at h
      cases h
  next haccepted =>
    constructor
    · intro h hterm
      obtain ⟨pty, hpty⟩ := Option.ne_none_iff_exists'.mp hterm
      have hnone := (h.tty pty).mp ((hs.tty pty).mpr hpty)
      cases hnone
    · intro h
      have hterm : s.infTerm = none := by
        by_contra hterm
        exact h hterm haccepted
      refine ⟨hs.exec, hs.sym, hs.arguments, fun pty => ?_⟩
      rw [← hterm]
      exact hs.tty pty

/-- A command keeps the variables what gdb has been given iff gdb accepts what it should. -/
theorem agrees_exec_iff (hs : Agrees s) (c : List CStr × Found) :
    Agrees (exec c.1 c.2 s) ↔ Meets s c := by
  obtain ⟨argv, f⟩ := c
  unfold exec Meets
  rcases argv with _ | ⟨name, argv⟩
  · exact iff_of_true hs trivial
  dsimp only
  rcases lookup name with _ | sub
  · exact agrees_file_iff hs name argv
  rcases argv with _ | ⟨a, more⟩
  · cases sub <;> exact iff_of_true hs trivial
  cases sub with
  | bin => exact agrees_binFile_iff hs a more
  | sym => exact agrees_symFile_iff hs a more
  | args => exact iff_of_true (hs.args _ f) trivial
  | tty =>
      dsimp only
      split
      · exact agrees_ttyInternal_iff hs
      · exact agrees_ttyOther_iff hs a
  | other => exact iff_of_true hs trivial

/-- The runs in which the variables are always what gdb has been given are those in which it accepts what
it should. -/
theorem run_agrees_iff (cs : List (List CStr × Found)) (t : State) :
    Run (fun s c t => Step s c t ∧ Agrees t) {} cs t ↔
      Run (fun s c t => Step s c t ∧ Meets s c) {} cs t := by
  have hstep : ∀ s c t, Agrees s → Step s c t → (Agrees t ↔ Meets s c) := by
    rintro s c t hs rfl
    exact agrees_exec_iff hs c
  exact Run.guarded_iff (I := Agrees) agrees_init (fun s c t hs h hmeets => (hstep s c t hs h).mpr hmeets)
    hstep cs t

/-! ## Files -/

/-- `cmd_inferior_exec` for `export` -/
def exportInferior (s : State) : CStr :=
  (match s.infFileBin with
    | some bin => "Inferior bin ".toList ++ bin ++ "\n".toList
    | none => []) ++
  (match s.infFileSym with
    | some sym => "Inferior sym ".toList ++ sym ++ "\n".toList
    | none => []) ++
  (if s.infTerm.isSome then "Inferior tty internal\n".toList else "Inferior tty external\n".toList) ++
  exportArgs s.infArgv

/-- A callback is executed; the variables belong to the one of `inferior`. -/
def called (f : Found) (s : State) : List CStr → State
  | [] => s
  | name :: argv => if name = "inferior".toList then exec argv f s else s

/-- A line of a file is executed by vim, which may be undefined. -/
def importLine (junk : Char) (vim : Editor) (f : Found) (s : State) (line : CStr) : Option State :=
  match "Inferior ".toList.isPrefixOf? line with
  | none => some s
  | some text => (callbacks junk vim text).toOption.map fun calls => calls.foldl (called f) s

/-- A file is read by a new session. -/
def importFile (junk : Char) (vim : Editor) (f : Found) (file : CStr) : Option State :=
  (commands file).foldlM (importLine junk vim f) {}

/-- What a terminal is. -/
inductive Kind
  | internal
  | external
  | device
  deriving DecidableEq

def Tty.kind : Tty → Kind
  | internal _ => .internal
  | external _ => .external
  | device _ => .device

/-- The variables, what gdb has been given, and the kind of its terminal come back. -/
structure Restored (s t : State) : Prop where
  bin : t.infFileBin = s.infFileBin ∧ t.gdb.exec = s.gdb.exec
  sym : t.infFileSym = s.infFileSym ∧ t.gdb.sym = s.gdb.sym
  args : t.infArgv = s.infArgv ∧ t.gdb.arguments = s.gdb.arguments
  tty : t.gdb.tty.map Tty.kind = s.gdb.tty.map Tty.kind

/-- Everything succeeds. -/
structure Found.Succeeds (f : Found) : Prop where
  ok : f.ok = true
  thread : f.thread = true
  xterm : ∃ pts, f.xterm = some pts ∧ f.opened pts = true

/-- Each name and each argument is on one line. -/
structure State.OnLines (s : State) : Prop where
  bin : ∀ text ∈ s.infFileBin, '\n' ∉ text
  sym : ∀ text ∈ s.infFileSym, '\n' ∉ text
  args : ∀ arg ∈ s.infArgv, '\n' ∉ arg

/-! ## Lines -/

variable {junk : Char} {vim : Editor} {sub text rest : CStr}

/-- A line that `exportInferior` writes. -/
def line (sub text : CStr) : CStr := "Inferior".toList ++ ' ' :: (sub ++ ' ' :: text)

theorem notMem_line (hsub : '\n' ∉ sub) (htext : '\n' ∉ text) : '\n' ∉ line sub text := by
  unfold line
  rw [List.mem_append, List.mem_cons, List.mem_append, List.mem_cons]
  rintro (h | h | h | h | h)
  · exact absurd h (by decide)
  · exact absurd h (by decide)
  · exact hsub h
  · exact absurd h (by decide)
  · exact htext h

theorem importLine_eq (s : State) (text : CStr) :
    importLine junk vim f s ("Inferior".toList ++ ' ' :: text) =
      (callbacks junk vim text).toOption.map fun calls => calls.foldl (called f) s := rfl

/-- A line for which the callback is executed. -/
theorem importLine_ok {argv : List CStr} (h : callbacks junk vim text = .ok ["inferior".toList :: argv])
    (s : State) : importLine junk vim f s ("Inferior".toList ++ ' ' :: text) = some (exec argv f s) := by
  rw [importLine_eq, h]
  rfl

/-- A line for which nothing is executed. -/
theorem importLine_nil (h : callbacks junk vim text = .ok []) (s : State) :
    importLine junk vim f s ("Inferior".toList ++ ' ' :: text) = some s := by
  rw [importLine_eq, h]
  rfl

/-- What a line gives its sub-command, which does nothing without an argument. -/
theorem importLine_command (hsub : Field sub) (hnone : exec [sub] f s = s)
    (h : inferior vim (fargs text) = some (command sub rest)) :
    importLine junk vim f s ("Inferior".toList ++ ' ' :: text) = none ∨
      ∃ argv extra, argv ++ extra = arguments (strdeescape (escapeQuotes rest)) ∧
        importLine junk vim f s ("Inferior".toList ++ ' ' :: text) = some (exec (sub :: argv) f s) := by
  rw [importLine_eq]
  rcases @callbacks_command junk vim sub rest text hsub h with hcalls | ⟨args, extra, hargs, hcalls⟩
  · exact .inl (by rw [hcalls]; rfl)
  · refine .inr ?_
    rw [hcalls]
    rcases args with _ | ⟨name, _ | ⟨sub', argv⟩⟩
    · exact ⟨[], _, rfl, by rw [hnone]; rfl⟩
    · obtain ⟨rfl, -⟩ := List.cons.inj hargs
      exact ⟨[], _, rfl, by rw [hnone]; rfl⟩
    · obtain ⟨rfl, htail⟩ := List.cons.inj hargs
      obtain ⟨rfl, hargv⟩ := List.cons.inj htail
      exact ⟨argv, extra, hargv, rfl⟩

theorem field_sub (hsub : sub = "bin".toList ∨ sub = "sym".toList ∨ sub = "args".toList ∨ sub = "tty".toList) :
    Field sub ∧ '\n' ∉ sub := by
  rcases hsub with rfl | rfl | rfl | rfl <;> exact field_word (List.cons_ne_nil _ _) rfl

/-- What a line gives `bin` or `sym`: the name if it is a path, and something else otherwise. -/
theorem importLine_name (hsub : sub = "bin".toList ∨ sub = "sym".toList) (hnone : exec [sub] f s = s)
    (text : CStr) : ∃ o : Option (List CStr),
      importLine junk vim f s (line sub text) = o.map (fun argv => exec (sub :: argv) f s) ∧
        (o = some [text] ↔ Path text) := by
  by_cases hpath : Path text
  · exact ⟨some [text], importLine_ok (callbacks_path hsub hpath) s, iff_of_true rfl hpath⟩
  have hcmd := @inferior_file vim sub hsub (fargs text)
  rw [← fargs_sub (hsub.imp id .inl)] at hcmd
  rcases hfile : (fargs text).head? with _ | file
  · rw [hfile] at hcmd
    have hcalls : callbacks junk vim (sub ++ ' ' :: text) = .ok [] := by
      unfold callbacks
      rw [hcmd]
      rfl
    refine ⟨some [], ?_, iff_of_false nofun hpath⟩
    rw [Option.map_some, hnone]
    exact importLine_nil hcalls s
  · rw [hfile, Option.map_some] at hcmd
    rcases @importLine_command s f junk vim sub _ _ (field_sub (hsub.imp id .inl)).1 hnone hcmd with
      himport | ⟨argv, extra, hargv, himport⟩
    · exact ⟨none, himport, iff_of_false nofun hpath⟩
    · refine ⟨some argv, himport, iff_of_false (fun h => hpath ?_) hpath⟩
      obtain rfl := Option.some.inj h
      exact (path_of_arguments hfile hargv.symm).1

/-- The line for a name; `set` stores what the callback does. -/
theorem import_name (hsub : sub = "bin".toList ∨ sub = "sym".toList) {set : Option CStr → Option CStr → State}
    (hset : ∀ a more, exec (sub :: a :: more) f s = set (some a) (some (told (a :: more))))
    (hnone : exec [sub] f s = s) (hs : s = set none none) (name : Option CStr) :
    ∃ r : Option (Option CStr × Option CStr),
      (name.toList.map (line sub)).foldlM (importLine junk vim f) s = r.map (fun r => set r.1 r.2) ∧
        (r = some (name, name) ↔ ∀ text ∈ name, Path text) := by
  cases name with
  | none =>
      refine ⟨some (none, none), congrArg some hs, iff_of_true rfl nofun⟩
  | some text =>
      have hpaths : (∀ text' ∈ some text, Path text') ↔ Path text := by simp
      have hline : ((some text).toList.map (line sub)).foldlM (importLine junk vim f) s =
          importLine junk vim f s (line sub text) := bind_pure _
      obtain ⟨o, himport, hiff⟩ := @importLine_name s f junk vim sub hsub hnone text
      rw [hpaths, ← hiff, hline, himport]
      rcases o with _ | _ | ⟨a, more⟩
      · exact ⟨none, rfl, iff_of_false nofun nofun⟩
      · refine ⟨some (none, none), ?_, iff_of_false (fun h => ?_) fun h => ?_⟩
        · exact congrArg some (hnone.trans hs)
        · cases h
        · cases h
      · refine ⟨some (some a, some (told (a :: more))), congrArg some (hset a more), ?_⟩
        constructor
        · intro h
          obtain ⟨ha, htold⟩ := Prod.mk.inj (Option.some.inj h)
          obtain rfl := Option.some.inj ha
          rw [told_eq_iff.mp (Option.some.inj htold)]
        · intro h
          obtain ⟨rfl, rfl⟩ := List.cons.inj (Option.some.inj h)
          rw [told_singleton]

/-- The line for the terminal. -/
theorem import_tty (hfile : vim.filereadable "tty".toList = false) (hf : f.Succeeds) (internal : Bool)
    (hs : s.infTerm = none) : ∃ term ptys tty, importLine junk vim f s
          (line "tty".toList (if internal then "internal".toList else "external".toList)) =
        some { s with infTerm := term, ptys := ptys, gdb := { s.gdb with tty := some tty } } ∧
      tty.kind = if internal then .internal else .external := by
  obtain ⟨hok, hthread, pts, hpts, hopened⟩ := hf
  cases internal with
  | true =>
      refine ⟨some s.ptys, s.ptys + 1, .internal s.ptys, ?_, rfl⟩
      have hcalls : callbacks junk vim ("tty".toList ++ ' ' :: "internal".toList) = _ :=
        callbacks_tty hfile (.inl rfl)
      refine (importLine_ok hcalls s).trans (congrArg some (show s.ttyInternal f = _ from ?_))
      unfold State.ttyInternal
      rw [hs]
      simp [hok, hthread]
  | false =>
      refine ⟨none, s.ptys, .external pts, ?_, rfl⟩
      have hcalls : callbacks junk vim ("tty".toList ++ ' ' :: "external".toList) = _ :=
        callbacks_tty hfile (.inr rfl)
      have haccepted : f.accepted "external".toList = some (.external pts) := by
        unfold Found.accepted Found.terminal
        rw [if_pos rfl, hpts]
        simp [Tty.name, hopened, hok]
      refine (importLine_ok hcalls s).trans (congrArg some (show s.ttyOther "external".toList f = _ from ?_))
      unfold State.ttyOther
      rw [haccepted]

/-- What the line gives `args`: the arguments if all of them come between their quotes. -/
theorem importLine_args (hfile : vim.filereadable "args".toList = false) {arg : CStr} {args : List CStr}
    (hline : ∀ w ∈ arg :: args, '\n' ∉ w) (s : State) : ∃ o : Option (List CStr),
      importLine junk vim f s ("Inferior".toList ++ ' ' :: ("args".toList ++ quotes (arg :: args))) =
        o.map (fun argv => exec ("args".toList :: argv) f s) ∧
      (o = some (arg :: args) ↔ ∀ w ∈ arg :: args, Quoted w ∧ Steady w) := by
  by_cases hquoted : ∀ w ∈ arg :: args, Quoted w ∧ Steady w
  · exact ⟨some (arg :: args), importLine_ok (callbacks_quoted hfile hquoted) s, iff_of_true rfl hquoted⟩
  have hquotes : quotes (arg :: args) = ' ' :: '"' :: (arg ++ '"' :: quotes args) := rfl
  obtain ⟨w, ws, hws⟩ := List.exists_cons_of_ne_nil (fargs_quote_ne_nil (arg ++ '"' :: quotes args))
  have hcmd := @inferior_other vim "args".toList (.inl rfl) hfile w ws
  rw [← hws, ← fargs_sub (.inr (.inr (.inl rfl)))] at hcmd
  rw [hquotes]
  rcases @importLine_command s f junk vim "args".toList _ _ (field_sub (.inr (.inr (.inl rfl)))).1 rfl hcmd with
    himport | ⟨argv, extra, hargv, himport⟩
  · exact ⟨none, himport, iff_of_false nofun hquoted⟩
  · refine ⟨some argv, himport, iff_of_false (fun h => hquoted ?_) hquoted⟩
    obtain rfl := Option.some.inj h
    exact (quoted_of_callback hline hargv.symm).1

/-- The lines for the arguments. -/
theorem import_args (hfile : vim.filereadable "args".toList = false) (hf : f.ok = true) {args : List CStr}
    (h : ∀ arg ∈ args, '\n' ∉ arg) (hs : s.infArgv = [] ∧ s.gdb.arguments = []) :
    ∃ r : Option (List CStr), (commands (exportArgs args)).foldlM (importLine junk vim f) s =
        r.map (fun argv => { s with infArgv := argv, gdb := { s.gdb with arguments := toldQuoted argv } }) ∧
      (r = some args ↔ ∀ arg ∈ args, Quoted arg ∧ Steady arg) := by
  have hself : s = { s with infArgv := [], gdb := { s.gdb with arguments := toldQuoted [] } } :=
    calc s = { s with infArgv := s.infArgv, gdb := { s.gdb with arguments := s.gdb.arguments } } := rfl
      _ = _ := by rw [hs.1, hs.2]; rfl
  rcases args with _ | ⟨arg, args⟩
  · exact ⟨some [], congrArg some hself, iff_of_true rfl (List.forall_mem_nil _)⟩
  have hend : '\n' ∉ quotes (arg :: args) := by
    intro hmem
    rcases mem_quotes hmem with heq | heq | ⟨w, hw, hc⟩
    · exact absurd heq (by decide)
    · exact absurd heq (by decide)
    · exact h w hw hc
  have hline : '\n' ∉ "Inferior".toList ++ ' ' :: ("args".toList ++ quotes (arg :: args)) :=
    notMem_line (field_sub (.inr (.inr (.inl rfl)))).2 fun hc => hend (List.mem_cons_of_mem _ hc)
  have hcommands : commands (exportArgs (arg :: args)) =
      ["Inferior".toList ++ ' ' :: ("args".toList ++ quotes (arg :: args))] := by
    have hnil : commands "\n".toList = [] := by decide
    rw [exportArgs_eq (List.cons_ne_nil _ _), commands_line hline (List.cons_ne_nil _ _), hnil]
  obtain ⟨o, himport, hiff⟩ := @importLine_args f junk vim hfile arg args h s
  rw [hcommands, ← hiff]
  refine ⟨o, (bind_pure _).trans (himport.trans ?_), Iff.rfl⟩
  rcases o with _ | _ | ⟨a, more⟩
  · rfl
  · exact congrArg some hself
  · exact congrArg some (if_pos hf)

/-! ## What comes back -/

/-- The lines of a file. -/
theorem commands_exportInferior (hs : s.OnLines) :
    commands (exportInferior s) = s.infFileBin.toList.map (line "bin".toList) ++
      (s.infFileSym.toList.map (line "sym".toList) ++
        line "tty".toList (if s.infTerm.isSome then "internal".toList else "external".toList) ::
          commands (exportArgs s.infArgv)) := by
  have hfile : ∀ {sub : CStr} {o : Option CStr} (rest : CStr),
      '\n' ∉ sub → (∀ text ∈ o, '\n' ∉ text) → commands ((match o with
        | some text => line sub text ++ "\n".toList
        | none => []) ++ rest) = o.toList.map (line sub) ++ commands rest := by
    intro sub o rest hsub ho
    cases o with
    | none => rfl
    | some text =>
        rw [List.append_assoc]
        exact commands_line (notMem_line hsub (ho text rfl)) (List.cons_ne_nil _ _)
  have htty := @hfile "tty".toList (some (if s.infTerm.isSome then "internal".toList else "external".toList))
    (exportArgs s.infArgv) (field_sub (.inr (.inr (.inr rfl)))).2 (by
      intro text htext
      rw [← Option.mem_some.mp htext]
      split <;> exact (field_word (List.cons_ne_nil _ _) rfl).2)
  have hexport : exportInferior s = (match s.infFileBin with
        | some text => line "bin".toList text ++ "\n".toList
        | none => []) ++ ((match s.infFileSym with
        | some text => line "sym".toList text ++ "\n".toList
        | none => []) ++
      ((line "tty".toList (if s.infTerm.isSome then "internal".toList else "external".toList) ++
        "\n".toList) ++ exportArgs s.infArgv)) := by
    unfold exportInferior
    rw [List.append_assoc, List.append_assoc]
    congr 1
    congr 2
    cases s.infTerm <;> rfl
  rw [hexport, hfile _ (field_sub (.inl rfl)).2 hs.bin, hfile _ (field_sub (.inr (.inl rfl))).2 hs.sym]
  exact congrArg _ (congrArg _ htty)

/-- What a file says comes back into a new session iff the names of the files are absolute paths that can be
written without quotes, the arguments can be written with quotes and are kept by vim, and the terminal is one that
the file can say. -/
theorem imported_iff (hs : Agrees s) (hlines : s.OnLines) (hf : f.Succeeds)
    (htty : vim.filereadable "tty".toList = false) (hargs : vim.filereadable "args".toList = false) :
    (∃ t, importFile junk vim f (exportInferior s) = some t ∧ Restored s t) ↔
      (∀ text ∈ s.infFileBin, Path text) ∧ (∀ text ∈ s.infFileSym, Path text) ∧
        (∀ arg ∈ s.infArgv, Quoted arg ∧ Steady arg) ∧ ∃ tty, s.gdb.tty = some tty ∧ tty.kind ≠ .device := by
  unfold importFile
  rw [commands_exportInferior hlines, List.foldlM_append]
  obtain ⟨bin, himport, hbins⟩ := @import_name {} f junk vim _ (.inl rfl)
    (fun bin exec => { infFileBin := bin, gdb := { exec := exec } }) (fun a more => if_pos hf.ok) rfl rfl
    s.infFileBin
  rw [himport, ← hbins]
  rcases bin with _ | ⟨bin, exec⟩
  · exact iff_of_false nofun nofun
  rw [Option.map_some, Option.bind_eq_bind, Option.bind_some, List.foldlM_append]
  obtain ⟨sym, himport, hsyms⟩ := @import_name { infFileBin := bin, gdb := { exec := exec } } f junk vim _
    (.inr rfl)
    (fun sym told => { infFileBin := bin, infFileSym := sym, gdb := { exec := exec, sym := told } })
    (fun a more => if_pos hf.ok) rfl rfl s.infFileSym
  rw [himport, ← hsyms]
  rcases sym with _ | ⟨sym, told⟩
  · exact iff_of_false nofun fun h => nomatch h.2.1
  rw [Option.map_some, Option.bind_eq_bind, Option.bind_some, List.foldlM_cons]
  obtain ⟨term, ptys, tty, himport, hkind⟩ := @import_tty
    { infFileBin := bin, infFileSym := sym, gdb := { exec := exec, sym := told } } f junk vim htty hf
    s.infTerm.isSome rfl
  rw [himport, Option.bind_eq_bind, Option.bind_some]
  obtain ⟨argv, himport, hargvs⟩ := @import_args
    { infFileBin := bin, infFileSym := sym, infTerm := term, ptys := ptys,
      gdb := { exec := exec, sym := told, tty := some tty } } f junk vim hargs hf.ok _ hlines.args ⟨rfl, rfl⟩
  rw [himport, ← hargvs]
  rcases argv with _ | argv
  · exact iff_of_false nofun fun h => nomatch h.2.2.1
  rw [Option.map_some]
  constructor
  · rintro ⟨t, ht, hbin, hsym, hargv, htty⟩
    obtain rfl := Option.some.inj ht
    rw [hs.exec] at hbin
    rw [hs.sym] at hsym
    refine ⟨congrArg some (Prod.ext hbin.1 hbin.2), congrArg some (Prod.ext hsym.1 hsym.2),
      congrArg some hargv.1, ?_⟩
    obtain ⟨tty', htty', hsame⟩ := Option.map_eq_some_iff.mp htty.symm
    refine ⟨tty', htty', ?_⟩
    rw [hsame, hkind]
    split <;> exact Kind.noConfusion
  · rintro ⟨hbin, hsym, hargv, tty', htty', hne⟩
    obtain ⟨rfl, rfl⟩ := Prod.mk.inj (Option.some.inj hbin)
    obtain ⟨rfl, rfl⟩ := Prod.mk.inj (Option.some.inj hsym)
    obtain rfl := Option.some.inj hargv
    refine ⟨_, rfl, ⟨rfl, hs.exec.symm⟩, ⟨rfl, hs.sym.symm⟩, ⟨rfl, hs.arguments.symm⟩, ?_⟩
    rw [htty', Option.map_some, Option.map_some, hkind]
    congr 1
    cases tty' with
    | internal pty =>
        rw [(hs.tty pty).mp htty']
        rfl
    | external pts =>
        have hterm : s.infTerm = none := by
          by_contra hterm
          obtain ⟨pty, hpty⟩ := Option.ne_none_iff_exists'.mp hterm
          have hinternal := (hs.tty pty).mpr hpty
          rw [htty'] at hinternal
          cases hinternal
        rw [hterm]
        rfl
    | device pts => exact absurd rfl hne

/-- A program with an argument that has a blank, and a terminal that has been allocated. -/
theorem imported_internal :
    let s : State :=
      { infFileBin := some "/a.out".toList, infFileSym := some "/a.out".toList, infArgv := ["x y".toList],
        infTerm := some 0, ptys := 1,
        gdb := { exec := some "/a.out".toList, sym := some "/a.out".toList, arguments := "\"x y\"".toList,
                 tty := some (.internal 0) } }
    ∃ t, importFile 'x' ⟨"/".toList, fun _ => false, rfl⟩ {} (exportInferior s) = some t ∧ Restored s t := by
  intro s
  have hagrees : Agrees s := ⟨rfl, rfl, by decide, fun pty => by simp [s]⟩
  have hfile : Field "/a.out".toList ∧ '\n' ∉ "/a.out".toList := field_word (List.cons_ne_nil _ _) rfl
  have hnames : ∀ {P : CStr → Prop}, P "/a.out".toList → ∀ text ∈ some "/a.out".toList, P text := by
    intro P h text htext
    rwa [← Option.mem_some.mp htext]
  have harg : Quoted "x y".toList := by
    refine ⟨by decide, ?_, by decide⟩
    rw [show "x y".toList = ['x'] ++ ' ' :: ['y'] from rfl]
    refine (?_ : Unescaped ['x']).append ?_ (fun _ => rfl) (by decide) <;>
      exact (field_word (List.cons_ne_nil _ _) rfl).1.unescaped
  have hsteady : Steady "x y".toList := by
    refine ⟨by decide, ?_⟩
    rw [show "x y".toList = ['x', ' ', 'y'] from rfl, List.isChain_cons_cons, List.isChain_pair]
    exact ⟨⟨by decide, by decide⟩, by decide, by decide⟩
  have hpath : Path "/a.out".toList := ⟨rfl, hfile.1, by decide⟩
  exact (imported_iff hagrees ⟨hnames hfile.2, hnames hfile.2, List.forall_mem_singleton.mpr (by decide)⟩
    ⟨rfl, rfl, _, rfl, rfl⟩ rfl rfl).mpr
    ⟨hnames hpath, hnames hpath, List.forall_mem_singleton.mpr ⟨harg, hsteady⟩, _, rfl, Kind.noConfusion⟩

end Vimgdb.Inferior
