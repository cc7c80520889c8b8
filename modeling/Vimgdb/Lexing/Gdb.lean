import Vimgdb.Common.Numbers
import Vimgdb.Lexing.Quoted

/-!
# The lexer of gdb's output

The scanner of `lexer.l`, rule by rule and in the order of the source.

* `Tok`: the tokens, with the values they carry.
* `rules`: the rules of the scanner.
* `next_open`, `next_close`, `next_string`: the tokens of a quoted string.
* `lexFrom`: the start of a scan, as `gdb_scan_string` leaves it.
-/

namespace Vimgdb.Gdb

open Flex Lexing

/-! ## Tokens -/

/-- `gdb_result_class_t`. -/
inductive ResultClass
  | done | running | connected | error | exit | stopped | breakCreated | breakModified
  | breakDeleted | threadCreated | threadExited | threadSelected | threadGrpAdded
  | threadGrpStarted | threadGrpExited | paramChanged | libLoaded | libUnloaded
  deriving DecidableEq, Repr

/-- The identifiers of gdb's results, one for each `VAR_` token. -/
inductive Var
  | id | msg | name | breakpt | breakptNum | locationNum | number | type | catchType
  | disposition | enabled | address | function | file | fullname | line | at_ | pending | evalBy
  | thread | task | condition | ignore | enable | traceframe | tracemarker | mask | pass
  | origLocation | locations | times | installed | what | threadGroup | threadGroups | param
  | value | threadId | groupId | procId | macroInfo | tgtName | hostName | symLoaded | ranges
  | from_ | to | reason | frame | arg | args | threadsStopped | core | sigName | sigMeaning
  | gdbresVar | retval | numChild | hasMore | changelist | inscope | typeChanged | newType
  | newNumChild | ndeleted | lang | exp | child | childs | level | stack | variables_ | exitcode
  | format | regNames | memory | begin | end_ | offset | contents | arch
  deriving DecidableEq, Repr

/-- The tokens; `chr` is a character that stands for itself, and `eof` what the parser takes for the end of
its input. -/
inductive Tok
  | newline
  | gdbtk
  | var (v : Var)
  | rc (rclass : ResultClass)
  | string (s : CStr)
  | number (num : BitVec 32)
  | chr (c : Char)
  | eof
  deriving DecidableEq, Repr

/-- The start conditions. -/
inductive Start
  | initial
  | qstring
  deriving DecidableEq, Repr

/-! ## Rules -/

/-- The words for result classes. -/
def gdbResultClasses : List (String × ResultClass) :=
  [
    ("done", .done), ("running", .running), ("connected", .connected), ("error", .error),
    ("exit", .exit), ("stopped", .stopped), ("breakpoint-created", .breakCreated),
    ("breakpoint-modified", .breakModified), ("breakpoint-deleted", .breakDeleted),
    ("thread-created", .threadCreated), ("thread-exited", .threadExited),
    ("thread-selected", .threadSelected), ("thread-group-added", .threadGrpAdded),
    ("thread-group-started", .threadGrpStarted), ("thread-group-exited", .threadGrpExited),
    ("cmd-param-changed", .paramChanged), ("library-loaded", .libLoaded),
    ("library-unloaded", .libUnloaded)
  ]

/-- The words for identifiers. -/
def gdbIdentifiers : List (String × Var) :=
  [
    ("id", .id), ("msg", .msg), ("name", .name), ("bkpt", .breakpt), ("bkptno", .breakptNum),
    ("locno", .locationNum), ("number", .number), ("type", .type), ("catch-type", .catchType),
    ("disp", .disposition), ("enabled", .enabled), ("addr", .address), ("func", .function),
    ("file", .file), ("fullname", .fullname), ("line", .line), ("at", .at_),
    ("pending", .pending), ("evaluated-by", .evalBy), ("thread", .thread), ("task", .task),
    ("cond", .condition), ("ignore", .ignore), ("enable", .enable),
    ("traceframe-usage", .traceframe), ("static-tracepoint-marker-string-id", .tracemarker),
    ("mask", .mask), ("pass", .pass), ("original-location", .origLocation),
    ("locations", .locations), ("times", .times), ("installed", .installed), ("what", .what),
    ("thread-group", .threadGroup), ("thread-groups", .threadGroups), ("param", .param),
    ("value", .value), ("thread-id", .threadId), ("group-id", .groupId), ("pid", .procId),
    ("macro-info", .macroInfo), ("target-name", .tgtName), ("host-name", .hostName),
    ("symbols-loaded", .symLoaded), ("ranges", .ranges), ("from", .from_), ("to", .to),
    ("reason", .reason), ("frame", .frame), ("arg", .arg), ("args", .args),
    ("stopped-threads", .threadsStopped), ("core", .core), ("signal-name", .sigName),
    ("signal-meaning", .sigMeaning), ("gdb-result-var", .gdbresVar), ("return-value", .retval),
    ("numchild", .numChild), ("has_more", .hasMore), ("changelist", .changelist),
    ("in_scope", .inscope), ("type_changed", .typeChanged), ("new_type", .newType),
    ("new_num_children", .newNumChild), ("ndeleted", .ndeleted), ("lang", .lang), ("exp", .exp),
    ("child", .child), ("children", .childs), ("level", .level), ("stack", .stack),
    ("variables", .variables_), ("exit-code", .exitcode), ("format", .format),
    ("register-names", .regNames), ("memory", .memory), ("begin", .begin), ("end", .end_),
    ("offset", .offset), ("contents", .contents), ("arch", .arch)
  ]

/-- A literal pattern that returns a fixed token. -/
def keyword (s : String) (tok : Tok) : Rule Start Tok where
  start := .initial
  re := .lit s.toList
  act _ := (some tok, .initial)

/-- `\r?\n` -/
def newlinePattern : Re := .seq (.opt (.chr '\r')) (.chr '\n')

/-- `[0-9]*` -/
def digits : Re := .star (.cls false [('0', '9')])

/-- `[a-zA-Z][a-zA-Z0-9_\-.]*` -/
def identifier : Re :=
  .seq (.cls false [('a', 'z'), ('A', 'Z')])
    (.star (.cls false [('a', 'z'), ('A', 'Z'), ('0', '9'), ('_', '_'), ('-', '-'), ('.', '.')]))

/-- `[0-9]*-.*\n` -/
def miCommand : Re := .seq digits (.seq (.chr '-') (.seq (.star .dot) (.chr '\n')))

/-- `return gdbtext[0]`: a `char` is signed, and a token that is not positive is the end of the input. -/
def charTok (c : Char) : Tok := if c.toNat < 128 then .chr c else .eof

/-- The character that was matched. -/
def firstChr (text : CStr) : Option Tok := text.head?.map charTok

theorem charTok_ne {c : Char} {tok : Tok} (hchr : tok ≠ .chr c) (heof : tok ≠ .eof) :
    charTok c ≠ tok := by
  unfold charTok
  split
  · exact hchr.symm
  · exact heof.symm

/-- The rule for a newline. -/
def newlineRule : Rule Start Tok :=
  { start := .initial, re := newlinePattern, act := fun _ => (some .newline, .initial) }

/-- The rule for numbers. -/
def numberRule : Rule Start Tok :=
  { start := .initial, re := digits, act := fun text => (some (.number (atoi text)), .initial) }

/-- The rule for commands of the machine interface, which are not returned. -/
def commandRule : Rule Start Tok :=
  { start := .initial, bol := true, re := miCommand, act := fun _ => (none, .initial) }

/-- The rule for every other character. -/
def defaultRule : Rule Start Tok :=
  { start := .initial, re := .dot, act := fun text => (firstChr text, .initial) }

/-- The rule that opens a quoted string. -/
def openQuote : Rule Start Tok :=
  { start := .initial, re := .chr '"', act := fun text => (firstChr text, .qstring) }

/-- The rule that closes it. -/
def closeQuote : Rule Start Tok :=
  { start := .qstring, re := .chr '"', act := fun text => (firstChr text, .initial) }

/-- The rule for its inside. -/
def stringBody : Rule Start Tok :=
  { start := .qstring, re := strBody, act := fun text => (some (.string text), .qstring) }

/-- The patterns behind the keywords. -/
def generalRules : List (Rule Start Tok) :=
  [
    -- gdb EOL string
    { start := .initial, re := .seq (.lit "(gdb)".toList) (.opt (.chr ' ')),
      act := fun _ => (some .gdbtk, .initial) },
    -- general patterns
    newlineRule,
    numberRule,
    -- unquoted string
    { start := .initial, re := identifier, act := fun text => (some (.string text), .initial) },
    -- quoted string
    openQuote,
    closeQuote,
    stringBody,
    -- MI command, which is only logged
    commandRule,
    -- default
    defaultRule
  ]

/-- The scanner. -/
def rules : List (Rule Start Tok) :=
  gdbResultClasses.map (fun p => keyword p.1 (.rc p.2)) ++
    gdbIdentifiers.map (fun p => keyword p.1 (.var p.2)) ++ generalRules

/-- The scan of a text that `gdb_scan_string` starts: a new buffer, at the beginning of a line.
`gdblex_destroy` has reset the start condition. -/
def lexFrom (line : CStr) : Config Start := ⟨0, .initial, true, line⟩

/-! ## Quoted strings -/

theorem rules_qstring :
    rules.filter (fun r => decide (r.start = .qstring)) = [closeQuote, stringBody] := rfl

/-- A quote outside a string opens one. -/
theorem next_open (pos : Nat) (bol : Bool) (s : CStr) :
    next rules ⟨pos, .initial, bol, '"' :: s⟩ =
      some (some (.chr '"'), ⟨pos + 1, .qstring, false, s⟩) := by
  have hrules : rules.filter (fun r => decide (r.start = .initial)) =
      (rules.filter (fun r => decide (r.start = .initial))).take 103 ++ openQuote ::
        (rules.filter (fun r => decide (r.start = .initial))).drop 104 := rfl
  exact next_of_single hrules rfl (by decide) (by decide +kernel) (by decide +kernel) pos bol s

/-- A quote inside a string ends it. -/
theorem next_close (pos : Nat) (bol : Bool) (s : CStr) :
    next rules ⟨pos, .qstring, bol, '"' :: s⟩ =
      some (some (.chr '"'), ⟨pos + 1, .initial, false, s⟩) :=
  next_quote rules_qstring rfl rfl rfl pos bol s

/-- The inside of a string is one token. -/
theorem next_string (pos : Nat) (bol : Bool) {s : CStr} (hlen : 0 < strLen false s) :
    next rules ⟨pos, .qstring, bol, s⟩ = some (some (.string (s.take (strLen false s))),
      (Config.mk pos .qstring bol s).advance (strLen false s) .qstring) :=
  next_body rules_qstring rfl rfl rfl pos bol hlen

example : (lex rules (lexFrom "12^done,value=\"1\"\n".toList)).1.map Prod.snd =
    [.number 12, .chr '^', .rc .done, .chr ',', .var .value, .chr '=', .chr '"',
      .string "1".toList, .chr '"', .newline] := by decide +kernel

end Vimgdb.Gdb
