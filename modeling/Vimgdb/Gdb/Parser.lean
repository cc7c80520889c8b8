import Vimgdb.Gdb.Types
import Vimgdb.Lib.Outcome

/-!
# The grammar of gdb's output

The rules of `parser.y`.  Every choice of the grammar is decided by the next token, so each
nonterminal is a function that reads tokens from the front.  Some actions go through a pointer that
may be null; the process ends there, also on a line that turns out not to be a record.

* `items`: the left-recursive bodies, a sequence of entries with optional commas between them.
* `throughNull`: an action goes through a pointer.
* `record`: the tokens of one line, without the newline, as an async or stream record.
* `parseFrom`: the lines of an output.  `error NEWLINE` covers every line that is not a record.
* `gdbparse`: the parser on a text; each call is logged with the offset of its line.
-/

namespace Vimgdb.Gdb

open Flex

/-- A nonterminal: it reads a value from the front of the tokens, and its actions may go through null
pointers. -/
abbrev P (α : Type) := StateT (List Tok) Outcome α

/-- The tokens are none of the grammar. -/
def reject {α : Type} : P α := fun _ => .rejected

/-- An action goes through a pointer, null or not. -/
def throughNull (null : Bool) : P Unit := fun toks => ⟨null, some ((), toks)⟩

/-! ## Tokens and strings -/

/-- A given token. -/
def expect (tok : Tok) : P Unit := fun toks =>
  match toks with
  | t :: ts => if t = tok then .accepted ((), ts) else .rejected
  | [] => .rejected

/-- A character that stands for itself. -/
def chr (c : Char) : P Unit := expect (.chr c)

/-- `string`: quotes, with a `STRING` between them unless it is empty. -/
def string : P CStr := fun toks =>
  match toks with
  | .chr '"' :: .chr '"' :: ts => .accepted ([], ts)
  | .chr '"' :: .string s :: .chr '"' :: ts => .accepted (s, ts)
  | _ => .rejected

/-- `string-bool` -/
def stringBool : P Bool := do return (← string).head? ∈ [some 't', some 'y']

/-- `string-num` -/
def stringNum : P (BitVec 32) := do return atoi (← string)

/-- `string-llnum-hex` -/
def stringLlnumHex : P (BitVec 64) := do return strtollHex (← string)

/-- `string-dummy` -/
def stringDummy : P Unit := do let _ ← string

/-- A choice by the next token: its rule goes on behind it; without a rule nothing is read yet. -/
def choose {α : Type} (rule : Tok → Option (P α)) (otherwise : P α) : P α := fun toks =>
  match toks with
  | t :: ts =>
      match rule t with
      | some p => p ts
      | none => otherwise (t :: ts)
  | [] => otherwise []

theorem choose_eq_some {α : Type} {rule : Tok → Option (P α)} {otherwise : P α} {toks : List Tok}
    {r : α × List Tok} (h : (choose rule otherwise toks).value = some r) :
    (∃ t ts p, toks = t :: ts ∧ rule t = some p ∧ (p ts).value = some r) ∨
      (otherwise toks).value = some r := by
  cases toks with
  | nil => exact Or.inr h
  | cons t ts =>
      cases hrule : rule t with
      | none =>
          right
          simpa only [choose, hrule] using h
      | some p =>
          left
          exact ⟨t, ts, p, rfl, hrule, by simpa only [choose, hrule] using h⟩

/-- `token` -/
def token : P (BitVec 32) := fun toks =>
  match toks with
  | .number num :: ts => .accepted (num, ts)
  | ts => .accepted (0, ts)

/-! ## Bodies -/

/-- The entries of a body: `item` tells by its first token how an entry goes on and what it does to
the value read so far.  A body ends in front of a token that starts no entry; behind a comma there
has to be one.  Each entry takes a token, so `fuel` need not exceed their number. -/
def itemsFuel {α : Type} (item : Tok → Option (α → P α)) : Nat → α → P α
  | 0, _ => reject
  | fuel + 1, a => fun toks =>
      match toks with
      | .chr ',' :: t :: ts =>
          match item t with
          | some f => (f a >>= itemsFuel item fuel) ts
          | none => .rejected
      | t :: ts =>
          match item t with
          | some f => (f a >>= itemsFuel item fuel) ts
          | none => .accepted (a, t :: ts)
      | [] => .accepted (a, [])

/-- A body that starts with the value `a`. -/
def items {α : Type} (item : Tok → Option (α → P α)) (a : α) : P α := fun toks =>
  itemsFuel item (toks.length + 1) a toks

/-- `= …`, and the value is entered. -/
def field {α β : Type} (p : P β) (enter : α → β → α) : Option (α → P α) :=
  some fun a => do
    chr '='
    return enter a (← p)

/-- `= string-dummy` and the like: nothing is entered. -/
def skipField {α : Type} (p : P Unit) : Option (α → P α) := field p fun a _ => a

/-- `l body r` -/
def enclosed {α : Type} (l r : Char) (body : P α) : P α := do
  chr l
  let a ← body
  chr r
  return a

/-- `strlist` -/
def strlist : P (List CStr) :=
  items (fun
    | .chr '"' => some fun l => fun toks => (do return l ++ [← string]) (.chr '"' :: toks)
    | _ => none) []

/-- `strlist-dummy` -/
def strlistDummy : P Unit := do let _ ← strlist

/-- `list` -/
def list : P (List CStr) := enclosed '[' ']' strlist

/-- `list-dummy` -/
def listDummy : P Unit := enclosed '[' ']' strlistDummy

/-- `range-dummy` -/
def rangeDummy : P Unit :=
  enclosed '[' ']' <| enclosed '{' '}' <| items (fun
    | .var .from_ => skipField stringDummy
    | .var .to => skipField stringDummy
    | _ => none) ()

/-! ## Results -/

/-- `locations-body` -/
def locationsBody : P Breakpoint :=
  items (fun
    | .var .number => skipField stringDummy
    | .var .enabled => skipField stringDummy
    | .var .address => skipField stringDummy
    | .var .function => skipField stringDummy
    | .var .file => field string fun b s => { b with filename := some s }
    | .var .fullname => skipField stringDummy
    | .var .line => field stringNum fun b n => { b with line := some n }
    | .var .threadGroups => skipField listDummy
    | _ => none) {}

/-- `locations`: the last one counts. -/
def locations : P Breakpoint :=
  items (fun
    | .chr '{' => some fun _ => do
        let b ← locationsBody
        chr '}'
        return b
    | _ => none) {}

/-- `breakpoint-body` -/
def breakpointBody : P Breakpoint :=
  items (fun
    | .var .number => field stringNum fun b n => { b with num := some n }
    | .var .line => field stringNum fun b n => { b with line := some n }
    | .var .file => field string fun b s => { b with filename := some s }
    | .var .fullname => field string fun b s => { b with fullname := some s }
    | .var .enabled => field stringBool fun b e => { b with enabled := some e }
    | .var .at_ => field string fun b s => { b with «at» := some s }
    | .var .condition => field string fun b s => { b with condition := some s }
    | .var .ignore => field string fun b s => { b with ignoreCnt := some s }
    | .var .disposition => field string fun b s => { b with temporary := s = "del".toList }
    | .var .type => skipField stringDummy
    | .var .address => skipField stringDummy
    | .var .function => skipField stringDummy
    | .var .origLocation => skipField stringDummy
    | .var .locations => field (enclosed '[' ']' locations) fun b l =>
        { b with filename := l.filename, line := l.line }
    | .var .times => skipField stringDummy
    | .var .threadGroups => skipField listDummy
    | _ => none) {}

/-- `breakpoint`, behind its keyword -/
def breakpoint : P Breakpoint := do
  chr '='
  enclosed '{' '}' breakpointBody

/-- `location-body` -/
def locationBody : P Location :=
  items (fun
    | .var .file => field string fun l s => { l with filename := some s }
    | .var .fullname => field string fun l s => { l with fullname := some s }
    | .var .macroInfo => skipField stringDummy
    | _ => none) {}

/-- `location`, behind its keyword -/
def location : P Location := do
  chr '='
  let line ← stringNum
  chr ','
  return { ← locationBody with line := some line }

/-- `variable-body` -/
def variableBody : P Variable :=
  items (fun
    | .var .type => field string fun v s => { v with type := some s }
    | .var .value => field string fun v s => { v with value := some (strdeescape s) }
    | .var .numChild => field stringNum fun v n => { v with nchilds := n }
    | .var .exp => field string fun v s => { v with exp := some s }
    | .var .arg => field stringDummy fun v _ => { v with argument := true }
    | .var .inscope => field stringBool fun v b => { v with inscope := if b then '\x01' else '\x00' }
    | .var .typeChanged => field stringBool fun v b => { v with typeChanged := some b }
    | .var .newType => field string fun v s => { v with type := some s }
    | .var .newNumChild => field stringNum fun v n => { v with nchilds := n }
    | .var .hasMore => skipField stringDummy
    | .var .lang => skipField stringDummy
    | .var .threadId => skipField stringDummy
    | _ => none) {}

/-- `variable` -/
def variable_ : P (Option Variable) :=
  choose (fun
    | .var .name => some do
        chr '='
        let name ← string
        chr ','
        return some { ← variableBody with name := some name }
    | .var .lang => some do
        chr '='
        stringDummy
        chr ','
        return some (← variableBody)
    | .var .format => some do
        chr '='
        stringDummy
        chr ','
        return some (← variableBody)
    | .var .ndeleted => some do
        chr '='
        stringDummy
        return none
    | _ => none) reject

/-- `list_add_tail`: the pointers of the element are set, so a null pointer is no element. -/
def listAddTail (l : List Variable) (v : Option Variable) : P (List Variable) := do
  throughNull v.isNone
  return l ++ v.toList

/-- `variable-list`, behind its keyword -/
def variableList : P (List Variable) := do
  chr '='
  enclosed '[' ']' <| items (fun
    | .chr '{' => some fun l => do
        let v ← variable_
        chr '}'
        listAddTail l v
    | _ => none) []

/-- The entries of `children-body`. -/
def childItem : Tok → Option (List Variable → P (List Variable))
  | .var .child => some fun l => do
      chr '='
      listAddTail l (← enclosed '{' '}' variable_)
  | .var .hasMore => skipField stringDummy
  | _ => none

/-- `children-body`: the bodies inside `children=[…]` are not deeper than there are tokens. -/
def childrenBodyFuel : Nat → P (List Variable)
  | 0 => reject
  | fuel + 1 =>
      choose (fun
        | .var .childs => some do
            chr '='
            let l ← enclosed '[' ']' (childrenBodyFuel fuel)
            items childItem l
        | _ => none) (items childItem [])

/-- `children`, behind its keyword -/
def children : P (List Variable) := do
  chr '='
  stringDummy
  chr ','
  childrenBodyFuel ((← get).length + 1)

/-- `arg-list` -/
def argListFuel : Nat → P Unit
  | 0 => reject
  | fuel + 1 =>
      items (fun
        | .chr '{' => some fun _ => do
            argListFuel fuel
            chr '}'
        | .var .name => skipField stringDummy
        | .var .value => skipField stringDummy
        | _ => none) ()

/-- `arg-list`: its nesting is not deeper than there are tokens. -/
def argList : P Unit := do argListFuel ((← get).length + 1)

/-- `frame-body` -/
def frameBody : P Frame :=
  items (fun
    | .var .address => field stringLlnumHex fun f n => { f with addr := n }
    | .var .line => field stringNum fun f n => { f with line := n }
    | .var .level => field stringNum fun f n => { f with level := n }
    | .var .function => field string fun f s => { f with function := some s }
    | .var .file => field string fun f s => { f with filename := some s }
    | .var .fullname => field string fun f s => { f with fullname := some s }
    | .var .from_ => field string fun f s => { f with «from» := some s }
    | .var .args => skipField (enclosed '[' ']' argList)
    | .var .arch => field string fun f _ => f
    | _ => none) {}

/-- `frame`, behind its keyword -/
def frame : P Frame := do
  chr '='
  enclosed '{' '}' frameBody

/-- `callstack`, behind its keyword: every frame is put in front of those read before it. -/
def callstack : P (List Frame) := do
  chr '='
  enclosed '[' ']' <| items (fun
    | .var .frame => some fun l => do return (← frame) :: l
    | _ => none) []

/-- `memory-body`: the length is counted from the `begin` read before, and there has to be one. -/
def memoryBody : P Memory :=
  items (fun
    | .var .begin => field string fun m s => { m with begin := some s }
    | .var .end_ => some fun m => do
        chr '='
        let n ← stringLlnumHex
        throughNull m.begin.isNone
        return { m with length := (n - strtollHex (m.begin.getD [])).truncate 32 }
    | .var .contents => field string fun m s => { m with content := some s }
    | .var .offset => skipField stringDummy
    | _ => none) {}

/-- `memory`, behind its keyword -/
def memory : P Memory := do
  chr '='
  enclosed '[' ']' (enclosed '{' '}' memoryBody)

/-- `reg-names`, behind its keyword -/
def regNames : P (List CStr) := do
  chr '='
  list

/-- `value`, behind its keyword: the first string is unescaped. -/
def value : P (List CStr) := do
  chr '='
  match ← strlist with
  | s :: ss => return strdeescape s :: ss
  | [] =>
      -- the rule is reduced in front of the newline only, as the parser tries the next token first
      throughNull (← get).isEmpty
      return []

/-- `result` -/
def result : P Result :=
  choose (fun
    | .var .breakpt => some do return .breakpoint (← breakpoint)
    | .var .line => some do return .location (← location)
    | .var .numChild => some do return .variables (← children)
    | .var .changelist => some do return .variables (← variableList)
    | .var .variables_ => some do return .variables (← variableList)
    | .var .frame => some do return .frame (← frame)
    | .var .stack => some do return .callstack (← callstack)
    | .var .memory => some do return .memory (← memory)
    | .var .regNames => some do return .strlist (← regNames)
    | .var .value => some do return .strlist (← value)
    | _ => none) (do return .variable (← variable_))

/-! ## Records -/

/-- What may follow `response-res-class`. -/
def classResult (rclass : ResultClass) : P (ResultClass × Option Result) :=
  choose (fun
    | .chr ',' => some do return (rclass, some (← result))
    | _ => none) (return (rclass, none))

/-- `response` -/
def response : P (ResultClass × Option Result) :=
  choose (fun
    | .rc .done => some (classResult .done)
    | .rc .running => some (classResult .running)
    | .rc .error => some do
        chr ','
        expect (.var .msg)
        chr '='
        return (.error, some (.strlist (← strlist)))
    | _ => none) reject

/-- `event-running` -/
def eventRunning : P Event := do
  expect (.var .threadId)
  chr '='
  return { threadId := ← stringNum }

/-- `event-stop-body` -/
def eventStopBody : P EventStop :=
  items (fun
    | .var .frame => some fun e => do return { e with frame := some (← frame) }
    | .var .threadId => field stringNum fun e n => { e with threadId := n }
    | .var .threadsStopped => skipField stringDummy
    | .var .core => skipField stringDummy
    | .var .disposition => skipField stringDummy
    | .var .breakptNum => skipField stringDummy
    | .var .locationNum => skipField stringDummy
    | .var .sigName => field string fun e s => { e with signal := some s }
    | .var .sigMeaning => skipField stringDummy
    | .var .gdbresVar => skipField stringDummy
    | .var .retval => skipField stringDummy
    | .var .exitcode => skipField stringDummy
    | _ => none) {}

/-- `event-stop` -/
def eventStop : P EventStop :=
  choose (fun
    | .var .reason => some do
        chr '='
        let reason ← string
        choose (fun
          | .chr ',' => some do return { ← eventStopBody with reason := some reason }
          | _ => none) (return { reason := some reason })
    | _ => none) eventStopBody

/-- `event-dummy` -/
def eventDummy : P Unit :=
  items (fun
    | .var .threadId => skipField stringDummy
    | .var .threadGroup => skipField stringDummy
    | .var .id => skipField stringDummy
    | .var .param => skipField stringDummy
    | .var .value => skipField stringDummy
    | .var .procId => skipField stringDummy
    | .var .groupId => skipField stringDummy
    | .var .tgtName => skipField stringDummy
    | .var .hostName => skipField stringDummy
    | .var .symLoaded => skipField stringDummy
    | .var .ranges => skipField rangeDummy
    | .var .exitcode => skipField stringDummy
    | .var .breakpt => some fun _ => do let _ ← breakpoint
    | _ => none) ()

/-- The event classes that carry no object. -/
def dummyEvents : List ResultClass :=
  [.connected, .exit, .breakCreated, .breakModified, .breakDeleted, .threadCreated, .threadExited,
    .threadSelected, .threadGrpStarted, .threadGrpExited, .paramChanged, .libLoaded, .libUnloaded]

/-- `event`; one class has no comma of its own. -/
def event : P (ResultClass × Option Result) :=
  choose (fun
    | .rc .running => some do
        chr ','
        return (.running, some (.event (← eventRunning)))
    | .rc .stopped => some do
        chr ','
        return (.stopped, some (.eventStop (← eventStop)))
    | .rc .threadGrpAdded => some do
        eventDummy
        return (.threadGrpAdded, none)
    | .rc rclass =>
        if rclass ∈ dummyEvents then
          some do
            chr ','
            eventDummy
            return (rclass, none)
        else none
    | _ => none) reject

/-- A record that begins with a token, behind it. -/
def tokenRecord (tok : BitVec 32) : P Call :=
  let asyncOutput : P Call := do
    let (rclass, res) ← event
    return .procAsync rclass tok res
  choose (fun
    | .chr '^' => some do
        let (rclass, res) ← response
        return .procResult rclass tok res
    | .chr '*' => some asyncOutput
    | .chr '+' => some asyncOutput
    | .chr '=' => some asyncOutput
    | _ => none) reject

/-- The stream records. -/
def streamRecord : P Call := do return .procStream .console (← string)

/-- `async-record` without its error rule, or `stream-record`; the newline follows. -/
def recordCall : P Call :=
  choose (fun
    | .chr '~' => some streamRecord
    | .chr '@' => some streamRecord
    | .chr '&' => some streamRecord
    | _ => none) (do tokenRecord (← token))

/-- The call for a line that is a record. -/
def record (toks : List Tok) : Outcome Call :=
  (recordCall toks).bind fun r => if r.2.isEmpty then .accepted r.1 else .rejected

/-! ## Lines -/

/-- The call of the error rule. -/
def errorCall : Call := .procResult .error 0 none

/-- `output`: `line` holds the tokens read since the last newline.  A line that is no record is
skipped up to its newline by the error rule.  A prompt ends the output: what may follow it is not
looked at.  At the end of the input the parser gives up, and it does not go on behind a null
pointer. -/
def parseFrom (line : List (Nat × Tok)) : List (Nat × Tok) → List (Nat × Call)
  | [] => []
  | (_, .eof) :: _ => []
  | (pos, .newline) :: toks =>
      if line.map Prod.snd = [.gdbtk] then []
      else if (record (line.map Prod.snd)).faults then []
      else
        ((line.map Prod.fst).headD pos, (record (line.map Prod.snd)).value.getD errorCall) ::
          parseFrom [] toks
  | tok :: toks => parseFrom (line ++ [tok]) toks

/-- `gdbparse`: the calls made for a text, each with the offset of the line it was made for. -/
def gdbparse (line : CStr) : List (Nat × Call) :=
  parseFrom [] (lex rules (lexFrom (scanned line))).1

example : gdbparse "1^done,value=\"2\"\nfoo\n~\"x\"\n(gdb) \n".toList =
    [(0, .procResult .done 1 (some (.strlist ["2".toList]))), (17, errorCall),
      (21, .procStream .console "x".toList)] := by decide +kernel

end Vimgdb.Gdb
