import Vimgdb.Gui.Types

/-!
# The grammar of vim's messages

The rules of `parser.y`.  Every choice is decided by the next token, so each nonterminal is a function
that reads tokens from the front.

* `message`: the alternatives of `line` that end with a newline.
* `errorReply`: the one that does not.
* `parseFrom`: the messages of a text; there is no error rule, so the parser gives up at the first
  token that cannot follow.
* `vimparse`: the parser on a text.
-/

namespace Vimgdb.Vim

open Flex

/-- A nonterminal: it reads a value from the front of the tokens. -/
abbrev P (α : Type) := StateT (List Tok) Option α

/-! ## Tokens and strings -/

/-- A character that stands for itself. -/
def chr (c : Char) : P Unit := fun toks =>
  match toks with
  | t :: ts => if t = .chr c then some ((), ts) else none
  | [] => none

/-- `NUMBER` -/
def number : P (BitVec 32) := fun toks =>
  match toks with
  | .number num :: ts => some (num, ts)
  | _ => none

/-- `BOOL` -/
def bool : P Bool := fun toks =>
  match toks with
  | .bool b :: ts => some (b, ts)
  | _ => none

/-- `string`: a `STRING`, in quotes or not. -/
def string : P CStr := fun toks =>
  match toks with
  | .string s :: ts => some (s, ts)
  | .chr '"' :: .string s :: .chr '"' :: ts => some (s, ts)
  | _ => none

/-- An entry of `list-dummy`, behind its blank. -/
def entryDummy : P Unit := fun toks =>
  match toks with
  | .bool _ :: ts => some ((), ts)
  | .chr '!' :: .string _ :: ts => some ((), ts)
  | .number _ :: .chr '/' :: .number _ :: ts => some ((), ts)
  | .number _ :: .chr '/' :: _ => none
  | .number _ :: ts => some ((), ts)
  | ts => (do let _ ← string) ts

/-- `list-dummy`, which ends in front of a token that is not a blank.  Each entry takes a token, so
`fuel` need not exceed their number. -/
def listDummyFuel : Nat → P Unit
  | 0 => fun _ => none
  | fuel + 1 => fun toks =>
      match toks with
      | .chr ' ' :: ts => (entryDummy >>= fun _ => listDummyFuel fuel) ts
      | ts => some ((), ts)

/-- `list-dummy` -/
def listDummy : P Unit := fun toks => listDummyFuel (toks.length + 1) toks

/-! ## Messages -/

/-- `cursor`, behind its first blank; the last number is the offset, which is not kept. -/
def cursor : P Cursor := do
  let bufid ← number
  chr ' '
  let line ← number
  chr ' '
  let column ← number
  chr ' '
  let _ ← number
  return ⟨bufid, line, column⟩

/-- The arguments of an event, behind its sequence number, and the string that becomes `data`. -/
def arguments : EventId → P (Option CStr)
  | .disconnect | .startupDone | .killed => return none
  | .fileOpened => do
      chr ' '
      let s ← string
      chr ' '
      let _ ← bool
      chr ' '
      let _ ← bool
      return some s
  | .insert => do
      chr ' '
      let _ ← number
      chr ' '
      let _ ← string
      return none
  | .remove => do
      chr ' '
      let _ ← number
      chr ' '
      let _ ← number
      return none
  | .keyCommand => do
      chr ' '
      return some (← string)
  | .keyAtPos => do
      chr ' '
      let _ ← string
      chr ' '
      let _ ← number
      chr ' '
      let _ ← number
      chr '/'
      let _ ← number
      return none
  | .version => do
      chr ' '
      chr '"'
      let _ ← string
      chr '"'
      return none
  | .newDotAndMark => do
      chr ' '
      let _ ← number
      chr ' '
      let _ ← number
      return none
  | .accept | .auth | .detach => failure

/-- What an event's rule does to the value read so far. -/
def Event.enter (ev : Event) (e : EventId) (data : Option CStr) : Event where
  data := data <|> ev.data
  evtId := some e

/-- One rule of `event`, behind the name of the event. -/
def eventItem (e : EventId) : P (Option CStr) := do
  chr '='
  let _ ← number
  arguments e

/-- `event`: the rule is recursive, and the last event counts. -/
def eventFuel : Nat → Event → P Event
  | 0, _ => fun _ => none
  | fuel + 1, ev => fun toks =>
      match toks with
      | .event e :: ts => (eventItem e >>= fun data => eventFuel fuel (ev.enter e data)) ts
      | ts => some (ev, ts)

/-- `event` -/
def event : P Event := fun toks => eventFuel (toks.length + 1) {} toks

/-- The alternatives of `line` that end with a newline, without it. -/
def messageCall : P Call := fun toks =>
  match toks with
  | .special eventId :: ts =>
      (do listDummy; return .procEvent 0 { evtId := some eventId } : P Call) ts
  | .number n :: .chr ':' :: ts => (do return .procEvent n (← event) : P Call) ts
  | .number n :: .chr ' ' :: ts => (do return .procReply n (some (← cursor)) : P Call) ts
  | .number n :: ts => some (.procReply n none, ts)
  | _ => none

/-- The call for tokens that are one message. -/
def message (toks : List Tok) : Option Call :=
  match messageCall toks with
  | some (call, []) => some call
  | _ => none

/-- The alternative of `line` for an error. -/
def errorReply : P Call := fun toks =>
  match toks with
  | .number n :: .chr ' ' :: .chr '!' :: ts => (do listDummy; return .procReply n none : P Call) ts
  | _ => none

/-! ## Lines -/

/-- A token that can follow behind `line`. -/
def startsLine : Tok → Bool
  | .number _ | .special _ => true
  | _ => false

/-- The error replies at the front that have been reduced: the next token has to be one that can
follow, or the parser gives up before the call is made.  The rest of the tokens is returned. -/
def errorReplies : Nat → List Tok → List Call × List Tok
  | 0, toks => ([], toks)
  | fuel + 1, toks =>
      match errorReply toks with
      | some (call, t :: ts) =>
          if startsLine t then
            let r := errorReplies fuel (t :: ts)
            (call :: r.1, r.2)
          else ([], toks)
      | _ => ([], toks)

/-- The calls for the tokens in front of a newline, and whether it can follow. -/
def lineCalls (toks : List Tok) : List Call × Bool :=
  let r := errorReplies toks.length toks
  match message r.2 with
  | some call => (r.1 ++ [call], true)
  | none => (r.1, false)

/-- The calls for the tokens at the end of the text, and whether it can end there. -/
def endCalls (toks : List Tok) : List Call × Bool :=
  let r := errorReplies toks.length toks
  match r.2 with
  | [] => (r.1, true)
  | t :: ts =>
      match errorReply (t :: ts) with
      | some (call, []) => (r.1 ++ [call], true)
      | _ => (r.1, false)

/-- The parser goes on behind what it has accepted. -/
def followedBy (r r' : List Call × Bool) : List Call × Bool :=
  if r.2 then (r.1 ++ r'.1, r'.2) else r

/-- `line`: the first argument holds the tokens read since the last newline.  The calls that are made,
and whether the text is accepted, up to the end of the input. -/
def parseFrom (line : List Tok) : List Tok → List Call × Bool
  | [] | .eof :: _ => endCalls line
  | .newline :: toks => followedBy (lineCalls line) (parseFrom [] toks)
  | tok :: toks => parseFrom (line ++ [tok]) toks

/-- The tokens of a text. -/
def tokens (line : CStr) : List Tok := (lex rules (lexFrom line)).1.map Prod.snd

/-- `vimparse`: the calls made for a text, and whether 0 is returned. -/
def vimparse (line : CStr) : List Call × Bool := parseFrom [] (tokens (scanned line))

example : vimparse "7 1 2 3 4\n1:keyCommand=1 \"step\"\n5 !6\n8 ! x\n9\n".toList =
    ([.procReply 7 (some ⟨1, 2, 3⟩), .procEvent 1 ⟨some "step".toList, some .keyCommand⟩,
      .procReply 5 none, .procReply 6 none], false) := by decide +kernel

example : vimparse "5 !é\n6\n".toList = ([.procReply 5 none], true) := by decide +kernel

end Vimgdb.Vim
