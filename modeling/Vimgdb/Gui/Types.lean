import Vimgdb.Lexing.Vim

/-!
# The messages of vim

The values the parser of the netbeans messages builds.  A field the constructor leaves uninitialised
is `none` until it is set, and so is a null pointer.
-/

namespace Vimgdb.Vim

/-- The value of a `vim_event_id_t`: each event is a bit. -/
def EventId.code : EventId → BitVec 32
  | .disconnect => 0x1
  | .startupDone => 0x2
  | .killed => 0x4
  | .fileOpened => 0x8
  | .insert => 0x10
  | .remove => 0x20
  | .keyCommand => 0x40
  | .keyAtPos => 0x80
  | .newDotAndMark => 0x100
  | .accept => 0x200
  | .auth => 0x400
  | .detach => 0x800
  | .version => 0x1000

/-- `vim_cursor_t` -/
structure Cursor where
  bufid : BitVec 32
  line : BitVec 32
  column : BitVec 32
  deriving DecidableEq, Repr

/-- `vim_event_t`, as far as the parser sets it. -/
structure Event where
  data : Option CStr := none
  evtId : Option EventId := none
  deriving DecidableEq, Repr

/-- The calls the parser makes to hand over a message.  A reply without an object carries a null
pointer, `none`. -/
inductive Call
  | procReply (seqNum : BitVec 32) (r : Option Cursor)
  | procEvent (bufId : BitVec 32) (e : Event)
  deriving DecidableEq, Repr

end Vimgdb.Vim
