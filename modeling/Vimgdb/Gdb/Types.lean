import Vimgdb.Lexing.Gdb

/-!
# The results of gdb's records

The values the parser of gdb's output builds, with the fields the parser sets and the defaults of
their constructors.  A field the constructor leaves uninitialised is `none` until it is set, and so is
a null pointer; a list is the chain of its elements, a null head being the empty list.
-/

namespace Vimgdb.Gdb

/-- `gdb_stream_class_t` -/
inductive StreamClass
  | console | target | log
  deriving DecidableEq, Repr

/-- `gdb_breakpoint_t` -/
structure Breakpoint where
  num : Option (BitVec 32) := none
  temporary : Bool := false
  line : Option (BitVec 32) := none
  filename : Option CStr := none
  fullname : Option CStr := none
  «at» : Option CStr := none
  condition : Option CStr := none
  ignoreCnt : Option CStr := none
  enabled : Option Bool := none
  deriving DecidableEq, Repr

/-- `gdb_location_t` -/
structure Location where
  fullname : Option CStr := none
  filename : Option CStr := none
  line : Option (BitVec 32) := none
  deriving DecidableEq, Repr

/-- `gdb_variable_t`, as far as a record describes it.  `inscope` is a `char`: the constructor sets
`'t'`, the parser a truth value. -/
structure Variable where
  name : Option CStr := none
  exp : Option CStr := none
  type : Option CStr := none
  value : Option CStr := none
  inscope : Char := 't'
  modified : Bool := true
  childsVisible : Bool := false
  argument : Bool := false
  typeChanged : Option Bool := none
  nchilds : BitVec 32 := 0
  deriving DecidableEq, Repr

/-- `gdb_frame_t`, as far as a record describes it. -/
structure Frame where
  addr : BitVec 64 := 0
  line : BitVec 32 := 0
  level : BitVec 32 := 0
  function : Option CStr := none
  filename : Option CStr := none
  fullname : Option CStr := none
  «from» : Option CStr := none
  deriving DecidableEq, Repr

/-- `gdb_memory_t`, as far as a record describes it. -/
structure Memory where
  begin : Option CStr := none
  content : Option CStr := none
  length : BitVec 32 := 0
  deriving DecidableEq, Repr

/-- `gdb_event_t` -/
structure Event where
  reason : Option CStr := none
  threadId : BitVec 32 := 0
  deriving DecidableEq, Repr

/-- `gdb_event_stop_t` -/
structure EventStop extends Event where
  frame : Option Frame := none
  signal : Option CStr := none
  deriving DecidableEq, Repr

/-- What `gdbif::evt_stopped` does with an event. -/
inductive StopAction
  /-- There is no reason: it fails. -/
  | fail
  /-- The program has exited: it returns. -/
  | exited
  /-- The program received `SIGSEGV`: an exit event is queued. -/
  | fatal
  /-- `inf_update` is called. -/
  | update
  deriving DecidableEq

/-- The tests of `gdbif::evt_stopped`.  A signal is compared whether there is one or not: without one, the
process ends within `strcmp`, and there is no result. -/
def evtStopped (e : EventStop) : Option StopAction :=
  match e.reason with
  | none => some .fail
  | some reason =>
      if reason = "exited-normally".toList then some .exited
      else if reason = "signal-received".toList then
        e.signal.map fun signal => if signal = "SIGSEGV".toList then .fatal else .update
      else some .update

/-- `gdb_result_t`: the objects a record can carry.  A variable is a pointer, which the rule for
`ndeleted` leaves null. -/
inductive Result
  | breakpoint (b : Breakpoint)
  | location (l : Location)
  | variable (v : Option Variable)
  | variables (vs : List Variable)
  | frame (f : Frame)
  | callstack (fs : List Frame)
  | memory (m : Memory)
  | strlist (ss : List CStr)
  | event (e : Event)
  | eventStop (e : EventStop)
  deriving DecidableEq, Repr

/-- The calls the parser makes to hand over a record.  A record without an object carries a null
pointer, `none`. -/
inductive Call
  | procResult (rclass : ResultClass) (token : BitVec 32) (result : Option Result)
  | procAsync (rclass : ResultClass) (token : BitVec 32) (result : Option Result)
  | procStream (sclass : StreamClass) (stream : CStr)
  deriving DecidableEq, Repr

end Vimgdb.Gdb
