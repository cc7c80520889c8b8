import Vimgdb.Gdb.FrameDeletions
import Vimgdb.Gdb.VariablePrint
import Vimgdb.User.Memory
import Vimgdb.User.Per

/-!
# The views

The commands of the views, and what happens in all of them at a stop.  Each view has line maps, which
lead from the lines of its window to the objects shown there.  The replies of gdb are arguments, and so is
whether a window exists.

* `State`: the objects, and the line maps, which hold addresses.
* `cmdVarPrint`, `cmdRegisterPrint`, `cmdCallstackPrint`: where the line maps are made.
* `infUpdate`: what happens at a stop, and behind the commands that set something.
* `cmdVarExec`, `cmdRegisterExec`, `cmdCallstackExec`, `cmdMemoryExec`, `cmdPerExec`: the commands.
-/

namespace Vimgdb.Views

open Programs
open Gdb (Variable)
open Gdb.Callstack (Level)
open Gdb.VariableMaps (Change Origin Page Vars)

/-! ## The state -/

/-- The views that show variables, each with its `line_vars`. -/
inductive View
  | vars | registers | callstack
  deriving DecidableEq

/-- The variables, the frames and the static variables of the views. -/
structure State where
  stack : Gdb.Callstack.State
  /-- The flag of each frame. -/
  expanded : Nat → Bool
  lineVars : View → LineMap Nat
  lineFrames : LineMap Nat
  mems : Memory.State
  per : Per.State
  /-- `cmd_register_init` has been called. -/
  initialised : Bool

/-- Nothing is shown yet. -/
def State.init : State := ⟨.init, fun _ => false, fun _ => [], [], {}, {}, false⟩

/-- What the functions do; the error is -1. -/
abbrev Cmds := Program State Unit

/-- A program over the frames and the variables. -/
def onStack {α : Type} (p : Gdb.Callstack.Calls α) : Cmds α :=
  zoom State.stack (fun stack s => { s with stack := stack }) p

/-- A program over the variables. -/
def onVars {α : Type} (p : Vars α) : Cmds α := onStack (Gdb.Callstack.onVars p)

/-- A program over the memory dumps. -/
def onMems {α : Type} (p : Memory.Mems α) : Cmds α :=
  zoom State.mems (fun mems s => { s with mems := mems }) p

/-- A program over the peripherals. -/
def onPer {α : Type} (p : Per.Pers α) : Cmds α :=
  zoom State.per (fun per s => { s with per := per }) p

/-! ## Printing -/

/-- What a print function finds: whether its window exists, and the replies to
`var-evaluate-expression`. -/
structure Print where
  window : Bool
  evals : Nat → Option CStr

/-- The order of a `std::map` with strings for keys. -/
def keyLe : CStr → CStr → Bool
  | [], _ => true
  | _ :: _, [] => false
  | c :: s, d :: t => c.toNat < d.toNat || (c = d && keyLe s t)

/-- An entry is put in its place. -/
def insertEntry (e : CStr × Nat) : List (CStr × Nat) → List (CStr × Nat)
  | [] => [e]
  | f :: es => if keyLe e.1 f.1 then e :: f :: es else f :: insertEntry e es

/-- The variables of a map, in its order. -/
def inOrder (m : AList fun _ : CStr => Nat) : List Nat :=
  (m.entries.foldr (fun e es => insertEntry (e.1, e.2) es) []).map Prod.snd

/-- A line map is made anew. -/
def State.setLineVars (s : State) (view : View) (lines : LineMap Nat) : State :=
  { s with lineVars := Function.update s.lineVars view lines }

/-- A variable of `gdb_user_var`. -/
def printRoot (evals : Nat → Option CStr) (page : Page) (a : Nat) : Vars Page := do
  let v ← Gdb.VariableMaps.deref a
  if v.parent = none then Gdb.VariableMaps.print evals true 0 page a else return page

/-- `cmd_var_print` -/
def cmdVarPrint (p : Print) : Cmds Unit := do
  if p.window then
    let roots := inOrder ((← get).stack.vars.vars .user)
    let page ← onVars (roots.foldlM (printRoot p.evals) {})
    modify fun s => s.setLineVars .vars page.lines
  else pure ()

/-- `cmd_register_print` -/
def cmdRegisterPrint (p : Print) : Cmds Unit := do
  if p.window then
    let roots := inOrder ((← get).stack.vars.vars .register)
    let page ← onVars (roots.foldlM (Gdb.VariableMaps.print p.evals true 0) {})
    modify fun s => s.setLineVars .registers page.lines
  else pure ()

/-- What has been printed of the callstack. -/
structure StackPage extends Page where
  frames : LineMap Nat := []

/-- A frame: its variables, the arguments in one line unless it is expanded. -/
def printFrame (evals : Nat → Option CStr) (expanded : Bool) (f : Nat) (page : StackPage) :
    Gdb.Callstack.Calls StackPage := do
  let o ← Gdb.Callstack.deref f
  let frames := page.frames.add page.line f
  let page :=
    if o.args ≠ [] ∧ expanded then { page.toPage with line := page.line + 1 } else page.toPage
  let page ← Gdb.Callstack.onVars (o.args.foldlM (Gdb.VariableMaps.print evals expanded 1) page)
  let page := { page with line := page.line + 1 }
  let page ← Gdb.Callstack.onVars (o.locals.foldlM (Gdb.VariableMaps.print evals true 1) page)
  return { page with line := page.line + 1, frames }

/-- The loop over the callstack, from the last frame to the first.  `fuel` is the number of frames in
memory; a list that is longer never ends. -/
def printFrames (evals : Nat → Option CStr) (expanded : Nat → Bool) (first : Option Nat) :
    Nat → Option Nat → StackPage → Gdb.Callstack.Calls StackPage
  | _, none, page => return page
  | 0, some _, _ => undefined
  | fuel + 1, some f, page => do
      let page ← printFrame evals (expanded f) f page
      if some f = first then return page
      else printFrames evals expanded first fuel ((← get).links.prev f) page

/-- `cmd_callstack_print` -/
def cmdCallstackPrint (p : Print) : Cmds Unit := do
  if p.window then
    let s ← get
    let stack := s.stack
    let page ← onStack (printFrames p.evals s.expanded stack.callstack stack.frames.entries.length
      (stack.callstack.bind stack.links.prev) {})
    modify fun s => { s.setLineVars .callstack page.lines with lineFrames := page.frames }
  else pure ()

/-- What `cmd_callstack_update` finds. -/
structure StackUpdate where
  window : Bool
  frames : Option (List Level)
  print : Print

/-- `cmd_callstack_update`; without a window nothing is printed either. -/
def cmdCallstackUpdate (u : StackUpdate) : Cmds Unit := do
  onStack (Gdb.Callstack.update u.window u.frames)
  if u.window then cmdCallstackPrint u.print else pure ()

/-! ## Stops -/

/-- What `inf_update` finds. -/
structure Update where
  changes : Option (List Change)
  vars : Print
  stack : StackUpdate
  registers : Print
  memory : Bool × (Nat → Bool)
  per : Bool × (Nat → Option CStr)

/-- `inf_update`: the variables are updated, and then the handlers are called in the order in which
`main` has registered them. -/
def infUpdate (u : Update) : Cmds Unit := do
  attempt (onVars (Gdb.VariableMaps.getChanged u.changes))
  cmdVarPrint u.vars
  attempt (cmdCallstackUpdate u.stack)
  cmdRegisterPrint u.registers
  attempt (onMems (Memory.update u.memory.1 u.memory.2))
  attempt (onPer (Per.update u.per.1 u.per.2))

/-! ## Variables -/

/-- `set` and `format`: a flag, if gdb accepts the command. -/
def mark (a : Nat) (accepted : Bool) : Vars Unit := do
  let v ← Gdb.VariableMaps.deref a
  if accepted then
    modify fun s => s.setObject a { v with var := { v.var with modified := true } }
  else pure ()

/-- The children of a variable are shown or not. -/
def showChilds (a : Nat) (visible : Bool) : Vars Unit := do
  let v ← Gdb.VariableMaps.deref a
  modify fun s => s.setObject a { v with var := { v.var with childsVisible := visible } }

/-- `FOLD`, for a variable: the children are shown or hidden; a variable without children hides those
of its parent. -/
def foldVar (a : Nat) (listed : Option (List Variable)) : Vars Unit := do
  let v ← Gdb.VariableMaps.deref a
  if v.var.nchilds ≠ 0 then
    attempt (Gdb.VariableMaps.initChilds a listed)
    showChilds a (!v.var.childsVisible)
  else
    match v.parent with
    | none => pure ()
    | some p => showChilds p false

/-- A variable that has been there before is not referenced a second time. -/
def resetRefcnt (a : Nat) : Vars Bool := do
  let v ← Gdb.VariableMaps.deref a
  if v.refcnt = 1 then return true
  else
    modify fun s => s.setObject a { v with refcnt := 1 }
    return false

/-- The variable at the end of the pointers `parent`.  `fuel` is the number of addresses. -/
def climb (vars : Gdb.VariableMaps.State) : Nat → Nat → Option Nat
  | 0, _ => none
  | fuel + 1, a =>
      match vars.heap.lookup a with
      | none => none
      | some v =>
          match v.parent with
          | none => some a
          | some p => climb vars fuel p

/-- The variable without a parent above a variable. -/
def root (vars : Gdb.VariableMaps.State) (a : Nat) : Option Nat := climb vars vars.next a

/-- The sub-commands of `Variable`. -/
inductive VarCmd
  | add (expr : CStr) (create info : Option Variable) (print : Print)
  | delete (argv2 : CStr) (deleted : Bool) (print : Print)
  | fold (argv2 : CStr) (listed : Option (List Variable)) (print : Print)
  | set (argv2 : CStr) (accepted : Bool) (update : Update)
  | format (argv2 : CStr) (accepted : Bool) (print : Print)
  | view (print : Print)

/-- The variable a view shows at a line. -/
def State.varAt (s : State) (view : View) (argv2 : CStr) : Option Nat :=
  (s.lineVars view).find (atoi argv2)

/-- `cmd_var_exec` -/
def cmdVarExec : VarCmd → Cmds Unit
  | .add expr create info print => do
      let var ← onVars (Gdb.VariableMaps.acquire .user [] expr create info)
      if ← onVars (resetRefcnt var) then cmdVarPrint print else pure ()
  | .delete argv2 deleted print => do
      let s ← get
      match s.varAt .vars argv2 with
      | none => pure ()
      | some var =>
          match root s.stack.vars var with
          | none => undefined
          | some var =>
              onVars (Gdb.VariableMaps.release var deleted)
              cmdVarPrint print
  | .fold argv2 listed print => do
      match (← get).varAt .vars argv2 with
      | none => pure ()
      | some var =>
          onVars (foldVar var listed)
          cmdVarPrint print
  | .set argv2 accepted update => do
      match (← get).varAt .vars argv2 with
      | none => pure ()
      | some var =>
          onVars (mark var accepted)
          infUpdate update
  | .format argv2 accepted print => do
      match (← get).varAt .vars argv2 with
      | none => pure ()
      | some var =>
          onVars (mark var accepted)
          cmdVarPrint print
  | .view print => cmdVarPrint print

/-! ## Registers -/

/-- A register gdb names, and the replies to the commands that follow for it. -/
structure Register where
  name : CStr
  create : Option Variable
  info : Option Variable
  formatted : Bool

/-- The loop body of `cmd_register_init`. -/
def initRegister (r : Register) : Vars Unit := do
  if r.name = [] then pure ()
  else
    let var ← Gdb.VariableMaps.acquire .register [] r.name r.create r.info
    mark var r.formatted
    if r.formatted then pure () else throw ()

/-- `cmd_register_init`, with the reply to `data-list-register-names`. -/
def cmdRegisterInit (names : Option (List Register)) (print : Print) : Cmds Unit := do
  if (← get).initialised then pure ()
  else
    modify fun s => { s with initialised := true }
    match names with
    | none => throw ()
    | some names =>
        onVars (names.forM initRegister)
        cmdRegisterPrint print

/-- The sub-commands of `Register`. -/
inductive RegisterCmd
  | set (argv2 : CStr) (accepted : Bool) (changes : Option (List Change)) (print : Print)
  | fold (argv2 : CStr) (listed : Option (List Variable)) (print : Print)
  | format (argv2 : CStr) (accepted : Bool) (print : Print)
  | view (print : Print)

/-- `cmd_register_exec` -/
def cmdRegisterExec : RegisterCmd → Cmds Unit
  | .set argv2 accepted changes print => do
      match (← get).varAt .registers argv2 with
      | none => pure ()
      | some var =>
          onVars (mark var accepted)
          attempt (onVars (Gdb.VariableMaps.getChanged changes))
          cmdRegisterPrint print
  | .fold argv2 listed print => do
      match (← get).varAt .registers argv2 with
      | none => pure ()
      | some var =>
          onVars (foldVar var listed)
          cmdRegisterPrint print
  | .format argv2 accepted print => do
      match (← get).varAt .registers argv2 with
      | none => pure ()
      | some var =>
          onVars (mark var accepted)
          cmdRegisterPrint print
  | .view print => cmdRegisterPrint print

/-! ## The callstack -/

/-- The sub-commands of `Callstack`. -/
inductive CallstackCmd
  | fold (argv2 : CStr) (listed : Option (List Variable)) (print : Print)
  | set (argv2 : CStr) (accepted : Bool) (update : Update)
  | format (argv2 : CStr) (accepted : Bool) (print : Print)
  | view (update : StackUpdate)

/-- A frame is folded. -/
def foldFrame (f : Nat) : Cmds Unit := do
  let _ ← onStack (Gdb.Callstack.deref f)
  modify fun s => { s with expanded := Function.update s.expanded f (!s.expanded f) }

/-- `cmd_callstack_exec` -/
def cmdCallstackExec : CallstackCmd → Cmds Unit
  | .fold argv2 listed print => do
      let s ← get
      match s.varAt .callstack argv2 with
      | none =>
          match s.lineFrames.find (atoi argv2) with
          | none => pure ()
          | some frame =>
              foldFrame frame
              cmdCallstackPrint print
      | some var =>
          onVars (foldVar var listed)
          cmdCallstackPrint print
  | .set argv2 accepted update => do
      match (← get).varAt .callstack argv2 with
      | none => pure ()
      | some var =>
          onVars (mark var accepted)
          infUpdate update
  | .format argv2 accepted print => do
      match (← get).varAt .callstack argv2 with
      | none => pure ()
      | some var =>
          onVars (mark var accepted)
          cmdCallstackPrint print
  | .view update => cmdCallstackUpdate update

/-! ## Memory and peripherals -/

/-- The sub-commands of `Memory`. -/
inductive MemoryCmd
  | add (mem : Option Gdb.Memory) (alignment : BitVec 32) (window : Bool) (replies : Nat → Bool)
  | delete (argv2 : CStr) (window : Bool) (replies : Nat → Bool)
  | set (written : Bool) (update : Update)
  | fold (argv2 : CStr) (window : Bool) (replies : Nat → Bool)
  | view (window : Bool) (replies : Nat → Bool)

/-- `cmd_memory_exec` -/
def cmdMemoryExec : MemoryCmd → Cmds Unit
  | .add mem alignment window replies => onMems (Memory.add mem alignment window replies)
  | .delete argv2 window replies => onMems (Memory.delete argv2 window replies)
  | .set written update => onlyIf written (infUpdate update)
  | .fold argv2 window replies => onMems (Memory.fold argv2 window replies)
  | .view window replies => onMems (Memory.update window replies)

/-- The sub-commands of `Per`, of which a file is one. -/
inductive PerCmd
  | load (file : CStr) (text : Option CStr) (acquired : Nat → Option CStr) (window : Bool)
      (replies : Nat → Option CStr)
  | set (argv2 : CStr) (written : Bool) (update : Update)
  | fold (argv2 : CStr) (window : Bool) (replies : Nat → Option CStr)
  | view (window : Bool) (replies : Nat → Option CStr)

/-- `cmd_per_exec` -/
def cmdPerExec : PerCmd → Cmds Unit
  | .load file text acquired window replies => onPer (Per.load file text acquired window replies)
  | .set argv2 written update => do
      let found ← onPer (Per.target argv2)
      onlyIf (found && written) (infUpdate update)
  | .fold argv2 window replies => onPer (Per.fold argv2 window replies)
  | .view window replies => onPer (Per.update window replies)

/-! ## Runs -/

/-- What happens: the commands, the first start of an inferior, and stops. -/
inductive Cmd
  | var (c : VarCmd)
  | register (c : RegisterCmd)
  | registerInit (names : Option (List Register)) (print : Print)
  | callstack (c : CallstackCmd)
  | memory (c : MemoryCmd)
  | per (c : PerCmd)
  | stop (update : Update)

/-- What a command does. -/
def Cmd.call : Cmd → Cmds Unit
  | .var c => cmdVarExec c
  | .register c => cmdRegisterExec c
  | .registerInit names print => cmdRegisterInit names print
  | .callstack c => cmdCallstackExec c
  | .memory c => cmdMemoryExec c
  | .per c => cmdPerExec c
  | .stop update => infUpdate update

/-- A command that ends, with an error or without. -/
def Step (s : State) (c : Cmd) (t : State) : Prop := ∃ r, exec c.call s = some (r, t)

end Vimgdb.Views
