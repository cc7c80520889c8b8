import Mathlib.Data.List.AList
import Vimgdb.Gui.Action
import Vimgdb.Gui.Annotation
import Vimgdb.Gui.Types
import Vimgdb.Lib.Program

/-!
# Windows

The operations of `vimui` on the buffers of vim.  Each runs under `ui_mtx`, so it is one step; a goto
to `err` is an error of the program, and the use of a null pointer or of `end()` is undefined.

* `Buffer`, `Vimui`: the state.
* `action`, `request`: a command or a function is sent; the reply to a function is a cursor or none.
* `atomic`: sections in which vim does not redraw.
* `Op`: the operations.
* `returns_action`, `returns_request`: what is sent, and the reply.
-/

namespace Vimgdb.Vim

open Programs
open Gui (annoKey)

/-! ## The state -/

/-- `buffer_t` -/
structure Buffer where
  name : CStr
  len : BitVec 32 := 0
  readonly : Bool := false
  preserve : Bool := false
  cursor : Option Cursor := none
  annos : AList fun _ : CStr => BitVec 32 := ∅
  annoTypes : AList fun _ : CStr => BitVec 32 := ∅

/-- `ostr`, which has 256 characters at first and is doubled; its length has 32 bits. -/
structure Ostr where
  doubled : Nat
  fits : doubled < 24

/-- `ostr` at first. -/
def Ostr.init : Ostr := ⟨0, Nat.succ_pos 23⟩

/-- `ostr_len` -/
def Ostr.len (ostr : Ostr) : BitVec 32 := (256 : BitVec 32) <<< ostr.doubled

/-- The user interface. -/
structure Vimui where
  cwd : CStr
  inAtomic : Bool := false
  /-- The static variable of `atomic`. -/
  cursor : Option Cursor := none
  /-- The static variable of `win_create`. -/
  bufid : BitVec 32 := 1
  /-- The static variable of `win_anno_add`. -/
  annoId : BitVec 32 := 1
  /-- The buffers by name: a pointer to a buffer is its id. -/
  bufnameMap : AList fun _ : CStr => BitVec 32 := ∅
  bufidMap : AList fun _ : BitVec 32 => Buffer := ∅
  ostr : Ostr := Ostr.init
  /-- The messages sent to vim. -/
  sent : List Message := []
  /-- The number of functions among them. -/
  asked : Nat := 0

/-- What the functions do; the error is `-1`. -/
abbrev Ui := Program Vimui Unit

/-- The buffer of a window is changed. -/
def Vimui.modifyBuffer (ui : Vimui) (win : BitVec 32) (f : Buffer → Buffer) : Vimui :=
  match ui.bufidMap.lookup win with
  | some buf => { ui with bufidMap := ui.bufidMap.insert win (f buf) }
  | none => ui

/-! ## Actions -/

/-- `action` for a command: a negative window is refused. -/
def action (m : Message) : Ui Unit :=
  if m.toAction.bufId.slt 0 then throw ()
  else modify fun ui => { ui with sent := ui.sent ++ [m] }

section Operations

-- the replies of vim to the functions, in order
variable (replies : Nat → Option Cursor)

/-- `action` for a function: its reply is awaited. -/
def request (m : Message) : Ui (Option Cursor) := do
  action m
  let ui ← get
  set { ui with asked := ui.asked + 1 }
  return replies ui.asked

/-! ## Atomic sections -/

/-- `win_cursor_set` -/
def winCursorSet (win line col : BitVec 32) : Ui Unit := do
  if line = -1 then
    match (← get).bufidMap.lookup win with
    | some buf => action (.setDotOffset win (buf.len - 1))
    | none => throw ()
  else action (.setDot win line col)

/-- The cursor of vim is read. -/
def getCursor : Ui Unit := do
  modify fun ui => { ui with cursor := none }
  let c ← request replies .getCursor
  modify fun ui => { ui with cursor := c }

/-- The cursor of a window that preserves it is read. -/
def preserveCursor (win : BitVec 32) : Ui Unit := do
  match (← get).bufidMap.lookup win with
  | none => pure ()
  | some buf => onlyIf buf.preserve do
      modify fun ui => ui.modifyBuffer win fun buf => { buf with cursor := none }
      action (.initDone win)
      let c ← request replies .getCursor
      modify fun ui => ui.modifyBuffer win fun buf => { buf with cursor := c }

/-- A cursor is set back; it is not checked whether there is one. -/
def setCursor (win : BitVec 32) : Option Cursor → Ui Unit
  | none => undefined
  | some c => winCursorSet win c.line c.column

/-- The cursor of a window that preserves it is set back. -/
def restoreCursor (win : BitVec 32) : Ui Unit := do
  match (← get).bufidMap.lookup win with
  | none => pure ()
  | some buf => onlyIf buf.preserve (setCursor win buf.cursor)

/-- The cursor of vim is set back. -/
def resetCursor : Ui Unit := do
  match (← get).cursor with
  | none => pure ()
  | some c => onlyIf ((0 : BitVec 32).slt c.bufid) (action (.setDot c.bufid c.line c.column))

/-- `atomic` with `en` set. -/
def atomicBegin (win : BitVec 32) (apply : Bool) : Ui Unit := do
  action .startAtomic
  getCursor replies
  onlyIf apply (modify fun ui => { ui with inAtomic := true })
  preserveCursor replies win

/-- `atomic` without: the cursors are set back, and vim is asked for its cursor to make it complete
the commands. -/
def atomicEnd (win : BitVec 32) (apply : Bool) : Ui Unit := do
  restoreCursor win
  resetCursor
  action .endAtomic
  onlyIf apply (modify fun ui => { ui with inAtomic := false })
  attempt (getCursor replies)

/-- `atomic` -/
def atomic (win : BitVec 32) (en apply : Bool) : Ui Unit := do
  if (← get).inAtomic && !apply then pure ()
  else if en then atomicBegin replies win apply
  else atomicEnd replies win apply

/-- `win_atomic` -/
def winAtomic (win : BitVec 32) (en : Bool) : Ui Unit := atomic replies win en true

/-! ## Creation and destruction -/

/-- The name under which a buffer is known: a relative one is below the working directory. -/
def fullName (cwd name : CStr) : CStr :=
  if name.head? = some '/' then name else cwd ++ '/' :: name

/-- `win_getid` -/
def Vimui.winGetid (ui : Vimui) (name : CStr) : BitVec 32 :=
  (ui.bufnameMap.lookup (fullName ui.cwd name)).getD (-1)

/-- The part of `win_create` in front of `buf_mtx`: an id is taken, and the buffer is announced to vim.
An absolute name is a file to edit. -/
def announce (name : CStr) : Ui (BitVec 32) := do
  let ui ← get
  let id := ui.bufid
  set { ui with bufid := id + 1 }
  if id.slt 0 then throw ()
  else
    attempt (action
      (if name.head? = some '/' then .editFile id name else .putBufferNumber id ui.cwd name))
    attempt (action (.stopDocumentListen id))
    return id

/-- The buffer is entered in the maps. -/
def register (id : BitVec 32) (name : CStr) : Ui Unit :=
  modify fun ui => { ui with
    bufnameMap := ui.bufnameMap.insert (fullName ui.cwd name) id
    bufidMap := ui.bufidMap.insert id { name := fullName ui.cwd name } }

/-- The part of `win_create` under `ui_mtx`. -/
def create (name : CStr) : Ui (BitVec 32) := do
  let id ← announce name
  register id name
  return id

/-- `win_create`: a buffer that exists is used again. -/
def winCreate (name : Option CStr) : Ui (BitVec 32) := do
  match name with
  | none => throw ()
  | some name =>
      let id := (← get).winGetid name
      if (0 : BitVec 32).slt id then return id else create name

/-- The part of `win_destroy` under `buf_mtx`: both entries are removed. -/
def remove (win : BitVec 32) : Ui Unit := do
  let ui ← get
  match ui.bufidMap.lookup win with
  | none => throw ()
  | some buf =>
      match ui.bufnameMap.lookup buf.name with
      | none => undefined
      | some _ => set { ui with
          bufnameMap := ui.bufnameMap.erase buf.name
          bufidMap := ui.bufidMap.erase win }

/-- `win_destroy` -/
def winDestroy (win : BitVec 32) : Ui Unit := do
  action (.close win)
  remove win

/-! ## Annotations -/

/-- The number of an annotation type.  One that is not known yet is defined. -/
def annoType (win : BitVec 32) (buf : Buffer) (sign : CStr) (colorFg colorBg : Word) :
    Ui (BitVec 32) := do
  let key := sign ++ colorFg.chars ++ colorBg.chars
  let annotype := (buf.annoTypes.lookup key).getD 0
  if annotype = 0 then
    action (.defineAnnoType win key sign colorFg colorBg)
    let annotype := BitVec.ofNat 32 (buf.annoTypes.entries.length + 1)
    modify fun ui => ui.modifyBuffer win fun buf =>
      { buf with annoTypes := buf.annoTypes.insert key annotype }
    return annotype
  else return annotype

/-- `win_anno_add` -/
def winAnnoAdd (win line : BitVec 32) (sign : CStr) (colorFg colorBg : Word) : Ui Unit :=
  tryCatch
    (do match (← get).bufidMap.lookup win with
        | none => throw ()
        | some buf =>
            attempt (atomic replies win true false)
            let annotype ← annoType win buf sign colorFg colorBg
            let id := (← get).annoId
            action (.addAnno win id annotype line)
            modify fun ui => ui.modifyBuffer win fun buf =>
              { buf with annos := buf.annos.insert (annoKey line.toInt sign) id }
            modify fun ui => { ui with annoId := id + 1 }
            attempt (atomic replies win false false))
    (fun _ => do
      attempt (atomic replies win false false)
      throw ())

/-- `win_anno_delete` -/
def winAnnoDelete (win line : BitVec 32) (sign : CStr) : Ui Unit := do
  match (← get).bufidMap.lookup win with
  | none => throw ()
  | some buf =>
      let key := annoKey line.toInt sign
      match buf.annos.lookup key with
      | none => pure ()
      | some anno =>
          action (.removeAnno win anno)
          modify fun ui => ui.modifyBuffer win fun buf =>
            { buf with annos := buf.annos.erase key }

/-! ## Cursor and text -/

/-- `win_cursor_preserve` -/
def winCursorPreserve (win : BitVec 32) (pc : Bool) : Ui Unit := do
  match (← get).bufidMap.lookup win with
  | none => throw ()
  | some _ => modify fun ui => ui.modifyBuffer win fun buf => { buf with preserve := pc }

/-- `win_readonly` -/
def winReadonly (win : BitVec 32) (ro : Bool) : Ui Unit := do
  match (← get).bufidMap.lookup win with
  | none => throw ()
  | some _ =>
      modify fun ui => ui.modifyBuffer win fun buf => { buf with readonly := ro }
      attempt (action (.setReadOnly win ro))

/-- A read-only buffer is made writable for a function, whose reply is not used. -/
def writable (win : BitVec 32) (m : Message) (len : BitVec 32) (readonly : Bool) : Ui Unit := do
  onlyIf readonly (attempt (action (.setReadOnly win false)))
  attempt (do let _ ← request replies m)
  modify fun ui => ui.modifyBuffer win fun buf => { buf with len }
  onlyIf readonly (attempt (action (.setReadOnly win true)))

/-- `win_print`, with the text the format makes. -/
def winPrint (win : BitVec 32) (text : CStr) : Ui Unit := do
  if win.sle 0 then pure ()
  else
    match (← get).bufidMap.lookup win with
    | none => pure ()
    | some buf =>
        let len := buf.len + BitVec.ofNat 32 text.length
        attempt (atomic replies win true false)
        writable replies win (.insert win buf.len text) len buf.readonly
        onlyIf (!(← get).inAtomic) (attempt (action (.setDotOffset win (len - 1))))
        attempt (atomic replies win false false)

/-- `win_clear` -/
def winClear (win : BitVec 32) : Ui Unit := do
  match (← get).bufidMap.lookup win with
  | none => pure ()
  | some buf =>
      attempt (atomic replies win true false)
      writable replies win (.remove win buf.len) 0 buf.readonly
      attempt (atomic replies win false false)

end Operations

/-! ## Operations -/

/-- The operations.  `create` is the part of `win_create` under `ui_mtx`, behind a lookup that failed
before the operations in between. -/
inductive Op
  | winAtomic (win : BitVec 32) (en : Bool)
  | winCreate (name : Option CStr)
  | create (name : CStr)
  | winDestroy (win : BitVec 32)
  | winAnnoAdd (win line : BitVec 32) (sign : CStr) (colorFg colorBg : Word)
  | winAnnoDelete (win line : BitVec 32) (sign : CStr)
  | winCursorSet (win line col : BitVec 32)
  | winCursorPreserve (win : BitVec 32) (pc : Bool)
  | winReadonly (win : BitVec 32) (ro : Bool)
  | winPrint (win : BitVec 32) (text : CStr)
  | winClear (win : BitVec 32)

/-- What an operation does. -/
def Op.call (replies : Nat → Option Cursor) : Op → Ui Unit
  | winAtomic win en => Vim.winAtomic replies win en
  | winCreate name => do let _ ← Vim.winCreate name
  | create name => do let _ ← Vim.create name
  | winDestroy win => Vim.winDestroy win
  | winAnnoAdd win line sign colorFg colorBg => Vim.winAnnoAdd replies win line sign colorFg colorBg
  | winAnnoDelete win line sign => Vim.winAnnoDelete win line sign
  | winCursorSet win line col => Vim.winCursorSet win line col
  | winCursorPreserve win pc => Vim.winCursorPreserve win pc
  | winReadonly win ro => Vim.winReadonly win ro
  | winPrint win text => Vim.winPrint replies win text
  | winClear win => Vim.winClear replies win

/-! ## Messages -/

variable {replies : Nat → Option Cursor} {s : Vimui}

/-- An action with a window that is not negative is sent. -/
theorem returns_action (m : Message) (h : m.toAction.bufId.slt 0 = false) {Q : Unit → Vimui → Prop} :
    Returns (action m) Q s ↔ Q () { s with sent := s.sent ++ [m] } := by
  unfold action
  rw [h]
  exact returns_modify

/-- A function gets the reply to it. -/
theorem returns_request (m : Message) (h : m.toAction.bufId.slt 0 = false)
    {Q : Option Cursor → Vimui → Prop} :
    Returns (request replies m) Q s ↔
      Q (replies s.asked) { s with sent := s.sent ++ [m], asked := s.asked + 1 } := by
  unfold request
  rw [returns_bind, returns_action m h, returns_bind, returns_get, returns_bind]
  show Returns (modify fun _ => _) _ _ ↔ _
  rw [returns_modify, returns_pure]

end Vimgdb.Vim
