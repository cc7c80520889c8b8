import Vimgdb.Gui.Signs
import Vimgdb.User.Breakpoints
import Vimgdb.User.Views

/-!
# The signs of the program

`cmd_break_exec` gives each breakpoint a sign in the window of its file.  `evt_stopped` gives one to the
place where the program has stopped, and `cmd_exec_exec` deletes it before the program goes on.

* `addSign`, `deleteSign`: the calls for a sign.
* `Cmd`, `Cmd.run`: the commands, the events, and other uses of the windows.
* `want`: the signs that there should be.
* `Meets`: what a command must be like.
* `post_addSign`, `post_deleteSign`: what the calls do to the signs.
-/

namespace Vimgdb.Signs

open Boards Breakpt Gdb Programs Runs Vim Vim.Signs
open Gui (annoKey annoKey_eq_iff)

/-! ## Commands -/

section Calls

-- the replies of vim to the functions, in order
variable (replies : Nat → Option Cursor)

/-- `win_create`, with the value it returns for an error. -/
def window (file : Option CStr) : Ui (BitVec 32) := tryCatch (winCreate file) fun _ => return -1

/-- `win_anno_add` in the window of a file. -/
def addSign (file : Option CStr) (line : BitVec 32) (type : AnnoType) : Ui Unit := do
  let win ← window file
  attempt (winAnnoAdd replies win line type.sign type.colorFg type.colorBg)

/-- `win_anno_delete` in the window of a file. -/
def deleteSign (file : Option CStr) (line : BitVec 32) (sign : CStr) : Ui Unit := do
  let win ← window file
  attempt (winAnnoDelete win line sign)

/-- `breakpt_print` without a file, for the text of the list. -/
def breakptPrint (text : CStr) : Ui Unit := do
  let win := (← get).winGetid "breakpoints".toList
  if win.slt 0 then pure ()
  else
    attempt (winAtomic replies win true)
    attempt (winClear replies win)
    attempt (Site.breakptPrint.print replies win text)
    attempt (winAtomic replies win false)

end Calls

/-- What `breakpt_print` shows of a breakpoint. -/
def breakptLine (b : Breakpoint) : CStr :=
  location b ++ (if b.enabled.getD false then [] else " [disabled]".toList) ++
  (match b.ignoreCnt with
    | some ignoreCnt => " after ".toList ++ ignoreCnt
    | none => []) ++
  (match b.condition with
    | some condition => " if ".toList ++ condition
    | none => []) ++ "\n".toList

/-- The list is sorted by the keys. -/
def breakptText (lst : AList fun _ : CStr => Breakpoint) : CStr :=
  (lst.entries.mergeSort fun e e' => Views.keyLe e.1 e'.1).flatMap fun e => breakptLine e.2

/-- The user interface, the breakpoints, whether the program is running, and the place where it has stopped
if its file can be shown. -/
structure State where
  ui : Vimui
  breakptLst : AList fun _ : CStr => Breakpoint := ∅
  isRunning : Bool := false
  stopped : Option (CStr × BitVec 32) := none

/-- The sub-commands of `cmd_exec_exec`, and those of other commands. -/
inductive Sub
  | run | next | nexti | step | stepi | return_ | goto | setpc | continue_ | break_ | other
  deriving DecidableEq

/-- Whether the program goes on, for the results of the first and of the second command to gdb. -/
def Sub.started (first second : Bool) : Sub → Bool
  | run | next | nexti | step | stepi | return_ => first
  | goto | setpc => first && second
  | continue_ => first || second
  | break_ | other => false

/-- A file that can be opened. -/
def visible (found : Bool) (fullname : Option CStr) : Option CStr := if found then fullname else none

/-- The place `evt_stopped` gives a sign to, if `inf_update` has been called. -/
def place (e : EventStop) (found : Bool) : Option (Option (CStr × BitVec 32)) :=
  (evtStopped e).map fun action =>
    if action = .update then
      e.frame.bind fun f => (visible found f.fullname).map fun file => (file, f.line)
    else none

/-- What happens, each with what gdb and the file system answer: the commands for breakpoints, run control
with the place gdb reports, events of gdb, and other uses of the windows. -/
inductive Cmd
  | add (answer : Option Breakpoint)
  | delete (argv2 : CStr) (ok : Bool)
  | setEnabled (argv2 : CStr) (v ok : Bool)
  | exec (sub : Sub) (loc : Option (Location × Bool)) (first second : Bool)
  | evtRunning
  | evtStopped (e : EventStop) (found : Bool)
  | window (op : Op)

section Run

variable (replies : Nat → Option Cursor)

/-- The user interface is used. -/
def State.call (s : State) (p : Ui Unit) (f : Vimui → State) : Option State :=
  (exec p s.ui).map fun r => f r.2

/-- `cmd_break_exec` for `add`: gdb is asked to delete a breakpoint again whose key is taken. -/
def State.breakAdd (s : State) (b : Breakpoint) : Option State :=
  match s.breakptLst.lookup (key b) with
  | some _ => some s
  | none =>
      let breakptLst := s.breakptLst.insert (key b) b
      s.call (do breakptPrint replies (breakptText breakptLst)
                 addSign replies b.fullname (b.line.getD 0) (breakSign true))
        fun ui => { s with ui, breakptLst }

/-- `cmd_break_exec` for `delete` -/
def State.breakDelete (s : State) (argv2 : CStr) : Option State :=
  match s.breakptLst.lookup argv2 with
  | none => some s
  | some b =>
      let breakptLst := s.breakptLst.erase argv2
      s.call (do deleteSign b.fullname (b.line.getD 0) "b".toList
                 breakptPrint replies (breakptText breakptLst))
        fun ui => { s with ui, breakptLst }

/-- `cmd_break_exec` for `enable` and `disable` -/
def State.breakSetEnabled (s : State) (argv2 : CStr) (v : Bool) : Option State :=
  match s.breakptLst.lookup argv2 with
  | none => some s
  | some b =>
      let breakptLst := s.breakptLst.insert argv2 { b with enabled := some v }
      s.call (do breakptPrint replies (breakptText breakptLst)
                 deleteSign b.fullname (b.line.getD 0) "b".toList
                 addSign replies b.fullname (b.line.getD 0) (breakSign v))
        fun ui => { s with ui, breakptLst }

/-- `cmd_exec_exec` while the program is not running: the sign is deleted first. -/
def State.cmdExec (s : State) (sub : Sub) (loc : Location) (found first second : Bool) : Option State :=
  let stopped := if sub.started first second then none else s.stopped
  match visible found loc.fullname with
  | none => some { s with stopped }
  | some file => s.call (deleteSign (some file) (loc.line.getD 0) "ip".toList) fun ui => { s with ui, stopped }

/-- `evt_stopped`, for the place that it gives a sign to. -/
def State.evtStopped (s : State) : Option (CStr × BitVec 32) → Option State
  | none => some { s with isRunning := false, stopped := none }
  | some (file, line) =>
      s.call (do addSign replies (some file) line ipSign
                 let win ← Signs.window (some file)
                 attempt (winCursorSet win line 0))
        fun ui => { s with ui, isRunning := false, stopped := some (file, line) }

/-- What happens to the state; a command that gdb does not accept has no further effect. -/
def Cmd.run (s : State) : Cmd → Option State
  | add none => some s
  | add (some b) => s.breakAdd replies b
  | delete argv2 ok => if ok then s.breakDelete replies argv2 else some s
  | setEnabled argv2 v ok => if ok then s.breakSetEnabled replies argv2 v else some s
  | exec sub loc first second =>
      if s.isRunning then some s
      else
        match loc with
        | none => some s
        | some (loc, found) => s.cmdExec sub loc found first second
  | evtRunning => some { s with isRunning := true, stopped := none }
  | evtStopped e found => (place e found).bind (s.evtStopped replies)
  | window op => s.call (op.call replies) fun ui => { s with ui }

end Run

/-- The other uses of the windows are not annotations; `create` is only a part of `win_create`. -/
def Cmd.Foreign : Cmd → Prop
  | window (.winAnnoAdd ..) | window (.winAnnoDelete ..) | window (.create _) => False
  | _ => True

/-- The window whose text is written. -/
def Cmd.written (s : State) : Cmd → Option (BitVec 32)
  | add _ | delete .. | setEnabled .. => some (s.ui.winGetid "breakpoints".toList)
  | window (.winPrint win _) | window (.winClear win) => some win
  | _ => none

/-- The start: no window, no breakpoint. -/
def State.init (cwd : CStr) : State where
  ui := { cwd }

/-! ## The signs there should be -/

/-- The sign of a line in a file: the key under which it is recorded, and what is shown. -/
def wanted (l : Look) (file : CStr) (line : BitVec 32) (type : AnnoType) :
    (BitVec 32 × CStr) × Mark :=
  ((l.winGetid file, annoKey line.toInt type.sign), ⟨line, type⟩)

/-- Each breakpoint with a file wants a sign, by its key, and so does the place where the program has
stopped. -/
def want (l : Look) (breakptLst : AList fun _ : CStr => Breakpoint) (stopped : Option (CStr × BitVec 32)) :
    Option CStr → Option ((BitVec 32 × CStr) × Mark)
  | none => stopped.map fun p => wanted l p.1 p.2 ipSign
  | some k => (breakptLst.lookup k).bind fun b => b.fullname.map fun file =>
      wanted l file (b.line.getD 0) (breakSign (b.enabled.getD false))

section Display

-- what vim shows
variable (shows : Display)

/-- Vim shows a sign for each of them, under a number of its own which is the one that is recorded, and it
shows no other signs. -/
def Shown (s : State) : Prop :=
  (look shows s.ui).board.Good (want (look shows s.ui) s.breakptLst s.stopped)

/-- There should be no sign in a window. -/
def Free (s : State) (win : BitVec 32) : Prop :=
  ∀ o k m, want (look shows s.ui) s.breakptLst s.stopped o = some (k, m) → k.1 ≠ win

/-- Something happens while there are numbers left for windows and annotations, and text is written to windows
without signs only. -/
def Step (replies : Nat → Option Cursor) (s : State) (c : Cmd) (t : State) : Prop :=
  s.ui.bufid.toNat + 2 < 2 ^ 31 ∧ s.ui.annoId.toNat + 1 < 2 ^ 32 ∧ c.Foreign ∧
    (∀ win, c.written s = some win → Free shows s win) ∧ c.run replies s = some t

end Display

/-- Two lines are in the same file and cannot be told apart by their keys. -/
def Alike (s : State) (file : CStr) (line : BitVec 32) (file' : CStr) (line' : BitVec 32) : Prop :=
  fullName s.ui.cwd file = fullName s.ui.cwd file' ∧ line.toInt % 256 = line'.toInt % 256

/-- A breakpoint that is added is enabled, and no other one is alike. -/
def AddMeets (s : State) (b : Breakpoint) : Prop :=
  s.breakptLst.lookup (key b) = none → ∀ file, b.fullname = some file →
    b.enabled.getD false = true ∧ ∀ k b' file', s.breakptLst.lookup k = some b' →
      b'.fullname = some file' → ¬ Alike s file' (b'.line.getD 0) file (b.line.getD 0)

/-- The program goes on if the place that gdb reports is the one where it has stopped, and only then. -/
def ExecMeets (s : State) (sub : Sub) (loc : Location) (found first second : Bool) : Prop :=
  s.isRunning = false → ∀ file line, s.stopped = some (file, line) →
    (sub.started first second = true ↔
      ∃ file', visible found loc.fullname = some file' ∧ Alike s file line file' (loc.line.getD 0))

/-- What a command must be like.  Besides, events come when no place is known where the program has stopped,
and no window is destroyed that has a sign. -/
def Meets (shows : Display) (s : State) : Cmd → Prop
  | .add (some b) => AddMeets s b
  | .exec sub (some (loc, found)) first second => ExecMeets s sub loc found first second
  | .evtRunning | .evtStopped .. => s.stopped = none
  | .window (.winDestroy win) => Free shows s win
  | _ => True

/-! ## What the calls do -/

variable {shows : Display} {replies : Nat → Option Cursor} {u : Vimui} {l l' : Look} {file file' : CStr}
  {line : BitVec 32}

/-- The windows have the same numbers. -/
structure SameNames (l l' : Look) : Prop where
  cwd : l'.cwd = l.cwd
  names : l'.names = l.names
  bufid : l'.bufid = l.bufid

theorem SameNames.winGetid (h : SameNames l l') (file : CStr) : l'.winGetid file = l.winGetid file := by
  unfold Look.winGetid
  rw [h.cwd, h.names]

theorem sameNames_define (win : BitVec 32) (n : Notes) (type : AnnoType) :
    SameNames l (l.define win n type) ∧ (l.define win n type).annoId = l.annoId := by
  unfold Look.define
  split <;> exact ⟨⟨rfl, rfl, rfl⟩, rfl⟩

theorem sameNames_unplace (win : BitVec 32) (n : Notes) (key : CStr) :
    SameNames l (l.unplace win n key) ∧ (l.unplace win n key).annoId = l.annoId := by
  unfold Look.unplace
  split <;> exact ⟨⟨rfl, rfl, rfl⟩, rfl⟩

theorem SameNames.trans {l'' : Look} (h : SameNames l l') (h' : SameNames l' l'') : SameNames l l'' :=
  ⟨h'.cwd.trans h.cwd, h'.names.trans h.names, h'.bufid.trans h.bufid⟩

/-- A file that has a window is not entered again. -/
theorem enter_of_sameNames (h : l.Inv) (hsame : SameNames (l.enter file) l') : l'.enter file = l' := by
  obtain ⟨n, hn, -⟩ := exists_entered h file
  have hlookup : (l.enter file).names.lookup (fullName l.cwd file) ≠ none := by
    unfold Look.enter
    cases hname : l.names.lookup (fullName l.cwd file) with
    | some win =>
        dsimp only
        rw [hname]
        exact Option.some_ne_none _
    | none =>
        dsimp only
        rw [AList.lookup_insert]
        exact Option.some_ne_none _
  have hcwd : (l.enter file).cwd = l.cwd := by
    unfold Look.enter
    split <;> rfl
  obtain ⟨win, hwin⟩ := Option.ne_none_iff_exists'.mp hlookup
  rw [Look.enter, hsame.cwd, hsame.names, hcwd, hwin]

theorem annoId_enter (l : Look) (file : CStr) : (l.enter file).annoId = l.annoId ∧
    (l.enter file).cwd = l.cwd ∧ (l.enter file).bufid.toNat ≤ l.bufid.toNat + 1 := by
  unfold Look.enter
  split
  · exact ⟨rfl, rfl, Nat.le_succ _⟩
  · exact ⟨rfl, rfl, by rw [BitVec.toNat_add]; exact Nat.mod_le _ _⟩

theorem bufs_neg_one (h : l.Inv) : l.bufs (-1) = none := by
  cases hn : l.bufs (-1) with
  | none => rfl
  | some n =>
      have hlt := (h.window _ n hn).2.trans h.counted.2
      exact absurd hlt (by decide)

/-- A file with a window is not entered anew. -/
theorem enter_of_registered (h : l.Inv) (hreg : (l.bufs (l.winGetid file)).isSome) : l.enter file = l := by
  unfold Look.enter
  cases hname : l.names.lookup (fullName l.cwd file) with
  | some win => rfl
  | none =>
      rw [Look.winGetid, hname, Option.getD_none, bufs_neg_one h] at hreg
      cases hreg

/-- The file of a window that is closed has none. -/
theorem winGetid_close {win : BitVec 32} {n : Notes} (h : l.Inv) (hn : l.bufs win = some n)
    (hfile : l.winGetid file = win) : (l.close win n).winGetid file = -1 := by
  have hname : fullName l.cwd file = n.name := by
    unfold Look.winGetid at hfile
    cases hlookup : l.names.lookup (fullName l.cwd file) with
    | none =>
        rw [hlookup, Option.getD_none] at hfile
        rw [← hfile, bufs_neg_one h] at hn
        cases hn
    | some win' =>
        rw [hlookup, Option.getD_some] at hfile
        obtain ⟨n', hn', hname⟩ := (h.named _ _).mp hlookup
        rw [hfile, hn] at hn'
        cases hn'
        exact hname.symm
  unfold Look.winGetid Look.close
  dsimp only
  rw [hname, AList.lookup_erase]
  rfl

theorem winGetid_close_ne {win : BitVec 32} {n : Notes} (h : l.Inv) (hn : l.bufs win = some n)
    (hfile : l.winGetid file ≠ win) : (l.close win n).winGetid file = l.winGetid file := by
  have hname : fullName l.cwd file ≠ n.name := by
    intro heq
    have hlookup := (h.named n.name win).mpr ⟨n, hn, rfl⟩
    rw [Look.winGetid, heq, hlookup] at hfile
    exact hfile rfl
  unfold Look.winGetid Look.close
  dsimp only
  rw [AList.lookup_erase_ne hname]

theorem post_window_none (hu : look shows u = l) {E : Unit → Vimui → Prop} :
    Post (window none) (fun win t => win = -1 ∧ look shows t = l) E u := by
  unfold window winCreate
  rw [post_tryCatch, post_throw, post_pure]
  exact ⟨rfl, hu⟩

theorem post_deleteSign_none (hu : look shows u = l) (h : l.Inv) (line : BitVec 32) (sign : CStr)
    {E : Unit → Vimui → Prop} : Post (deleteSign none line sign) (fun _ t => look shows t = l) E u := by
  unfold deleteSign
  rw [post_bind]
  refine (post_window_none hu).mono (fun win t ht => ?_) fun _ _ h => h
  obtain ⟨rfl, ht⟩ := ht
  have hnone : (look shows t).bufs (-1) = none := ht ▸ bufs_neg_one h
  rw [post_attempt]
  exact (post_winAnnoDelete_unknown hnone line sign).mono (fun _ _ h => h) fun _ v hv => hv.trans ht

variable [Documented shows]

theorem post_window (hu : look shows u = l) (h : l.Inv) (file : CStr) {E : Unit → Vimui → Prop} :
    Post (window (some file))
      (fun win t => look shows t = l.enter file ∧ win = (l.enter file).winGetid file) E u := by
  subst hu
  unfold window
  rw [post_tryCatch]
  refine post_winCreate file (not_slt_zero h.counted.2) (h.closed _ h.next_window).2 fun win hwin => ?_
  obtain ⟨n, hn, -⟩ := (h.named _ win).mp hwin
  exact zero_slt (h.window win n hn).1 ((h.window win n hn).2.trans h.counted.2)

/-- A sign has been added in the window of a file. -/
structure Added (l : Look) (file : CStr) (line : BitVec 32) (type : AnnoType) (l' : Look) : Prop where
  inv : l'.Inv
  names : SameNames (l.enter file) l'
  board : l'.board = l.board.put (wanted (l.enter file) file line type).1
    ((l.enter file).winGetid file, l.annoId) ⟨line, type⟩

/-- A sign has been deleted. -/
structure Deleted (l : Look) (file : CStr) (line : BitVec 32) (type : AnnoType) (l' : Look) : Prop where
  inv : l'.Inv
  names : SameNames (l.enter file) l'
  annoId : l'.annoId = l.annoId
  board : l'.board = l.board.take (wanted (l.enter file) file line type).1

/-- Where nothing was shown, nothing is shown. -/
theorem Deleted.bare {type : AnnoType} (hd : Deleted l file line type l') (h : l.Inv)
    (hreg : (l.bufs (l.winGetid file)).isSome) (hbare : l.Bare (l.winGetid file')) :
    l'.Bare (l'.winGetid file') := by
  intro id
  have hshown : l'.shown = _ := congrArg Board.shown hd.board
  rw [hd.names.winGetid, enter_of_registered h hreg, hshown]
  dsimp only [Board.take]
  split_ifs
  · rfl
  · exact hbare id

theorem post_addSign (hu : look shows u = l) (h : l.Inv) (hroom : l.bufid.toNat + 1 < 2 ^ 31)
    (hroom' : l.annoId.toNat + 1 < 2 ^ 32) (file : CStr) (line : BitVec 32) {type : AnnoType}
    (htype : type ∈ signTypes) {E : Unit → Vimui → Prop} :
    Post (addSign replies (some file) line type) (fun _ t => Added l file line type (look shows t)) E u := by
  unfold addSign
  rw [post_bind]
  refine (post_window hu h file).mono (fun win t ht => ?_) fun _ _ h => h
  obtain ⟨ht, rfl⟩ := ht
  obtain ⟨n, hn, -⟩ := exists_entered h file
  have hinv := inv_enter h hroom file
  have hdefine := inv_define hinv hn htype
  obtain ⟨hsame, hid⟩ := @sameNames_define (l.enter file) ((l.enter file).winGetid file) n type
  rw [(annoId_enter l file).1] at hid
  obtain ⟨hboard, hplace⟩ := inv_place hdefine (by rw [hid]; exact hroom') (bufs_define hn) line type
  rw [hid, board_define hn, board_enter h file] at hboard
  obtain ⟨types, htypes, hnumber⟩ := exists_numbered hinv hn htype
  have hn' : (look shows t).bufs ((l.enter file).winGetid file) = some n := by rw [ht, hn]
  have hadd := @post_winAnnoAdd shows replies t _ _ n (hinv.not_slt hn) hn' line type types
    (by rw [ht]; exact htypes) hnumber (by rw [ht]; exact hdefine.fresh _) fun _ _ => False
  rw [post_attempt]
  refine hadd.mono (fun _ v hv => ?_) fun _ _ h => h.elim
  rw [hv, ht]
  exact ⟨hplace, hsame.trans ⟨rfl, rfl, rfl⟩, hboard⟩

/-- There is no window for a sign. -/
theorem post_addSign_none (hu : look shows u = l) (h : l.Inv) (line : BitVec 32) (type : AnnoType)
    {E : Unit → Vimui → Prop} : Post (addSign replies none line type) (fun _ t => look shows t = l) E u := by
  unfold addSign
  rw [post_bind]
  refine (post_window_none hu).mono (fun win t ht => ?_) fun _ _ h => h
  obtain ⟨rfl, ht⟩ := ht
  have hnone : (look shows t).bufs (-1) = none := ht ▸ bufs_neg_one h
  rw [post_attempt]
  exact (post_winAnnoAdd_unknown hnone line type).mono (fun _ _ h => h) fun _ v hv => hv.trans ht

theorem post_deleteSign (hu : look shows u = l) (h : l.Inv) (hroom : l.bufid.toNat + 1 < 2 ^ 31) (file : CStr)
    (line : BitVec 32) (type : AnnoType) {E : Unit → Vimui → Prop} :
    Post (deleteSign (some file) line type.sign) (fun _ t => Deleted l file line type (look shows t)) E u := by
  unfold deleteSign
  rw [post_bind]
  refine (post_window hu h file).mono (fun win t ht => ?_) fun _ _ h => h
  obtain ⟨ht, rfl⟩ := ht
  obtain ⟨n, hn, -⟩ := exists_entered h file
  have hinv := inv_enter h hroom file
  obtain ⟨hsame, hid⟩ :=
    @sameNames_unplace (l.enter file) ((l.enter file).winGetid file) n (annoKey line.toInt type.sign)
  obtain ⟨hboard, hunplace⟩ := inv_unplace hinv hn (annoKey line.toInt type.sign)
  rw [board_enter h file] at hboard
  have hn' : (look shows t).bufs ((l.enter file).winGetid file) = some n := by rw [ht, hn]
  have hdelete := @post_winAnnoDelete shows t _ _ n (hinv.not_slt hn) hn' line type.sign fun _ _ => False
  rw [post_attempt]
  refine hdelete.mono (fun _ v hv => ?_) fun _ _ h => h.elim
  rw [hv, ht]
  exact ⟨hunplace, hsame, hid.trans (annoId_enter l file).1, hboard⟩

/-- The list is written where there is no sign. -/
theorem post_breakptPrint (h : look shows u = l) (hbare : l.Bare (l.winGetid "breakpoints".toList))
    (text : CStr) {E : Unit → Vimui → Prop} :
    Post (breakptPrint replies text) (fun _ t => look shows t = l) E u := by
  have hno : ∀ {E : Unit → Vimui → Prop} (e : Unit) (t : Vimui), E e t → E e t := fun _ _ h => h
  have hbare : l.Bare (u.winGetid "breakpoints".toList) := h ▸ hbare
  unfold breakptPrint
  rw [post_bind, post_get]
  dsimp only
  split
  · exact post_pure.mpr h
  · rw [post_bind]
    refine ((quiet_atomic _ true true).post_attempt h).mono (fun _ t ht => ?_) hno
    rw [post_bind]
    refine ((quiet_winClear_bare hbare).post_attempt ht).mono (fun _ t ht => ?_) hno
    rw [post_bind]
    refine ((quiet_winVprint_bare hbare text []).post_attempt ht).mono (fun _ t ht => ?_) hno
    exact (quiet_atomic _ false true).post_attempt ht

/-! ## The signs that are wanted -/

variable {breakptLst : AList fun _ : CStr => Breakpoint} {stopped : Option (CStr × BitVec 32)}
  {k : BitVec 32 × CStr} {m : Mark} {o : Option CStr} {b : Breakpoint}

/-- Who wants a sign, and which one. -/
def Wants (breakptLst : AList fun _ : CStr => Breakpoint) (stopped : Option (CStr × BitVec 32))
    (o : Option CStr) (file : CStr) (line : BitVec 32) (type : AnnoType) : Prop :=
  (o = none ∧ stopped = some (file, line) ∧ type = ipSign) ∨
    ∃ key b, o = some key ∧ breakptLst.lookup key = some b ∧ b.fullname = some file ∧
      line = b.line.getD 0 ∧ type = breakSign (b.enabled.getD false)

theorem want_eq_some_iff : want l breakptLst stopped o = some (k, m) ↔
    ∃ file line type, (k, m) = wanted l file line type ∧ Wants breakptLst stopped o file line type := by
  constructor
  · intro h
    cases o with
    | none =>
        obtain ⟨⟨file, line⟩, hp, hk⟩ := Option.map_eq_some_iff.mp h
        exact ⟨file, line, ipSign, hk.symm, .inl ⟨rfl, hp, rfl⟩⟩
    | some key =>
        obtain ⟨b, hb, hk⟩ := Option.bind_eq_some_iff.mp h
        obtain ⟨file, hfile, hk⟩ := Option.map_eq_some_iff.mp hk
        exact ⟨file, _, _, hk.symm, .inr ⟨key, b, rfl, hb, hfile, rfl, rfl⟩⟩
  · rintro ⟨file, line, type, hk, ⟨rfl, rfl, rfl⟩ | ⟨key, b, rfl, hb, hfile, rfl, rfl⟩⟩
    · simp [want, hk]
    · simp [want, hb, hfile, hk]

/-- The same signs are wanted if the windows of their files are the same. -/
theorem want_congr (h : ∀ o file line type, Wants breakptLst stopped o file line type →
    l'.winGetid file = l.winGetid file) : want l' breakptLst stopped = want l breakptLst stopped := by
  funext o
  apply Option.ext
  rintro ⟨k, m⟩
  rw [want_eq_some_iff, want_eq_some_iff]
  have hwanted : ∀ {file line type}, Wants breakptLst stopped o file line type →
      wanted l' file line type = wanted l file line type := fun hw => by
    unfold wanted
    rw [h _ _ _ _ hw]
  constructor
  · rintro ⟨file, line, type, hk, hw⟩
    exact ⟨file, line, type, hk.trans (hwanted hw), hw⟩
  · rintro ⟨file, line, type, hk, hw⟩
    exact ⟨file, line, type, hk.trans (hwanted hw).symm, hw⟩

theorem want_sameNames (h : SameNames l l') : want l' breakptLst stopped = want l breakptLst stopped :=
  want_congr fun _ file _ _ _ => h.winGetid file

theorem want_breakpoint {key : CStr} (hb : breakptLst.lookup key = some b) (hfile : b.fullname = some file) :
    want l breakptLst stopped (some key) =
      some (wanted l file (b.line.getD 0) (breakSign (b.enabled.getD false))) := by
  simp [want, hb, hfile]

/-- A sign that is shown has a window. -/
theorem registered_of_good (hgood : l.board.Good (want l breakptLst stopped)) (o : Option CStr)
    (k : BitVec 32 × CStr) (m : Mark) (h : want l breakptLst stopped o = some (k, m)) :
    (l.bufs k.1).isSome := by
  obtain ⟨i, hi, -⟩ := hgood.own o k m h
  obtain ⟨n, id, hn, -⟩ := record_eq_some.mp hi
  rw [hn]
  rfl

/-- Entering a file changes nothing of what is wanted in the windows there are. -/
theorem want_enter (h : l.Inv)
    (hreg : ∀ o k m, want l breakptLst stopped o = some (k, m) → (l.bufs k.1).isSome) (file : CStr) :
    want (l.enter file) breakptLst stopped = want l breakptLst stopped := by
  apply want_congr
  intro o file' line type hw
  have hbuf := hreg o _ _ (want_eq_some_iff.mpr ⟨file', line, type, rfl, hw⟩)
  exact winGetid_enter h hbuf file

theorem want_insert (key : CStr) (b : Breakpoint) :
    want l (breakptLst.insert key b) stopped = Function.update (want l breakptLst stopped) (some key)
      (b.fullname.map fun file => wanted l file (b.line.getD 0) (breakSign (b.enabled.getD false))) := by
  funext o
  cases o with
  | none => rfl
  | some key' =>
      by_cases hkey : key' = key
      · subst hkey
        rw [Function.update_self]
        simp [want]
      · rw [Function.update_of_ne fun heq => hkey (Option.some.inj heq)]
        simp [want, AList.lookup_insert_ne hkey]

theorem want_erase (key : CStr) :
    want l (breakptLst.erase key) stopped (some key) = none ∧ ∀ o, o ≠ some key →
      want l (breakptLst.erase key) stopped o = want l breakptLst stopped o := by
  refine ⟨by simp [want], fun o ho => ?_⟩
  cases o with
  | none => rfl
  | some key' => simp [want, AList.lookup_erase_ne fun heq : key' = key => ho (congrArg some heq)]

/-- A sign that is wanted anew for a key does not depend on the one before. -/
theorem update_want_erase (key : CStr) (x : Option ((BitVec 32 × CStr) × Mark)) :
    Function.update (want l (breakptLst.erase key) stopped) (some key) x =
      Function.update (want l breakptLst stopped) (some key) x := by
  funext o
  by_cases ho : o = some key
  · rw [ho, Function.update_self, Function.update_self]
  · rw [Function.update_of_ne ho, Function.update_of_ne ho, (want_erase key).2 o ho]

theorem want_none_iff : want l breakptLst stopped none = none ↔ stopped = none :=
  Option.map_eq_none_iff

theorem want_stopped (p : Option (CStr × BitVec 32)) : want l breakptLst p =
    Function.update (want l breakptLst stopped) none (p.map fun p => wanted l p.1 p.2 ipSign) := by
  funext o
  cases o with
  | none => rw [Function.update_self]; rfl
  | some key => rw [Function.update_of_ne (by simp)]; rfl

/-- The sign of the instruction pointer is not that of a breakpoint. -/
theorem ip_ne_break (line line' : BitVec 32) (enabled : Bool) :
    annoKey line.toInt ipSign.sign ≠ annoKey line'.toInt (breakSign enabled).sign := by
  intro h
  have hsign : "ip".toList = "b".toList := ((annoKey_eq_iff _ _ _ _).mp h).2
  exact absurd hsign (by decide)

theorem breakSign_eq_iff (enabled : Bool) : breakSign true = breakSign enabled ↔ enabled = true := by
  cases enabled
  · refine ⟨fun h => ?_, fun h => absurd h Bool.false_ne_true⟩
    exact absurd (congrArg (fun type => type.colorBg.chars) h) (by decide)
  · exact ⟨fun _ => rfl, fun _ => rfl⟩

/-- Two files have the same window if they have the same name. -/
theorem winGetid_eq_iff (h : l.Inv) (hreg : (l.bufs (l.winGetid file)).isSome)
    (hreg' : (l.bufs (l.winGetid file')).isSome) :
    l.winGetid file = l.winGetid file' ↔ fullName l.cwd file = fullName l.cwd file' := by
  have hname : ∀ {file}, (l.bufs (l.winGetid file)).isSome →
      ∃ n, l.bufs (l.winGetid file) = some n ∧ n.name = fullName l.cwd file := by
    intro file hreg
    refine (h.named _ _).mp ?_
    unfold Look.winGetid at hreg ⊢
    cases hlookup : l.names.lookup (fullName l.cwd file) with
    | some win => rfl
    | none =>
        rw [hlookup, Option.getD_none, bufs_neg_one h] at hreg
        cases hreg
  constructor
  · intro heq
    obtain ⟨n, hn, hfile⟩ := hname hreg
    obtain ⟨n', hn', hfile'⟩ := hname hreg'
    rw [heq, hn'] at hn
    cases hn
    exact hfile.symm.trans hfile'
  · intro heq
    unfold Look.winGetid
    rw [heq]

end Vimgdb.Signs
