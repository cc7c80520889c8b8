import Vimgdb.Gui.Atomic
import Vimgdb.Gui.Print

/-!
# What leaves the annotations alone

Most functions of the user interface read the cursor, or draw, or write text.  An observation of the
annotations does not notice them.

* `Blind`: an observation that depends on the annotations only.
* `Quiet`: the functions that leave it alone.
-/

namespace Vimgdb.Vim.Signs

open Programs

/-- The part of a buffer that belongs to its annotations. -/
structure Notes where
  name : CStr
  annos : AList fun _ : CStr => BitVec 32 := ∅
  annoTypes : AList fun _ : CStr => BitVec 32 := ∅

/-- The notes of a buffer. -/
def notes (buf : Buffer) : Notes := ⟨buf.name, buf.annos, buf.annoTypes⟩

/-- The message neither opens or closes a buffer, nor changes its text or its annotations. -/
def Plain : Message → Prop
  | .startAtomic | .endAtomic | .getCursor | .initDone _ | .setDot .. | .setDotOffset ..
  | .stopDocumentListen _ | .setReadOnly .. => True
  | _ => False

/-- The observation depends on the annotations only. -/
class Blind {γ : Type} (obs : Vimui → γ) : Prop where
  message : ∀ ui m, Plain m → obs { ui with sent := ui.sent ++ [m] } = obs ui
  buffer : ∀ ui win f, (∀ buf, notes (f buf) = notes buf) → obs (ui.modifyBuffer win f) = obs ui
  cursor : ∀ ui c, obs { ui with cursor := c } = obs ui
  inAtomic : ∀ ui b, obs { ui with inAtomic := b } = obs ui
  ostr : ∀ ui o, obs { ui with ostr := o } = obs ui
  asked : ∀ ui n, obs { ui with asked := n } = obs ui

/-- However the program ends, what is observed is what was observed. -/
def Quiet {α γ : Type} (obs : Vimui → γ) (l : γ) (p : Ui α) : Prop := Keeps (fun ui => obs ui = l) p

variable {α β γ : Type} {obs : Vimui → γ} {l : γ} {replies : Nat → Option Cursor} {s : Vimui}

theorem Quiet.bind {p : Ui α} {f : α → Ui β} (hp : Quiet obs l p) (hf : ∀ a, Quiet obs l (f a)) :
    Quiet obs l (p >>= f) := Keeps.bind hp hf

theorem Quiet.onlyIf {p : Ui Unit} (hp : Quiet obs l p) (c : Bool) : Quiet obs l (onlyIf c p) :=
  Keeps.onlyIf hp c

theorem Quiet.attempt {p : Ui Unit} (hp : Quiet obs l p) : Quiet obs l (attempt p) := Keeps.attempt hp

theorem Quiet.post {p : Ui α} (hp : Quiet obs l p) (h : obs s = l) :
    Post p (fun _ t => obs t = l) (fun _ t => obs t = l) s := hp s h

theorem Quiet.post_attempt {p : Ui Unit} (hp : Quiet obs l p) (h : obs s = l) {E : Unit → Vimui → Prop} :
    Post (Programs.attempt p) (fun _ t => obs t = l) E s := Keeps.noError hp h

theorem quiet_pure (a : α) : Quiet obs l (pure a : Ui α) := keeps_pure a

theorem quiet_throw : Quiet obs l (throw () : Ui α) := keeps_throw ()

theorem quiet_get : Quiet obs l (get : Ui Vimui) := keeps_get

theorem quiet_undefined : Quiet obs l (undefined : Ui α) := keeps_undefined

theorem quiet_modify {f : Vimui → Vimui} (hf : ∀ ui, obs (f ui) = obs ui) : Quiet obs l (modify f : Ui PUnit) :=
  keeps_modify fun ui h => (hf ui).trans h

/-- The message is not noticed. -/
def Unnoticed (obs : Vimui → γ) (l : γ) (m : Message) : Prop :=
  ∀ ui, obs ui = l → obs { ui with sent := ui.sent ++ [m] } = l

theorem quiet_action {m : Message} (hm : Unnoticed obs l m) : Quiet obs l (action m) := fun s h =>
  post_action (fun _ => hm s h) fun _ => h

variable [Blind obs]

theorem quiet_modifyBuffer (win : BitVec 32) {f : Buffer → Buffer} (hf : ∀ buf, notes (f buf) = notes buf) :
    Quiet obs l (modify fun ui => ui.modifyBuffer win f : Ui PUnit) :=
  quiet_modify fun ui => Blind.buffer ui win f hf

theorem unnoticed_plain {m : Message} (hm : Plain m) : Unnoticed obs l m :=
  fun ui h => (Blind.message ui m hm).trans h

theorem quiet_plain {m : Message} (hm : Plain m) : Quiet obs l (action m) := quiet_action (unnoticed_plain hm)

theorem quiet_setInAtomic (b : Bool) : Quiet obs l (modify fun ui => { ui with inAtomic := b } : Ui PUnit) :=
  quiet_modify fun ui => Blind.inAtomic ui b

theorem quiet_setCursorVariable (c : Option Cursor) :
    Quiet obs l (modify fun ui => { ui with cursor := c } : Ui PUnit) :=
  quiet_modify fun ui => Blind.cursor ui c

theorem quiet_request {m : Message} (hm : Unnoticed obs l m) : Quiet obs l (request replies m) := by
  unfold request
  refine (quiet_action hm).bind fun _ s h => ?_
  simp only [post_bind, post_get, post_set, post_pure]
  exact (Blind.asked s _).trans h

theorem quiet_winCursorSet (win line col : BitVec 32) : Quiet obs l (winCursorSet win line col) := by
  unfold winCursorSet
  split
  · refine quiet_get.bind fun ui => ?_
    split
    · exact quiet_plain trivial
    · exact quiet_throw
  · exact quiet_plain trivial

theorem quiet_getCursor : Quiet obs l (getCursor replies) := by
  unfold getCursor
  refine (quiet_setCursorVariable _).bind fun _ => ?_
  exact (quiet_request (unnoticed_plain (by exact trivial))).bind fun _ => quiet_setCursorVariable _

theorem quiet_preserveCursor (win : BitVec 32) : Quiet obs l (preserveCursor replies win) := by
  unfold preserveCursor
  refine quiet_get.bind fun ui => ?_
  split
  · exact quiet_pure ()
  · apply Quiet.onlyIf
    refine (quiet_modifyBuffer win (by intro buf; rfl)).bind fun _ => ?_
    refine (quiet_plain (by exact trivial)).bind fun _ => ?_
    exact (quiet_request (unnoticed_plain (by exact trivial))).bind fun _ => quiet_modifyBuffer win (by intro buf; rfl)

theorem quiet_setCursor (win : BitVec 32) (c : Option Cursor) : Quiet obs l (setCursor win c) := by
  cases c with
  | none => exact quiet_undefined
  | some c => exact quiet_winCursorSet win c.line c.column

theorem quiet_restoreCursor (win : BitVec 32) : Quiet obs l (restoreCursor win) := by
  unfold restoreCursor
  refine quiet_get.bind fun ui => ?_
  split
  · exact quiet_pure ()
  · exact (quiet_setCursor win _).onlyIf _

theorem quiet_resetCursor : Quiet obs l resetCursor := by
  unfold resetCursor
  refine quiet_get.bind fun ui => ?_
  split
  · exact quiet_pure ()
  · exact (quiet_plain (by exact trivial)).onlyIf _

theorem quiet_atomic (win : BitVec 32) (en apply : Bool) : Quiet obs l (atomic replies win en apply) := by
  unfold atomic
  refine quiet_get.bind fun ui => ?_
  split
  · exact quiet_pure ()
  · split
    · unfold atomicBegin
      refine (quiet_plain (by exact trivial)).bind fun _ => quiet_getCursor.bind fun _ => ?_
      exact ((quiet_setInAtomic _).onlyIf _).bind fun _ => quiet_preserveCursor win
    · unfold atomicEnd
      refine (quiet_restoreCursor win).bind fun _ => quiet_resetCursor.bind fun _ => ?_
      refine (quiet_plain (by exact trivial)).bind fun _ => ?_
      refine ((quiet_setInAtomic _).onlyIf _).bind fun _ => ?_
      exact quiet_getCursor.attempt

theorem quiet_winCursorPreserve (win : BitVec 32) (pc : Bool) :
    Quiet obs l (winCursorPreserve win pc) := by
  unfold winCursorPreserve
  refine quiet_get.bind fun ui => ?_
  split
  · exact quiet_throw
  · exact quiet_modifyBuffer win (by intro buf; rfl)

theorem quiet_winReadonly (win : BitVec 32) (ro : Bool) : Quiet obs l (winReadonly win ro) := by
  unfold winReadonly
  refine quiet_get.bind fun ui => ?_
  split
  · exact quiet_throw
  · refine (quiet_modifyBuffer win (by intro buf; rfl)).bind fun _ => ?_
    exact (quiet_plain (by exact trivial)).attempt

theorem quiet_writable (win : BitVec 32) {m : Message} (hm : Unnoticed obs l m) (len : BitVec 32) (readonly : Bool) :
    Quiet obs l (writable replies win m len readonly) := by
  unfold writable
  refine ((quiet_plain (by exact trivial)).attempt.onlyIf _).bind fun _ => ?_
  refine ((quiet_request hm).bind fun _ => quiet_pure ()).attempt.bind fun _ => ?_
  refine (quiet_modifyBuffer win (by intro buf; rfl)).bind fun _ => ?_
  exact (quiet_plain (by exact trivial)).attempt.onlyIf _

/-- Text is written where nothing is shown. -/
theorem quiet_winPrint (win : BitVec 32) (text : CStr)
    (hm : ∀ len text, Unnoticed obs l (.insert win len text)) :
    Quiet obs l (winPrint replies win text) := by
  unfold winPrint
  split
  · exact quiet_pure ()
  · refine quiet_get.bind fun ui => ?_
    split
    · exact quiet_pure ()
    · refine (quiet_atomic win true false).attempt.bind fun _ => ?_
      refine (quiet_writable win (hm _ _) _ _).bind fun _ => quiet_get.bind fun _ => ?_
      refine ((quiet_plain (by exact trivial)).attempt.onlyIf _).bind fun _ => ?_
      exact (quiet_atomic win false false).attempt

theorem quiet_winVprint (win : BitVec 32) (fmt : CStr) (args : List Printf.Arg)
    (hm : ∀ len text, Unnoticed obs l (.insert win len text)) :
    Quiet obs l (winVprint replies win fmt args) := by
  unfold winVprint
  split
  · exact quiet_pure ()
  · refine quiet_get.bind fun ui => ?_
    split
    · exact quiet_pure ()
    · split
      · exact quiet_undefined
      · refine quiet_get.bind fun ui => ?_
        split
        · exact quiet_undefined
        · exact (quiet_modify fun ui => Blind.ostr ui _).bind fun _ => quiet_winPrint win _ hm

theorem quiet_winClear (win : BitVec 32) (hm : ∀ len, Unnoticed obs l (.remove win len)) :
    Quiet obs l (winClear replies win) := by
  unfold winClear
  refine quiet_get.bind fun ui => ?_
  split
  · exact quiet_pure ()
  · refine (quiet_atomic win true false).attempt.bind fun _ => ?_
    exact (quiet_writable win (hm _) _ _).bind fun _ => (quiet_atomic win false false).attempt

end Vimgdb.Vim.Signs
