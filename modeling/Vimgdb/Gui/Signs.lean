import Vimgdb.Gui.Quiet
import Vimgdb.Lib.Board
import Vimgdb.Lib.Maps

/-!
# The signs in vim

Vim is a parameter: what it shows is a function of the messages that it has been sent, and `Documented` says
what the code relies on.

* `opened`: the buffers that are open, and the types of annotations that have been defined in them.
* `Documented`: what vim does for each kind of message, and `plainDisplay`, which does so.
* `Look`: what the annotation functions depend on, and the signs in vim.
* `post_winCreate`, `post_winAnnoAdd`, `post_winAnnoDelete`, `post_winDestroy`: what the others do to it.
* `Look.board`, `Look.Inv`: the annotations as marks on a board, and the invariant.
-/

namespace Vimgdb.Vim.Signs

open Boards Maps Programs
open Gui (annoKey)

/-! ## Vim -/

/-- A type of annotations. -/
structure AnnoType where
  sign : CStr
  colorFg : Word
  colorBg : Word

/-- The name under which a type is defined. -/
def AnnoType.key (type : AnnoType) : CStr := type.sign ++ type.colorFg.chars ++ type.colorBg.chars

/-- An annotation that is shown. -/
structure Mark where
  line : BitVec 32
  type : AnnoType

/-- The types of the buffers that are open, behind a message. -/
def receive (types : BitVec 32 → Option (List AnnoType)) : Message → BitVec 32 → Option (List AnnoType)
  | .editFile win _ | .putBufferNumber win _ _ => Function.update types win (some [])
  | .defineAnnoType win _ sign colorFg colorBg =>
      Function.update types win ((types win).map (· ++ [⟨sign, colorFg, colorBg⟩]))
  | .close win => Function.update types win none
  | _ => types

/-- The types that have been defined in each buffer that is open, in order. -/
def opened (sent : List Message) : BitVec 32 → Option (List AnnoType) := sent.foldl receive fun _ => none

/-- The type with a number: they are counted from 1. -/
def numbered (types : List AnnoType) (annotype : BitVec 32) : Option AnnoType :=
  if annotype = 0 then none else types[annotype.toNat - 1]?

/-- The message is about other things than annotations: it opens a buffer, or changes the text of one, where
nothing is shown. -/
def Spares (shown : BitVec 32 × BitVec 32 → Option Mark) : Message → Prop
  | .addAnno .. | .removeAnno .. | .close _ => False
  | .editFile win _ | .putBufferNumber win _ _ | .insert win _ _ | .remove win _ =>
      ∀ id, shown (win, id) = none
  | _ => True

/-- What vim shows in a buffer under a number, behind the messages that it has been sent. -/
abbrev Display := List Message → BitVec 32 × BitVec 32 → Option Mark

/-- What is documented: an annotation whose type has been defined in its buffer is shown under its number,
until it is removed or its buffer is closed. -/
class Documented (shows : Display) : Prop where
  start : ∀ i, shows [] i = none
  added : ∀ sent win types annotype type id line, opened sent win = some types →
    numbered types annotype = some type → shows sent (win, id) = none →
    shows (sent ++ [.addAnno win id annotype line]) =
      Function.update (shows sent) (win, id) (some ⟨line, type⟩)
  removed : ∀ sent win id,
    shows (sent ++ [.removeAnno win id]) = Function.update (shows sent) (win, id) none
  closed : ∀ sent win i,
    shows (sent ++ [.close win]) i = if i.1 = win then none else shows sent i
  spared : ∀ sent m, Spares (shows sent) m → shows (sent ++ [m]) = shows sent

@[simp] theorem opened_concat (sent : List Message) (m : Message) :
    opened (sent ++ [m]) = receive (opened sent) m := by
  simp [opened]

/-- What is shown behind a message, by a display that does nothing else. -/
def plain (types : BitVec 32 → Option (List AnnoType)) (shown : BitVec 32 × BitVec 32 → Option Mark) :
    Message → BitVec 32 × BitVec 32 → Option Mark
  | .addAnno win id annotype line =>
      Function.update shown (win, id) (((types win).bind (numbered · annotype)).map (Mark.mk line))
  | .removeAnno win id => Function.update shown (win, id) none
  | .close win => fun i => if i.1 = win then none else shown i
  | _ => shown

/-- A display that does nothing else. -/
def plainDisplay : Display := fun sent =>
  (sent.foldl (fun s m => (receive s.1 m, plain s.1 s.2 m)) (fun _ => none, fun _ => none)).2

theorem plainDisplay_concat (sent : List Message) (m : Message) :
    plainDisplay (sent ++ [m]) = plain (opened sent) (plainDisplay sent) m := by
  have hopened : ∀ types shown, (sent.foldl (fun s m => (receive s.1 m, plain s.1 s.2 m)) (types, shown)).1 =
      sent.foldl receive types := by
    induction sent with
    | nil => exact fun _ _ => rfl
    | cons m ms ih => exact fun _ _ => ih _ _
  unfold plainDisplay
  rw [List.foldl_append, List.foldl_cons, List.foldl_nil, hopened]
  rfl

instance : Documented plainDisplay where
  start _ := rfl
  added sent win types annotype type id line htypes hnumber _ := by
    rw [plainDisplay_concat, plain, htypes, Option.bind_some, hnumber, Option.map_some]
  removed sent win id := plainDisplay_concat ..
  closed sent win i := by rw [plainDisplay_concat, plain]
  spared sent m hm := by
    rw [plainDisplay_concat]
    cases m <;> first | rfl | exact hm.elim

/-! ## What the functions depend on -/

/-- The names and the notes of the buffers, the two counters, the types in vim, and what it shows. -/
structure Look where
  cwd : CStr
  bufid : BitVec 32
  annoId : BitVec 32
  names : AList fun _ : CStr => BitVec 32
  bufs : BitVec 32 → Option Notes
  types : BitVec 32 → Option (List AnnoType)
  shown : BitVec 32 × BitVec 32 → Option Mark

/-- What there is of the user interface. -/
def look (shows : Display) (ui : Vimui) : Look where
  cwd := ui.cwd
  bufid := ui.bufid
  annoId := ui.annoId
  names := ui.bufnameMap
  bufs win := (ui.bufidMap.lookup win).map notes
  types := opened ui.sent
  shown := shows ui.sent

/-- Nothing is shown in a buffer. -/
def Look.Bare (l : Look) (win : BitVec 32) : Prop := ∀ id, l.shown (win, id) = none

/-- `win_getid` -/
def Look.winGetid (l : Look) (name : CStr) : BitVec 32 := (l.names.lookup (fullName l.cwd name)).getD (-1)

/-- A file is given a buffer. -/
def Look.enter (l : Look) (name : CStr) : Look :=
  match l.names.lookup (fullName l.cwd name) with
  | some _ => l
  | none => { l with
      bufid := l.bufid + 1
      names := l.names.insert (fullName l.cwd name) l.bufid
      bufs := Function.update l.bufs l.bufid (some { name := fullName l.cwd name })
      types := Function.update l.types l.bufid (some []) }

/-- The number of the next type. -/
def Notes.next (n : Notes) : BitVec 32 := BitVec.ofNat 32 (n.annoTypes.entries.length + 1)

/-- A type gets the next number. -/
def Notes.learn (n : Notes) (type : AnnoType) : Notes :=
  { n with annoTypes := n.annoTypes.insert type.key n.next }

/-- There is no number for a type. -/
def Notes.Unknown (n : Notes) (type : AnnoType) : Prop := (n.annoTypes.lookup type.key).getD 0 = 0

instance (n : Notes) (type : AnnoType) : Decidable (n.Unknown type) := inferInstanceAs (Decidable (_ = _))

/-- The number of a type. -/
def Notes.number (n : Notes) (type : AnnoType) : BitVec 32 :=
  if n.Unknown type then n.next else (n.annoTypes.lookup type.key).getD 0

/-- What is known of a buffer once a type has its number. -/
def Notes.known (n : Notes) (type : AnnoType) : Notes := if n.Unknown type then n.learn type else n

/-- A type is defined unless there is a number for it. -/
def Look.define (l : Look) (win : BitVec 32) (n : Notes) (type : AnnoType) : Look :=
  if n.Unknown type then { l with
    bufs := Function.update l.bufs win (some (n.learn type))
    types := Function.update l.types win ((l.types win).map (· ++ [type])) }
  else l

/-- An annotation is added. -/
def Look.place (l : Look) (win : BitVec 32) (n : Notes) (line : BitVec 32) (type : AnnoType) : Look := { l with
  annoId := l.annoId + 1
  bufs := Function.update l.bufs win
    (some { n with annos := n.annos.insert (annoKey line.toInt type.sign) l.annoId })
  shown := Function.update l.shown (win, l.annoId) (some ⟨line, type⟩) }

/-- An annotation is deleted. -/
def Look.unplace (l : Look) (win : BitVec 32) (n : Notes) (key : CStr) : Look :=
  match n.annos.lookup key with
  | none => l
  | some id => { l with
      bufs := Function.update l.bufs win (some { n with annos := n.annos.erase key })
      shown := Function.update l.shown (win, id) none }

/-- A buffer is closed. -/
def Look.close (l : Look) (win : BitVec 32) (n : Notes) : Look := { l with
  names := l.names.erase n.name
  bufs := Function.update l.bufs win none
  types := Function.update l.types win none
  shown i := if i.1 = win then none else l.shown i }

/-! ## Functions that leave the annotations alone -/

variable {shows : Display} {replies : Nat → Option Cursor} {s : Vimui} {l : Look} {win : BitVec 32}

theorem look_modifyBuffer (ui : Vimui) (win : BitVec 32) {f : Buffer → Buffer} {g : Notes → Notes}
    (hf : ∀ buf, notes (f buf) = g (notes buf)) :
    look shows (ui.modifyBuffer win f) = { look shows ui with
      bufs := Function.update (look shows ui).bufs win (((look shows ui).bufs win).map g) } := by
  unfold Vimui.modifyBuffer
  cases hbuf : ui.bufidMap.lookup win with
  | none =>
      have hnone : (look shows ui).bufs win = none := by simp [look, hbuf]
      rw [hnone, Option.map_none, ← hnone, Function.update_eq_self]
  | some buf =>
      have hbufs : ∀ win', ((ui.bufidMap.insert win (f buf)).lookup win').map notes =
          Function.update (look shows ui).bufs win (((look shows ui).bufs win).map g) win' := by
        intro win'
        by_cases hwin : win' = win
        · subst hwin
          simp [look, hbuf, hf]
        · rw [AList.lookup_insert_ne hwin, Function.update_of_ne hwin]
          rfl
      simp only [look, funext hbufs]

/-- A message is sent. -/
theorem look_receive (ui : Vimui) (m : Message) : look shows { ui with sent := ui.sent ++ [m] } =
    { look shows ui with
      types := receive (look shows ui).types m
      shown := shows (ui.sent ++ [m]) } := by
  simp [look]

variable [Documented shows]

/-- The message leaves the types and the annotations alone. -/
structure Silent (l : Look) (m : Message) : Prop where
  types : receive l.types m = l.types
  spares : Spares l.shown m

theorem Silent.unnoticed {m : Message} (hm : Silent l m) : Unnoticed (look shows) l m := by
  intro ui h
  subst h
  rw [look_receive, hm.types, @Documented.spared shows _ _ _ hm.spares]
  rfl

theorem silent_of_plain {m : Message} (hm : Plain m) : Silent l m := by
  cases m <;> first | exact ⟨rfl, trivial⟩ | exact hm.elim

instance : Blind (look shows) where
  message ui m hm := (silent_of_plain hm).unnoticed ui rfl
  buffer ui win f hf := by
    rw [look_modifyBuffer ui win (g := id) hf, Option.map_id_fun, id, Function.update_eq_self]
  cursor _ _ := rfl
  inAtomic _ _ := rfl
  ostr _ _ := rfl
  asked _ _ := rfl

/-- Text is written where nothing is shown. -/
theorem quiet_winPrint_bare (hbare : l.Bare win) (text : CStr) :
    Quiet (look shows) l (winPrint replies win text) :=
  quiet_winPrint win text fun _ _ => Silent.unnoticed ⟨rfl, hbare⟩

theorem quiet_winVprint_bare (hbare : l.Bare win) (fmt : CStr) (args : List Printf.Arg) :
    Quiet (look shows) l (winVprint replies win fmt args) :=
  quiet_winVprint win fmt args fun _ _ => Silent.unnoticed ⟨rfl, hbare⟩

theorem quiet_winClear_bare (hbare : l.Bare win) : Quiet (look shows) l (winClear replies win) :=
  quiet_winClear win fun _ => Silent.unnoticed ⟨rfl, hbare⟩

/-! ## Functions that change them -/

theorem post_announce (name : CStr) (hid : (look shows s).bufid.slt 0 = false)
    (hbare : (look shows s).Bare (look shows s).bufid) {E : Unit → Vimui → Prop} :
    Post (announce name) (fun id t => id = (look shows s).bufid ∧ look shows t = { look shows s with
      bufid := (look shows s).bufid + 1
      types := Function.update (look shows s).types (look shows s).bufid (some []) }) E s := by
  have hid : s.bufid.slt 0 = false := hid
  unfold announce
  rw [post_bind, post_get, post_bind, post_set, hid, if_neg Bool.false_ne_true, post_bind, post_attempt]
  refine post_action (fun _ => ?_) fun hneg => ?_
  · rw [post_bind]
    refine (Quiet.post_attempt (quiet_plain (by exact trivial)) ?_).mono
      (fun _ u hu => post_pure.mpr ⟨rfl, hu⟩) fun _ _ h => h
    unfold look
    have hspares : Spares (shows s.sent) (if name.head? = some '/' then .editFile s.bufid name
        else .putBufferNumber s.bufid s.cwd name) := by
      split <;> exact hbare
    rw [opened_concat, @Documented.spared shows _ s.sent _ hspares]
    split <;> rfl
  · exfalso
    split at hneg <;> exact absurd (hid.symm.trans hneg) Bool.false_ne_true

/-- A window is created, or there is one. -/
theorem post_winCreate (name : CStr) (hid : (look shows s).bufid.slt 0 = false)
    (hbare : (look shows s).Bare (look shows s).bufid)
    (hpos : ∀ win, (look shows s).names.lookup (fullName (look shows s).cwd name) = some win →
      (0 : BitVec 32).slt win = true) {E : Unit → Vimui → Prop} :
    Post (winCreate (some name)) (fun win t => look shows t = (look shows s).enter name ∧
      win = ((look shows s).enter name).winGetid name) E s := by
  have hgetid : s.winGetid name = (look shows s).winGetid name := rfl
  unfold winCreate Look.enter
  rw [post_bind, post_get, hgetid]
  cases hname : (look shows s).names.lookup (fullName (look shows s).cwd name) with
  | some win =>
      have hwin : (look shows s).winGetid name = win := by simp [Look.winGetid, hname]
      rw [hwin, if_pos (hpos win hname), post_pure]
      exact ⟨rfl, rfl⟩
  | none =>
      have hwin : (look shows s).winGetid name = -1 := by simp [Look.winGetid, hname]
      rw [hwin, if_neg (by decide)]
      unfold create
      rw [post_bind]
      refine (post_announce name hid hbare).mono (fun id t ht => ?_) fun _ _ h => h
      obtain ⟨rfl, ht⟩ := ht
      unfold register
      rw [post_bind, post_modify, post_pure]
      have hcwd : t.cwd = (look shows s).cwd := congrArg Look.cwd ht
      have hbufs : ∀ win', ((t.bufidMap.insert (look shows s).bufid { name := fullName t.cwd name }).lookup
          win').map notes = Function.update (look shows s).bufs (look shows s).bufid
            (some { name := fullName (look shows s).cwd name }) win' := by
        intro win'
        by_cases hwin' : win' = (look shows s).bufid
        · subst hwin'
          simp [notes, hcwd]
        · rw [AList.lookup_insert_ne hwin', Function.update_of_ne hwin']
          exact congrFun (congrArg Look.bufs ht) win'
      refine ⟨?_, ?_⟩
      · have hnames : t.bufnameMap = (look shows s).names := congrArg Look.names ht
        have hid' : t.bufid = (look shows s).bufid + 1 := congrArg Look.bufid ht
        have hanno : t.annoId = (look shows s).annoId := congrArg Look.annoId ht
        have htypes : opened t.sent =
            Function.update (look shows s).types (look shows s).bufid (some []) := congrArg Look.types ht
        have hshown : shows t.sent = (look shows s).shown := congrArg Look.shown ht
        rw [look, funext hbufs]
        simp only [hcwd, hnames, hid', hanno, htypes, hshown]
      · simp [Look.winGetid]

omit [Documented shows] in
theorem bufs_define {win : BitVec 32} {n : Notes} {type : AnnoType} (hn : l.bufs win = some n) :
    (l.define win n type).bufs win = some (n.known type) := by
  unfold Look.define Notes.known
  split
  · exact Function.update_self ..
  · exact hn

/-- The type has its number. -/
theorem post_annoType {win : BitVec 32} {buf : Buffer} (hwin : win.slt 0 = false) (type : AnnoType)
    (hbuf : (look shows s).bufs win = some (notes buf)) {E : Unit → Vimui → Prop} :
    Post (annoType win buf type.sign type.colorFg type.colorBg) (fun annotype t =>
      annotype = (notes buf).number type ∧
        look shows t = (look shows s).define win (notes buf) type) E s := by
  have hunfold : annoType win buf type.sign type.colorFg type.colorBg =
      if (notes buf).Unknown type then do
        action (.defineAnnoType win type.key type.sign type.colorFg type.colorBg)
        modify fun ui => ui.modifyBuffer win fun b =>
          { b with annoTypes := b.annoTypes.insert type.key (notes buf).next }
        return (notes buf).next
      else return ((notes buf).annoTypes.lookup type.key).getD 0 := rfl
  rw [hunfold]
  unfold Notes.number Look.define
  split
  · rw [post_bind]
    refine post_action (fun _ => ?_) fun hneg => absurd (hwin.symm.trans hneg) Bool.false_ne_true
    rw [post_bind, post_modify, post_pure]
    refine ⟨rfl, ?_⟩
    let learn : Notes → Notes := fun n => { n with annoTypes := n.annoTypes.insert type.key (notes buf).next }
    rw [look_modifyBuffer _ win (g := learn) fun _ => rfl]
    rw [look_receive, @Documented.spared shows _ s.sent _ (by exact trivial)]
    dsimp only
    rw [hbuf]
    rfl
  · exact post_pure.mpr ⟨rfl, rfl⟩

omit [Documented shows] in
theorem exists_of_bufs {win : BitVec 32} {n : Notes} (h : (look shows s).bufs win = some n) :
    ∃ buf, s.bufidMap.lookup win = some buf ∧ notes buf = n := by
  simpa [look] using h

omit [Documented shows] in
theorem lookup_of_bufs {win : BitVec 32} (h : (look shows s).bufs win = none) :
    s.bufidMap.lookup win = none := by
  simpa [look] using h

/-- An annotation is added, under a number that is free. -/
theorem post_winAnnoAdd {win : BitVec 32} {n : Notes} (hwin : win.slt 0 = false)
    (hn : (look shows s).bufs win = some n) (line : BitVec 32) {type : AnnoType} {types : List AnnoType}
    (htypes : ((look shows s).define win n type).types win = some types)
    (hnumber : numbered types (n.number type) = some type)
    (hfree : ((look shows s).define win n type).shown
      (win, ((look shows s).define win n type).annoId) = none)
    {E : Unit → Vimui → Prop} :
    Post (winAnnoAdd replies win line type.sign type.colorFg type.colorBg) (fun _ t =>
      look shows t = ((look shows s).define win n type).place win (n.known type) line type) E s := by
  obtain ⟨buf, hbuf, rfl⟩ := exists_of_bufs hn
  have hno : ∀ {E : Unit → Vimui → Prop} (e : Unit) (t : Vimui), False → E e t := fun _ _ h => h.elim
  unfold winAnnoAdd
  rw [post_tryCatch, post_bind, post_get, hbuf, post_bind]
  refine ((quiet_atomic win true false).post_attempt (rfl : look shows s = _)).mono (fun _ t ht => ?_) hno
  rw [post_bind]
  rw [← ht] at hn htypes hfree ⊢
  refine (post_annoType hwin type hn).mono (fun annotype u hu => ?_) hno
  obtain ⟨rfl, hu⟩ := hu
  have hknown : (look shows u).bufs win = some ((notes buf).known type) := by
    rw [hu]
    exact bufs_define hn
  rw [← hu] at htypes hfree ⊢
  rw [post_bind, post_get, post_bind]
  refine post_action (fun _ => ?_) fun hneg => absurd (hwin.symm.trans hneg) Bool.false_ne_true
  rw [post_bind, post_modify, post_bind, post_modify]
  refine (quiet_atomic win false false).post_attempt ?_
  let add : Notes → Notes := fun n =>
    { n with annos := n.annos.insert (annoKey line.toInt type.sign) u.annoId }
  show { look shows (Vimui.modifyBuffer _ win _) with annoId := u.annoId + 1 } = _
  rw [look_modifyBuffer _ win (g := add) fun _ => rfl]
  rw [look_receive]
  dsimp only
  have hfree : shows u.sent (win, u.annoId) = none := hfree
  rw [@Documented.added shows _ _ _ _ _ _ _ line htypes hnumber hfree, hknown]
  rfl

/-- There is no window to add an annotation to. -/
theorem post_winAnnoAdd_unknown {win : BitVec 32} (hn : (look shows s).bufs win = none) (line : BitVec 32)
    (type : AnnoType) {Q : Unit → Vimui → Prop} :
    Post (winAnnoAdd replies win line type.sign type.colorFg type.colorBg) Q
      (fun _ t => look shows t = look shows s) s := by
  unfold winAnnoAdd
  rw [post_tryCatch, post_bind, post_get, lookup_of_bufs hn, post_throw, post_bind]
  exact ((quiet_atomic win false false).post_attempt (rfl : look shows s = _)).mono
    (fun _ t ht => post_throw.mpr ht) fun _ _ h => h

/-- An annotation is deleted. -/
theorem post_winAnnoDelete {win : BitVec 32} {n : Notes} (hwin : win.slt 0 = false)
    (hn : (look shows s).bufs win = some n) (line : BitVec 32) (sign : CStr) {E : Unit → Vimui → Prop} :
    Post (winAnnoDelete win line sign)
      (fun _ t => look shows t = (look shows s).unplace win n (annoKey line.toInt sign)) E s := by
  obtain ⟨buf, hbuf, rfl⟩ := exists_of_bufs hn
  unfold winAnnoDelete Look.unplace
  rw [post_bind, post_get, hbuf]
  dsimp only
  cases hanno : buf.annos.lookup (annoKey line.toInt sign) with
  | none =>
      have hanno : (notes buf).annos.lookup (annoKey line.toInt sign) = none := hanno
      rw [hanno]
      exact post_pure.mpr rfl
  | some anno =>
      have hanno : (notes buf).annos.lookup (annoKey line.toInt sign) = some anno := hanno
      rw [hanno, post_bind]
      refine post_action (fun _ => ?_) fun hneg => absurd (hwin.symm.trans hneg) Bool.false_ne_true
      rw [post_modify]
      let delete : Notes → Notes := fun n => { n with annos := n.annos.erase (annoKey line.toInt sign) }
      rw [look_modifyBuffer _ win (g := delete) fun _ => rfl]
      rw [look_receive, @Documented.removed shows]
      dsimp only
      rw [hn]
      rfl

omit [Documented shows] in
theorem post_winAnnoDelete_unknown {win : BitVec 32} (hn : (look shows s).bufs win = none)
    (line : BitVec 32) (sign : CStr) {Q : Unit → Vimui → Prop} :
    Post (winAnnoDelete win line sign) Q (fun _ t => look shows t = look shows s) s := by
  unfold winAnnoDelete
  rw [post_bind, post_get, lookup_of_bufs hn]
  exact post_throw.mpr rfl

theorem shows_close (s : Vimui) (win : BitVec 32) :
    shows (s.sent ++ [.close win]) = fun i => if i.1 = win then none else (look shows s).shown i :=
  funext (Documented.closed _ win)

/-- A window is destroyed. -/
theorem post_winDestroy {win : BitVec 32} {n : Notes} (hwin : win.slt 0 = false)
    (hn : (look shows s).bufs win = some n) {E : Unit → Vimui → Prop} :
    Post (winDestroy win) (fun _ t => look shows t = (look shows s).close win n) E s := by
  obtain ⟨buf, hbuf, rfl⟩ := exists_of_bufs hn
  unfold winDestroy
  rw [post_bind]
  refine post_action (fun _ => ?_) fun hneg => absurd (hwin.symm.trans hneg) Bool.false_ne_true
  unfold remove
  rw [post_bind, post_get]
  dsimp only
  rw [hbuf]
  dsimp only
  cases s.bufnameMap.lookup buf.name with
  | none => exact post_undefined
  | some _ =>
      rw [post_set]
      have hbufs : ∀ win', ((s.bufidMap.erase win).lookup win').map notes =
          Function.update (look shows s).bufs win none win' := by
        intro win'
        by_cases hwin' : win' = win
        · subst hwin'
          simp
        · rw [AList.lookup_erase_ne hwin', Function.update_of_ne hwin']
          rfl
      rw [look, funext hbufs, opened_concat, @shows_close shows]
      rfl

/-- There is no window to destroy. -/
theorem post_winDestroy_unknown {win : BitVec 32} (hn : (look shows s).bufs win = none)
    (htypes : (look shows s).types win = none) (hbare : (look shows s).Bare win)
    {Q : Unit → Vimui → Prop} :
    Post (winDestroy win) Q (fun _ t => look shows t = look shows s) s := by
  unfold winDestroy
  rw [post_bind]
  refine post_action (fun _ => ?_) fun _ => rfl
  unfold remove
  rw [post_bind, post_get]
  dsimp only
  rw [lookup_of_bufs hn, post_throw]
  have htypes' : opened (s.sent ++ [.close win]) = opened s.sent := by
    rw [opened_concat, receive, ← htypes]
    exact Function.update_eq_self win _
  have hshown : shows (s.sent ++ [.close win]) = shows s.sent := by
    rw [@shows_close shows]
    funext i
    split_ifs with hi
    · exact (hi ▸ hbare i.2).symm
    · rfl
  rw [look, htypes', hshown]
  rfl

/-! ## The types of the program -/

def black : Word := ⟨"Black".toList, by decide⟩
def darkRed : Word := ⟨"DarkRed".toList, by decide⟩
def yellow : Word := ⟨"Yellow".toList, by decide⟩
def white : Word := ⟨"White".toList, by decide⟩

/-- The sign of a breakpoint that is enabled, and of one that is not. -/
def breakSign (enabled : Bool) : AnnoType := ⟨"b".toList, black, if enabled then darkRed else yellow⟩

/-- The sign of the instruction pointer. -/
def ipSign : AnnoType := ⟨"ip".toList, white, black⟩

/-- The types that are used. -/
def signTypes : List AnnoType := [breakSign true, breakSign false, ipSign]

theorem breakSign_mem (enabled : Bool) : breakSign enabled ∈ signTypes := by
  cases enabled <;> simp [signTypes]

theorem ipSign_mem : ipSign ∈ signTypes := by simp [signTypes]

/-- They are told apart by their names. -/
theorem eq_of_key {type type' : AnnoType} (h : type ∈ signTypes) (h' : type' ∈ signTypes)
    (hkey : type.key = type'.key) : type = type' := by
  simp only [signTypes, List.mem_cons, List.not_mem_nil, or_false] at h h'
  rcases h with rfl | rfl | rfl <;> rcases h' with rfl | rfl | rfl <;>
    first | rfl | exact absurd hkey (by decide)

/-! ## The board -/

/-- Annotations are recorded for a window and a key, and shown by vim in a window under a number. -/
def Look.board (l : Look) : Board (BitVec 32 × CStr) (BitVec 32 × BitVec 32) Mark where
  record k := (l.bufs k.1).bind fun n => (n.annos.lookup k.2).map (Prod.mk k.1)
  shown := l.shown

/-- The numbers of the types are those that vim has given to them, and all of them are used. -/
structure Typed (annoTypes : AList fun _ : CStr => BitVec 32) (types : List AnnoType) : Prop where
  size : annoTypes.entries.length = types.length
  number : ∀ key annotype, annoTypes.lookup key = some annotype →
    annotype ≠ 0 ∧ ∃ type, types[annotype.toNat - 1]? = some type ∧ type.key = key
  listed : ∀ type ∈ types, type ∈ signTypes

/-- The invariant: windows are numbered in order and found by their names, the types of each have their
numbers, and vim shows nothing in others, and nothing under a number that has not been used. -/
structure Look.Inv (l : Look) : Prop where
  counted : 0 < l.bufid.toNat ∧ l.bufid.toNat < 2 ^ 31
  window : ∀ win n, l.bufs win = some n → 0 < win.toNat ∧ win.toNat < l.bufid.toNat
  named : ∀ name win, l.names.lookup name = some win ↔ ∃ n, l.bufs win = some n ∧ n.name = name
  closed : ∀ win, l.bufs win = none → l.types win = none ∧ l.Bare win
  typed : ∀ win n, l.bufs win = some n → ∃ types, l.types win = some types ∧ Typed n.annoTypes types
  placed : ∀ win id m, l.shown (win, id) = some m → id.toNat < l.annoId.toNat
  sound : l.board.Sound

variable {win : BitVec 32} {n : Notes} {name : CStr} {type : AnnoType}

theorem not_slt_zero (h : win.toNat < 2 ^ 31) : win.slt 0 = false := by
  rw [Bool.eq_false_iff]
  intro hneg
  rw [BitVec.slt_iff_toInt_lt, BitVec.toInt_eq_toNat_of_lt (by omega)] at hneg
  simp at hneg
  omega

theorem zero_slt (hpos : 0 < win.toNat) (h : win.toNat < 2 ^ 31) : (0 : BitVec 32).slt win = true := by
  rw [BitVec.slt_iff_toInt_lt, BitVec.toInt_eq_toNat_of_lt (x := win) (by omega)]
  simp
  omega

theorem Look.Inv.not_slt (h : l.Inv) (hn : l.bufs win = some n) : win.slt 0 = false :=
  not_slt_zero ((h.window win n hn).2.trans h.counted.2)

theorem record_eq_some {win : BitVec 32} {key : CStr} {i : BitVec 32 × BitVec 32} :
    l.board.record (win, key) = some i ↔
      ∃ n id, l.bufs win = some n ∧ n.annos.lookup key = some id ∧ (win, id) = i := by
  simp only [Look.board, Option.bind_eq_some_iff, Option.map_eq_some_iff]
  constructor
  · rintro ⟨n, hn, id, hid, rfl⟩
    exact ⟨n, id, hn, hid, rfl⟩
  · rintro ⟨n, id, hn, hid, rfl⟩
    exact ⟨n, hn, id, hid, rfl⟩

/-- Marks are recorded for the window they are in. -/
theorem window_of_record {k : BitVec 32 × CStr} {i : BitVec 32 × BitVec 32}
    (h : l.board.record k = some i) : i.1 = k.1 := by
  obtain ⟨n, id, -, -, rfl⟩ := record_eq_some.mp h
  rfl

/-- A number that has not been used is free. -/
theorem Look.Inv.fresh (h : l.Inv) (win : BitVec 32) : l.board.shown (win, l.annoId) = none := by
  cases hm : l.board.shown (win, l.annoId) with
  | none => rfl
  | some m => exact absurd (h.placed win l.annoId m hm) (lt_irrefl _)

/-! ## Windows are entered -/

/-- The next window is not in use. -/
theorem Look.Inv.next_window (h : l.Inv) : l.bufs l.bufid = none := by
  cases hn : l.bufs l.bufid with
  | none => rfl
  | some n => exact absurd (h.window _ n hn).2 (lt_irrefl _)

theorem board_enter (h : l.Inv) (name : CStr) : (l.enter name).board = l.board := by
  unfold Look.enter
  split
  · rfl
  · have hrecord : ∀ k : BitVec 32 × CStr, ((Function.update l.bufs l.bufid
        (some { name := fullName l.cwd name })) k.1).bind (fun n => (n.annos.lookup k.2).map (Prod.mk k.1)) =
          (l.bufs k.1).bind fun n => (n.annos.lookup k.2).map (Prod.mk k.1) := by
      intro k
      by_cases hk : k.1 = l.bufid
      · rw [hk, Function.update_self, h.next_window]
        rfl
      · rw [Function.update_of_ne hk]
    simp only [Look.board, funext hrecord]

theorem inv_enter (h : l.Inv) (hroom : l.bufid.toNat + 1 < 2 ^ 31) (name : CStr) : (l.enter name).Inv := by
  have hboard := board_enter h name
  have hsound : (l.enter name).board.Sound := hboard ▸ h.sound
  unfold Look.enter at hsound ⊢
  cases hname : l.names.lookup (fullName l.cwd name) with
  | some _ => exact h
  | none =>
      rw [hname] at hsound
      have hnext : (l.bufid + 1).toNat = l.bufid.toNat + 1 := by
        rw [BitVec.toNat_add]
        simp
        omega
      refine ⟨⟨by dsimp only; omega, by dsimp only; omega⟩, fun win n hn => ?_, fun name' win => ?_,
        fun win hwin => ?_, fun win n hn => ?_, h.placed, hsound⟩
      · dsimp only at hn ⊢
        rw [Function.update_apply] at hn
        split_ifs at hn with hwin
        · subst hwin
          exact ⟨h.counted.1, by omega⟩
        · have hlt := h.window win n hn
          exact ⟨hlt.1, by omega⟩
      · dsimp only
        rw [lookup_insert_eq_some, Function.update_apply]
        by_cases hwin : win = l.bufid
        · subst hwin
          rw [if_pos rfl]
          constructor
          · rintro (⟨rfl, -⟩ | ⟨-, hlookup⟩)
            · exact ⟨_, rfl, rfl⟩
            · obtain ⟨n, hn, -⟩ := (h.named _ _).mp hlookup
              rw [h.next_window] at hn
              cases hn
          · rintro ⟨n, hn, rfl⟩
            cases hn
            exact .inl ⟨rfl, rfl⟩
        · rw [if_neg hwin, h.named]
          constructor
          · rintro (⟨-, heq⟩ | ⟨-, hn⟩)
            · exact absurd heq.symm hwin
            · exact hn
          · rintro ⟨n, hn, rfl⟩
            refine .inr ⟨fun heq => ?_, n, hn, rfl⟩
            have hlookup := (h.named n.name win).mpr ⟨n, hn, rfl⟩
            rw [heq, hname] at hlookup
            cases hlookup
      · dsimp only at hwin ⊢
        rw [Function.update_apply] at hwin ⊢
        split_ifs at hwin ⊢
        exact h.closed win hwin
      · dsimp only at hn ⊢
        rw [Function.update_apply] at hn ⊢
        split_ifs at hn ⊢ with hwin
        · cases hn
          exact ⟨[], rfl, rfl, fun key annotype hlookup => by simp at hlookup, by simp⟩
        · exact h.typed win n hn

/-- The window that is entered. -/
theorem exists_entered (h : l.Inv) (name : CStr) :
    ∃ n, (l.enter name).bufs ((l.enter name).winGetid name) = some n ∧ n.name = fullName l.cwd name := by
  unfold Look.enter Look.winGetid
  cases hname : l.names.lookup (fullName l.cwd name) with
  | some win =>
      dsimp only
      rw [hname]
      exact (h.named _ win).mp hname
  | none =>
      dsimp only
      rw [AList.lookup_insert]
      exact ⟨_, Function.update_self .., rfl⟩

/-- Files that had a window keep it. -/
theorem winGetid_enter (h : l.Inv) {name' : CStr} (hn : (l.bufs (l.winGetid name')).isSome) (name : CStr) :
    (l.enter name).winGetid name' = l.winGetid name' := by
  unfold Look.enter
  cases hname : l.names.lookup (fullName l.cwd name) with
  | some win => rfl
  | none =>
      unfold Look.winGetid
      dsimp only
      rw [AList.lookup_insert_ne]
      intro heq
      have hnone : l.winGetid name' = -1 := by
        rw [Look.winGetid, heq, hname]
        rfl
      obtain ⟨n, hn⟩ := Option.isSome_iff_exists.mp hn
      have hlt := (h.window _ n hn).2.trans h.counted.2
      rw [hnone] at hlt
      exact absurd hlt (by decide)

/-! ## Buffers are changed -/

/-- What must be kept where one buffer is changed, here and in vim. -/
theorem Look.Inv.retouch {l' : Look} (h : l.Inv) (hn : l.bufs win = some n) {n' : Notes}
    {types : List AnnoType} (hnames : l'.names = l.names) (hbufid : l'.bufid = l.bufid)
    (hbufs : l'.bufs = Function.update l.bufs win (some n')) (hname : n'.name = n.name)
    (htypes : l'.types = Function.update l.types win (some types)) (htyped : Typed n'.annoTypes types)
    (hother : ∀ win' id, win' ≠ win → l'.shown (win', id) = l.shown (win', id))
    (hplaced : ∀ win' id m, l'.shown (win', id) = some m → id.toNat < l'.annoId.toNat)
    (hsound : l'.board.Sound) : l'.Inv := by
  refine ⟨hbufid ▸ h.counted, fun win' m hm => ?_, fun name win' => ?_, fun win' hwin' => ?_,
    fun win' m hm => ?_, hplaced, hsound⟩
  · rw [hbufs, Function.update_apply] at hm
    rw [hbufid]
    split_ifs at hm with hwin
    · exact hwin ▸ h.window win n hn
    · exact h.window win' m hm
  · rw [hnames, hbufs, Function.update_apply, h.named]
    split_ifs with hwin
    · subst hwin
      simp [hn, hname]
    · rfl
  · rw [hbufs, Function.update_apply] at hwin'
    split_ifs at hwin' with hwin
    rw [htypes, Function.update_of_ne hwin]
    obtain ⟨hnone, hbare⟩ := h.closed win' hwin'
    exact ⟨hnone, fun id => (hother win' id hwin).trans (hbare id)⟩
  · rw [hbufs, Function.update_apply] at hm
    rw [htypes, Function.update_apply]
    split_ifs at hm ⊢
    · cases hm
      exact ⟨types, rfl, htyped⟩
    · exact h.typed win' m hm

/-! ## Types are defined -/

theorem length_le_of_typed {annoTypes : AList fun _ : CStr => BitVec 32} {types : List AnnoType}
    (h : Typed annoTypes types) : types.length ≤ 3 := by
  have hsub : annoTypes.keys ⊆ signTypes.map AnnoType.key := by
    intro key hkey
    obtain ⟨annotype, hlookup⟩ := Option.isSome_iff_exists.mp (AList.lookup_isSome.mpr hkey)
    obtain ⟨-, type, htype, rfl⟩ := h.number key annotype hlookup
    exact List.mem_map_of_mem (h.listed type (List.mem_of_getElem? htype))
  have hlen := (annoTypes.nodupKeys.subperm hsub).length_le
  rw [← h.size]
  simpa [AList.keys, List.keys, signTypes] using hlen

theorem toNat_next {types : List AnnoType} (h : Typed n.annoTypes types) :
    n.next.toNat = types.length + 1 := by
  have hle := length_le_of_typed h
  rw [Notes.next, BitVec.toNat_ofNat, h.size]
  exact Nat.mod_eq_of_lt (by omega)

theorem typed_learn {types : List AnnoType} (h : Typed n.annoTypes types) (htype : type ∈ signTypes)
    (hunknown : n.Unknown type) : Typed (n.learn type).annoTypes (types ++ [type]) := by
  have hnext := toNat_next h
  have hnone : n.annoTypes.lookup type.key = none := by
    cases hlookup : n.annoTypes.lookup type.key with
    | none => rfl
    | some annotype =>
        unfold Notes.Unknown at hunknown
        rw [hlookup] at hunknown
        exact absurd hunknown (h.number _ _ hlookup).1
  refine ⟨?_, fun key annotype hlookup => ?_, fun type' htype' => ?_⟩
  · rw [Notes.learn, AList.entries_insert_of_notMem (AList.lookup_eq_none.mp hnone)]
    simp [h.size]
  · rcases lookup_insert_eq_some.mp hlookup with ⟨rfl, rfl⟩ | ⟨-, hlookup⟩
    · refine ⟨fun hzero => by simp [hzero] at hnext, type, ?_, rfl⟩
      rw [hnext]
      simp
    · obtain ⟨hzero, type', htype', hkey⟩ := h.number key annotype hlookup
      refine ⟨hzero, type', ?_, hkey⟩
      rw [List.getElem?_append_left (List.getElem?_eq_some_iff.mp htype').1]
      exact htype'
  · rcases List.mem_append.mp htype' with htype' | htype'
    · exact h.listed type' htype'
    · rwa [List.mem_singleton.mp htype']

/-- The number of a type is the one that vim has given to it. -/
theorem exists_numbered (h : l.Inv) (hn : l.bufs win = some n) (htype : type ∈ signTypes) :
    ∃ types, (l.define win n type).types win = some types ∧ numbered types (n.number type) = some type := by
  obtain ⟨types, htypes, htyped⟩ := h.typed win n hn
  have hnext := toNat_next htyped
  unfold Look.define Notes.number
  split
  · refine ⟨types ++ [type], ?_, ?_⟩
    · dsimp only
      rw [Function.update_self, htypes]
      rfl
    · rw [numbered, if_neg fun hzero => by simp [hzero] at hnext, hnext]
      simp
  · next hknown =>
    refine ⟨types, htypes, ?_⟩
    cases hlookup : n.annoTypes.lookup type.key with
    | none => exact absurd (by rw [Notes.Unknown, hlookup]; rfl) hknown
    | some annotype =>
        obtain ⟨hzero, type', htype', hkey⟩ := htyped.number _ _ hlookup
        have hlisted := htyped.listed type' (List.mem_of_getElem? htype')
        obtain rfl := eq_of_key hlisted htype hkey
        exact (if_neg hzero).trans htype'

theorem shown_define : (l.define win n type).shown = l.shown := by
  unfold Look.define
  split <;> rfl

theorem board_define (hn : l.bufs win = some n) : (l.define win n type).board = l.board := by
  have hrecord : (l.define win n type).board.record = l.board.record := by
    funext k
    by_cases hk : k.1 = win
    · simp only [Look.board, hk, bufs_define hn, hn, Option.bind_some, Notes.known]
      split <;> rfl
    · unfold Look.define Look.board
      split
      · dsimp only
        rw [Function.update_of_ne hk]
      · rfl
  exact Board.ext hrecord shown_define

theorem inv_define (h : l.Inv) (hn : l.bufs win = some n) (htype : type ∈ signTypes) :
    (l.define win n type).Inv := by
  have hsound : (l.define win n type).board.Sound := board_define hn ▸ h.sound
  obtain ⟨types, htypes, htyped⟩ := h.typed win n hn
  unfold Look.define at hsound ⊢
  split
  · next hunknown =>
    rw [if_pos hunknown] at hsound
    exact h.retouch hn rfl rfl rfl rfl (by rw [htypes]; rfl) (typed_learn htyped htype hunknown)
      (fun _ _ _ => rfl) h.placed hsound
  · exact h

/-! ## Annotations are added and deleted -/

/-- A mark is put up. -/
theorem inv_place (h : l.Inv) (hroom : l.annoId.toNat + 1 < 2 ^ 32) (hn : l.bufs win = some n)
    (line : BitVec 32) (type : AnnoType) :
    (l.place win n line type).board =
        l.board.put (win, annoKey line.toInt type.sign) (win, l.annoId) ⟨line, type⟩ ∧
      (l.place win n line type).Inv := by
  have hboard : (l.place win n line type).board =
      l.board.put (win, annoKey line.toInt type.sign) (win, l.annoId) ⟨line, type⟩ := by
    apply Board.ext
    · funext k
      obtain ⟨win', key⟩ := k
      simp only [Look.board, Look.place, Board.put, Function.update_apply, Prod.mk.injEq]
      by_cases hwin : win' = win
      · subst hwin
        simp only [hn, if_true, true_and, Option.bind_some]
        by_cases hkey : key = annoKey line.toInt type.sign
        · rw [if_pos hkey, hkey, AList.lookup_insert]
          rfl
        · rw [if_neg hkey, AList.lookup_insert_ne hkey]
      · simp [hwin]
    · rfl
  refine ⟨hboard, ?_⟩
  have hsound : (l.place win n line type).board.Sound := hboard ▸ sound_put h.sound (h.fresh win)
  have hnext : (l.annoId + 1).toNat = l.annoId.toNat + 1 := by
    rw [BitVec.toNat_add]
    simp
    omega
  obtain ⟨types, htypes, htyped⟩ := h.typed win n hn
  refine h.retouch hn rfl rfl rfl rfl (by rw [← htypes]; exact (Function.update_eq_self win _).symm) htyped
    (fun win' id hwin' => ?_) (fun win' id m hm => ?_) hsound
  · exact Function.update_of_ne (fun heq => hwin' (congrArg Prod.fst heq)) ..
  · dsimp only [Look.place] at hm ⊢
    rw [Function.update_apply] at hm
    split_ifs at hm with hid
    · obtain ⟨-, rfl⟩ := Prod.mk.inj hid
      omega
    · have hlt := h.placed win' id m hm
      omega

/-- A mark is taken down. -/
theorem inv_unplace (h : l.Inv) (hn : l.bufs win = some n) (key : CStr) :
    (l.unplace win n key).board = l.board.take (win, key) ∧ (l.unplace win n key).Inv := by
  have hrecord : l.board.record (win, key) = (n.annos.lookup key).map (Prod.mk win) := by
    simp [Look.board, hn]
  have hboard : (l.unplace win n key).board = l.board.take (win, key) := by
    unfold Look.unplace
    cases hid : n.annos.lookup key with
    | none =>
        rw [hid, Option.map_none] at hrecord
        unfold Board.take
        rw [hrecord, ← hrecord, Function.update_eq_self]
        simp [hrecord]
    | some id =>
        rw [hid, Option.map_some] at hrecord
        apply Board.ext
        · funext k
          obtain ⟨win', key'⟩ := k
          simp only [Look.board, Board.take, Function.update_apply, Prod.mk.injEq]
          by_cases hwin : win' = win
          · subst hwin
            simp only [hn, if_true, true_and, Option.bind_some]
            by_cases hkey' : key' = key
            · rw [if_pos hkey', hkey', AList.lookup_erase]
              rfl
            · rw [if_neg hkey', AList.lookup_erase_ne hkey']
          · simp [hwin]
        · funext i
          simp only [Board.take, hrecord]
          simp only [Look.board, Function.update_apply, Option.some.injEq]
          exact if_congr eq_comm rfl rfl
  refine ⟨hboard, ?_⟩
  have hsound := hboard ▸ sound_take (k := (win, key)) h.sound
  obtain ⟨types, htypes, htyped⟩ := h.typed win n hn
  unfold Look.unplace at hsound ⊢
  cases hid : n.annos.lookup key with
  | none => exact h
  | some id =>
      rw [hid] at hsound
      refine h.retouch hn rfl rfl rfl rfl (by rw [← htypes]; exact (Function.update_eq_self win _).symm)
        htyped (fun win' id' hwin' => ?_) (fun win' id' m hm => ?_) hsound
      · exact Function.update_of_ne (fun heq => hwin' (congrArg Prod.fst heq)) ..
      · dsimp only at hm
        rw [Function.update_apply] at hm
        split_ifs at hm
        exact h.placed win' id' m hm

/-- The marks of a window are wiped off. -/
theorem inv_close (h : l.Inv) (hn : l.bufs win = some n) :
    (l.close win n).board = l.board.wipe (fun k => k.1 = win) (fun i => i.1 = win) ∧ (l.close win n).Inv := by
  have hboard : (l.close win n).board = l.board.wipe (fun k => k.1 = win) (fun i => i.1 = win) := by
    apply Board.ext
    · funext k
      simp only [Look.board, Look.close, Board.wipe, Function.update_apply]
      split_ifs <;> rfl
    · funext i
      simp only [Look.board, Look.close, Board.wipe]
      split_ifs <;> rfl
  have hwindow : ∀ k i, l.board.record k = some i → (k.1 = win ↔ i.1 = win) := fun k i hi => by
    rw [window_of_record hi]
  have hsound := hboard ▸ sound_wipe h.sound hwindow
  refine ⟨hboard, h.counted, fun win' n' hn' => ?_, fun name win' => ?_, fun win' hwin' => ?_,
    fun win' n' hn' => ?_, fun win' id m hm => ?_, hsound⟩
  · simp only [Look.close, Function.update_apply] at hn'
    split_ifs at hn'
    exact h.window win' n' hn'
  · simp only [Look.close, Function.update_apply]
    rw [lookup_erase_eq_some, h.named]
    constructor
    · rintro ⟨hname, n', hn', rfl⟩
      have hwin : win' ≠ win := by
        rintro rfl
        rw [hn] at hn'
        cases hn'
        exact hname rfl
      exact ⟨n', by rw [if_neg hwin, hn'], rfl⟩
    · rintro ⟨n', hn', rfl⟩
      split_ifs at hn' with hwin
      refine ⟨fun heq => hwin ?_, n', hn', rfl⟩
      have hlookup := (h.named n'.name win').mpr ⟨n', hn', rfl⟩
      rw [heq, (h.named n.name win).mpr ⟨n, hn, rfl⟩] at hlookup
      exact (Option.some.inj hlookup).symm
  · simp only [Look.Bare, Look.close, Function.update_apply] at hwin' ⊢
    split_ifs at hwin' ⊢
    · exact ⟨rfl, fun _ => rfl⟩
    · exact h.closed win' hwin'
  · simp only [Look.close, Function.update_apply] at hn' ⊢
    split_ifs at hn' ⊢
    exact h.typed win' n' hn'
  · simp only [Look.close] at hm ⊢
    split_ifs at hm
    exact h.placed win' id m hm

end Vimgdb.Vim.Signs
