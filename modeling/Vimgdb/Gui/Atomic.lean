import Vimgdb.Gui.Windows
import Vimgdb.Lib.Nesting
import Vimgdb.Lib.Runs

/-!
# Atomic sections

`win_print`, `win_clear` and `win_anno_add` open an atomic section of their own unless one is open
already, and close it again.

* `At low d b`: the messages sent open `d` more sections than they close, no prefix of them fewer than
  `low`, and `in_atomic` is `b`.
* `Paired`: no section is closed that is not open, and those open are the ones of `win_atomic`.
* `post_winAnnoAdd`, `post_winAnnoAdd_unknown`: a window that does not exist is the exception, as the
  section is closed without being opened.
* `run_paired_iff`: the runs in which the sections are paired.
-/

namespace Vimgdb.Vim

open Programs Nesting Runs

/-! ## Sections -/

/-- The message opens a section. -/
def Message.isStart : Message → Bool
  | startAtomic => true
  | _ => false

/-- The message closes a section. -/
def Message.isEnd : Message → Bool
  | endAtomic => true
  | _ => false

/-- `startAtomic` and `endAtomic` aside, the messages do not matter. -/
def Message.Neutral (m : Message) : Prop := m.isStart = false ∧ m.isEnd = false

/-- The sections open after the messages sent, the lowest number so far, and the flag. -/
structure At (low d : Int) (b : Bool) (ui : Vimui) : Prop where
  windows : ∀ win, (ui.bufidMap.lookup win).isSome → win.slt 0 = false
  notBelow : NotBelow Message.isStart Message.isEnd low ui.sent
  depth : depth Message.isStart Message.isEnd ui.sent = d
  inAtomic : ui.inAtomic = b

/-- The number of sections inside an operation's own one. -/
def inner (d : Int) (b : Bool) : Int := if b then d else d + 1

variable {low d : Int} {b : Bool} {s t : Vimui}

theorem At.low_le (h : At low d b s) : low ≤ d := h.depth ▸ h.notBelow.le

/-- What `At` depends on. -/
theorem At.congr (h : At low d b s) (hsent : t.sent = s.sent) (hin : t.inAtomic = s.inAtomic)
    (hmap : ∀ win, (t.bufidMap.lookup win).isSome → (s.bufidMap.lookup win).isSome) :
    At low d b t where
  windows win hwin := h.windows win (hmap win hwin)
  notBelow := hsent ▸ h.notBelow
  depth := hsent ▸ h.depth
  inAtomic := hin.trans h.inAtomic

/-- A change of a buffer changes no other part. -/
theorem At.modifyBuffer (h : At low d b s) (win : BitVec 32) (f : Buffer → Buffer) :
    At low d b (s.modifyBuffer win f) := by
  unfold Vimui.modifyBuffer
  split
  · rename_i buf hwin
    refine At.congr (s := s) h rfl rfl fun win' hwin' => ?_
    by_cases heq : win' = win
    · rw [heq, hwin]
      rfl
    · rwa [AList.lookup_insert_ne heq] at hwin'
  · exact h

/-- One more message. -/
theorem At.concat (h : At low d b s) (m : Message) :
    At (min low (d + weight Message.isStart Message.isEnd m))
      (d + weight Message.isStart Message.isEnd m) b { s with sent := s.sent ++ [m] } where
  windows := h.windows
  notBelow := by
    apply (h.notBelow.mono (Int.min_le_left _ _)).concat
    rw [h.depth]
    exact Int.min_le_right _ _
  depth := by rw [depth_concat, h.depth]
  inAtomic := h.inAtomic

theorem weight_of_neutral {m : Message} (hm : m.Neutral) :
    weight Message.isStart Message.isEnd m = 0 := by
  unfold weight
  rw [hm.1, hm.2]
  rfl

theorem At.concat_neutral (h : At low d b s) {m : Message} (hm : m.Neutral) :
    At low d b { s with sent := s.sent ++ [m] } := by
  have hconcat := h.concat m
  rwa [weight_of_neutral hm, Int.add_zero, Int.min_eq_left h.low_le] at hconcat

/-! ## Messages that do not matter -/

/-- A command is sent, or its window is negative. -/
theorem post_action {m : Message} {Q : PUnit → Vimui → Prop} {E : Unit → Vimui → Prop}
    (hQ : m.toAction.bufId.slt 0 = false → Q ⟨⟩ { s with sent := s.sent ++ [m] })
    (hE : m.toAction.bufId.slt 0 = true → E () s) : Post (action m) Q E s := by
  unfold action
  split
  · rename_i hneg
    simpa using hE hneg
  · rename_i hneg
    simpa using hQ (by simpa using hneg)

theorem keeps_action {m : Message} (hm : m.Neutral) : Keeps (At low d b) (action m) :=
  fun _ hs => post_action (fun _ => hs.concat_neutral hm) fun _ => hs

section Operations

variable {replies : Nat → Option Cursor}

/-- A function is sent. -/
theorem post_request {m : Message} (hm : m.Neutral) (h : At low d b s) {E : Unit → Vimui → Prop}
    (hE : m.toAction.bufId.slt 0 = true → E () s) :
    Post (request replies m) (fun _ => At low d b) E s := by
  unfold request
  rw [post_bind]
  refine post_action (fun _ => ?_) hE
  simp only [post_bind, post_get, post_set, post_pure]
  exact (h.concat_neutral hm).congr rfl rfl fun _ h => h

theorem keeps_request {m : Message} (hm : m.Neutral) : Keeps (At low d b) (request replies m) :=
  fun _ hs => post_request hm hs fun _ => hs

theorem keeps_modifyBuffer (win : BitVec 32) (f : Buffer → Buffer) :
    Keeps (At low d b) (modify fun ui => ui.modifyBuffer win f : Ui PUnit) :=
  keeps_modify fun _ hs => hs.modifyBuffer win f

theorem keeps_winCursorSet (win line col : BitVec 32) :
    Keeps (At low d b) (winCursorSet win line col) := by
  unfold winCursorSet
  split
  · refine keeps_get.bind fun ui => ?_
    split
    · exact keeps_action ⟨rfl, rfl⟩
    · exact keeps_throw ()
  · exact keeps_action ⟨rfl, rfl⟩

/-! ## Opening and closing -/

/-- The flag is set. -/
theorem At.setAtomic (h : At low d b s) (b' : Bool) : At low d b' { s with inAtomic := b' } where
  windows := h.windows
  notBelow := h.notBelow
  depth := h.depth
  inAtomic := rfl

/-- The cursor of vim is read: no window is named, so nothing is refused. -/
theorem post_getCursor (h : At low d b s) {E : Unit → Vimui → Prop} :
    Post (getCursor replies) (fun _ => At low d b) E s := by
  unfold getCursor
  rw [post_bind, post_modify, post_bind]
  have hreset : At low d b { s with cursor := none } := h.congr rfl rfl fun _ h => h
  refine (post_request ⟨rfl, rfl⟩ hreset nofun).mono (fun c t ht => ?_) fun _ _ h => h
  rw [post_modify]
  exact ht.congr rfl rfl fun _ h => h

theorem keeps_preserveCursor (win : BitVec 32) :
    Keeps (At low d b) (preserveCursor replies win) := by
  unfold preserveCursor
  refine keeps_get.bind fun ui => ?_
  split
  · exact keeps_pure ()
  · apply Keeps.onlyIf
    refine (keeps_modifyBuffer win _).bind fun _ => ?_
    refine (keeps_action ⟨rfl, rfl⟩).bind fun _ => ?_
    exact (keeps_request ⟨rfl, rfl⟩).bind fun c => keeps_modifyBuffer win _

/-- One more section is open, also if `atomic` fails behind `startAtomic`. -/
theorem post_atomicBegin (win : BitVec 32) (apply : Bool) (h : At low d b s) :
    Post (atomicBegin replies win apply) (fun _ => At low (d + 1) (b || apply))
      (fun _ => At low (d + 1) (b || apply)) s := by
  unfold atomicBegin
  rw [post_bind]
  refine post_action (fun _ => ?_) nofun
  have hstart : At low (d + 1) b { s with sent := s.sent ++ [.startAtomic] } := by
    have hconcat := h.concat .startAtomic
    have hle := h.low_le
    rwa [show weight Message.isStart Message.isEnd .startAtomic = 1 from rfl,
      Int.min_eq_left (by omega)] at hconcat
  rw [post_bind]
  refine (post_getCursor hstart).mono (fun _ t ht => ?_) fun _ _ h => h
  rw [post_bind, post_onlyIf]
  cases apply
  · rw [Bool.or_false]
    exact keeps_preserveCursor win t ht
  · rw [Bool.or_true]
    exact post_modify.mpr (keeps_preserveCursor win _ (ht.setAtomic true))

/-- The cursor of a window is set back, if it has one. -/
theorem post_restoreCursor (win : BitVec 32) (h : At low d b s) {E : Unit → Vimui → Prop} :
    Post (restoreCursor win) (fun _ => At low d b) E s := by
  unfold restoreCursor
  rw [post_bind, post_get]
  split
  · exact post_pure.mpr h
  · rename_i buf hbuf
    have hwin : win.slt 0 = false := h.windows win (by rw [hbuf]; rfl)
    rw [post_onlyIf]
    split
    · unfold setCursor
      split
      · exact post_undefined
      · -- the window exists, so the cursor can be set
        rename_i c hc
        unfold winCursorSet
        split
        · rw [post_bind, post_get, hbuf]
          refine post_action (fun _ => h.concat_neutral ⟨rfl, rfl⟩) fun hneg => ?_
          exact absurd (hwin.symm.trans hneg) nofun
        · refine post_action (fun _ => h.concat_neutral ⟨rfl, rfl⟩) fun hneg => ?_
          exact absurd (hwin.symm.trans hneg) nofun
    · exact h

theorem post_resetCursor (h : At low d b s) {E : Unit → Vimui → Prop} :
    Post resetCursor (fun _ => At low d b) E s := by
  unfold resetCursor
  rw [post_bind, post_get]
  split
  · exact post_pure.mpr h
  · rename_i c hc
    rw [post_onlyIf]
    split
    · rename_i hpos
      refine post_action (fun _ => h.concat_neutral ⟨rfl, rfl⟩) fun hneg => ?_
      have hneg : c.bufid.slt 0 = true := hneg
      rw [BitVec.slt_iff_toInt_lt] at hpos hneg
      exact absurd (hpos.trans hneg) (Int.lt_irrefl _)
    · exact h

/-- One section is closed: `atomic` does not fail in front of `endAtomic`. -/
theorem post_atomicEnd (win : BitVec 32) (apply : Bool) (h : At low d b s)
    {E : Unit → Vimui → Prop} :
    Post (atomicEnd replies win apply) (fun _ => At (min low (d - 1)) (d - 1) (b && !apply)) E s := by
  unfold atomicEnd
  rw [post_bind]
  refine (post_restoreCursor win h).mono (fun _ t ht => ?_) fun _ _ h => h
  rw [post_bind]
  refine (post_resetCursor ht).mono (fun _ u hu => ?_) fun _ _ h => h
  rw [post_bind]
  refine post_action (fun _ => ?_) nofun
  have hend := hu.concat .endAtomic
  rw [show weight Message.isStart Message.isEnd .endAtomic = -1 from rfl, ← Int.sub_eq_add_neg]
    at hend
  rw [post_bind, post_onlyIf]
  cases apply
  · rw [if_neg nofun, Bool.not_false, Bool.and_true, post_attempt]
    exact post_getCursor hend
  · rw [if_pos rfl, post_modify, Bool.not_true, Bool.and_false, post_attempt]
    exact post_getCursor (hend.setAtomic false)

/-! ## The section of an operation -/

/-- The section is opened, unless one is. -/
theorem post_open (win : BitVec 32) (h : At low d b s) {E : Unit → Vimui → Prop} :
    Post (attempt (atomic replies win true false)) (fun _ => At low (inner d b) b) E s := by
  unfold atomic
  rw [post_attempt, post_bind, post_get, h.inAtomic]
  cases b
  · rw [if_neg nofun, if_pos rfl]
    exact post_atomicBegin win false h
  · exact post_pure.mpr h

/-- The section is closed, unless it was open before. -/
theorem post_close (win : BitVec 32) (h : At low (inner d b) b s) (hle : low ≤ d)
    {E : Unit → Vimui → Prop} :
    Post (attempt (atomic replies win false false)) (fun _ => At low d b) E s := by
  unfold atomic
  rw [post_attempt, post_bind, post_get, h.inAtomic]
  cases b
  · rw [if_neg nofun, if_neg nofun]
    refine (post_atomicEnd win false h).mono (fun _ t ht => ?_) fun _ _ h => h
    have ht : At (min low (d + 1 - 1)) (d + 1 - 1) false t := ht
    rwa [Int.add_sub_cancel, Int.min_eq_left hle] at ht
  · exact post_pure.mpr h

theorem post_writable (win : BitVec 32) {m : Message} (hm : m.Neutral) (len : BitVec 32)
    (readonly : Bool) (h : At low d b s) {E : Unit → Vimui → Prop} :
    Post (writable replies win m len readonly) (fun _ => At low d b) E s := by
  have hreadonly : ∀ (ro : Bool) (t : Vimui), At low d b t →
      Post (onlyIf readonly (attempt (action (.setReadOnly win ro)))) (fun _ => At low d b) E t := by
    intro ro t ht
    rw [post_onlyIf]
    split
    · exact (keeps_action ⟨rfl, rfl⟩).noError ht
    · exact ht
  unfold writable
  rw [post_bind]
  refine (hreadonly false s h).mono (fun _ t ht => ?_) fun _ _ h => h
  rw [post_bind]
  have hrequest : Keeps (At low d b) (do let _ ← request replies m : Ui Unit) :=
    (keeps_request hm).bind fun _ => keeps_pure ()
  refine (hrequest.noError ht).mono (fun _ u hu => ?_) fun _ _ h => h
  rw [post_bind, post_modify]
  exact hreadonly true _ (hu.modifyBuffer win _)

theorem keeps_winPrint (win : BitVec 32) (text : CStr) :
    Keeps (At low d b) (winPrint replies win text) := by
  intro s hs
  unfold winPrint
  split
  · exact post_pure.mpr hs
  · rw [post_bind, post_get]
    split
    · exact post_pure.mpr hs
    · rw [post_bind]
      refine (post_open win hs).mono (fun _ t ht => ?_) fun _ _ h => h
      rw [post_bind]
      refine (post_writable win ⟨rfl, rfl⟩ _ _ ht).mono (fun _ u hu => ?_) fun _ _ h => h
      rw [post_bind, post_get, post_bind, post_onlyIf]
      split
      · refine ((keeps_action ⟨rfl, rfl⟩).noError hu).mono (fun _ v hv => ?_) fun _ _ h => h
        exact post_close win hv hs.low_le
      · exact post_close win hu hs.low_le

theorem keeps_winClear (win : BitVec 32) : Keeps (At low d b) (winClear replies win) := by
  intro s hs
  unfold winClear
  rw [post_bind, post_get]
  split
  · exact post_pure.mpr hs
  · rw [post_bind]
    refine (post_open win hs).mono (fun _ t ht => ?_) fun _ _ h => h
    rw [post_bind]
    refine (post_writable win ⟨rfl, rfl⟩ _ _ ht).mono (fun _ u hu => ?_) fun _ _ h => h
    exact post_close win hu hs.low_le

/-! ## Annotations -/

theorem keeps_annoType (win : BitVec 32) (buf : Buffer) (sign : CStr) (colorFg colorBg : Word) :
    Keeps (At low d b) (annoType win buf sign colorFg colorBg) := by
  unfold annoType
  extract_lets key annotype
  split
  · refine (keeps_action ⟨rfl, rfl⟩).bind fun _ => ?_
    exact (keeps_modifyBuffer win _).bind fun _ => keeps_pure _
  · exact keeps_pure _

/-- The annotation of a window that exists is added inside a section. -/
theorem post_winAnnoAdd {win : BitVec 32} (line : BitVec 32) (sign : CStr) (colorFg colorBg : Word)
    (h : At low d b s) (hwin : b = true ∨ (s.bufidMap.lookup win).isSome) :
    Post (winAnnoAdd replies win line sign colorFg colorBg) (fun _ => At low d b)
      (fun _ => At low d b) s := by
  unfold winAnnoAdd
  rw [post_tryCatch]
  -- an error leads to the end of the section, if one was opened
  have herror : ∀ t, At low (inner d b) b t →
      Post (do attempt (atomic replies win false false); throw () : Ui Unit) (fun _ => At low d b)
        (fun _ => At low d b) t := by
    intro t ht
    rw [post_bind]
    exact (post_close win ht h.low_le).mono (fun _ u hu => post_throw.mpr hu) fun _ _ h => h
  rw [post_bind, post_get]
  split
  · rename_i hnone
    obtain rfl : b = true := hwin.resolve_right (by rw [hnone]; nofun)
    exact post_throw.mpr (herror s h)
  · rw [post_bind]
    refine (post_open win h).mono (fun _ t ht => ?_) fun _ _ h => h
    rw [post_bind]
    refine (keeps_annoType win _ _ _ _ t ht).mono (fun annotype u hu => ?_) fun _ u hu => herror u hu
    rw [post_bind, post_get, post_bind]
    refine (keeps_action ⟨rfl, rfl⟩ u hu).mono (fun _ v hv => ?_) fun _ v hv => herror v hv
    rw [post_bind, post_modify, post_bind, post_modify]
    refine post_close win ?_ h.low_le
    exact (hv.modifyBuffer win _).congr rfl rfl fun _ h => h

/-- For a window that does not exist a section is closed that was not opened. -/
theorem post_winAnnoAdd_unknown {win : BitVec 32} (line : BitVec 32) (sign : CStr)
    (colorFg colorBg : Word) (h : At low d false s) (hwin : s.bufidMap.lookup win = none) :
    Post (winAnnoAdd replies win line sign colorFg colorBg)
      (fun _ => At (min low (d - 1)) (d - 1) false)
      (fun _ => At (min low (d - 1)) (d - 1) false) s := by
  unfold winAnnoAdd
  rw [post_tryCatch, post_bind, post_get, hwin]
  rw [post_throw, post_bind, post_attempt]
  unfold atomic
  rw [post_bind, post_get, h.inAtomic, if_neg nofun, if_neg nofun]
  exact (post_atomicEnd win false h (E := fun _ _ => False)).mono
    (fun _ t ht => post_throw.mpr ht) fun _ _ hf => hf.elim

theorem keeps_winAnnoDelete (win line : BitVec 32) (sign : CStr) :
    Keeps (At low d b) (winAnnoDelete win line sign) := by
  unfold winAnnoDelete
  refine keeps_get.bind fun ui => ?_
  split
  · exact keeps_throw ()
  · extract_lets key
    split
    · exact keeps_pure ()
    · exact (keeps_action ⟨rfl, rfl⟩).bind fun _ => keeps_modifyBuffer win _

/-! ## The other operations -/

/-- The id that is taken is not negative. -/
theorem post_announce (name : CStr) (h : At low d b s) :
    Post (announce name) (fun id t => id.slt 0 = false ∧ At low d b t) (fun _ => At low d b) s := by
  unfold announce
  rw [post_bind, post_get]
  extract_lets id
  rw [post_bind, post_set]
  have hnext : At low d b { s with bufid := id + 1 } := h.congr rfl rfl fun _ h => h
  split
  · exact post_throw.mpr hnext
  · rename_i hid
    have hfile : (if name.head? = some '/' then Message.editFile id name
        else .putBufferNumber id s.cwd name).Neutral := by
      split <;> exact ⟨rfl, rfl⟩
    rw [post_bind]
    refine ((keeps_action hfile).noError hnext).mono (fun _ t ht => ?_) fun _ _ h => h
    rw [post_bind]
    refine ((keeps_action ⟨rfl, rfl⟩).noError ht).mono (fun _ u hu => ?_) fun _ _ h => h
    exact post_pure.mpr ⟨by simpa using hid, hu⟩

theorem keeps_create (name : CStr) : Keeps (At low d b) (create name) := by
  intro s hs
  unfold create register
  rw [post_bind]
  refine (post_announce name hs).mono (fun id t ⟨hid, ht⟩ => ?_) fun _ _ h => h
  rw [post_bind, post_modify, post_pure]
  refine { ht with windows := fun win hwin => ?_ }
  by_cases heq : win = id
  · rwa [heq]
  · have hwin : ((t.bufidMap.insert id { name := fullName t.cwd name }).lookup win).isSome := hwin
    rw [AList.lookup_insert_ne heq] at hwin
    exact ht.windows win hwin

theorem keeps_winCreate (name : Option CStr) : Keeps (At low d b) (winCreate name) := by
  unfold winCreate
  split
  · exact keeps_throw ()
  · refine keeps_get.bind fun ui => ?_
    extract_lets id
    split
    · exact keeps_pure _
    · exact keeps_create _

theorem keeps_remove (win : BitVec 32) : Keeps (At low d b) (remove win) := by
  intro s hs
  unfold remove
  rw [post_bind, post_get]
  split
  · exact post_throw.mpr hs
  · rename_i buf hbuf
    split
    · exact post_undefined
    · rw [post_set]
      refine At.congr (s := s) hs rfl rfl fun win' hwin' => ?_
      by_cases heq : win' = win
      · rw [heq, hbuf]
        rfl
      · rwa [AList.lookup_erase_ne heq] at hwin'

theorem keeps_winDestroy (win : BitVec 32) : Keeps (At low d b) (winDestroy win) :=
  (keeps_action ⟨rfl, rfl⟩).bind fun _ => keeps_remove win

theorem keeps_winCursorPreserve (win : BitVec 32) (pc : Bool) :
    Keeps (At low d b) (winCursorPreserve win pc) := by
  unfold winCursorPreserve
  refine keeps_get.bind fun ui => ?_
  split
  · exact keeps_throw ()
  · exact keeps_modifyBuffer win _

theorem keeps_winReadonly (win : BitVec 32) (ro : Bool) :
    Keeps (At low d b) (winReadonly win ro) := by
  unfold winReadonly
  refine keeps_get.bind fun ui => ?_
  split
  · exact keeps_throw ()
  · refine (keeps_modifyBuffer win _).bind fun _ => ?_
    exact (keeps_action ⟨rfl, rfl⟩).attempt

theorem post_winAtomic (win : BitVec 32) (en : Bool) (h : At low d b s) :
    Post (winAtomic replies win en)
      (fun _ => if en then At low (d + 1) true else At (min low (d - 1)) (d - 1) false)
      (fun _ => if en then At low (d + 1) true else At (min low (d - 1)) (d - 1) false) s := by
  unfold winAtomic atomic
  rw [post_bind, post_get, Bool.not_true, Bool.and_false, if_neg nofun]
  cases en
  · simpa using post_atomicEnd win true h
  · simpa using post_atomicBegin win true h

end Operations

/-! ## Runs -/

/-- The user interface, and the number of calls of `win_atomic` that begin and that end a section. -/
structure Session where
  ui : Vimui
  begun : Nat := 0
  ended : Nat := 0

/-- The first state. -/
def Session.init (cwd : CStr) : Session := ⟨{ cwd }, 0, 0⟩

/-- The operation is a call of `win_atomic` for a begin, or an end. -/
def Op.isAtomic (en : Bool) : Op → Bool
  | .winAtomic _ en' => en == en'
  | _ => false

/-- An operation. -/
structure Step (replies : Nat → Option Cursor) (s : Session) (op : Op) (t : Session) : Prop where
  call : ∃ r, exec (op.call replies) s.ui = some (r, t.ui)
  begun : t.begun = s.begun + if op.isAtomic true then 1 else 0
  ended : t.ended = s.ended + if op.isAtomic false then 1 else 0

/-- No prefix of the messages closes more sections than it opens, and as many are open as calls of
`win_atomic` have begun and not ended. -/
structure Paired (s : Session) : Prop where
  nested : ∀ ms, ms <+: s.ui.sent → ms.countP Message.isEnd ≤ ms.countP Message.isStart
  depth : (s.ui.sent.countP Message.isStart : Int) - s.ui.sent.countP Message.isEnd =
    s.begun - s.ended

/-- No call of `win_atomic` ends a section that none has begun, and no annotation is added to a window
that does not exist unless a section is open. -/
def Matched (s : Session) : Op → Prop
  | .winAtomic _ en => en = true ∨ s.ended < s.begun
  | .winAnnoAdd win .. => s.ui.inAtomic = true ∨ (s.ui.bufidMap.lookup win).isSome
  | _ => True

/-- The invariant of the runs. -/
def Session.Inv (s : Session) : Prop := At 0 (s.begun - s.ended) s.ui.inAtomic s.ui

variable {replies : Nat → Option Cursor} {s t : Session} {op : Op}

theorem Session.Inv.paired (h : s.Inv) : Paired s where
  nested := notBelow_zero_iff.mp h.notBelow
  depth := h.depth

theorem inv_init (cwd : CStr) : (Session.init cwd).Inv where
  windows _ h := absurd h nofun
  notBelow := notBelow_nil (Int.le_refl 0)
  depth := rfl
  inAtomic := rfl

/-- What holds at the end of a call. -/
theorem Step.of_post (h : Step replies s op t) {I : Vimui → Prop}
    (hpost : Post (op.call replies) (fun _ => I) (fun _ => I) s.ui) : I t.ui := by
  obtain ⟨r, hr⟩ := h.call
  exact hpost.holds hr

/-- The step of a call. -/
theorem step_of_exec {r : Except Unit Unit} {u : Vimui}
    (h : exec (op.call replies) s.ui = some (r, u)) :
    Step replies s op ⟨u, s.begun + (if op.isAtomic true then 1 else 0),
      s.ended + (if op.isAtomic false then 1 else 0)⟩ :=
  ⟨⟨r, h⟩, rfl, rfl⟩

/-- An operation other than `win_atomic` and `win_anno_add` keeps the sections. -/
theorem Step.keeps (h : Step replies s op t) (hatomic : ∀ en, op.isAtomic en = false)
    {b : Bool} (hpost : Post (op.call replies) (fun _ => At 0 (s.begun - s.ended) b)
      (fun _ => At 0 (s.begun - s.ended) b) s.ui) : t.Inv := by
  have ht := h.of_post hpost
  have hbegun := h.begun
  have hended := h.ended
  rw [hatomic, if_neg nofun, Nat.add_zero] at hbegun hended
  unfold Session.Inv
  rw [hbegun, hended, ht.inAtomic]
  exact ht

theorem keeps_discard {low d : Int} {b : Bool} {α : Type} {p : Ui α} (hp : Keeps (At low d b) p) :
    Keeps (At low d b) (do let _ ← p : Ui Unit) :=
  hp.bind fun _ => keeps_pure ()

/-- A step that is matched keeps the invariant. -/
theorem Session.Inv.step (h : s.Inv) (hstep : Step replies s op t) (hmatched : Matched s op) :
    t.Inv := by
  cases op with
  | winAtomic win en =>
      have ht := hstep.of_post (post_winAtomic win en h)
      have hbegun := hstep.begun
      have hended := hstep.ended
      have hmatched : en = true ∨ s.ended < s.begun := hmatched
      unfold Session.Inv
      cases en
      · have hlt := hmatched.resolve_left nofun
        have ht : At (min 0 (s.begun - s.ended - 1)) (s.begun - s.ended - 1) false t.ui := ht
        rw [Int.min_eq_left (by omega)] at ht
        have hbegun : t.begun = s.begun := hbegun
        have hended : t.ended = s.ended + 1 := hended
        rw [ht.inAtomic, hbegun, hended]
        convert ht using 1
        omega
      · have ht : At 0 (s.begun - s.ended + 1) true t.ui := ht
        have hbegun : t.begun = s.begun + 1 := hbegun
        have hended : t.ended = s.ended := hended
        rw [ht.inAtomic, hbegun, hended]
        convert ht using 1
        omega
  | winCreate name => exact hstep.keeps (fun _ => rfl) (keeps_discard (keeps_winCreate name) _ h)
  | create name => exact hstep.keeps (fun _ => rfl) (keeps_discard (keeps_create name) _ h)
  | winDestroy win => exact hstep.keeps (fun _ => rfl) (keeps_winDestroy win _ h)
  | winAnnoAdd win line sign colorFg colorBg =>
      exact hstep.keeps (fun _ => rfl) (post_winAnnoAdd line sign colorFg colorBg h hmatched)
  | winAnnoDelete win line sign =>
      exact hstep.keeps (fun _ => rfl) (keeps_winAnnoDelete win line sign _ h)
  | winCursorSet win line col =>
      exact hstep.keeps (fun _ => rfl) (keeps_winCursorSet win line col _ h)
  | winCursorPreserve win pc =>
      exact hstep.keeps (fun _ => rfl) (keeps_winCursorPreserve win pc _ h)
  | winReadonly win ro => exact hstep.keeps (fun _ => rfl) (keeps_winReadonly win ro _ h)
  | winPrint win text => exact hstep.keeps (fun _ => rfl) (keeps_winPrint win text _ h)
  | winClear win => exact hstep.keeps (fun _ => rfl) (keeps_winClear win _ h)

/-- From a state with the invariant, a step leads to paired sections iff it is matched. -/
theorem Session.Inv.paired_iff (h : s.Inv) (hstep : Step replies s op t) :
    Paired t ↔ Matched s op := by
  constructor
  · intro hpaired
    have hnested := hpaired.nested _ (List.prefix_refl _)
    have hdepth := hpaired.depth
    cases op with
    | winAtomic win en =>
        cases en
        · right
          have hbegun : t.begun = s.begun + 0 := hstep.begun
          have hended : t.ended = s.ended + 1 := hstep.ended
          omega
        · exact Or.inl rfl
    | winAnnoAdd win line sign colorFg colorBg =>
        by_contra hnot
        have hnot : ¬ (s.ui.inAtomic = true ∨ (s.ui.bufidMap.lookup win).isSome = true) := hnot
        rw [not_or, Bool.not_eq_true, Option.not_isSome_iff_eq_none] at hnot
        have hs : At 0 (s.begun - s.ended) false s.ui := hnot.1 ▸ h
        have ht := hstep.of_post (post_winAnnoAdd_unknown line sign colorFg colorBg hs hnot.2)
        have hbegun : t.begun = s.begun + 0 := hstep.begun
        have hended : t.ended = s.ended + 0 := hstep.ended
        have hless := ht.depth
        unfold Nesting.depth at hless
        omega
    | winCreate | create | winDestroy | winAnnoDelete | winCursorSet | winCursorPreserve
    | winReadonly | winPrint | winClear => trivial
  · intro hmatched
    exact (h.step hstep hmatched).paired

/-- **The runs in which the sections are paired** are those in which no call of `win_atomic` ends a
section that none has begun and no annotation is added to an unknown window outside of a section. -/
theorem run_paired_iff (replies : Nat → Option Cursor) (cwd : CStr) (ops : List Op) (t : Session) :
    Run (fun s op t => Step replies s op t ∧ Paired t) (Session.init cwd) ops t ↔
      Run (fun s op t => Step replies s op t ∧ Matched s op) (Session.init cwd) ops t :=
  @Run.guarded_iff _ _ _ Session.Inv (fun _ _ t => Paired t) (fun s op _ => Matched s op) _
    (inv_init cwd) (fun _ _ _ h hstep hmatched => h.step hstep hmatched)
    (fun _ _ _ h hstep => h.paired_iff hstep) ops t

/-- Vim has closed the buffer of a breakpoint: its annotation closes a section that is not open. -/
theorem closed_window_unpaired :
    ∃ t, Run (Step fun _ => none) (Session.init "/src".toList)
        [.winCreate (some "/src/a.c".toList), .winDestroy 1,
          .winAnnoAdd 1 3 "b".toList ⟨"Black".toList, by decide⟩ ⟨"DarkRed".toList, by decide⟩] t ∧
      t.ui.sent.countP Message.isStart = 0 ∧ t.ui.sent.countP Message.isEnd = 1 ∧ ¬ Paired t := by
  refine ⟨_, Run.snoc (Run.snoc (Run.snoc Run.nil (step_of_exec rfl)) (step_of_exec rfl))
    (step_of_exec rfl), rfl, rfl, fun h => ?_⟩
  exact absurd h.depth (by decide)

end Vimgdb.Vim
