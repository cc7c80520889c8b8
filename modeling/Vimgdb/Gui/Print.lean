import Vimgdb.Common.Printf
import Vimgdb.Gui.Windows

/-!
# Printing texts

The views show the text of a buffer, and a thread shows the output of the debugged program, with
`win_print`.  Most of them pass the text as the format.

* `Ostr.grow`: the loop that makes room for a text.
* `winVprint`: `win_print` with a format and its arguments.
* `Site`: the calls of it that show a text.
* `inferiorOutput`: the thread for the output of the debugged program.
* `Appends`: a text is appended to a window.
* `appends_iff`: the texts that are appended as they are.
-/

namespace Vimgdb.Vim

open Programs
open Printf (vsnprintf)

/-! ## The calls -/

/-- What `vsnprintf` returns for a text, an `int`. -/
def returned (text : CStr) : BitVec 32 := if text.length < 2 ^ 31 then BitVec.ofNat 32 text.length else -1

/-- The loop that makes room for a text of a length.  A length that has been doubled to 0 stays 0, and the
loop does not end. -/
def Ostr.grow (ostr : Ostr) (len : BitVec 32) : Option Ostr :=
  if len < ostr.len then some ostr
  else if h : ostr.doubled + 1 < 24 then grow ⟨ostr.doubled + 1, h⟩ len
  else none
termination_by 24 - ostr.doubled

section Calls

-- the replies of vim to the functions, in order
variable (replies : Nat → Option Cursor)

/-- `win_print`: nothing is formatted for a window that is not there. -/
def winVprint (win : BitVec 32) (fmt : CStr) (args : List Printf.Arg) : Ui Unit := do
  if win.sle 0 then pure ()
  else
    match (← get).bufidMap.lookup win with
    | none => pure ()
    | some _ =>
        match vsnprintf fmt args with
        | none => undefined
        | some text =>
            match (← get).ostr.grow (returned text) with
            | none => undefined
            | some ostr =>
                modify fun ui => { ui with ostr }
                winPrint replies win text

/-- The functions that show a text. -/
inductive Site
  | breakptPrint | callstackPrint | gdbReadline | inferiorOutput | memoryUpdate | perUpdate
  | registerPrint | varPrint
  deriving DecidableEq, Repr

/-- The text is passed behind the format `%s`. -/
def Site.quoted : Site → Bool
  | callstackPrint | gdbReadline => true
  | _ => false

/-- The call of `win_print` for a text. -/
def Site.print (site : Site) (win : BitVec 32) (text : CStr) : Ui Unit :=
  if site.quoted then winVprint replies win "%s".toList [.str text]
  else winVprint replies win text []

/-- The lines `thread_inferior_output` collects, each with its newline: a carriage return is
ignored. -/
def outputLines (line : CStr) : CStr → List CStr
  | [] => []
  | c :: input =>
      if c = '\r' then outputLines line input
      else if c = '\n' then (line ++ [c]) :: outputLines [] input
      else outputLines (line ++ [c]) input

/-- `thread_inferior_output`, for what is read from the terminal while the window is there. -/
def inferiorOutput (win : BitVec 32) (input : CStr) : Ui Unit :=
  (outputLines [] input).forM fun line => Site.inferiorOutput.print replies win line

end Calls

/-! ## What is appended -/

/-- The text a message inserts in a window. -/
def Message.inserted (win : BitVec 32) : Message → CStr
  | insert w _ text => if w = win then text else []
  | _ => []

/-- The text the messages insert in a window. -/
def inserted (win : BitVec 32) (sent : List Message) : CStr := sent.flatMap (Message.inserted win)

/-- The window is there. -/
def Vimui.HasWindow (win : BitVec 32) (ui : Vimui) : Prop := (ui.bufidMap.lookup win).isSome = true

/-- The program is defined wherever the window is there, and what it inserts is the text. -/
def Appends (win : BitVec 32) (p : Ui Unit) (text : CStr) : Prop :=
  ∀ ui : Vimui, ui.HasWindow win →
    Returns p (fun _ ui' => inserted win ui'.sent = inserted win ui.sent ++ text ∧ ui'.HasWindow win) ui

section Printing

variable {replies : Nat → Option Cursor} {win : BitVec 32} {s : Vimui} {text : CStr}

theorem inserted_concat (sent : List Message) (m : Message) :
    inserted win (sent ++ [m]) = inserted win sent ++ m.inserted win := by
  unfold inserted
  rw [List.flatMap_append, List.flatMap_singleton]

theorem lookup_modifyBuffer (ui : Vimui) (win : BitVec 32) (f : Buffer → Buffer) :
    (ui.modifyBuffer win f).bufidMap.lookup win = (ui.bufidMap.lookup win).map f := by
  unfold Vimui.modifyBuffer
  cases h : ui.bufidMap.lookup win with
  | none => exact h
  | some buf => exact AList.lookup_insert _

theorem sent_modifyBuffer (ui : Vimui) (win : BitVec 32) (f : Buffer → Buffer) :
    (ui.modifyBuffer win f).sent = ui.sent := by
  unfold Vimui.modifyBuffer
  split <;> rfl

theorem inAtomic_modifyBuffer (ui : Vimui) (win : BitVec 32) (f : Buffer → Buffer) :
    (ui.modifyBuffer win f).inAtomic = ui.inAtomic := by
  unfold Vimui.modifyBuffer
  split <;> rfl

/-- A cursor that will be set back is known. -/
def Buffer.Ready (buf : Buffer) : Prop := buf.preserve = true → buf.cursor.isSome = true

/-- Nothing is inserted in the window, and its buffer is as it was. -/
structure Same (win : BitVec 32) (s u : Vimui) : Prop where
  inserted : inserted win u.sent = inserted win s.sent
  lookup : u.bufidMap.lookup win = s.bufidMap.lookup win
  inAtomic : u.inAtomic = s.inAtomic

theorem Same.trans {u v : Vimui} (h : Same win s u) (h' : Same win u v) : Same win s v where
  inserted := h'.inserted.trans h.inserted
  lookup := h'.lookup.trans h.lookup
  inAtomic := h'.inAtomic.trans h.inAtomic

/-- A message that inserts nothing is sent. -/
theorem Same.concat {m : Message} (hm : m.inserted win = []) :
    Same win s { s with sent := s.sent ++ [m] } where
  inserted := by rw [inserted_concat, hm, List.append_nil]
  lookup := rfl
  inAtomic := rfl

/-- A message that inserts nothing is sent. -/
theorem returns_action_same {m : Message} (h : m.toAction.bufId.slt 0 = false)
    (hm : m.inserted win = []) : Returns (action m) (fun _ => Same win s) s :=
  (returns_action m h).mpr (Same.concat hm)

theorem returns_getCursor (win : BitVec 32) : Returns (getCursor replies) (fun _ => Same win s) s := by
  unfold getCursor
  rw [returns_bind, returns_modify, returns_bind, returns_request .getCursor rfl, returns_modify]
  exact ⟨by rw [inserted_concat]; exact List.append_nil _, rfl, rfl⟩

theorem returns_winCursorSet (hwin : win.slt 0 = false) (hs : s.HasWindow win)
    (line col : BitVec 32) : Returns (winCursorSet win line col) (fun _ => Same win s) s := by
  unfold winCursorSet
  split
  · rw [returns_bind, returns_get]
    split
    · exact returns_action_same hwin rfl
    · next hnone =>
      unfold Vimui.HasWindow at hs
      rw [hnone] at hs
      cases hs
  · exact returns_action_same hwin rfl

theorem returns_restoreCursor (hwin : win.slt 0 = false) {buf : Buffer}
    (hbuf : s.bufidMap.lookup win = some buf) (hready : buf.Ready) :
    Returns (restoreCursor win) (fun _ => Same win s) s := by
  have hrefl : Same win s s := ⟨rfl, rfl, rfl⟩
  unfold restoreCursor
  rw [returns_bind, returns_get, hbuf]
  unfold onlyIf
  by_cases hp : buf.preserve = true
  · obtain ⟨c, hc⟩ := Option.isSome_iff_exists.mp (hready hp)
    show Returns (if buf.preserve = true then setCursor win buf.cursor else pure ()) _ s
    rw [if_pos hp, hc]
    exact returns_winCursorSet hwin (by rw [Vimui.HasWindow, hbuf]; rfl) _ _
  · show Returns (if buf.preserve = true then setCursor win buf.cursor else pure ()) _ s
    rw [if_neg hp]
    exact returns_pure.mpr hrefl

theorem returns_resetCursor (win : BitVec 32) : Returns resetCursor (fun _ => Same win s) s := by
  have hrefl : Same win s s := ⟨rfl, rfl, rfl⟩
  unfold resetCursor
  rw [returns_bind, returns_get]
  split
  · exact returns_pure.mpr hrefl
  · next c hc =>
    unfold onlyIf
    split
    · next hpos =>
      have hnonneg : c.bufid.slt 0 = false := by
        by_contra hneg
        rw [Bool.not_eq_false, BitVec.slt_iff_toInt_lt] at hneg
        rw [BitVec.slt_iff_toInt_lt] at hpos
        exact absurd (hneg.trans hpos) (Int.lt_irrefl _)
      exact returns_action_same hnonneg rfl
    · exact returns_pure.mpr hrefl

/-- The commands are made complete. -/
theorem returns_close (hwin : win.slt 0 = false) {buf : Buffer}
    (hbuf : s.bufidMap.lookup win = some buf) (hready : s.inAtomic = false → buf.Ready) :
    Returns (atomic replies win false false) (fun _ => Same win s) s := by
  have hrefl : Same win s s := ⟨rfl, rfl, rfl⟩
  unfold atomic
  rw [returns_bind, returns_get]
  by_cases hin : s.inAtomic = true
  · rw [hin]
    exact returns_pure.mpr hrefl
  · rw [Bool.eq_false_iff.mpr hin]
    show Returns (atomicEnd replies win false) _ s
    unfold atomicEnd
    rw [returns_bind]
    refine (returns_restoreCursor hwin hbuf (hready (Bool.eq_false_iff.mpr hin))).mono fun _ t ht => ?_
    rw [returns_bind]
    refine (returns_resetCursor win).mono fun _ u hu => ?_
    rw [returns_bind, returns_action .endAtomic rfl]
    show Returns (attempt (getCursor replies)) _ _
    exact ((returns_getCursor win).mono fun _ v hv =>
      ((ht.trans hu).trans (Same.concat rfl)).trans hv).attempt

/-- The commands are opened; the cursor is known then. -/
theorem returns_open (hanswered : ∀ n, (replies n).isSome = true) (hwin : win.slt 0 = false)
    (hs : s.HasWindow win) :
    Returns (atomic replies win true false) (fun _ u => inserted win u.sent = inserted win s.sent ∧
      ∃ buf, u.bufidMap.lookup win = some buf ∧ (u.inAtomic = false → buf.Ready)) s := by
  obtain ⟨buf, hbuf⟩ := Option.isSome_iff_exists.mp hs
  unfold atomic
  rw [returns_bind, returns_get]
  by_cases hin : s.inAtomic = true
  · rw [hin]
    exact returns_pure.mpr ⟨rfl, buf, hbuf, fun hf => absurd (hin.symm.trans hf) (by decide)⟩
  · rw [Bool.eq_false_iff.mpr hin]
    show Returns (atomicBegin replies win false) _ s
    unfold atomicBegin
    rw [returns_bind, returns_action .startAtomic rfl, returns_bind]
    refine (returns_getCursor win).mono fun _ t ht => ?_
    have ht' : Same win s t := (Same.concat rfl).trans ht
    show Returns (preserveCursor replies win) _ t
    unfold preserveCursor
    rw [returns_bind, returns_get, ht'.lookup, hbuf]
    show Returns (if buf.preserve = true then _ else pure ()) _ t
    by_cases hp : buf.preserve = true
    · rw [if_pos hp, returns_bind, returns_modify, returns_bind, returns_action (.initDone win) hwin,
        returns_bind, returns_request .getCursor rfl, returns_modify]
      refine ⟨?_, ?_⟩
      · rw [sent_modifyBuffer, inserted_concat, inserted_concat, sent_modifyBuffer, ht'.inserted]
        exact (List.append_nil _).trans (List.append_nil _)
      · rw [lookup_modifyBuffer]
        show ∃ b, Option.map _ ((t.modifyBuffer win _).bufidMap.lookup win) = some b ∧ _
        rw [lookup_modifyBuffer, ht'.lookup, hbuf]
        exact ⟨_, rfl, fun _ _ => hanswered _⟩
    · rw [if_neg hp]
      exact returns_pure.mpr ⟨ht'.inserted, buf, ht'.lookup.trans hbuf, fun _ h => absurd h hp⟩

/-- A command that inserts nothing is tried, or not. -/
theorem returns_onlyIf_action (c : Bool) {m : Message} (h : m.toAction.bufId.slt 0 = false)
    (hm : m.inserted win = []) : Returns (onlyIf c (attempt (action m))) (fun _ => Same win s) s := by
  cases c
  · exact returns_pure.mpr ⟨rfl, rfl, rfl⟩
  · exact (returns_action_same h hm).attempt

/-- The buffer is made writable, or read-only again. -/
theorem returns_setReadOnly (hwin : win.slt 0 = false) (c ro : Bool) (s : Vimui) :
    Returns (onlyIf c (attempt (action (.setReadOnly win ro)))) (fun _ => Same win s) s :=
  returns_onlyIf_action c hwin rfl

/-- The cursor is set behind the text. -/
theorem returns_setDotOffset (hwin : win.slt 0 = false) (c : Bool) (offset : BitVec 32) (s : Vimui) :
    Returns (onlyIf c (attempt (action (.setDotOffset win offset)))) (fun _ => Same win s) s :=
  returns_onlyIf_action c hwin rfl

/-- The text is inserted. -/
theorem returns_writable (hwin : win.slt 0 = false) {buf : Buffer}
    (hbuf : s.bufidMap.lookup win = some buf) (hready : s.inAtomic = false → buf.Ready)
    (offset len : BitVec 32) (readonly : Bool) :
    Returns (writable replies win (.insert win offset text) len readonly)
      (fun _ u => inserted win u.sent = inserted win s.sent ++ text ∧
        ∃ buf, u.bufidMap.lookup win = some buf ∧ (u.inAtomic = false → buf.Ready)) s := by
  unfold writable
  rw [returns_bind]
  refine (returns_setReadOnly hwin readonly false s).mono fun _ t ht => ?_
  rw [returns_bind]
  apply Returns.attempt
  rw [returns_bind, returns_request (.insert win offset text) hwin, returns_pure, returns_bind,
    returns_modify]
  refine (returns_setReadOnly hwin readonly true _).mono fun _ u hu => ?_
  constructor
  · rw [hu.inserted, sent_modifyBuffer, inserted_concat, ht.inserted]
    simp only [Message.inserted, if_pos]
  · rw [hu.lookup, lookup_modifyBuffer, ht.lookup, hbuf, hu.inAtomic, inAtomic_modifyBuffer,
      ht.inAtomic]
    exact ⟨_, rfl, hready⟩

/-- `win_print` appends its text. -/
theorem winPrint_appends (hanswered : ∀ n, (replies n).isSome = true) (hwin : win.sle 0 = false)
    (text : CStr) : Appends win (winPrint replies win text) text := by
  intro s hs
  have hnonneg : win.slt 0 = false := by
    by_contra hneg
    rw [Bool.not_eq_false, BitVec.slt_iff_toInt_lt] at hneg
    rw [Bool.eq_false_iff, Ne, BitVec.sle_iff_toInt_le] at hwin
    exact hwin (Int.le_of_lt hneg)
  obtain ⟨buf, hbuf⟩ := Option.isSome_iff_exists.mp hs
  unfold winPrint
  rw [if_neg (by rw [hwin]; decide), returns_bind, returns_get, hbuf]
  show Returns (_ >>= _) _ s
  rw [returns_bind]
  refine ((returns_open hanswered hnonneg hs).mono ?_).attempt
  rintro _ t ⟨ht, b, hb, hready⟩
  rw [returns_bind]
  refine (returns_writable hnonneg hb hready _ _ _).mono ?_
  rintro _ u ⟨hu, b, hb, hready⟩
  rw [returns_bind, returns_get, returns_bind]
  refine (returns_setDotOffset hnonneg _ _ u).mono fun _ v hv => ?_
  refine ((returns_close hnonneg (hv.lookup.trans hb) (hv.inAtomic ▸ hready)).mono
    fun _ w hw => ?_).attempt
  constructor
  · rw [hw.inserted, hv.inserted, hu, ht]
  · rw [Vimui.HasWindow, hw.lookup, hv.lookup, hb]
    rfl

/-- The window may be there. -/
theorem exists_hasWindow (win : BitVec 32) : ∃ ui : Vimui, ui.HasWindow win := by
  refine ⟨{ cwd := [], bufidMap := (∅ : AList _).insert win { name := [] } }, ?_⟩
  unfold Vimui.HasWindow
  rw [AList.lookup_insert]
  rfl

theorem Ostr.toNat_len (ostr : Ostr) : ostr.len.toNat = 256 * 2 ^ ostr.doubled := by
  have hle : 2 ^ ostr.doubled ≤ 2 ^ 23 := Nat.pow_le_pow_right (by decide) (Nat.le_of_lt_succ ostr.fits)
  unfold Ostr.len
  rw [BitVec.toNat_shiftLeft, Nat.shiftLeft_eq]
  exact Nat.mod_eq_of_lt (by show 256 * 2 ^ ostr.doubled < 2 ^ 32; omega)

/-- The loop ends for the lengths that an `int` has. -/
theorem Ostr.grow_isSome_iff (ostr : Ostr) (len : BitVec 32) :
    (ostr.grow len).isSome = true ↔ len.toNat < 2 ^ 31 := by
  fun_induction Ostr.grow ostr len with
  | case1 ostr hlt =>
      have hle : 2 ^ ostr.doubled ≤ 2 ^ 23 := Nat.pow_le_pow_right (by decide) (Nat.le_of_lt_succ ostr.fits)
      rw [BitVec.lt_def, ostr.toNat_len] at hlt
      exact iff_of_true rfl (by omega)
  | case2 ostr hlt h ih => exact ih
  | case3 ostr hlt h =>
      have hlast : ostr.doubled = 23 := by
        have hfits := ostr.fits
        omega
      rw [BitVec.lt_def, ostr.toNat_len, hlast] at hlt
      exact iff_of_false nofun hlt

theorem returned_lt_iff (text : CStr) : (returned text).toNat < 2 ^ 31 ↔ text.length < 2 ^ 31 := by
  unfold returned
  split
  · next h =>
      rw [BitVec.toNat_ofNat, Nat.mod_eq_of_lt (Nat.lt_trans h (by decide))]
  · next h => exact iff_of_false (by decide) h

/-- What is printed for a format, if it can be formatted and the loop ends. -/
def formatted (fmt : CStr) (args : List Printf.Arg) : Option CStr :=
  (vsnprintf fmt args).filter (·.length < 2 ^ 31)

theorem formatted_eq_some_iff {fmt : CStr} {args : List Printf.Arg} :
    formatted fmt args = some text ↔ vsnprintf fmt args = some text ∧ text.length < 2 ^ 31 := by
  unfold formatted
  rw [Option.filter_eq_some_iff, decide_eq_true_eq]

/-- For a window that is there, the format decides what is printed. -/
theorem exec_winVprint (hwin : win.sle 0 = false) (hs : s.HasWindow win) (fmt : CStr)
    (args : List Printf.Arg) : ∃ ostr, exec (winVprint replies win fmt args) s =
      (formatted fmt args).bind fun text => exec (winPrint replies win text) { s with ostr } := by
  obtain ⟨buf, hbuf⟩ := Option.isSome_iff_exists.mp hs
  unfold winVprint formatted
  rw [if_neg (by rw [hwin]; decide), exec_get_bind]
  rw [hbuf]
  rcases vsnprintf fmt args with _ | text
  · exact ⟨s.ostr, rfl⟩
  dsimp only
  rw [exec_get_bind]
  have hgrow := s.ostr.grow_isSome_iff (returned text)
  rw [returned_lt_iff] at hgrow
  rcases hostr : s.ostr.grow (returned text) with _ | ostr
  · rw [hostr] at hgrow
    rw [Option.filter_some_neg (by simpa using mt hgrow.mpr (by decide))]
    exact ⟨s.ostr, rfl⟩
  · rw [hostr] at hgrow
    rw [Option.filter_some_pos (by simpa using hgrow.mp rfl)]
    exact ⟨ostr, rfl⟩

/-- What a format makes of its arguments is appended, and nothing else. -/
theorem winVprint_appends_iff (hanswered : ∀ n, (replies n).isSome = true)
    (hwin : win.sle 0 = false) (fmt : CStr) (args : List Printf.Arg) (text : CStr) :
    Appends win (winVprint replies win fmt args) text ↔ formatted fmt args = some text := by
  constructor
  · intro h
    obtain ⟨s, hs⟩ := exists_hasWindow win
    obtain ⟨a, u, hexec, hu, -⟩ := h _ hs
    obtain ⟨ostr, hprint⟩ := exec_winVprint hwin hs fmt args
    rw [hprint] at hexec
    cases hfmt : formatted fmt args with
    | none =>
        rw [hfmt] at hexec
        cases hexec
    | some t =>
        rw [hfmt, Option.bind_some] at hexec
        obtain ⟨a', u', hexec', hu', -⟩ := winPrint_appends hanswered hwin t { s with ostr } hs
        rw [hexec] at hexec'
        cases hexec'
        rw [hu] at hu'
        rw [List.append_cancel_left hu']
  · intro h s hs
    obtain ⟨ostr, hprint⟩ := exec_winVprint hwin hs fmt args
    obtain ⟨a, u, hexec, hu⟩ := winPrint_appends hanswered hwin text { s with ostr } hs
    refine ⟨a, u, ?_, hu⟩
    rw [hprint, h, Option.bind_some, hexec]

/-- A text is appended as it is where it is not the format, or has no percent sign; it ends at a 0, and it is
not longer than an `int` says. -/
theorem print_appends_iff (hanswered : ∀ n, (replies n).isSome = true) (hwin : win.sle 0 = false)
    (site : Site) (text : CStr) :
    Appends win (site.print replies win text) text ↔
      '\x00' ∉ text ∧ (site.quoted = true ∨ '%' ∉ text) ∧ text.length < 2 ^ 31 := by
  unfold Site.print
  by_cases hq : site.quoted = true
  · rw [if_pos hq, winVprint_appends_iff hanswered hwin, formatted_eq_some_iff, Printf.vsnprintf_string,
      Option.some_inj, Printf.scanned_eq_self_iff]
    exact and_congr_right' (and_iff_right (Or.inl hq)).symm
  · rw [if_neg hq, winVprint_appends_iff hanswered hwin, formatted_eq_some_iff, Printf.vsnprintf_eq_self_iff,
      and_assoc]
    exact and_congr_right' (and_congr_left' (or_iff_right hq).symm)

/-! ## The output of the debugged program -/

/-- Lines that are formats without arguments are printed one behind the other. -/
theorem returns_lines (hanswered : ∀ n, (replies n).isSome = true) (hwin : win.sle 0 = false)
    {lines texts : List CStr} (h : lines.mapM (fun line => formatted line []) = some texts)
    (hs : s.HasWindow win) :
    Returns (lines.forM fun line => winVprint replies win line [])
      (fun _ u => inserted win u.sent = inserted win s.sent ++ texts.flatten ∧ u.HasWindow win) s := by
  induction lines generalizing s texts with
  | nil =>
      cases h
      exact returns_pure.mpr ⟨(List.append_nil _).symm, hs⟩
  | cons line lines ih =>
      rw [List.mapM_cons] at h
      simp only [Option.bind_eq_bind, Option.bind_eq_some_iff] at h
      obtain ⟨text, htext, texts', htexts, heq⟩ := h
      cases heq
      show Returns (winVprint replies win line [] >>= fun _ =>
        lines.forM fun line => winVprint replies win line []) _ s
      rw [returns_bind]
      refine ((winVprint_appends_iff hanswered hwin line [] text).mpr htext s hs).mono ?_
      rintro _ t ⟨ht, hwindow⟩
      refine (ih htexts hwindow).mono ?_
      rintro _ u ⟨hu, hwindow⟩
      exact ⟨by rw [hu, ht, List.flatten_cons, List.append_assoc], hwindow⟩

/-- A line that cannot be formatted makes the thread undefined. -/
theorem exec_lines_eq_none (hanswered : ∀ n, (replies n).isSome = true) (hwin : win.sle 0 = false)
    {lines : List CStr} (h : lines.mapM (fun line => formatted line []) = none)
    (hs : s.HasWindow win) :
    exec (lines.forM fun line => winVprint replies win line []) s = none := by
  induction lines generalizing s with
  | nil => cases h
  | cons line lines ih =>
      show exec (winVprint replies win line [] >>= fun _ =>
        lines.forM fun line => winVprint replies win line []) s = none
      rw [exec_bind]
      cases htext : formatted line [] with
      | none =>
          obtain ⟨ostr, hprint⟩ := exec_winVprint hwin hs line []
          rw [hprint, htext]
          rfl
      | some text =>
          obtain ⟨a, t, hexec, -, hwindow⟩ :=
            (winVprint_appends_iff hanswered hwin line [] text).mpr htext s hs
          rw [hexec]
          refine ih ?_ hwindow
          rw [List.mapM_cons, htext] at h
          cases hrest : lines.mapM fun line => formatted line [] with
          | none => rfl
          | some texts =>
              rw [hrest] at h
              cases h

/-- Lines are printed as they are if and only if each of them is. -/
theorem mapM_formatted_iff (lines : List CStr) :
    lines.mapM (fun line => formatted line []) = some lines ↔
      ∀ line ∈ lines, '\x00' ∉ line ∧ '%' ∉ line ∧ line.length < 2 ^ 31 := by
  induction lines with
  | nil => exact ⟨fun _ line hmem => absurd hmem List.not_mem_nil, fun _ => rfl⟩
  | cons line lines ih =>
      rw [List.forall_mem_cons, ← ih, ← and_assoc, ← Printf.vsnprintf_eq_self_iff, ← formatted_eq_some_iff,
        List.mapM_cons]
      cases formatted line [] with
      | none => simp
      | some text =>
          cases lines.mapM fun line => formatted line [] with
          | none => simp
          | some texts => simp

/-- The lines are no longer than what they are made of, and as long only if they are the same. -/
theorem eq_of_flatten_eq {lines texts : List CStr}
    (h : lines.mapM (fun line => formatted line []) = some texts) :
    texts.flatten.length ≤ lines.flatten.length ∧
      (texts.flatten.length = lines.flatten.length → texts = lines) := by
  induction lines generalizing texts with
  | nil =>
      cases h
      exact ⟨Nat.le_refl _, fun _ => rfl⟩
  | cons line lines ih =>
      rw [List.mapM_cons] at h
      simp only [Option.bind_eq_bind, Option.bind_eq_some_iff] at h
      obtain ⟨text, htext, texts', htexts, heq⟩ := h
      cases heq
      obtain ⟨hle, heq⟩ := ih htexts
      obtain ⟨htext, -⟩ := formatted_eq_some_iff.mp htext
      obtain ⟨hle', hlt⟩ := Printf.length_of_vsnprintf htext
      simp only [List.flatten_cons, List.length_append]
      refine ⟨by omega, fun hsum => ?_⟩
      have hself : vsnprintf line [] = some line := by
        rw [Printf.vsnprintf_eq_self_iff]
        refine ⟨fun hmem => ?_, fun hmem => ?_⟩
        · have := hlt (Or.inl hmem)
          omega
        · have := hlt (Or.inr hmem)
          omega
      rw [hself, Option.some_inj] at htext
      rw [heq (by rw [htext] at hsum; omega), htext]

/-- The lines of the debugged program are appended as they are if and only if none has a percent sign
or a 0, or is too long. -/
theorem inferiorOutput_appends_iff (hanswered : ∀ n, (replies n).isSome = true)
    (hwin : win.sle 0 = false) (input : CStr) :
    Appends win (inferiorOutput replies win input) (outputLines [] input).flatten ↔
      ∀ line ∈ outputLines [] input, '\x00' ∉ line ∧ '%' ∉ line ∧ line.length < 2 ^ 31 := by
  have hprint : inferiorOutput replies win input =
      (outputLines [] input).forM fun line => winVprint replies win line [] := rfl
  rw [hprint, ← mapM_formatted_iff]
  generalize outputLines [] input = lines
  constructor
  · intro h
    obtain ⟨s, hs⟩ := exists_hasWindow win
    obtain ⟨a, u, hexec, hu, -⟩ := h _ hs
    cases htexts : lines.mapM fun line => formatted line [] with
    | none =>
        rw [exec_lines_eq_none hanswered hwin htexts hs] at hexec
        cases hexec
    | some texts =>
        obtain ⟨a', u', hexec', hu', -⟩ := returns_lines hanswered hwin htexts hs
        rw [hexec] at hexec'
        cases hexec'
        rw [hu] at hu'
        have hflat := List.append_cancel_left hu'
        rw [(eq_of_flatten_eq htexts).2 (congrArg List.length hflat.symm)]
  · intro h s hs
    exact returns_lines hanswered hwin h hs

end Printing

/-! ## All texts -/

/-- A text is appended to a window as it is if and only if it has no 0, it has no percent sign where it is
passed as the format, and its length is one of an `int`. -/
theorem appends_iff (replies : Nat → Option Cursor) (hanswered : ∀ n, (replies n).isSome = true)
    (win : BitVec 32) (hwin : win.sle 0 = false) :
    (∀ site text, Appends win (Site.print replies site win text) text ↔
      '\x00' ∉ text ∧ (site.quoted = true ∨ '%' ∉ text) ∧ text.length < 2 ^ 31) ∧
    (∀ input, Appends win (inferiorOutput replies win input) (outputLines [] input).flatten ↔
      ∀ line ∈ outputLines [] input, '\x00' ∉ line ∧ '%' ∉ line ∧ line.length < 2 ^ 31) :=
  ⟨print_appends_iff hanswered hwin, inferiorOutput_appends_iff hanswered hwin⟩

/-- A value without a percent sign is shown. -/
theorem value_appended :
    Appends 1 (Site.print (fun _ => some ⟨1, 1, 0⟩) .varPrint 1 "x = 42\n".toList)
      "x = 42\n".toList :=
  ((appends_iff (fun _ => some ⟨1, 1, 0⟩) (fun _ => rfl) 1 (by decide)).1 .varPrint _).mpr
    ⟨by decide, Or.inr (by decide), by decide⟩

/-- Two percent signs are shown as one. -/
theorem percent_not_appended :
    ¬ Appends 1 (inferiorOutput (fun _ => some ⟨1, 1, 0⟩) 1 "50%% done\r\n".toList)
      "50%% done\n".toList := by
  intro h
  have hlines : outputLines [] "50%% done\r\n".toList = ["50%% done\n".toList] := by decide
  have hiff := @inferiorOutput_appends_iff (fun _ => some ⟨1, 1, 0⟩) 1 (fun _ => rfl) (by decide)
    "50%% done\r\n".toList
  rw [hlines] at hiff
  exact absurd (hiff.mp h _ (List.mem_singleton.mpr rfl)).2.1 (by decide)

end Vimgdb.Vim
