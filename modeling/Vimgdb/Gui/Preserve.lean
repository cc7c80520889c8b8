import Vimgdb.Gui.Atomic

/-!
# Cursors that are preserved

`atomic` reads the cursor of a window that preserves it when a section begins, and sets it back when a
section ends.  Sections of several threads share the cursor of a window.

* `Looks`: what the operations depend on; `looks_atomicBegin`, `looks_winPrint`, …: what they do to it.
* `Session`, `Step`: the calls of the threads, with the sections they have open and what was asked last.
* `Restores`, `RestoresOwn`: the cursor that is set back is the one that the section, or the call with a
  section of its own, has read.
* `restores_iff`: the states in which it is.
-/

namespace Vimgdb.Vim.Preserve

open Programs Runs

/-! ## What the operations depend on -/

/-- The flags and the cursors of the windows, the cursor of vim, the functions that have been asked for,
and the flag. -/
structure Looks (f : BitVec 32 → Option (Bool × Option Cursor)) (c : Option Cursor) (n : Nat) (b : Bool)
    (ui : Vimui) : Prop where
  window : ∀ win, (ui.bufidMap.lookup win).map (fun buf => (buf.preserve, buf.cursor)) = f win
  vim : ui.cursor = c
  asked : ui.asked = n
  inAtomic : ui.inAtomic = b

/-- The windows have numbers that are not negative. -/
def Nonneg (f : BitVec 32 → Option (Bool × Option Cursor)) : Prop :=
  ∀ win, (f win).isSome → win.slt 0 = false

/-- The window is asked for its cursor. -/
def asks (f : BitVec 32 → Option (Bool × Option Cursor)) (win : BitVec 32) : Bool := (f win).any Prod.fst

/-- The cursor of a window that preserves it is read. -/
def capture (f : BitVec 32 → Option (Bool × Option Cursor)) (win : BitVec 32) (c : Option Cursor) :
    BitVec 32 → Option (Bool × Option Cursor) :=
  if asks f win then Function.update f win (some (true, c)) else f

variable {replies : Nat → Option Cursor} {f : BitVec 32 → Option (Bool × Option Cursor)}
  {c : Option Cursor} {n : Nat} {b : Bool} {s : Vimui}

theorem Looks.sent (h : Looks f c n b s) (ms : List Message) : Looks f c n b { s with sent := ms } :=
  ⟨h.window, h.vim, h.asked, h.inAtomic⟩

theorem Looks.setAtomic (h : Looks f c n b s) (b' : Bool) : Looks f c n b' { s with inAtomic := b' } :=
  ⟨h.window, h.vim, h.asked, rfl⟩

/-- A function is asked for. -/
theorem looks_request {m : Message} (hm : m.toAction.bufId.slt 0 = false) (h : Looks f c n b s) :
    Returns (request replies m) (fun r t => r = replies n ∧ Looks f c (n + 1) b t) s := by
  refine (returns_request m hm).mpr ⟨congrArg replies h.asked, h.window, h.vim, ?_, h.inAtomic⟩
  show s.asked + 1 = n + 1
  rw [h.asked]

theorem looks_getCursor (h : Looks f c n b s) :
    Returns (getCursor replies) (fun _ => Looks f (replies n) (n + 1) b) s := by
  unfold getCursor
  rw [returns_bind, returns_modify, returns_bind]
  have hreset : Looks f none n b { s with cursor := none } := ⟨h.window, rfl, h.asked, h.inAtomic⟩
  refine (looks_request rfl hreset).mono fun r t ht => ?_
  obtain ⟨rfl, ht⟩ := ht
  rw [returns_modify]
  exact ⟨ht.window, rfl, ht.asked, ht.inAtomic⟩

/-- A buffer is changed. -/
theorem Looks.modifyBuffer (h : Looks f c n b s) (win : BitVec 32) {change : Buffer → Buffer}
    {g : Bool × Option Cursor → Bool × Option Cursor}
    (hg : ∀ buf, ((change buf).preserve, (change buf).cursor) = g (buf.preserve, buf.cursor)) :
    Looks (Function.update f win ((f win).map g)) c n b (s.modifyBuffer win change) := by
  have hwin := h.window win
  unfold Vimui.modifyBuffer
  cases hlookup : s.bufidMap.lookup win with
  | none =>
      rw [hlookup] at hwin
      have hnone : f win = none := hwin.symm
      rw [hnone]
      have hsame : Function.update f win none = f := by
        rw [← hnone, Function.update_eq_self]
      show Looks (Function.update f win none) c n b s
      rwa [hsame]
  | some buf =>
      rw [hlookup] at hwin
      refine ⟨fun win' => ?_, h.vim, h.asked, h.inAtomic⟩
      by_cases heq : win' = win
      · subst heq
        rw [AList.lookup_insert, Function.update_self, ← hwin]
        exact congrArg some (hg buf)
      · rw [AList.lookup_insert_ne heq, Function.update_of_ne heq]
        exact h.window win'

/-- Other fields of a buffer do not matter. -/
theorem Looks.modifyOther (h : Looks f c n b s) (win : BitVec 32) {change : Buffer → Buffer}
    (hchange : ∀ buf, ((change buf).preserve, (change buf).cursor) = (buf.preserve, buf.cursor)) :
    Looks f c n b (s.modifyBuffer win change) := by
  have hmodify := h.modifyBuffer win (g := id) hchange
  rwa [Option.map_id, id, Function.update_eq_self] at hmodify

/-! ## Sections -/

theorem looks_preserveCursor (win : BitVec 32) (h : Looks f c n b s) (hf : Nonneg f) :
    Returns (preserveCursor replies win)
      (fun _ => Looks (capture f win (replies n)) c (n + (asks f win).toNat) b) s := by
  have hwin := h.window win
  unfold preserveCursor
  rw [returns_bind, returns_get]
  split
  · next hlookup =>
    rw [hlookup] at hwin
    have hasks : asks f win = false := by
      unfold asks
      rw [← hwin]
      rfl
    unfold capture
    rw [hasks]
    exact returns_pure.mpr h
  · next buf hlookup =>
    rw [hlookup] at hwin
    have hasks : asks f win = buf.preserve := by
      unfold asks
      rw [← hwin]
      rfl
    unfold capture
    rw [hasks, returns_onlyIf]
    cases hpreserve : buf.preserve with
    | false => exact h
    | true =>
        have hnonneg : win.slt 0 = false := hf win (by rw [← hwin]; rfl)
        have hset : (f win).map (fun p => (p.1, (none : Option Cursor))) = some (true, none) := by
          rw [← hwin, ← hpreserve]
          rfl
        rw [if_pos rfl, if_pos rfl, returns_bind, returns_modify, returns_bind]
        have hreset : Looks _ c n b (s.modifyBuffer win fun buf => { buf with cursor := none }) :=
          h.modifyBuffer win (g := fun p => (p.1, none)) fun buf => rfl
        have hinit : (Message.initDone win).toAction.bufId.slt 0 = false := hnonneg
        rw [hset] at hreset
        refine (returns_action _ hinit).mpr ?_
        rw [returns_bind]
        refine (looks_request rfl (hreset.sent _)).mono fun r t ht => ?_
        obtain ⟨rfl, ht⟩ := ht
        rw [returns_modify]
        have hread : Looks _ c (n + 1) b (t.modifyBuffer win fun buf => { buf with cursor := replies n }) :=
          ht.modifyBuffer win (g := fun p => (p.1, replies n)) fun buf => rfl
        rwa [Function.update_self, Function.update_idem] at hread

variable (replies) in
/-- A section begins. -/
theorem looks_atomicBegin (win : BitVec 32) (apply : Bool) (h : Looks f c n b s) (hf : Nonneg f) :
    Returns (atomicBegin replies win apply)
      (fun _ => Looks (capture f win (replies (n + 1))) (replies n) (n + 1 + (asks f win).toNat)
        (b || apply)) s := by
  unfold atomicBegin
  rw [returns_bind]
  refine (returns_action _ rfl).mpr ?_
  rw [returns_bind]
  refine (looks_getCursor (h.sent _)).mono fun _ t ht => ?_
  rw [returns_bind, returns_onlyIf]
  cases apply
  · rw [Bool.or_false]
    exact looks_preserveCursor win ht hf
  · rw [Bool.or_true]
    exact returns_modify.mpr (looks_preserveCursor win (ht.setAtomic true) hf)

/-- The message that sets the cursor of a window. -/
def dot (buf : Buffer) (win : BitVec 32) (c : Cursor) : Message :=
  if c.line = -1 then .setDotOffset win (buf.len - 1) else .setDot win c.line c.column

/-- A command is sent. -/
theorem exec_action {m : Message} (hm : m.toAction.bufId.slt 0 = false) :
    exec (action m) s = some (.ok (), { s with sent := s.sent ++ [m] }) := by
  unfold action
  rw [hm, if_neg nofun]
  rfl

theorem exec_restoreCursor (win : BitVec 32) : exec (restoreCursor win) s =
    match s.bufidMap.lookup win with
    | none => some (.ok (), s)
    | some buf => exec (onlyIf buf.preserve (setCursor win buf.cursor)) s := by
  unfold restoreCursor
  rw [exec_get_bind]
  cases s.bufidMap.lookup win <;> rfl

/-- The cursor of a window is set back. -/
theorem exec_setCursor {win : BitVec 32} {buf : Buffer} (c : Cursor) (hwin : win.slt 0 = false)
    (hbuf : s.bufidMap.lookup win = some buf) :
    exec (setCursor win (some c)) s = some (.ok (), { s with sent := s.sent ++ [dot buf win c] }) := by
  show exec (winCursorSet win c.line c.column) s = _
  unfold winCursorSet dot
  split
  · rw [exec_get_bind]
    rw [hbuf]
    exact exec_action hwin
  · exact exec_action hwin

theorem looks_restoreCursor {win : BitVec 32} (h : Looks f c n b s) (hf : Nonneg f)
    (hread : ∀ c, f win = some (true, c) → c.isSome) :
    Returns (restoreCursor win) (fun _ => Looks f c n b) s := by
  have hwin := h.window win
  unfold Returns
  rw [exec_restoreCursor]
  split
  · exact ⟨(), s, rfl, h⟩
  · next buf hbuf =>
    rw [hbuf] at hwin
    cases hpreserve : buf.preserve with
    | false => exact ⟨(), s, rfl, h⟩
    | true =>
        have hfwin : f win = some (true, buf.cursor) := by
          rw [← hwin, ← hpreserve]
          rfl
        obtain ⟨c', hc'⟩ := Option.isSome_iff_exists.mp (hread _ hfwin)
        have hnonneg : win.slt 0 = false := hf win (by rw [hfwin]; rfl)
        have hset := exec_setCursor c' hnonneg hbuf
        rw [← hc'] at hset
        exact ⟨(), _, hset, h.sent _⟩

theorem looks_resetCursor (h : Looks f c n b s) : Returns resetCursor (fun _ => Looks f c n b) s := by
  unfold resetCursor
  rw [returns_bind, returns_get]
  split
  · exact returns_pure.mpr h
  · next c' hc' =>
    rw [returns_onlyIf]
    split
    · next hpos =>
      have hnonneg : c'.bufid.slt 0 = false := by
        rw [BitVec.slt_iff_toInt_lt] at hpos
        rw [Bool.eq_false_iff]
        intro hneg
        exact Int.lt_irrefl _ (hpos.trans (BitVec.slt_iff_toInt_lt.mp hneg))
      have hdot : (Message.setDot c'.bufid c'.line c'.column).toAction.bufId.slt 0 = false := hnonneg
      exact (returns_action _ hdot).mpr (h.sent _)
    · exact h

variable (replies) in
/-- A section ends. -/
theorem looks_atomicEnd {win : BitVec 32} (apply : Bool) (h : Looks f c n b s) (hf : Nonneg f)
    (hread : ∀ c, f win = some (true, c) → c.isSome) :
    Returns (atomicEnd replies win apply) (fun _ => Looks f (replies n) (n + 1) (b && !apply)) s := by
  unfold atomicEnd
  rw [returns_bind]
  refine (looks_restoreCursor h hf hread).mono fun _ t ht => ?_
  rw [returns_bind]
  refine (looks_resetCursor ht).mono fun _ u hu => ?_
  rw [returns_bind]
  refine (returns_action _ rfl).mpr ?_
  rw [returns_bind, returns_onlyIf]
  have hend := hu.sent (u.sent ++ [.endAtomic])
  cases apply
  · rw [if_neg nofun, Bool.not_false, Bool.and_true]
    exact (looks_getCursor hend).attempt
  · rw [if_pos rfl, returns_modify, Bool.not_true, Bool.and_false]
    exact (looks_getCursor (hend.setAtomic false)).attempt

variable (replies) in
/-- A cursor that is missing is used. -/
theorem exec_atomicEnd_missing {win : BitVec 32} (apply : Bool) (h : Looks f c n b s)
    (hmissing : f win = some (true, none)) : exec (atomicEnd replies win apply) s = none := by
  have hwin := h.window win
  rw [hmissing] at hwin
  obtain ⟨buf, hbuf, heq⟩ := Option.map_eq_some_iff.mp hwin
  obtain ⟨hpreserve, hcursor⟩ := Prod.mk.inj heq
  unfold atomicEnd
  rw [exec_bind, exec_restoreCursor, hbuf]
  dsimp only
  rw [hpreserve, hcursor]
  rfl

/-- What an end leaves, if it is defined. -/
theorem post_atomicEnd_looks {win : BitVec 32} (apply : Bool) (h : Looks f c n b s) (hf : Nonneg f)
    {E : Unit → Vimui → Prop} :
    Post (atomicEnd replies win apply) (fun _ => Looks f (replies n) (n + 1) (b && !apply)) E s := by
  by_cases hmissing : f win = some (true, none)
  · intro r hr
    rw [exec_atomicEnd_missing replies apply h hmissing] at hr
    cases hr
  · refine (looks_atomicEnd replies apply h hf fun c hc => ?_).post
    cases c with
    | none => exact absurd hc hmissing
    | some c => rfl

theorem nonneg_capture {win : BitVec 32} {c : Option Cursor} (hf : Nonneg f) : Nonneg (capture f win c) := by
  unfold capture
  split
  · next hasks =>
    intro win' hwin'
    by_cases heq : win' = win
    · subst heq
      apply hf
      unfold asks at hasks
      cases hsome : f win' with
      | none =>
          rw [hsome] at hasks
          cases hasks
      | some p => rfl
    · rw [Function.update_of_ne heq] at hwin'
      exact hf win' hwin'
  · exact hf

/-! ## Texts -/

variable (replies) in
/-- A function on a buffer, which may have to be made writable for it. -/
theorem looks_writable {win : BitVec 32} {m : Message} (hwin : win.slt 0 = false)
    (hm : m.toAction.bufId.slt 0 = false) (len : BitVec 32) (readonly : Bool) (h : Looks f c n b s) :
    Returns (writable replies win m len readonly) (fun _ => Looks f c (n + 1) b) s := by
  have hreadonly : ∀ (k : Nat) (ro : Bool) (t : Vimui), Looks f c k b t →
      Returns (onlyIf readonly (attempt (action (.setReadOnly win ro)))) (fun _ => Looks f c k b) t := by
    intro k ro t ht
    have hset : (Message.setReadOnly win ro).toAction.bufId.slt 0 = false := hwin
    rw [returns_onlyIf]
    split
    · exact ((returns_action _ hset).mpr (ht.sent _)).attempt
    · exact ht
  unfold writable
  rw [returns_bind]
  refine (hreadonly n false s h).mono fun _ t ht => ?_
  rw [returns_bind]
  have hrequest : Returns (do let _ ← request replies m : Ui Unit) (fun _ => Looks f c (n + 1) b) t := by
    rw [returns_bind]
    exact (looks_request hm ht).mono fun r u hu => returns_pure.mpr hu.2
  refine hrequest.attempt.mono fun _ u hu => ?_
  rw [returns_bind, returns_modify]
  exact hreadonly (n + 1) true _ (hu.modifyOther win fun _ => rfl)

/-- The section of a call, in which `k` functions have been asked for. -/
def Inside (replies : Nat → Option Cursor) (f : BitVec 32 → Option (Bool × Option Cursor))
    (c : Option Cursor) (n : Nat) (b : Bool) (win : BitVec 32) (k : Nat) : Vimui → Prop :=
  if b then Looks f c (n + k) b
  else Looks (capture f win (replies (n + 1))) (replies n) (n + 1 + (asks f win).toNat + k) b

/-- What a call that prints or clears leaves: outside of a section it has one of its own. -/
def Written (replies : Nat → Option Cursor) (f : BitVec 32 → Option (Bool × Option Cursor))
    (c : Option Cursor) (n : Nat) (b : Bool) (win : BitVec 32) : Vimui → Prop :=
  if b then Looks f c (n + 1) b
  else Looks (capture f win (replies (n + 1))) (replies (n + 1 + (asks f win).toNat + 1))
    (n + 1 + (asks f win).toNat + 1 + 1) b

/-- The section of the call asks for a cursor, and there is none in the reply. -/
def Missing (replies : Nat → Option Cursor) (f : BitVec 32 → Option (Bool × Option Cursor)) (n : Nat)
    (b : Bool) (win : BitVec 32) : Prop :=
  b = false ∧ asks f win = true ∧ replies (n + 1) = none

variable (replies f c n b) in
theorem exists_inside (win : BitVec 32) :
    ∃ f' c' n', ∀ k t, Inside replies f c n b win k t ↔ Looks f' c' (n' + k) b t := by
  cases b
  · exact ⟨_, _, _, fun _ _ => Iff.rfl⟩
  · exact ⟨_, _, _, fun _ _ => Iff.rfl⟩

variable (replies) in
theorem looks_open (win : BitVec 32) (h : Looks f c n b s) (hf : Nonneg f) :
    Returns (attempt (atomic replies win true false)) (fun _ => Inside replies f c n b win 0) s := by
  unfold atomic Inside
  apply Returns.attempt
  rw [returns_bind, returns_get, h.inAtomic]
  cases b
  · rw [if_neg nofun, if_pos rfl, if_neg nofun]
    exact looks_atomicBegin replies win false h hf
  · exact returns_pure.mpr h

theorem capture_win {win : BitVec 32} {c c' : Option Cursor} (h : capture f win c win = some (true, c')) :
    asks f win = true ∧ c' = c := by
  unfold capture at h
  split at h
  · next hasks =>
    rw [Function.update_self] at h
    exact ⟨hasks, (Prod.mk.inj (Option.some.inj h)).2.symm⟩
  · next hasks =>
    refine absurd ?_ hasks
    unfold asks
    rw [h]
    rfl

/-- The section is closed behind one function. -/
theorem looks_close {win : BitVec 32} (hf : Nonneg f) (hread : ¬ Missing replies f n b win)
    (h : Inside replies f c n b win 1 s) :
    Returns (attempt (atomic replies win false false)) (fun _ => Written replies f c n b win) s := by
  unfold Inside at h
  unfold atomic Written
  apply Returns.attempt
  rw [returns_bind, returns_get]
  cases b
  · rw [if_neg nofun] at h
    rw [h.inAtomic, if_neg nofun, if_neg nofun, if_neg nofun]
    refine looks_atomicEnd replies false h (nonneg_capture hf) fun c' hc' => ?_
    obtain ⟨hasks, rfl⟩ := capture_win hc'
    by_contra hnone
    exact hread ⟨rfl, hasks, Option.not_isSome_iff_eq_none.mp hnone⟩
  · rw [if_pos rfl] at h
    rw [h.inAtomic]
    exact returns_pure.mpr h

/-- Outside of a section the one of a call is closed. -/
theorem exec_close_eq {win : BitVec 32} (h : s.inAtomic = false) :
    exec (atomic replies win false false) s = exec (atomicEnd replies win false) s := by
  unfold atomic
  rw [exec_get_bind]
  rw [h]
  rfl

theorem exec_close_missing {win : BitVec 32} (hmissing : Missing replies f n b win)
    (h : Inside replies f c n b win 1 s) : exec (attempt (atomic replies win false false)) s = none := by
  obtain ⟨rfl, hasks, hnone⟩ := hmissing
  unfold Inside at h
  rw [if_neg nofun, hnone] at h
  have hend := exec_atomicEnd_missing replies false h (by
    rw [capture, if_pos hasks, Function.update_self])
  rw [attempt, exec_tryCatch, exec_close_eq h.inAtomic, hend]
  rfl

variable (replies) in
theorem exists_close_winClear {win : BitVec 32} (h : Looks f c n b s) (hf : Nonneg f)
    (hsome : (f win).isSome) : ∃ v, Inside replies f c n b win 1 v ∧
      exec (winClear replies win) s = exec (attempt (atomic replies win false false)) v := by
  obtain ⟨buf, hbuf⟩ : ∃ buf, s.bufidMap.lookup win = some buf := by
    rw [← Option.isSome_iff_exists, ← Option.isSome_map, h.window win]
    exact hsome
  have hremove : (Message.remove win buf.len).toAction.bufId.slt 0 = false := hf win hsome
  obtain ⟨f', c', n', hinside⟩ := exists_inside replies f c n b win
  unfold winClear
  rw [exec_get_bind]
  rw [hbuf]
  dsimp only
  obtain ⟨_, t, ht, hexec⟩ := (looks_open replies win h hf).exec_bind _
  obtain ⟨_, u, hu, hexec'⟩ :=
    (looks_writable replies (hf win hsome) hremove 0 buf.readonly ((hinside 0 t).mp ht)).exec_bind _
  exact ⟨u, (hinside 1 u).mpr hu, hexec.trans hexec'⟩

variable (replies) in
theorem exists_close_winPrint {win : BitVec 32} (text : CStr) (h : Looks f c n b s) (hf : Nonneg f)
    (hsome : (f win).isSome) (hpos : win.sle 0 = false) : ∃ v, Inside replies f c n b win 1 v ∧
      exec (winPrint replies win text) s = exec (attempt (atomic replies win false false)) v := by
  obtain ⟨buf, hbuf⟩ : ∃ buf, s.bufidMap.lookup win = some buf := by
    rw [← Option.isSome_iff_exists, ← Option.isSome_map, h.window win]
    exact hsome
  have hinsert : (Message.insert win buf.len text).toAction.bufId.slt 0 = false := hf win hsome
  obtain ⟨f', c', n', hinside⟩ := exists_inside replies f c n b win
  unfold winPrint
  rw [hpos, if_neg nofun, exec_get_bind]
  dsimp only
  rw [hbuf]
  dsimp only
  obtain ⟨_, t, ht, hexec⟩ := (looks_open replies win h hf).exec_bind _
  obtain ⟨_, u, hu, hexec'⟩ :=
    (looks_writable replies (hf win hsome) hinsert _ buf.readonly ((hinside 0 t).mp ht)).exec_bind _
  -- the cursor of the window is set outside of a section
  have hdot : ∀ i, Returns (onlyIf (!u.inAtomic) (attempt (action (.setDotOffset win i))))
      (fun _ => Looks f' c' (n' + 1) b) u := by
    intro i
    have hset : (Message.setDotOffset win i).toAction.bufId.slt 0 = false := hf win hsome
    rw [returns_onlyIf]
    split
    · exact ((returns_action _ hset).mpr (hu.sent _)).attempt
    · exact hu
  obtain ⟨_, v, hv, hexec''⟩ := (hdot _).exec_bind _
  refine ⟨v, (hinside 1 v).mpr hv, hexec.trans (hexec'.trans ?_)⟩
  rw [exec_get_bind]
  exact hexec''

/-- What a call leaves that comes to the end of its section. -/
theorem post_of_close {win : BitVec 32} {p : Ui Unit} {v : Vimui} (hf : Nonneg f)
    (hv : Inside replies f c n b win 1 v)
    (hexec : exec p s = exec (attempt (atomic replies win false false)) v) {E : Unit → Vimui → Prop} :
    Post p (fun _ => Written replies f c n b win) E s := by
  intro r hr
  rw [hexec] at hr
  by_cases hmissing : Missing replies f n b win
  · rw [exec_close_missing hmissing hv] at hr
    cases hr
  · exact (looks_close hf hmissing hv).post r hr

/-- It is defined unless its section misses a cursor. -/
theorem defined_of_close {win : BitVec 32} {p : Ui Unit} {v : Vimui} (hf : Nonneg f)
    (hv : Inside replies f c n b win 1 v)
    (hexec : exec p s = exec (attempt (atomic replies win false false)) v) :
    exec p s ≠ none ↔ ¬ Missing replies f n b win := by
  rw [hexec]
  by_cases hmissing : Missing replies f n b win
  · exact iff_of_false (fun h => h (exec_close_missing hmissing hv)) (not_not_intro hmissing)
  · obtain ⟨a, t, hreturns, -⟩ := looks_close hf hmissing hv
    refine iff_of_true ?_ hmissing
    rw [hreturns]
    exact Option.some_ne_none _

theorem looks_winClear (win : BitVec 32) (h : Looks f c n b s) (hf : Nonneg f) {E : Unit → Vimui → Prop} :
    Post (winClear replies win)
      (fun _ => if (f win).isSome then Written replies f c n b win else Looks f c n b) E s := by
  by_cases hsome : (f win).isSome
  · obtain ⟨v, hv, hexec⟩ := exists_close_winClear replies h hf hsome
    rw [if_pos hsome]
    exact post_of_close hf hv hexec
  · have hlookup : s.bufidMap.lookup win = none := by
      rw [← Option.not_isSome_iff_eq_none, ← Option.isSome_map, h.window win]
      exact hsome
    unfold winClear
    rw [if_neg hsome, post_bind, post_get, hlookup]
    exact post_pure.mpr h

theorem looks_winPrint (win : BitVec 32) (text : CStr) (h : Looks f c n b s) (hf : Nonneg f)
    {E : Unit → Vimui → Prop} :
    Post (winPrint replies win text)
      (fun _ => if (f win).isSome ∧ win.sle 0 = false then Written replies f c n b win
        else Looks f c n b) E s := by
  by_cases hwrites : (f win).isSome ∧ win.sle 0 = false
  · obtain ⟨v, hv, hexec⟩ := exists_close_winPrint replies text h hf hwrites.1 hwrites.2
    rw [if_pos hwrites]
    exact post_of_close hf hv hexec
  · unfold winPrint
    rw [if_neg hwrites]
    split
    · exact post_pure.mpr h
    · next hpos =>
      have hlookup : s.bufidMap.lookup win = none := by
        rw [← Option.not_isSome_iff_eq_none, ← Option.isSome_map, h.window win]
        exact fun hsome => hwrites ⟨hsome, by simpa using hpos⟩
      rw [post_bind, post_get, hlookup]
      exact post_pure.mpr h

/-- The flag of a window is set. -/
theorem looks_winCursorPreserve (win : BitVec 32) (pc : Bool) (h : Looks f c n b s) :
    Post (winCursorPreserve win pc)
      (fun _ => Looks (Function.update f win ((f win).map fun p => (pc, p.2))) c n b)
      (fun _ => Looks (Function.update f win ((f win).map fun p => (pc, p.2))) c n b) s := by
  have hwin := h.window win
  unfold winCursorPreserve
  rw [post_bind, post_get]
  split
  · next hlookup =>
    rw [hlookup] at hwin
    have hnone : f win = none := hwin.symm
    have hsame : Function.update f win ((f win).map fun p => (pc, p.2)) = f := by
      rw [hnone, Option.map_none, ← hnone, Function.update_eq_self]
    rw [hsame]
    exact post_throw.mpr h
  · rw [post_modify]
    exact h.modifyBuffer win (g := fun p => (pc, p.2)) fun buf => rfl

/-! ## The calls of the threads -/

inductive Thread
  | main
  | event
  deriving DecidableEq

/-- The calls. -/
inductive Call
  | winAtomic (win : BitVec 32) (en : Bool)
  | winPrint (win : BitVec 32) (text : CStr)
  | winClear (win : BitVec 32)
  | winCursorPreserve (win : BitVec 32) (pc : Bool)

def Call.op : Call → Op
  | winAtomic win en => .winAtomic win en
  | winPrint win text => .winPrint win text
  | winClear win => .winClear win
  | winCursorPreserve win pc => .winCursorPreserve win pc

/-- The flag of a window. -/
def preserves (ui : Vimui) (win : BitVec 32) : Bool := (ui.bufidMap.lookup win).any Buffer.preserve

/-- The window for which a call begins a section. -/
def Call.opens (ui : Vimui) : Call → Option (BitVec 32)
  | winAtomic win en => if en then some win else none
  | winPrint win _ =>
      if ui.inAtomic = false ∧ (ui.bufidMap.lookup win).isSome ∧ win.sle 0 = false then some win else none
  | winClear win => if ui.inAtomic = false ∧ (ui.bufidMap.lookup win).isSome then some win else none
  | winCursorPreserve _ _ => none

/-- A section that a thread has begun: the functions that had been asked for, the flag of its window, and
the cursors that it has read. -/
structure Section where
  win : BitVec 32
  start : Nat
  preserve : Bool
  captured : Option Cursor
  vim : Option Cursor

/-- The section that is begun by a call between two states. -/
def begun (ui ui' : Vimui) (win : BitVec 32) : Section where
  win := win
  start := ui.asked
  preserve := preserves ui win
  captured := if preserves ui win then (ui'.bufidMap.lookup win).bind Buffer.cursor else none
  vim := ui'.cursor

/-- The user interface with the open sections of each thread, the last one first, and the functions that
have last asked for the cursor of each window and for that of vim. -/
structure Session where
  ui : Vimui
  sections : Thread → List Section := fun _ => []
  last : BitVec 32 → Option Nat := fun _ => none
  lastVim : Option Nat := none

/-- The cursor of the window is asked for behind that of vim. -/
def Session.asked (s : Session) : Option (BitVec 32) → BitVec 32 → Option Nat
  | some win => if preserves s.ui win then Function.update s.last win (some (s.ui.asked + 1)) else s.last
  | none => s.last

/-- A thread ends the section that it has begun last. -/
def Bracketed (s t : Session) (i : Thread) : Call → Prop
  | .winAtomic win en =>
      if en then t.sections = Function.update s.sections i (begun s.ui t.ui win :: s.sections i)
      else ∃ x rest, s.sections i = x :: rest ∧ x.win = win ∧
        t.sections = Function.update s.sections i rest
  | _ => t.sections = s.sections

/-- The cursor of vim is asked for at the begin of a section, and at the end. -/
def Call.lastVim (s t : Session) : Call → Option Nat
  | winAtomic _ _ => some s.ui.asked
  | call => if (call.opens s.ui).isSome then some (t.ui.asked - 1) else s.lastVim

/-- A call of a thread. -/
structure Step (replies : Nat → Option Cursor) (s : Session) (e : Thread × Call) (t : Session) : Prop where
  call : ∃ r, exec (e.2.op.call replies) s.ui = some (r, t.ui)
  bracketed : Bracketed s t e.1 e.2
  last : t.last = s.asked (e.2.opens s.ui)
  lastVim : t.lastVim = e.2.lastVim s t

/-- The flags and the cursors of the windows. -/
def view (ui : Vimui) (win : BitVec 32) : Option (Bool × Option Cursor) :=
  (ui.bufidMap.lookup win).map fun buf => (buf.preserve, buf.cursor)

/-- The cursors are those that have been asked for last, and each section has those of its begin. -/
structure Inv (replies : Nat → Option Cursor) (s : Session) : Prop where
  nonneg : Nonneg (view s.ui)
  cursor : ∀ win p, view s.ui win = some p → p.2 = (s.last win).bind replies
  vim : s.ui.cursor = s.lastVim.bind replies
  sections : ∀ i, ∀ x ∈ s.sections i,
    x.captured = (if x.preserve then replies (x.start + 1) else none) ∧ x.vim = replies x.start

variable {s t : Session} {i : Thread} {win : BitVec 32}

theorem looks_self (ui : Vimui) : Looks (view ui) ui.cursor ui.asked ui.inAtomic ui :=
  ⟨fun _ => rfl, rfl, rfl, rfl⟩

theorem asks_view (ui : Vimui) (win : BitVec 32) : asks (view ui) win = preserves ui win := by
  unfold asks view preserves
  cases ui.bufidMap.lookup win <;> rfl

theorem Looks.view_eq {ui : Vimui} (h : Looks f c n b ui) : view ui = f := funext h.window

/-- Behind a read of the cursor of a window, the cursors are those that have been asked for last. -/
theorem Inv.cursor_capture (h : Inv replies s) {win' : BitVec 32} {p : Bool × Option Cursor}
    (hp : capture (view s.ui) win (replies (s.ui.asked + 1)) win' = some p) :
    p.2 = (s.asked (some win) win').bind replies := by
  unfold capture at hp
  rw [asks_view] at hp
  have hasked : s.asked (some win) =
      if preserves s.ui win then Function.update s.last win (some (s.ui.asked + 1)) else s.last := rfl
  rw [hasked]
  split at hp
  · next hpreserves =>
    rw [if_pos hpreserves]
    by_cases heq : win' = win
    · subst heq
      rw [Function.update_self] at hp ⊢
      cases hp
      rfl
    · rw [Function.update_of_ne heq] at hp ⊢
      exact h.cursor win' p hp
  · next hpreserves =>
    rw [if_neg hpreserves]
    exact h.cursor win' p hp

/-- What is known of the state behind a call. -/
theorem Step.of_post {call : Call} (h : Step replies s (i, call) t) {I : Vimui → Prop}
    (hpost : Post (call.op.call replies) (fun _ => I) (fun _ => I) s.ui) : I t.ui := by
  obtain ⟨r, hr⟩ := h.call
  exact hpost.holds hr

theorem Inv.begin (h : Inv replies s) (hstep : Step replies s (i, .winAtomic win true) t) :
    Inv replies t := by
  have ht : Looks (capture (view s.ui) win (replies (s.ui.asked + 1))) (replies s.ui.asked)
      (s.ui.asked + 1 + (asks (view s.ui) win).toNat) true t.ui := by
    apply hstep.of_post
    show Post (atomic replies win true true) _ _ _
    unfold atomic
    rw [post_bind, post_get, Bool.not_true, Bool.and_false, if_neg nofun, if_pos rfl]
    have hbegin := looks_atomicBegin replies win true (looks_self s.ui) h.nonneg
    rw [Bool.or_true] at hbegin
    exact hbegin.post
  have hlast : t.last = s.asked (some win) := hstep.last
  have hlastVim : t.lastVim = some s.ui.asked := hstep.lastVim
  have hsections : t.sections = Function.update s.sections i (begun s.ui t.ui win :: s.sections i) :=
    hstep.bracketed
  refine ⟨?_, fun win' p hp => ?_, ?_, fun j x hx => ?_⟩
  · rw [ht.view_eq]
    exact nonneg_capture h.nonneg
  · rw [ht.view_eq] at hp
    rw [hlast]
    exact h.cursor_capture hp
  · rw [hlastVim, ht.vim]
    rfl
  · rw [hsections] at hx
    by_cases hj : j = i
    · subst hj
      rw [Function.update_self] at hx
      rcases List.mem_cons.mp hx with rfl | hx
      · refine ⟨?_, ht.vim⟩
        show (if preserves s.ui win then _ else _) = if preserves s.ui win then _ else _
        by_cases hpreserves : preserves s.ui win
        · have hwin := ht.window win
          rw [capture, asks_view, if_pos hpreserves, Function.update_self] at hwin
          obtain ⟨buf, hbuf, hcursor⟩ := Option.map_eq_some_iff.mp hwin
          rw [if_pos hpreserves, if_pos hpreserves, hbuf]
          exact (Prod.mk.inj hcursor).2
        · rw [if_neg hpreserves, if_neg hpreserves]
      · exact h.sections j x hx
    · rw [Function.update_of_ne hj] at hx
      exact h.sections j x hx

theorem Inv.end (h : Inv replies s) (hstep : Step replies s (i, .winAtomic win false) t) :
    Inv replies t := by
  have ht : Looks (view s.ui) (replies s.ui.asked) (s.ui.asked + 1) false t.ui := by
    apply hstep.of_post
    show Post (atomic replies win false true) _ _ _
    unfold atomic
    rw [post_bind, post_get, Bool.not_true, Bool.and_false, if_neg nofun, if_neg nofun]
    have hend := @post_atomicEnd_looks replies _ _ _ _ _ win true (looks_self s.ui) h.nonneg
      fun _ => Looks (view s.ui) (replies s.ui.asked) (s.ui.asked + 1) false
    rwa [Bool.not_true, Bool.and_false] at hend
  have hlast : t.last = s.last := hstep.last
  have hlastVim : t.lastVim = some s.ui.asked := hstep.lastVim
  obtain ⟨x, rest, hx, -, hsections⟩ : ∃ x rest, s.sections i = x :: rest ∧ x.win = win ∧
      t.sections = Function.update s.sections i rest := hstep.bracketed
  refine ⟨?_, fun win' p hp => ?_, ?_, fun j y hy => ?_⟩
  · rw [ht.view_eq]
    exact h.nonneg
  · rw [ht.view_eq] at hp
    rw [hlast]
    exact h.cursor win' p hp
  · rw [hlastVim, ht.vim]
    rfl
  · rw [hsections] at hy
    by_cases hj : j = i
    · subst hj
      rw [Function.update_self] at hy
      exact h.sections j y (hx ▸ List.mem_cons_of_mem x hy)
    · rw [Function.update_of_ne hj] at hy
      exact h.sections j y hy

/-- A call that prints or clears, on a window that exists or not. -/
theorem Inv.write (h : Inv replies s) (hsections : t.sections = s.sections) {c : Prop} [Decidable c]
    (ht : (if c then Written replies (view s.ui) s.ui.cursor s.ui.asked s.ui.inAtomic win
      else Looks (view s.ui) s.ui.cursor s.ui.asked s.ui.inAtomic) t.ui)
    (hlast : t.last = s.asked (if s.ui.inAtomic = false ∧ c then some win else none))
    (hlastVim : t.lastVim = if (if s.ui.inAtomic = false ∧ c then some win else none).isSome then
      some (t.ui.asked - 1) else s.lastVim) : Inv replies t := by
  by_cases hopens : s.ui.inAtomic = false ∧ c
  · rw [if_pos hopens.2, Written, hopens.1, if_neg nofun] at ht
    rw [if_pos hopens] at hlast hlastVim
    have hlastVim : t.lastVim = some (t.ui.asked - 1) := hlastVim
    refine ⟨?_, fun win' p hp => ?_, ?_, ?_⟩
    · rw [ht.view_eq]
      exact nonneg_capture h.nonneg
    · rw [ht.view_eq] at hp
      rw [hlast]
      exact h.cursor_capture hp
    · rw [hlastVim, ht.vim, ht.asked]
      rfl
    · rw [hsections]
      exact h.sections
  · have ht' : Looks (view s.ui) s.ui.cursor t.ui.asked s.ui.inAtomic t.ui := by
      split at ht
      · next hc =>
        have hin : s.ui.inAtomic = true := by
          cases hb : s.ui.inAtomic
          · exact absurd ⟨hb, hc⟩ hopens
          · rfl
        rw [Written, hin, if_pos rfl] at ht
        exact ⟨ht.window, ht.vim, rfl, ht.inAtomic.trans hin.symm⟩
      · exact ⟨ht.window, ht.vim, rfl, ht.inAtomic⟩
    rw [if_neg hopens] at hlast hlastVim
    have hlast : t.last = s.last := hlast
    have hlastVim : t.lastVim = s.lastVim := hlastVim
    refine ⟨?_, fun win' p hp => ?_, ?_, ?_⟩
    · rw [ht'.view_eq]
      exact h.nonneg
    · rw [ht'.view_eq] at hp
      rw [hlast]
      exact h.cursor win' p hp
    · rw [hlastVim, ht'.vim]
      exact h.vim
    · rw [hsections]
      exact h.sections

/-- The calls keep the invariant. -/
theorem Inv.step {e : Thread × Call} (h : Inv replies s) (hstep : Step replies s e t) : Inv replies t := by
  obtain ⟨i, call⟩ := e
  have hexists : ∀ win, (view s.ui win).isSome = (s.ui.bufidMap.lookup win).isSome :=
    fun win => Option.isSome_map
  cases call with
  | winAtomic win en =>
      cases en
      · exact h.end hstep
      · exact h.begin hstep
  | winPrint win text =>
      have ht := hstep.of_post (looks_winPrint win text (looks_self s.ui) h.nonneg)
      simp only [hexists] at ht
      exact h.write hstep.bracketed ht hstep.last hstep.lastVim
  | winClear win =>
      have ht := hstep.of_post (looks_winClear win (looks_self s.ui) h.nonneg)
      simp only [hexists] at ht
      exact h.write hstep.bracketed ht hstep.last hstep.lastVim
  | winCursorPreserve win pc =>
      have ht := hstep.of_post (looks_winCursorPreserve win pc (looks_self s.ui))
      have hlast : t.last = s.last := hstep.last
      have hlastVim : t.lastVim = s.lastVim := hstep.lastVim
      have hsections : t.sections = s.sections := hstep.bracketed
      -- each window has the cursor it had
      have hview : ∀ win' p, view t.ui win' = some p → ∃ q, view s.ui win' = some q ∧ q.2 = p.2 := by
        intro win' p hp
        rw [ht.view_eq] at hp
        by_cases heq : win' = win
        · subst heq
          rw [Function.update_self] at hp
          obtain ⟨q, hq, rfl⟩ := Option.map_eq_some_iff.mp hp
          exact ⟨q, hq, rfl⟩
        · rw [Function.update_of_ne heq] at hp
          exact ⟨p, hp, rfl⟩
      refine ⟨fun win' hwin' => ?_, fun win' p hp => ?_, ?_, ?_⟩
      · obtain ⟨p, hp⟩ := Option.isSome_iff_exists.mp hwin'
        obtain ⟨q, hq, -⟩ := hview win' p hp
        exact h.nonneg win' (by rw [hq]; rfl)
      · obtain ⟨q, hq, hcursor⟩ := hview win' p hp
        rw [hlast, ← hcursor]
        exact h.cursor win' q hq
      · rw [hlastVim, ht.vim]
        exact h.vim
      · rw [hsections]
        exact h.sections

/-! ## The ends of sections -/

/-- The cursor that is set back at the end of a section is the one that has been read at its begin. -/
def Restores (replies : Nat → Option Cursor) (s : Session) (x : Section) : Prop :=
  ∀ buf, s.ui.bufidMap.lookup x.win = some buf → buf.preserve = true →
    ∃ c t, x.captured = some c ∧ buf.cursor = some c ∧
      exec (winAtomic replies x.win false) s.ui = some (.ok (), t) ∧
      s.ui.sent ++ [dot buf x.win c] <+: t.sent

/-- The same for the section that a call has of its own, which ends in the state `v`: the cursor that is
set back is the one for which the call has asked first. -/
def RestoresOwn (replies : Nat → Option Cursor) (ui : Vimui) (win : BitVec 32) (p : Ui Unit) : Prop :=
  ∃ v buf c t, exec p ui = exec (attempt (atomic replies win false false)) v ∧
    v.bufidMap.lookup win = some buf ∧ replies (ui.asked + 1) = some c ∧ buf.cursor = some c ∧
    exec p ui = some (.ok (), t) ∧ v.sent ++ [dot buf win c] <+: t.sent

/-- The section has asked for the cursor of its window, there was one, and the last reply for the window is
that one. -/
structure Fresh (replies : Nat → Option Cursor) (s : Session) (x : Section) : Prop where
  preserve : x.preserve = true
  reply : (replies (x.start + 1)).isSome
  last : ∃ k, s.last x.win = some k ∧ replies k = replies (x.start + 1)

/-- Messages are not taken back. -/
theorem keeps_sent (ms : List Message) (m : Message) :
    Keeps (fun ui : Vimui => ms <+: ui.sent) (action m) :=
  fun _ hs => post_action (fun _ => hs.trans (List.prefix_append _ _)) fun _ => hs

theorem exec_winAtomic_end (win : BitVec 32) (ui : Vimui) :
    exec (winAtomic replies win false) ui = exec (atomicEnd replies win true) ui := by
  unfold winAtomic atomic
  rw [exec_get_bind]
  rw [Bool.not_true, Bool.and_false]
  rfl

theorem keeps_resetCursor (ms : List Message) :
    Keeps (fun ui : Vimui => ms <+: ui.sent) resetCursor := by
  unfold resetCursor
  refine keeps_get.bind fun ui => ?_
  split
  · exact keeps_pure ()
  · exact (keeps_sent ms _).onlyIf _

theorem keeps_getCursor (ms : List Message) :
    Keeps (fun ui : Vimui => ms <+: ui.sent) (getCursor replies) := by
  have hrequest : Keeps (fun ui : Vimui => ms <+: ui.sent) (request replies .getCursor) := by
    intro ui hui
    unfold request
    rw [post_bind]
    refine (keeps_sent ms _ ui hui).mono (fun _ t ht => ?_) fun _ _ h => h
    simp only [post_bind, post_get, post_set, post_pure]
    exact ht
  unfold getCursor
  refine (keeps_modify fun _ h => by exact h).bind fun _ => ?_
  exact hrequest.bind fun c => keeps_modify fun _ h => h

/-- The first message at the end is the cursor. -/
theorem post_atomicEnd_sent (apply : Bool) {ui ui' : Vimui}
    (hrestore : exec (restoreCursor win) ui = some (.ok (), ui')) :
    Post (atomicEnd replies win apply) (fun _ t => ui'.sent <+: t.sent)
      (fun _ t => ui'.sent <+: t.sent) ui := by
  unfold atomicEnd
  rw [post_bind]
  intro r hr
  rw [hrestore] at hr
  cases hr
  refine Keeps.bind (keeps_resetCursor _) (fun _ => ?_) ui' (List.prefix_refl _)
  refine (keeps_sent _ _).bind fun _ => ?_
  refine (Keeps.onlyIf (keeps_modify fun _ h => by exact h) apply).bind fun _ => ?_
  exact (keeps_getCursor _).attempt

/-- An end with a cursor. -/
theorem exec_atomicEnd (apply : Bool) {ui : Vimui} {buf : Buffer} (h : Looks f c n b ui) (hf : Nonneg f)
    (hbuf : ui.bufidMap.lookup win = some buf) (hpreserve : buf.preserve = true) {c' : Cursor}
    (hcursor : buf.cursor = some c') :
    ∃ t, exec (atomicEnd replies win apply) ui = some (.ok (), t) ∧
      ui.sent ++ [dot buf win c'] <+: t.sent := by
  have hwin : f win = some (true, some c') := by
    rw [← h.window win, hbuf, Option.map_some, hpreserve, hcursor]
  have hrestore : exec (restoreCursor win) ui =
      some (.ok (), { ui with sent := ui.sent ++ [dot buf win c'] }) := by
    rw [exec_restoreCursor, hbuf]
    dsimp only
    rw [hpreserve, hcursor]
    exact exec_setCursor c' (hf win (by rw [hwin]; rfl)) hbuf
  have hread : ∀ c, f win = some (true, c) → c.isSome := by
    intro c hc
    rw [hwin] at hc
    cases hc
    rfl
  obtain ⟨_, t, hexec, -⟩ := looks_atomicEnd replies apply h hf hread
  exact ⟨t, hexec, (post_atomicEnd_sent apply hrestore).holds hexec⟩

/-- The section of a call is closed with the cursor that the call has read. -/
theorem exec_close {v : Vimui} (hf : Nonneg f) (hasks : asks f win = true) {c' : Cursor}
    (hreply : replies (n + 1) = some c') (h : Inside replies f c n false win 1 v) :
    ∃ buf t, v.bufidMap.lookup win = some buf ∧ buf.cursor = some c' ∧
      exec (attempt (atomic replies win false false)) v = some (.ok (), t) ∧
      v.sent ++ [dot buf win c'] <+: t.sent := by
  unfold Inside at h
  rw [if_neg nofun, hreply] at h
  obtain ⟨buf, hbuf, heq⟩ : ∃ buf, v.bufidMap.lookup win = some buf ∧
      (buf.preserve, buf.cursor) = (true, some c') := by
    rw [← Option.map_eq_some_iff, h.window win, capture, if_pos hasks, Function.update_self]
  obtain ⟨hpreserve, hcursor⟩ := Prod.mk.inj heq
  obtain ⟨t, hexec, hsent⟩ := @exec_atomicEnd replies _ _ _ _ win false v buf h (nonneg_capture hf) hbuf
    hpreserve c' hcursor
  refine ⟨buf, t, hbuf, hcursor, ?_, hsent⟩
  rw [attempt, exec_tryCatch, exec_close_eq h.inAtomic, hexec]
  rfl

/-- At the end of a section the cursor is restored if and only if it is fresh, or no longer preserved. -/
theorem Inv.section_restores_iff (h : Inv replies s) {x : Section} {rest : List Section}
    (hx : s.sections i = x :: rest) :
    Restores replies s x ↔ (preserves s.ui x.win = true → Fresh replies s x) := by
  obtain ⟨hcaptured, -⟩ := h.sections i x (hx ▸ List.mem_cons_self)
  constructor
  · intro hrestores hpreserves
    obtain ⟨buf, hbuf, hpreserve⟩ : ∃ buf, s.ui.bufidMap.lookup x.win = some buf ∧ buf.preserve = true := by
      unfold preserves at hpreserves
      exact (Option.any_eq_true _ _).mp hpreserves
    obtain ⟨c, t, hc, hcursor, -⟩ := hrestores buf hbuf hpreserve
    rw [hcaptured] at hc
    obtain ⟨hset, hreply⟩ : x.preserve = true ∧ replies (x.start + 1) = some c := by
      split at hc
      · next hset => exact ⟨hset, hc⟩
      · cases hc
    have hlast := h.cursor x.win (true, some c) (by
      unfold view
      rw [hbuf, Option.map_some, hpreserve, hcursor])
    obtain ⟨k, hk, hk'⟩ := Option.bind_eq_some_iff.mp hlast.symm
    exact ⟨hset, by rw [hreply]; rfl, k, hk, hk'.trans hreply.symm⟩
  · intro hfresh buf hbuf hpreserve
    have hpreserves : preserves s.ui x.win = true := by
      unfold preserves
      rw [hbuf]
      exact hpreserve
    obtain ⟨hset, hreply, k, hk, hsame⟩ := hfresh hpreserves
    obtain ⟨c, hc⟩ := Option.isSome_iff_exists.mp hreply
    have hcursor : buf.cursor = some c := by
      have hlast := h.cursor x.win (buf.preserve, buf.cursor) (by
        unfold view
        rw [hbuf]
        rfl)
      rw [hk, Option.bind_some, hsame, hc] at hlast
      exact hlast
    obtain ⟨t, hexec, hsent⟩ := exec_atomicEnd true (looks_self s.ui) h.nonneg hbuf hpreserve hcursor
    refine ⟨c, t, ?_, hcursor, (exec_winAtomic_end x.win s.ui).trans hexec, hsent⟩
    rw [hcaptured, if_pos hset, hc]

/-- A call with a section of its own is defined if and only if it reads a cursor, and then this cursor is
restored. -/
theorem own_restores_iff {ui v : Vimui} {p : Ui Unit} (hf : Nonneg (view ui)) (hin : ui.inAtomic = false)
    (hpreserves : preserves ui win = true)
    (hv : Inside replies (view ui) ui.cursor ui.asked ui.inAtomic win 1 v)
    (hexec : exec p ui = exec (attempt (atomic replies win false false)) v) :
    (exec p ui ≠ none ↔ (replies (ui.asked + 1)).isSome) ∧
      (RestoresOwn replies ui win p ↔ (replies (ui.asked + 1)).isSome) := by
  have hasks : asks (view ui) win = true := (asks_view ui win).trans hpreserves
  have hdefined := defined_of_close hf hv hexec
  have hmissing : ¬ Missing replies (view ui) ui.asked ui.inAtomic win ↔
      (replies (ui.asked + 1)).isSome := by
    unfold Missing
    rw [hasks, hin, ← Option.not_isSome_iff_eq_none]
    tauto
  refine ⟨hdefined.trans hmissing, ?_, fun hreply => ?_⟩
  · rintro ⟨-, -, c, -, -, -, hc, -⟩
    rw [hc]
    rfl
  · obtain ⟨c, hc⟩ := Option.isSome_iff_exists.mp hreply
    rw [hin] at hv
    obtain ⟨buf, t, hbuf, hcursor, hclose, hsent⟩ := exec_close hf hasks hc hv
    exact ⟨v, buf, c, t, hexec, hbuf, hc, hcursor, hexec.trans hclose, hsent⟩

/-! ## Runs -/

/-- Windows exist, and nothing has been asked for. -/
structure Started (ui : Vimui) : Prop where
  nonneg : ∀ win, (ui.bufidMap.lookup win).isSome → win.slt 0 = false
  cursor : ∀ win buf, ui.bufidMap.lookup win = some buf → buf.cursor = none
  vim : ui.cursor = none

theorem Started.inv {ui : Vimui} (h : Started ui) : Inv replies { ui } where
  nonneg win hwin := h.nonneg win (by rwa [view, Option.isSome_map] at hwin)
  cursor win p hp := by
    obtain ⟨buf, hbuf, rfl⟩ := Option.map_eq_some_iff.mp hp
    exact h.cursor win buf hbuf
  vim := h.vim
  sections _ _ hx := absurd hx List.not_mem_nil

theorem preserves_view (ui : Vimui) (win : BitVec 32) (h : preserves ui win = true) :
    (view ui win).isSome := by
  unfold preserves at h
  unfold view
  cases hlookup : ui.bufidMap.lookup win with
  | none =>
      rw [hlookup] at h
      cases h
  | some buf => rfl

/-- **At the end of a section the cursor of its window is the one read at its begin** if and only if it is
fresh, or no longer preserved; and so is that of vim, if what was last read is the same.  A call with a section
of its own is defined, and restores the cursor that it has read, if and only if it reads a cursor. -/
theorem restores_iff {ui : Vimui} (h : Started ui) {es : List (Thread × Call)}
    (hrun : Run (Step replies) { ui } es s) :
    (∀ i x rest, s.sections i = x :: rest →
      (Restores replies s x ↔ (preserves s.ui x.win = true → Fresh replies s x)) ∧
        (s.ui.cursor = x.vim ↔ s.lastVim.bind replies = replies x.start)) ∧
    ∀ win, s.ui.inAtomic = false → preserves s.ui win = true →
      ((exec (winClear replies win) s.ui ≠ none ↔ (replies (s.ui.asked + 1)).isSome) ∧
        (RestoresOwn replies s.ui win (winClear replies win) ↔ (replies (s.ui.asked + 1)).isSome)) ∧
      (win.sle 0 = false → ∀ text,
        (exec (winPrint replies win text) s.ui ≠ none ↔ (replies (s.ui.asked + 1)).isSome) ∧
          (RestoresOwn replies s.ui win (winPrint replies win text) ↔
            (replies (s.ui.asked + 1)).isSome)) := by
  have hinv : Inv replies s := hrun.invariant h.inv fun _ _ _ h hstep => h.step hstep
  refine ⟨fun i x rest hx => ⟨hinv.section_restores_iff hx, ?_⟩, fun win hin hpreserves => ⟨?_, fun hpos text => ?_⟩⟩
  · rw [hinv.vim, (hinv.sections i x (hx ▸ List.mem_cons_self)).2]
  · obtain ⟨v, hv, hexec⟩ := exists_close_winClear replies (looks_self s.ui) hinv.nonneg
      (preserves_view s.ui win hpreserves)
    exact own_restores_iff hinv.nonneg hin hpreserves hv hexec
  · obtain ⟨v, hv, hexec⟩ := exists_close_winPrint replies text (looks_self s.ui) hinv.nonneg
      (preserves_view s.ui win hpreserves) hpos
    exact own_restores_iff hinv.nonneg hin hpreserves hv hexec

/-- One window, which preserves its cursor or not. -/
def oneWindow (preserve : Bool) : Vimui where
  cwd := "/src".toList
  bufid := 2
  bufnameMap := AList.insert "/src/gdb-log".toList 1 ∅
  bufidMap := AList.insert 1 { name := "/src/gdb-log".toList, preserve } ∅

theorem started_oneWindow (preserve : Bool) : Started (oneWindow preserve) := by
  have hlookup : ∀ win buf, (oneWindow preserve).bufidMap.lookup win = some buf → win = 1 ∧ buf.cursor = none := by
    intro win buf hbuf
    by_cases hwin : win = 1
    · subst hwin
      cases hbuf
      exact ⟨rfl, rfl⟩
    · unfold oneWindow at hbuf
      rw [AList.lookup_insert_ne hwin] at hbuf
      cases hbuf
  refine ⟨fun win hwin => ?_, fun win buf hbuf => (hlookup win buf hbuf).2, rfl⟩
  obtain ⟨buf, hbuf⟩ := Option.isSome_iff_exists.mp hwin
  rw [(hlookup win buf hbuf).1]
  rfl

theorem step_begin {r : Except Unit Unit} {ui : Vimui}
    (h : exec (winAtomic replies win true) s.ui = some (r, ui)) :
    Step replies s (i, .winAtomic win true)
      ⟨ui, Function.update s.sections i (begun s.ui ui win :: s.sections i), s.asked (some win),
        some s.ui.asked⟩ :=
  ⟨⟨r, h⟩, rfl, rfl, rfl⟩

theorem step_preserve {r : Except Unit Unit} {ui : Vimui} {pc : Bool}
    (h : exec (winCursorPreserve win pc) s.ui = some (r, ui)) :
    Step replies s (i, .winCursorPreserve win pc) { s with ui } :=
  ⟨⟨r, h⟩, rfl, rfl, rfl⟩

/-- The section of a window that preserves its cursor. -/
theorem section_restored : ∃ s,
    Run (Step fun _ => some ⟨1, 3, 0⟩) { ui := oneWindow true } [(.main, .winAtomic 1 true)] s ∧
      ∀ x rest, s.sections .main = x :: rest → Restores (fun _ => some ⟨1, 3, 0⟩) s x := by
  have hrun : ∃ s, Run (Step fun _ => some ⟨1, 3, 0⟩) { ui := oneWindow true } [(.main, .winAtomic 1 true)] s ∧
      s.last 1 = some 1 ∧ ∀ x ∈ s.sections .main, x.win = 1 ∧ x.preserve = true ∧ x.start = 0 := by
    refine ⟨_, Run.snoc Run.nil (step_begin rfl), rfl, ?_⟩
    intro x hx
    obtain rfl := List.mem_singleton.mp hx
    exact ⟨rfl, rfl, rfl⟩
  obtain ⟨s, hrun, hlast, hsections⟩ := hrun
  refine ⟨s, hrun, fun x rest hx => ?_⟩
  obtain ⟨hwin, hpreserve, -⟩ := hsections x (hx ▸ List.mem_cons_self)
  refine ((restores_iff (started_oneWindow true) hrun).1 .main x rest hx).1.mpr fun _ => ?_
  exact ⟨hpreserve, rfl, 1, hwin ▸ hlast, rfl⟩

/-- The flag is set while the section of another thread is open: its end uses a null pointer. -/
theorem switched_on_missing : ∃ s,
    Run (Step fun _ => some ⟨1, 3, 0⟩) { ui := oneWindow false }
      [(.event, .winAtomic 1 true), (.main, .winCursorPreserve 1 true)] s ∧
      (∃ x rest, s.sections .event = x :: rest ∧ x.win = 1 ∧ ¬ Restores (fun _ => some ⟨1, 3, 0⟩) s x) ∧
      exec (winAtomic (fun _ => some ⟨1, 3, 0⟩) 1 false) s.ui = none := by
  refine ⟨_, Run.snoc (Run.snoc Run.nil (step_begin rfl)) (step_preserve rfl), ⟨_, _, rfl, rfl, ?_⟩, rfl⟩
  intro hrestores
  obtain ⟨c, t, -, hcursor, -⟩ := hrestores _ rfl rfl
  cases hcursor

end Vimgdb.Vim.Preserve
