import Mathlib.Data.List.AList
import Vimgdb.Common.Strings
import Vimgdb.Lib.Runs

/-!
# Annotations of a vim buffer

`vimui::win_anno_add` and `vimui::win_anno_delete` keep, for every buffer, the map `annos` from a
line and a sign to the id under which the annotation was sent to vim.

* `annoKey`: the map's key.  The source builds it with `key = line; key += sign;`, and
  `std::string::operator=` takes the `int` as one `char`, so only the line modulo 256 survives.
* `annoKey_eq_iff`: two keys are equal iff the signs are equal and the lines are congruent
  modulo 256.
* `Faithful`: the entries of different live annotations are different, and deleting any one of them
  sends vim exactly its id.
* `run_faithful_iff_noAlias`: in every sequence of operations, every delete removes exactly
  what was added and every state reached is faithful iff no operation names a line that is congruent
  modulo 256 to another line carrying a live annotation of the same sign.
-/

namespace Vimgdb.Gui

open Runs

/-! ## The buffer table -/

/-- The part of `buffer_t` the annotation functions use. -/
structure Buffer where
  /-- The id of the annotation shown for a line and a sign. -/
  annos : AList fun _ : CStr => BitVec 32 := ∅
  /-- The number vim has given to a sign with its two colours. -/
  annoTypes : AList fun _ : CStr => BitVec 32 := ∅

/-- The netbeans commands the annotation functions send. -/
inductive Command
  | defineAnnoType (win : Int) (key sign colorFg colorBg : CStr)
  | addAnno (win : Int) (id annotype : BitVec 32) (line : Int)
  | removeAnno (win : Int) (id : BitVec 32)
  deriving DecidableEq

/-- The state `win_anno_add` and `win_anno_delete` read and write. -/
structure Vimui where
  /-- The static counter `id` of `win_anno_add`. -/
  nextId : BitVec 32 := 1
  /-- The buffers by window id. -/
  bufidMap : AList fun _ : Int => Buffer := ∅
  /-- The commands sent to vim, oldest first. -/
  sent : List Command := []

/-- `vimui::action` for a command: it is refused for a negative buffer id, otherwise sent. -/
def Vimui.action (ui : Vimui) (bufId : Int) (c : Command) : Option Vimui :=
  if bufId < 0 then none else some { ui with sent := ui.sent ++ [c] }

/-- The buffer behind `win` is replaced. -/
def Vimui.setBuffer (ui : Vimui) (win : Int) (buf : Buffer) : Vimui :=
  { ui with bufidMap := ui.bufidMap.insert win buf }

/-- `key = line; key += sign;`: the line is narrowed to one `char`. -/
def annoKey (line : Int) (sign : CStr) : CStr :=
  Char.ofNat (line % 256).toNat :: sign

/-- The annotation type of a sign and its colours, defined in vim on first use: its number is the
size of the map plus one. -/
def annoType (ui : Vimui) (win : Int) (buf : Buffer) (sign colorFg colorBg : CStr) :
    Option (Vimui × Buffer × BitVec 32) :=
  let key := sign ++ colorFg ++ colorBg
  let annotype := (buf.annoTypes.lookup key).getD 0
  if annotype = 0 then
    match ui.action win (.defineAnnoType win key sign colorFg colorBg) with
    | none => none
    | some ui =>
        let annotype := BitVec.ofNat 32 (buf.annoTypes.entries.length + 1)
        let buf := { buf with annoTypes := buf.annoTypes.insert key annotype }
        some (ui.setBuffer win buf, buf, annotype)
  else some (ui, buf, annotype)

/-- `vimui::win_anno_add`, with the returned status. -/
def winAnnoAdd (ui : Vimui) (win line : Int) (sign colorFg colorBg : CStr) : Vimui × Int :=
  match ui.bufidMap.lookup win with
  | none => (ui, -1)
  | some buf =>
      match annoType ui win buf sign colorFg colorBg with
      | none => (ui, -1)
      | some (ui, buf, annotype) =>
          match ui.action win (.addAnno win ui.nextId annotype line) with
          | none => (ui, -1)
          | some ui =>
              let buf := { buf with annos := buf.annos.insert (annoKey line sign) ui.nextId }
              ({ ui.setBuffer win buf with nextId := ui.nextId + 1 }, 0)

/-- `vimui::win_anno_delete`, with the returned status. -/
def winAnnoDelete (ui : Vimui) (win line : Int) (sign : CStr) : Vimui × Int :=
  match ui.bufidMap.lookup win with
  | none => (ui, -1)
  | some buf =>
      let key := annoKey line sign
      match buf.annos.lookup key with
      | none => (ui, 0)
      | some id =>
          match ui.action win (.removeAnno win id) with
          | none => (ui, -1)
          | some ui => (ui.setBuffer win { buf with annos := buf.annos.erase key }, 0)

/-! ## The key -/

/-- The narrowed line is a byte. -/
private theorem narrowed_lt (line : Int) : (line % 256).toNat < 256 := by
  have := Int.emod_lt_of_pos line (show (0 : Int) < 256 by decide)
  omega

/-- Bytes are told apart by the `char` they become. -/
private theorem ofNat_inj {m n : Nat} (hm : m < 256) (hn : n < 256) :
    Char.ofNat m = Char.ofNat n ↔ m = n := by
  have hval : ∀ k < 256, (Char.ofNat k).toNat = k := by decide +kernel
  constructor
  · intro h
    rw [← hval m hm, ← hval n hn, h]
  · rintro rfl; rfl

/-- Two keys are equal iff the signs are and the lines agree modulo 256. -/
theorem annoKey_eq_iff (line line' : Int) (sign sign' : CStr) :
    annoKey line sign = annoKey line' sign' ↔ line % 256 = line' % 256 ∧ sign = sign' := by
  have h₀ := Int.emod_nonneg line (show (256 : Int) ≠ 0 by decide)
  have h₁ := Int.emod_nonneg line' (show (256 : Int) ≠ 0 by decide)
  rw [annoKey, annoKey, List.cons.injEq, ofNat_inj (narrowed_lt line) (narrowed_lt line')]
  constructor
  · rintro ⟨h, rfl⟩; exact ⟨by omega, rfl⟩
  · rintro ⟨h, rfl⟩; exact ⟨by omega, rfl⟩

/-! ## What one operation does -/

/-- The annotations of the buffer behind `win`. -/
def Vimui.annos (ui : Vimui) (win : Int) : AList fun _ : CStr => BitVec 32 :=
  match ui.bufidMap.lookup win with
  | none => ∅
  | some buf => buf.annos

/-- `win` is a buffer id that is registered. -/
def Vimui.Registered (ui : Vimui) (win : Int) : Prop :=
  0 ≤ win ∧ ∃ buf, ui.bufidMap.lookup win = some buf

theorem action_of_nonneg (ui : Vimui) {win : Int} (h : 0 ≤ win) (c : Command) :
    ui.action win c = some { ui with sent := ui.sent ++ [c] } := by
  rw [Vimui.action, if_neg (by omega)]

/-- Defining the annotation type leaves the annotations alone. -/
theorem annoType_spec (ui : Vimui) {win : Int} (hwin : 0 ≤ win) (buf : Buffer)
    (hbuf : ui.bufidMap.lookup win = some buf) (sign colorFg colorBg : CStr) :
    ∃ ui' buf' annotype, annoType ui win buf sign colorFg colorBg = some (ui', buf', annotype) ∧
      ui'.bufidMap.lookup win = some buf' ∧ buf'.annos = buf.annos ∧ ui'.nextId = ui.nextId := by
  unfold annoType
  dsimp only
  split
  · simp only [action_of_nonneg ui hwin]
    exact ⟨_, _, _, rfl, AList.lookup_insert _, rfl, rfl⟩
  · exact ⟨ui, buf, _, rfl, hbuf, rfl, rfl⟩

/-- Adding an annotation succeeds and stores the next id under the key. -/
theorem winAnnoAdd_spec {ui : Vimui} {win : Int} (h : ui.Registered win) (line : Int)
    (sign colorFg colorBg : CStr) :
    (winAnnoAdd ui win line sign colorFg colorBg).2 = 0 ∧
      (winAnnoAdd ui win line sign colorFg colorBg).1.Registered win ∧
      (winAnnoAdd ui win line sign colorFg colorBg).1.annos win =
        (ui.annos win).insert (annoKey line sign) ui.nextId := by
  obtain ⟨hwin, buf, hbuf⟩ := h
  obtain ⟨ui', buf', annotype, htype, hbuf', hannos, hid⟩ :=
    annoType_spec ui hwin buf hbuf sign colorFg colorBg
  unfold winAnnoAdd
  simp only [hbuf, htype, action_of_nonneg ui' hwin]
  refine ⟨trivial, ⟨hwin, _, AList.lookup_insert _⟩, ?_⟩
  simp only [Vimui.annos, Vimui.setBuffer, AList.lookup_insert, hbuf, hannos, hid]

/-- Deleting an annotation drops its entry, if there is one, and sends vim the stored id. -/
theorem winAnnoDelete_spec {ui : Vimui} {win : Int} (h : ui.Registered win) (line : Int)
    (sign : CStr) :
    (winAnnoDelete ui win line sign).2 = 0 ∧
      (winAnnoDelete ui win line sign).1.Registered win ∧
      (winAnnoDelete ui win line sign).1.annos win = (ui.annos win).erase (annoKey line sign) ∧
      (winAnnoDelete ui win line sign).1.sent =
        ui.sent ++ (((ui.annos win).lookup (annoKey line sign)).map
          (Command.removeAnno win)).toList := by
  obtain ⟨hwin, buf, hbuf⟩ := h
  have hannos : ui.annos win = buf.annos := by simp only [Vimui.annos, hbuf]
  unfold winAnnoDelete
  simp only [hbuf, hannos]
  cases hkey : buf.annos.lookup (annoKey line sign) with
  | none =>
      refine ⟨rfl, ⟨hwin, buf, hbuf⟩, ?_, by simp⟩
      rw [hannos]
      exact (AList.ext (List.kerase_of_notMem_keys (AList.lookup_eq_none.mp hkey))).symm
  | some id =>
      simp only [action_of_nonneg ui hwin]
      refine ⟨trivial, ⟨hwin, _, AList.lookup_insert _⟩, ?_, by simp [Vimui.setBuffer]⟩
      simp only [Vimui.annos, Vimui.setBuffer, AList.lookup_insert]

/-! ## Runs of operations on one buffer -/

/-- An operation of the user interface on the buffer. -/
inductive AnnoOp
  | add (line : Int) (sign colorFg colorBg : CStr)
  | delete (line : Int) (sign : CStr)

/-- The line an operation names. -/
def AnnoOp.line : AnnoOp → Int
  | .add line .. => line
  | .delete line _ => line

/-- The sign an operation names. -/
def AnnoOp.sign : AnnoOp → CStr
  | .add _ sign .. => sign
  | .delete _ sign => sign

/-- The user interface, and by line and sign the ids that were added and not deleted since. -/
structure AnnoState where
  ui : Vimui
  live : AList fun _ : Int × CStr => BitVec 32

/-- One operation on the buffer `win`.  An addition is not repeated without a deletion in
between. -/
inductive AnnoStep (win : Int) (s : AnnoState) : AnnoOp → AnnoState → Prop
  | add (line : Int) (sign colorFg colorBg : CStr) :
      s.live.lookup (line, sign) = none →
      AnnoStep win s (.add line sign colorFg colorBg)
        ⟨(winAnnoAdd s.ui win line sign colorFg colorBg).1,
          s.live.insert (line, sign) s.ui.nextId⟩
  | delete (line : Int) (sign : CStr) :
      AnnoStep win s (.delete line sign)
        ⟨(winAnnoDelete s.ui win line sign).1, s.live.erase (line, sign)⟩

/-- What the operation sent to remove annotations is what it should have: nothing for an addition,
and for a deletion the id that was added for its line and sign, if any. -/
def RemovesExactly (win : Int) (s : AnnoState) : AnnoOp → AnnoState → Prop
  | .add .., _ => True
  | .delete line sign, t =>
      t.ui.sent = s.ui.sent ++ ((s.live.lookup (line, sign)).map (Command.removeAnno win)).toList

/-- Different live annotations have different entries, and each can still be deleted: its deletion
would send its id. -/
structure Faithful (win : Int) (s : AnnoState) : Prop where
  unshared : ∀ line line' sign sign' id id', s.live.lookup (line, sign) = some id →
    s.live.lookup (line', sign') = some id' → annoKey line sign = annoKey line' sign' →
    line = line' ∧ sign = sign'
  deletable : ∀ line sign id, s.live.lookup (line, sign) = some id →
    (winAnnoDelete s.ui win line sign).1.sent = s.ui.sent ++ [.removeAnno win id]

/-- No other line with a live annotation of the operation's sign is congruent modulo 256 to the
operation's line. -/
def NoAlias (s : AnnoState) (op : AnnoOp) : Prop :=
  ∀ e ∈ s.live.entries, e.1.2 = op.sign → e.1.1 % 256 = op.line % 256 → e.1.1 = op.line

instance (s : AnnoState) (op : AnnoOp) : Decidable (NoAlias s op) :=
  inferInstanceAs (Decidable (∀ e ∈ s.live.entries, _ → _ → _))

theorem noAlias_iff (s : AnnoState) (op : AnnoOp) : NoAlias s op ↔
    ∀ line id, s.live.lookup (line, op.sign) = some id → line % 256 = op.line % 256 →
      line = op.line := by
  constructor
  · intro h line id hid hmod
    exact h _ (AList.mem_lookup_iff.mp hid) rfl hmod
  · rintro h ⟨⟨line, sign⟩, id⟩ hmem rfl hmod
    exact h line id (AList.mem_lookup_iff.mpr hmem) hmod

/-- The map holds exactly the live annotations, each under its own key. -/
structure Coupled (win : Int) (s : AnnoState) : Prop where
  registered : s.ui.Registered win
  unshared : ∀ line line' sign sign' id id', s.live.lookup (line, sign) = some id →
    s.live.lookup (line', sign') = some id' → annoKey line sign = annoKey line' sign' →
    line = line' ∧ sign = sign'
  entry : ∀ line sign id, s.live.lookup (line, sign) = some id →
    (s.ui.annos win).lookup (annoKey line sign) = some id
  live : ∀ key id, (s.ui.annos win).lookup key = some id →
    ∃ line sign, key = annoKey line sign ∧ s.live.lookup (line, sign) = some id

theorem Coupled.faithful {win : Int} {s : AnnoState} (h : Coupled win s) : Faithful win s where
  unshared := h.unshared
  deletable line sign id hid := by
    rw [(winAnnoDelete_spec h.registered line sign).2.2.2, h.entry line sign id hid]
    rfl

/-- A live annotation found under an operation's key is the operation's own, unless there is an
alias. -/
theorem NoAlias.eq_of_key {s : AnnoState} {op : AnnoOp} (h : NoAlias s op) {line : Int}
    {sign : CStr} {id : BitVec 32} (hid : s.live.lookup (line, sign) = some id)
    (hkey : annoKey line sign = annoKey op.line op.sign) : line = op.line ∧ sign = op.sign := by
  obtain ⟨hline, rfl⟩ := (annoKey_eq_iff _ _ _ _).mp hkey
  exact ⟨(noAlias_iff s op).mp h line id hid hline, rfl⟩

/-- Without an alias an addition keeps the map and the live annotations coupled. -/
theorem Coupled.add {win : Int} {s : AnnoState} (h : Coupled win s) (line : Int)
    (sign colorFg colorBg : CStr) (hfresh : s.live.lookup (line, sign) = none)
    (halias : NoAlias s (.add line sign colorFg colorBg)) :
    Coupled win ⟨(winAnnoAdd s.ui win line sign colorFg colorBg).1,
      s.live.insert (line, sign) s.ui.nextId⟩ := by
  obtain ⟨-, hreg, hannos⟩ := winAnnoAdd_spec h.registered line sign colorFg colorBg
  -- an older live annotation never sits under the new key
  have hother : ∀ line' sign' id', s.live.lookup (line', sign') = some id' →
      annoKey line' sign' ≠ annoKey line sign := by
    intro line' sign' id' hid' hkey
    obtain ⟨hl, hs⟩ := halias.eq_of_key hid' hkey
    simp only [AnnoOp.line, AnnoOp.sign] at hl hs
    rw [hl, hs, hfresh] at hid'
    cases hid'
  have hlive : ∀ line' sign', (s.live.insert (line, sign) s.ui.nextId).lookup (line', sign') =
      if (line', sign') = (line, sign) then some s.ui.nextId
      else s.live.lookup (line', sign') := by
    intro line' sign'
    split_ifs with heq
    · rw [heq, AList.lookup_insert]
    · rw [AList.lookup_insert_ne heq]
  refine ⟨hreg, ?_, ?_, ?_⟩
  · intro line₁ line₂ sign₁ sign₂ id₁ id₂ h₁ h₂ hkey
    rw [hlive] at h₁ h₂
    split_ifs at h₁ h₂ with heq₁ heq₂ heq₂
    · exact Prod.mk.inj (heq₁.trans heq₂.symm)
    · rw [(Prod.mk.inj heq₁).1, (Prod.mk.inj heq₁).2] at hkey
      exact absurd hkey.symm (hother _ _ _ h₂)
    · rw [(Prod.mk.inj heq₂).1, (Prod.mk.inj heq₂).2] at hkey
      exact absurd hkey (hother _ _ _ h₁)
    · exact h.unshared _ _ _ _ _ _ h₁ h₂ hkey
  · intro line' sign' id' h'
    rw [hlive] at h'
    simp only [hannos]
    split_ifs at h' with heq
    · cases h'
      rw [(Prod.mk.inj heq).1, (Prod.mk.inj heq).2, AList.lookup_insert]
    · rw [AList.lookup_insert_ne (hother _ _ _ h')]
      exact h.entry _ _ _ h'
  · intro key id hid
    simp only [hannos] at hid
    by_cases hkey : key = annoKey line sign
    · rw [hkey, AList.lookup_insert] at hid
      exact ⟨line, sign, hkey, by rw [hlive, if_pos rfl]; exact hid⟩
    · rw [AList.lookup_insert_ne hkey] at hid
      obtain ⟨line', sign', rfl, hid'⟩ := h.live key id hid
      refine ⟨line', sign', rfl, ?_⟩
      rw [hlive, if_neg, hid']
      rintro heq
      rw [(Prod.mk.inj heq).1, (Prod.mk.inj heq).2] at hkey
      exact hkey rfl

/-- Without an alias a deletion keeps the map and the live annotations coupled. -/
theorem Coupled.delete {win : Int} {s : AnnoState} (h : Coupled win s) (line : Int) (sign : CStr)
    (halias : NoAlias s (.delete line sign)) :
    Coupled win ⟨(winAnnoDelete s.ui win line sign).1, s.live.erase (line, sign)⟩ := by
  obtain ⟨-, hreg, hannos, -⟩ := winAnnoDelete_spec h.registered line sign
  have hlive : ∀ line' sign' id', (s.live.erase (line, sign)).lookup (line', sign') = some id' ↔
      (line', sign') ≠ (line, sign) ∧ s.live.lookup (line', sign') = some id' := by
    intro line' sign' id'
    by_cases heq : (line', sign') = (line, sign)
    · rw [heq, AList.lookup_erase]; simp
    · rw [AList.lookup_erase_ne heq]; simp [heq]
  have hother : ∀ line' sign' id', (line', sign') ≠ (line, sign) →
      s.live.lookup (line', sign') = some id' → annoKey line' sign' ≠ annoKey line sign := by
    intro line' sign' id' hne hid' hkey
    obtain ⟨hl, hs⟩ := halias.eq_of_key hid' hkey
    exact hne (Prod.ext hl hs)
  refine ⟨hreg, ?_, ?_, ?_⟩
  · intro line₁ line₂ sign₁ sign₂ id₁ id₂ h₁ h₂ hkey
    exact h.unshared _ _ _ _ _ _ ((hlive _ _ _).mp h₁).2 ((hlive _ _ _).mp h₂).2 hkey
  · intro line' sign' id' h'
    obtain ⟨hne, hid'⟩ := (hlive _ _ _).mp h'
    simp only [hannos]
    rw [AList.lookup_erase_ne (hother _ _ _ hne hid')]
    exact h.entry _ _ _ hid'
  · intro key id hid
    simp only [hannos] at hid
    have hkey : key ≠ annoKey line sign := by
      rintro rfl
      rw [AList.lookup_erase] at hid
      cases hid
    rw [AList.lookup_erase_ne hkey] at hid
    obtain ⟨line', sign', rfl, hid'⟩ := h.live key id hid
    refine ⟨line', sign', rfl, (hlive _ _ _).mpr ⟨?_, hid'⟩⟩
    intro heq
    exact hkey (by rw [(Prod.mk.inj heq).1, (Prod.mk.inj heq).2])

/-! ## When deletions hit what was added -/

/-- A step without an alias keeps the coupling. -/
theorem Coupled.step {win : Int} {s t : AnnoState} {op : AnnoOp} (h : Coupled win s)
    (hstep : AnnoStep win s op t) (halias : NoAlias s op) : Coupled win t := by
  cases hstep with
  | add line sign colorFg colorBg hfresh => exact h.add line sign colorFg colorBg hfresh halias
  | delete line sign => exact h.delete line sign halias

/-- From a coupled state, a step removes exactly what it should and stays faithful iff it has no
alias. -/
theorem Coupled.step_iff {win : Int} {s t : AnnoState} {op : AnnoOp} (h : Coupled win s)
    (hstep : AnnoStep win s op t) : (RemovesExactly win s op t ∧ Faithful win t) ↔ NoAlias s op := by
  constructor
  · rintro ⟨hremoves, hfaithful⟩
    rw [noAlias_iff]
    intro line' id' hid' hmod
    have hkey : annoKey line' op.sign = annoKey op.line op.sign :=
      (annoKey_eq_iff _ _ _ _).mpr ⟨hmod, rfl⟩
    by_contra hne
    cases hstep with
    | add line sign colorFg colorBg hfresh =>
        -- the new entry replaced the one of `line'`
        refine hne (hfaithful.unshared line' line sign sign id' s.ui.nextId ?_
          (AList.lookup_insert _) hkey).1
        exact (AList.lookup_insert_ne fun heq => hne (Prod.mk.inj heq).1).trans hid'
    | delete line sign =>
        -- the entry of `line'` is removed although `line` was named
        simp only [RemovesExactly, (winAnnoDelete_spec h.registered line sign).2.2.2] at hremoves
        have hentry := h.entry line' sign id' hid'
        simp only [AnnoOp.sign, AnnoOp.line] at hkey
        rw [hkey] at hentry
        rw [hentry] at hremoves
        cases hlive : s.live.lookup (line, sign) with
        | none => simp [hlive] at hremoves
        | some id => exact hne (h.unshared _ _ _ _ _ _ hid' hlive hkey).1
  · intro halias
    refine ⟨?_, (h.step hstep halias).faithful⟩
    cases hstep with
    | add => trivial
    | delete line sign =>
        simp only [RemovesExactly, (winAnnoDelete_spec h.registered line sign).2.2.2]
        cases hlive : s.live.lookup (line, sign) with
        | some id => rw [h.entry line sign id hlive]
        | none =>
            cases hentry : (s.ui.annos win).lookup (annoKey line sign) with
            | none => rfl
            | some id =>
                obtain ⟨line', sign', hkey, hid'⟩ := h.live _ _ hentry
                obtain ⟨hl, hs⟩ := halias.eq_of_key hid' hkey.symm
                simp only [AnnoOp.line, AnnoOp.sign] at hl hs
                rw [hl, hs, hlive] at hid'
                cases hid'

/-- The user interface with the single empty buffer `win`, before any annotation. -/
def AnnoState.init (win : Int) : AnnoState where
  ui := { bufidMap := (∅ : AList fun _ : Int => Buffer).insert win {} }
  live := ∅

theorem coupled_init {win : Int} (hwin : 0 ≤ win) : Coupled win (AnnoState.init win) where
  registered := ⟨hwin, {}, AList.lookup_insert _⟩
  unshared line line' sign sign' id id' hid := by simp [AnnoState.init] at hid
  entry line sign id hid := by simp [AnnoState.init] at hid
  live key id hid := by
    rw [Vimui.annos, AnnoState.init, AList.lookup_insert] at hid
    cases hid

/-- **Deletions hit exactly what was added iff lines are never confused modulo 256.**  For every
sequence of operations on one buffer: every deletion removes exactly the id that was added for its
line and sign and every state is faithful iff no operation has an alias. -/
theorem run_faithful_iff_noAlias {win : Int} (hwin : 0 ≤ win) (ops : List AnnoOp)
    (t : AnnoState) :
    Run (fun s op t => AnnoStep win s op t ∧ RemovesExactly win s op t ∧ Faithful win t)
        (AnnoState.init win) ops t ↔
      Run (fun s op t => AnnoStep win s op t ∧ NoAlias s op) (AnnoState.init win) ops t :=
  @Run.guarded_iff _ _ _ (Coupled win) _ (fun s op _ => NoAlias s op) _ (coupled_init hwin)
    (fun _ _ _ h hstep halias => h.step hstep halias) (fun _ _ _ h hstep => h.step_iff hstep) ops t

/-- Two lines 255 apart, annotated and the first one deleted, in buffer 7. -/
theorem run_faithful_two_lines :
    ∃ t, Run (fun s op t => AnnoStep 7 s op t ∧ RemovesExactly 7 s op t ∧ Faithful 7 t)
      (AnnoState.init 7)
      [.add 1 ['b'] ['r'] ['g'], .add 256 ['b'] ['r'] ['g'], .delete 1 ['b']] t :=
  ⟨_, (run_faithful_iff_noAlias (by decide) _ _).mpr
    (Run.snoc (Run.snoc (Run.snoc Run.nil ⟨.add _ _ _ _ (by decide), by decide⟩)
      ⟨.add _ _ _ _ (by decide), by decide⟩) ⟨.delete _ _, by decide⟩)⟩

/-- Two lines 256 apart share an entry: once both are annotated, deleting the first one removes
the annotation of the second. -/
theorem win_anno_lines_collide :
    ∃ t, Run (AnnoStep 7) (AnnoState.init 7)
        [.add 1 ['b'] ['r'] ['g'], .add 257 ['b'] ['r'] ['g']] t ∧
      t.live.lookup (1, ['b']) = some 1 ∧ t.live.lookup (257, ['b']) = some 2 ∧
      (winAnnoDelete t.ui 7 1 ['b']).1.sent = t.ui.sent ++ [.removeAnno 7 2] ∧ ¬ Faithful 7 t := by
  refine ⟨_, Run.snoc (Run.snoc Run.nil (.add _ _ _ _ (by decide))) (.add _ _ _ _ (by decide)),
    by decide, by decide, by decide, fun h => ?_⟩
  exact absurd (h.unshared 1 257 ['b'] ['b'] 1 2 (by decide) (by decide) (by decide)).1 (by decide)

end Vimgdb.Gui
