import Vimgdb.Gui.Quiet

/-!
# The annotations of the windows

`Gui.winAnnoAdd` and `Gui.winAnnoDelete` are what the functions of the user interface do to the annotations,
without the sections in which vim does not redraw.

* `Annotations`: what both depend on, in the two states.
* `winAnnoAdd_refines`, `winAnnoDelete_refines`: the functions do the same.
-/

namespace Vimgdb.Vim.Signs

open Programs
open Gui (annoKey)

/-- The counter, the annotations of the buffers, and the messages about them. -/
structure Annotations where
  nextId : BitVec 32
  bufs : BitVec 32 → Option Gui.Buffer
  sent : List Gui.Command

/-- A message about annotations. -/
def command : Message → Option Gui.Command
  | .defineAnnoType win key sign colorFg colorBg =>
      some (.defineAnnoType win.toInt key sign colorFg.chars colorBg.chars)
  | .addAnno win id annotype line => some (.addAnno win.toInt id annotype line.toInt)
  | .removeAnno win id => some (.removeAnno win.toInt id)
  | _ => none

/-- The annotations of a buffer. -/
def annos (buf : Buffer) : Gui.Buffer := ⟨buf.annos, buf.annoTypes⟩

/-- The annotations of the user interface. -/
def annotations (ui : Vimui) : Annotations where
  nextId := ui.annoId
  bufs win := (ui.bufidMap.lookup win).map annos
  sent := ui.sent.filterMap command

/-- The annotations where there is nothing else. -/
def view (v : Gui.Vimui) : Annotations where
  nextId := v.nextId
  bufs win := v.bufidMap.lookup win.toInt
  sent := v.sent

variable {replies : Nat → Option Cursor} {s : Vimui} {v : Gui.Vimui} {win : BitVec 32} {buf : Buffer}

theorem annotations_sent (ui : Vimui) (m : Message) : annotations { ui with sent := ui.sent ++ [m] } =
    { annotations ui with sent := (annotations ui).sent ++ (command m).toList } := by
  have hm : [m].filterMap command = (command m).toList := by
    cases h : command m <;> simp [h]
  simp [annotations, hm]

theorem annotations_modifyBuffer (ui : Vimui) (win : BitVec 32) {f : Buffer → Buffer}
    {g : Gui.Buffer → Gui.Buffer} (hf : ∀ buf, annos (f buf) = g (annos buf)) :
    annotations (ui.modifyBuffer win f) = { annotations ui with
      bufs := Function.update (annotations ui).bufs win (((annotations ui).bufs win).map g) } := by
  have hbufs : ∀ win', ((ui.modifyBuffer win f).bufidMap.lookup win').map annos =
      Function.update (annotations ui).bufs win (((annotations ui).bufs win).map g) win' := by
    intro win'
    unfold Vimui.modifyBuffer annotations
    cases hbuf : ui.bufidMap.lookup win with
    | none =>
        by_cases hwin : win' = win
        · subst hwin
          simp [hbuf]
        · rw [Function.update_of_ne hwin]
    | some buf =>
        by_cases hwin : win' = win
        · subst hwin
          simp [hbuf, hf]
        · rw [AList.lookup_insert_ne hwin, Function.update_of_ne hwin]
  rw [annotations, funext hbufs]
  unfold Vimui.modifyBuffer annotations
  split <;> rfl

theorem view_setBuffer (v : Gui.Vimui) (win : BitVec 32) (buf : Gui.Buffer) :
    view (v.setBuffer win.toInt buf) = { view v with bufs := Function.update (view v).bufs win (some buf) } := by
  have hbufs : ∀ win', (v.setBuffer win.toInt buf).bufidMap.lookup win'.toInt =
      Function.update (view v).bufs win (some buf) win' := by
    intro win'
    by_cases hwin : win' = win
    · subst hwin
      simp [Gui.Vimui.setBuffer]
    · rw [Function.update_of_ne hwin, Gui.Vimui.setBuffer,
        AList.lookup_insert_ne fun heq => hwin (BitVec.eq_of_toInt_eq heq)]
      rfl
  rw [view, funext hbufs]
  rfl

instance : Blind annotations where
  message ui m hm := by
    rw [annotations_sent]
    cases m <;> first | exact congrArg (Annotations.mk _ _) (List.append_nil _) | exact hm.elim
  buffer ui win f hf := by
    have hannos : ∀ buf, annos (f buf) = id (annos buf) := fun buf =>
      congrArg (fun n : Notes => (⟨n.annos, n.annoTypes⟩ : Gui.Buffer)) (hf buf)
    rw [annotations_modifyBuffer ui win hannos, Option.map_id_fun, id, Function.update_eq_self]
  cursor _ _ := rfl
  inAtomic _ _ := rfl
  ostr _ _ := rfl
  asked _ _ := rfl

/-- A command is refused for a negative window. -/
theorem action_eq (v : Gui.Vimui) (win : BitVec 32) (c : Gui.Command) : v.action win.toInt c =
    if win.slt 0 then none else some { v with sent := v.sent ++ [c] } := by
  unfold Gui.Vimui.action
  simp [BitVec.slt_iff_toInt_lt]

/-- A message about annotations is sent by both, or by none of them. -/
theorem annotations_action {m : Message} {c : Gui.Command} (h : annotations s = view v)
    (hm : command m = some c) :
    annotations { s with sent := s.sent ++ [m] } = view { v with sent := v.sent ++ [c] } := by
  rw [annotations_sent, h, hm]
  rfl

/-- A buffer is changed in both. -/
theorem annotations_change (h : annotations s = view v) {b : Gui.Buffer} (hb : (view v).bufs win = some b)
    {f : Buffer → Buffer} {g : Gui.Buffer → Gui.Buffer} (hf : ∀ buf, annos (f buf) = g (annos buf)) :
    annotations (s.modifyBuffer win f) = view (v.setBuffer win.toInt (g b)) := by
  rw [annotations_modifyBuffer s win hf, view_setBuffer, h, hb]
  rfl

/-- The number of a type. -/
theorem post_annoType_refines (h : annotations s = view v) (hbuf : (annotations s).bufs win = some (annos buf))
    (sign : CStr) (colorFg colorBg : Word) :
    Post (annoType win buf sign colorFg colorBg)
      (fun annotype t => ∃ v' buf', Gui.annoType v win.toInt (annos buf) sign colorFg.chars colorBg.chars =
        some (v', buf', annotype) ∧ annotations t = view v' ∧ (view v').bufs win = some buf')
      (fun _ t => Gui.annoType v win.toInt (annos buf) sign colorFg.chars colorBg.chars = none ∧
        annotations t = view v) s := by
  obtain ⟨key, hkey⟩ : ∃ key, key = sign ++ colorFg.chars ++ colorBg.chars := ⟨_, rfl⟩
  unfold annoType Gui.annoType
  dsimp only [annos]
  rw [← hkey]
  split
  · rw [post_bind, action_eq]
    refine post_action (fun hwin => ?_) fun hwin => ?_
    · have hwin : win.slt 0 = false := hwin
      rw [post_bind, post_modify, post_pure, hwin, if_neg Bool.false_ne_true]
      let define : Gui.Buffer → Gui.Buffer := fun b =>
        { b with annoTypes := b.annoTypes.insert key (BitVec.ofNat 32 (buf.annoTypes.entries.length + 1)) }
      refine ⟨_, define (annos buf), rfl, ?_, ?_⟩
      · have hv : (view v).bufs win = some (annos buf) := h ▸ hbuf
        exact annotations_change (g := define) (annotations_action h rfl) hv fun _ => rfl
      · rw [view_setBuffer]
        exact Function.update_self ..
    · have hwin : win.slt 0 = true := hwin
      rw [if_pos hwin]
      exact ⟨rfl, h⟩
  · exact post_pure.mpr ⟨v, annos buf, rfl, h, h ▸ hbuf⟩

/-- `win_anno_add` is left with an error. -/
theorem post_leave (h : annotations s = view v) {Q : Unit → Vimui → Prop} :
    Post (do attempt (atomic replies win false false); throw () : Ui Unit) Q
      (fun _ t => annotations t = view v) s := by
  rw [post_bind]
  exact ((quiet_atomic win false false).post_attempt h).mono (fun _ _ ht => post_throw.mpr ht) fun _ _ h => h

/-- `win_anno_add` -/
theorem winAnnoAdd_refines (h : annotations s = view v) (win line : BitVec 32) (sign : CStr)
    (colorFg colorBg : Word) :
    Post (winAnnoAdd replies win line sign colorFg colorBg)
      (fun _ t => annotations t =
          view (Gui.winAnnoAdd v win.toInt line.toInt sign colorFg.chars colorBg.chars).1 ∧
        (Gui.winAnnoAdd v win.toInt line.toInt sign colorFg.chars colorBg.chars).2 = 0)
      (fun _ t => annotations t =
          view (Gui.winAnnoAdd v win.toInt line.toInt sign colorFg.chars colorBg.chars).1 ∧
        (Gui.winAnnoAdd v win.toInt line.toInt sign colorFg.chars colorBg.chars).2 = -1) s := by
  have hlookup : v.bufidMap.lookup win.toInt = (s.bufidMap.lookup win).map annos :=
    (congrFun (congrArg Annotations.bufs h) win).symm
  unfold winAnnoAdd Gui.winAnnoAdd
  rw [post_tryCatch, post_bind, post_get, hlookup]
  cases hbuf : s.bufidMap.lookup win with
  | none =>
      dsimp only [Option.map_none]
      rw [post_throw]
      exact (post_leave h (Q := fun _ _ => False)).mono (fun _ _ h => h.elim) fun _ t ht => ⟨ht, rfl⟩
  | some buf =>
      dsimp only [Option.map_some]
      rw [post_bind]
      refine ((quiet_atomic win true false).post_attempt h).mono (fun _ t ht => ?_) fun _ _ h => h
      rw [post_bind]
      have hv : (view v).bufs win = some (annos buf) := hlookup.trans (congrArg _ hbuf)
      refine (post_annoType_refines ht (ht ▸ hv) sign colorFg colorBg).mono (fun annotype u hu => ?_)
        fun _ u hu => ?_
      · obtain ⟨v', buf', htype, hu, hbuf'⟩ := hu
        have hid : u.annoId = v'.nextId := congrArg Annotations.nextId hu
        rw [htype, post_bind, post_get, post_bind]
        dsimp only
        rw [action_eq]
        refine post_action (fun hwin => ?_) fun hwin => ?_
        · have hwin : win.slt 0 = false := hwin
          rw [post_bind, post_modify, post_bind, post_modify, hwin, if_neg Bool.false_ne_true]
          let add : Gui.Buffer → Gui.Buffer := fun b =>
            { b with annos := b.annos.insert (annoKey line.toInt sign) v'.nextId }
          refine ((quiet_atomic win false false).post_attempt ?_).mono (fun _ w hw => ⟨hw, rfl⟩) fun _ _ h => h
          have hsent := annotations_action (m := .addAnno win u.annoId annotype line) hu rfl
          have hchange := annotations_change (g := add) hsent hbuf'
            (f := fun b => { b with annos := b.annos.insert (annoKey line.toInt sign) u.annoId })
            (fun b => by rw [hid]; rfl)
          show { annotations (Vimui.modifyBuffer _ win _) with nextId := u.annoId + 1 } = _
          rw [hchange, hid]
          rfl
        · have hwin : win.slt 0 = true := hwin
          rw [if_pos hwin]
          exact (post_leave hu (Q := fun _ _ => False)).mono (fun _ _ h => h.elim) fun _ w hw => ⟨hw, rfl⟩
      · rw [hu.1]
        exact (post_leave hu.2 (Q := fun _ _ => False)).mono (fun _ _ h => h.elim) fun _ w hw => ⟨hw, rfl⟩

/-- `win_anno_delete` -/
theorem winAnnoDelete_refines (h : annotations s = view v) (win line : BitVec 32) (sign : CStr) :
    Post (winAnnoDelete win line sign)
      (fun _ t => annotations t = view (Gui.winAnnoDelete v win.toInt line.toInt sign).1 ∧
        (Gui.winAnnoDelete v win.toInt line.toInt sign).2 = 0)
      (fun _ t => annotations t = view (Gui.winAnnoDelete v win.toInt line.toInt sign).1 ∧
        (Gui.winAnnoDelete v win.toInt line.toInt sign).2 = -1) s := by
  have hlookup : v.bufidMap.lookup win.toInt = (s.bufidMap.lookup win).map annos :=
    (congrFun (congrArg Annotations.bufs h) win).symm
  unfold winAnnoDelete Gui.winAnnoDelete
  rw [post_bind, post_get, hlookup]
  cases hbuf : s.bufidMap.lookup win with
  | none => exact post_throw.mpr ⟨h, rfl⟩
  | some buf =>
      dsimp only [Option.map_some, annos]
      cases hanno : buf.annos.lookup (annoKey line.toInt sign) with
      | none => exact post_pure.mpr ⟨h, rfl⟩
      | some id =>
          dsimp only
          rw [post_bind, action_eq]
          refine post_action (fun hwin => ?_) fun hwin => ?_
          · have hwin : win.slt 0 = false := hwin
            rw [post_modify, hwin, if_neg Bool.false_ne_true]
            let delete : Gui.Buffer → Gui.Buffer := fun b =>
              { b with annos := b.annos.erase (annoKey line.toInt sign) }
            have hv : (view v).bufs win = some (annos buf) := hlookup.trans (congrArg _ hbuf)
            exact ⟨annotations_change (g := delete) (annotations_action h rfl) hv fun _ => rfl, rfl⟩
          · have hwin : win.slt 0 = true := hwin
            rw [if_pos hwin]
            exact ⟨h, rfl⟩

end Vimgdb.Vim.Signs
