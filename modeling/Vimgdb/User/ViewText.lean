import Vimgdb.Gdb.VariableText
import Vimgdb.User.Views

/-!
# The text of the views

`cmd_var_print`, `cmd_register_print` and `cmd_callstack_print` with the text they make, over the model
that makes the line maps alone.

* `varText`, `registerText`, `stackText`: the functions.
* `refines_varText`, `refines_registerText`, `refines_stackText`: without the text they are those of
  the views.
* `Describes`: the line counter, and what is found on the lines that show a variable.
* `lines_describe`: so it is whatever is shown.
-/

namespace Vimgdb.Views

open Programs Printf MarkedText
open Gdb.VariableMaps (Mark Sheet OneLine Plain Vars addText printText)

/-! ## The functions -/

/-- A variable of `gdb_user_var`. -/
def printRootText (evals : Nat → Option CStr) (sheet : Sheet) (a : Nat) : Vars Sheet := do
  let v ← Gdb.VariableMaps.deref a
  if v.parent = none then printText evals true 0 sheet a else return sheet

/-- `cmd_var_print` -/
def varText (p : Print) : Cmds (Option Sheet) := do
  if p.window then
    let roots := inOrder ((← get).stack.vars.vars .user)
    let sheet ← onVars (roots.foldlM (printRootText p.evals) {})
    modify fun s => s.setLineVars .vars sheet.lines
    return some sheet
  else return none

/-- `cmd_register_print` -/
def registerText (p : Print) : Cmds (Option Sheet) := do
  if p.window then
    let roots := inOrder ((← get).stack.vars.vars .register)
    let sheet ← onVars (roots.foldlM (printText p.evals true 0) {})
    modify fun s => s.setLineVars .registers sheet.lines
    return some sheet
  else return none

/-- What has been printed of the callstack, and its text. -/
structure StackSheet extends Sheet where
  frames : LineMap Nat := []

/-- An argument; those that are not expanded are separated by commas. -/
def printArg (evals : Nat → Option CStr) (expanded : Bool) (last : Option Nat) (sheet : Sheet)
    (a : Nat) : Vars Sheet := do
  let sheet ← printText evals expanded 1 sheet a
  if !expanded ∧ some a ≠ last then
    let v ← Gdb.VariableMaps.deref a
    addText sheet none ",%s" [.str (if v.var.modified then [] else [' '])]
  else return sheet

/-- The mark in front of a frame with arguments. -/
def printFold (o : Gdb.Callstack.Object) (expanded : Bool) (sheet : Sheet) :
    Gdb.Callstack.Calls Sheet :=
  if o.args ≠ [] then addText sheet none "%s " [.str (if expanded then "[-]" else "[+]").toList]
  else pure sheet

/-- The end of the header in front of arguments that are expanded. -/
def printBreak (o : Gdb.Callstack.Object) (expanded : Bool) (sheet : Sheet) :
    Gdb.Callstack.Calls Sheet := do
  if o.args ≠ [] ∧ expanded then
    let sheet ← addText sheet none "\n" []
    return { sheet with line := sheet.line + 1 }
  else return sheet

/-- A frame: its header, its arguments and its locals. -/
def printFrameText (evals : Nat → Option CStr) (expanded : Bool) (f : Nat) (sheet : StackSheet) :
    Gdb.Callstack.Calls StackSheet := do
  let o ← Gdb.Callstack.deref f
  let page ← printFold o expanded sheet.toSheet
  let page ← addText page (some (.frame f)) "\xc2\xb4fl%s`fl:\xc2\xb4ln%d`ln \xc2\xb4fu%s`fu("
    [.str (orNull (o.frame.filename.orElse fun _ => o.frame.from)), .int o.frame.line,
      .str (orNull o.frame.function)]
  let frames := sheet.frames.add sheet.line f
  let page ← printBreak o expanded page
  let page ← Gdb.Callstack.onVars (o.args.foldlM (printArg evals expanded o.args.getLast?) page)
  let page ← addText page none ")\n" []
  let page := { page with line := page.line + 1 }
  let page ← Gdb.Callstack.onVars (o.locals.foldlM (printText evals true 1) page)
  let page ← addText page none "\n" []
  return { page with line := page.line + 1, frames }

/-- The loop over the callstack, as in `printFrames`. -/
def printFramesText (evals : Nat → Option CStr) (expanded : Nat → Bool) (first : Option Nat) :
    Nat → Option Nat → StackSheet → Gdb.Callstack.Calls StackSheet
  | _, none, sheet => return sheet
  | 0, some _, _ => undefined
  | fuel + 1, some f, sheet => do
      let sheet ← printFrameText evals (expanded f) f sheet
      if some f = first then return sheet
      else printFramesText evals expanded first fuel ((← get).links.prev f) sheet

/-- `cmd_callstack_print` -/
def stackText (p : Print) : Cmds (Option Sheet) := do
  if p.window then
    let s ← get
    let stack := s.stack
    let sheet ← onStack (printFramesText p.evals s.expanded stack.callstack
      stack.frames.entries.length (stack.callstack.bind stack.links.prev) {})
    modify fun s => { s.setLineVars .callstack sheet.lines with lineFrames := sheet.frames }
    return some sheet.toSheet
  else return none

/-! ## Without the text -/

open Gdb.VariableMaps (refines_printText refines_addText refines_addText_pure post_addText)

variable {evals : Nat → Option CStr} {s : State} {p : Print}

theorem refines_deref (a : Nat) :
    Refines (fun _ => ()) (Gdb.VariableMaps.deref a) (pure ()) := by
  unfold Gdb.VariableMaps.deref
  intro s r hr
  rw [exec_bind] at hr
  obtain ⟨⟨r₀, t⟩, hget, hr⟩ := Option.bind_eq_some_iff.mp hr
  obtain ⟨rfl, rfl⟩ := Prod.mk.inj (Option.some.inj hget)
  dsimp only at hr
  split at hr
  · cases hr
  · next v _ =>
    obtain rfl : (.ok v, s) = r := Option.some.inj hr
    rfl

theorem refines_onVars {α β : Type} {f : α → β} {q : Vars α} {q' : Vars β} (h : Refines f q q') :
    Refines f (onVars q) (onVars q') := by
  unfold onVars onStack Gdb.Callstack.onVars
  exact refines_zoom (refines_zoom h)

theorem refines_varText (p : Print) : Refines (fun _ => ()) (varText p) (cmdVarPrint p) := by
  unfold varText cmdVarPrint
  cases p.window with
  | false => exact refines_pure none
  | true =>
      refine refines_bind_self fun s => ?_
      dsimp only
      refine (refines_onVars (refines_foldlM (f := Sheet.toPage) (fun sheet a => ?_)
        _ {})).bind fun sheet => refines_bind_pure (f := fun _ => ()) fun _ => rfl
      unfold printRootText printRoot
      refine refines_bind_self fun v => ?_
      split
      · exact refines_printText true 0 sheet a
      · exact refines_pure sheet

theorem refines_registerText (p : Print) :
    Refines (fun _ => ()) (registerText p) (cmdRegisterPrint p) := by
  unfold registerText cmdRegisterPrint
  cases p.window with
  | false => exact refines_pure none
  | true =>
      refine refines_bind_self fun s => ?_
      dsimp only
      exact (refines_onVars (refines_foldlM (f := Sheet.toPage)
        (fun sheet a => refines_printText true 0 sheet a) _ {})).bind fun sheet =>
          refines_bind_pure (f := fun _ => ()) fun _ => rfl

/-- The comma behind an argument is text only. -/
theorem refines_printArg (expanded : Bool) (last : Option Nat) (sheet : Sheet) (a : Nat) :
    Refines Sheet.toPage (printArg evals expanded last sheet a)
      (Gdb.VariableMaps.print evals expanded 1 sheet.toPage a) := by
  unfold printArg
  rw [← bind_pure (Gdb.VariableMaps.print evals expanded 1 sheet.toPage a)]
  refine (refines_printText expanded 1 sheet a).bind fun sheet => ?_
  split
  · exact (refines_deref a).skip fun v _ => refines_addText_pure
  · exact refines_pure sheet

/-- The sheet of the callstack without its text. -/
def StackSheet.page (sheet : StackSheet) : StackPage := ⟨sheet.toPage, sheet.frames⟩

theorem refines_printFold (o : Gdb.Callstack.Object) (expanded : Bool) (sheet : Sheet) :
    Refines Sheet.toPage (printFold o expanded sheet) (pure sheet.toPage) := by
  unfold printFold
  split
  · exact refines_addText_pure
  · exact refines_pure sheet

theorem refines_printBreak (o : Gdb.Callstack.Object) (expanded : Bool) (sheet : Sheet) :
    Refines Sheet.toPage (printBreak o expanded sheet)
      (pure (if o.args ≠ [] ∧ expanded then { sheet.toPage with line := sheet.line + 1 }
        else sheet.toPage)) := by
  unfold printBreak
  split
  · exact refines_addText fun obuf => refines_pure _
  · exact refines_pure sheet

theorem refines_printFrameText (expanded : Bool) (f : Nat) (sheet : StackSheet) :
    Refines StackSheet.page (printFrameText evals expanded f sheet)
      (printFrame evals expanded f sheet.page) := by
  unfold printFrameText printFrame
  refine refines_bind_self fun o => ?_
  refine (refines_printFold o expanded sheet.toSheet).skip fun page hpage => ?_
  dsimp only
  refine refines_addText fun obuf => ?_
  refine (refines_printBreak o expanded _).skip fun page' hpage' => ?_
  have hstart : (if o.args ≠ [] ∧ expanded = true then
      { sheet.page.toPage with line := sheet.page.line + 1 } else sheet.page.toPage) =
      page'.toPage := by
    rw [hpage']
    refine if_congr Iff.rfl ?_ hpage.symm
    show { sheet.toPage with line := sheet.toPage.line + 1 } =
      { page.toPage with line := page.toPage.line + 1 }
    rw [hpage]
  rw [hstart]
  refine (refines_zoom (refines_foldlM (f := Sheet.toPage)
    (refines_printArg expanded o.args.getLast?) o.args page')).bind fun page₁ => ?_
  refine refines_addText fun obuf => ?_
  refine (refines_zoom (refines_foldlM (f := Sheet.toPage)
    (refines_printText true 1) o.locals _)).bind fun page₂ => ?_
  exact refines_addText fun obuf => refines_pure (f := StackSheet.page) _

theorem refines_printFramesText (expanded : Nat → Bool) (first : Option Nat) (fuel : Nat)
    (f : Option Nat) (sheet : StackSheet) :
    Refines StackSheet.page (printFramesText evals expanded first fuel f sheet)
      (printFrames evals expanded first fuel f sheet.page) := by
  induction fuel generalizing f sheet with
  | zero =>
      cases f with
      | none => exact refines_pure sheet
      | some f => exact refines_undefined
  | succ fuel ih =>
      cases f with
      | none => exact refines_pure sheet
      | some f =>
          rw [printFramesText, printFrames]
          refine (refines_printFrameText (expanded f) f sheet).bind fun sheet => ?_
          split
          · exact refines_pure sheet
          · exact refines_bind_self fun s => ih (s.links.prev f) sheet

theorem refines_stackText (p : Print) :
    Refines (fun _ => ()) (stackText p) (cmdCallstackPrint p) := by
  unfold stackText cmdCallstackPrint
  cases p.window with
  | false => exact refines_pure none
  | true =>
      refine refines_bind_self fun s => ?_
      dsimp only
      exact (refines_zoom (refines_printFramesText s.expanded s.stack.callstack
        s.stack.frames.entries.length _ {})).bind fun sheet =>
          refines_bind_pure (f := fun _ => ()) fun _ => rfl

/-! ## Lines -/

/-- Names of functions and files have no line breaks. -/
def PlainFrames (s : Gdb.Callstack.State) : Prop :=
  ∀ f o, s.frames.lookup f = some o →
    OneLine o.frame.filename ∧ OneLine o.frame.from ∧ OneLine o.frame.function

/-- Between two frames, the line counter and the line maps are those of the text. -/
structure StackSheet.Tracked (sheet : StackSheet) (s : Gdb.Callstack.State) : Prop where
  tracked : sheet.toSheet.Tracked
  frames : sheet.frames = LineMap.ofMarks (kind Mark.frame? sheet.obuf.marks)
  ascending : Ascending sheet.obuf.nextLine (kind Mark.frame? sheet.obuf.marks)
  plain : Plain s.vars
  plainFrames : PlainFrames s

variable {stack : Gdb.Callstack.State} {sheet : Sheet} {fs : List (Nat × Nat)} {n a : Nat}
  {vars : Gdb.VariableMaps.State} {E : Unit → Gdb.VariableMaps.State → Prop}
  {X : Unit → Gdb.Callstack.State → Prop}

theorem tracked_nil : Sheet.Tracked {} := ⟨rfl, rfl, ascending_nil _⟩

theorem on_nil (h : Plain vars) : Sheet.On [] 0 {} vars := ⟨tracked_nil, rfl, Nat.zero_le _, h⟩

/-- An argument, with the comma behind it. -/
theorem on_printArg (hevals : ∀ k, OneLine (evals k)) (expanded : Bool) (last : Option Nat)
    (h : sheet.On fs n vars) :
    Post (printArg evals expanded last sheet a) (fun sheet' t => sheet'.On fs n t) E vars := by
  unfold printArg
  rw [post_bind]
  refine (h.printText hevals expanded 1).mono (fun sheet' t ht => ?_) fun _ _ hE => hE
  split
  · rw [post_bind]
    refine Gdb.VariableMaps.post_deref fun v _ => ht.post_addInline ?_ (by decide) fun _ h' => h'
    intro arg harg
    obtain rfl := List.mem_singleton.mp harg
    show '\n' ∉ _
    split <;> decide
  · exact post_pure.mpr ht

/-- Variables are printed, the frames stay. -/
theorem on_onVars {p : Sheet → Nat → Vars Sheet} {as : List Nat}
    (hp : ∀ {E} (sheet a s), Sheet.On fs n sheet s →
      Post (p sheet a) (fun sheet' t => sheet'.On fs n t) E s)
    (h : sheet.On fs n stack.vars) (hframes : PlainFrames stack) :
    Post (Gdb.Callstack.onVars (as.foldlM p sheet))
      (fun sheet' t => sheet'.On fs n t.vars ∧ PlainFrames t) X stack := by
  rw [Gdb.Callstack.onVars, post_zoom]
  exact (post_foldlM (K := fun (sheet : Sheet) s => sheet.On fs n s) (fun sheet a s => hp sheet a s)
    as h).mono (fun sheet' t ht => ⟨ht, hframes⟩) fun _ _ hE => hE

/-- A frame: its header is on the line on which it begins. -/
theorem StackSheet.Tracked.printFrameText (hevals : ∀ k, OneLine (evals k)) {sheet : StackSheet}
    (h : sheet.Tracked stack) (expanded : Bool) (f : Nat) :
    Post (printFrameText evals expanded f sheet) (fun sheet' t => sheet'.Tracked t) X stack := by
  unfold Views.printFrameText
  rw [post_bind]
  refine Gdb.Callstack.post_deref fun o ho => ?_
  obtain ⟨hfilename, hfrom, hfunction⟩ := h.plainFrames f o ho
  have hfile : OneLine (o.frame.filename.orElse fun _ => o.frame.from) := by
    cases hf : o.frame.filename with
    | none => exact hfrom
    | some t =>
        rw [hf] at hfilename
        exact hfilename
  -- the mark in front of the header
  have hfold : Post (printFold o expanded sheet.toSheet) (fun page t => t = stack ∧ page.Tracked ∧
      page.obuf.nextLine = sheet.obuf.nextLine ∧ page.obuf.marks = sheet.obuf.marks) X stack := by
    unfold printFold
    split
    · refine post_addText ?_ fun obuf hnext hmarks => ?_
      · intro arg harg
        obtain rfl := List.mem_singleton.mp harg
        show '\n' ∉ _
        cases expanded <;> decide
      · have hfmt : (scanned "%s ".toList).count '\n' = 0 := by decide
        rw [hfmt, Nat.add_zero] at hnext
        rw [Option.toList_none, List.map_nil, List.append_nil] at hmarks
        exact ⟨rfl, h.tracked.addInline hnext (by rw [hmarks]), hnext, hmarks⟩
    · exact post_pure.mpr ⟨rfl, h.tracked, rfl, rfl⟩
  rw [post_bind]
  refine hfold.mono (fun page t hpage => ?_) fun _ _ hX => hX
  obtain ⟨rfl, htracked, hnext₀, hmarks₀⟩ := hpage
  rw [post_bind]
  refine post_addText ?_ fun obuf hnext hmarks => ?_
  · simp only [List.mem_cons, List.not_mem_nil, or_false]
    rintro arg (rfl | rfl | rfl)
    · exact Gdb.VariableMaps.newline_notMem_orNull hfile
    · trivial
    · exact Gdb.VariableMaps.newline_notMem_orNull hfunction
  have hfmt : (scanned "\xc2\xb4fl%s`fl:\xc2\xb4ln%d`ln \xc2\xb4fu%s`fu(".toList).count '\n' =
      0 := by decide
  rw [hfmt, Nat.add_zero, hnext₀] at hnext
  rw [hnext₀] at hmarks
  -- from here on the headers are these
  have hheader : Sheet.On (kind Mark.frame? sheet.obuf.marks ++ [(sheet.obuf.nextLine, f)])
      sheet.obuf.nextLine { page with obuf } t.vars := by
    refine ⟨htracked.addInline (hnext.trans hnext₀.symm) ?_, ?_, Nat.le_of_eq hnext.symm, h.plain⟩
    · rw [hmarks, kind_append]
      exact List.append_nil _
    · show kind Mark.frame? obuf.marks = _
      rw [hmarks, kind_append, hmarks₀]
      rfl
  rw [post_bind]
  have hbreak : Post (printBreak o expanded { page with obuf }) (fun page' u =>
      page'.On (kind Mark.frame? sheet.obuf.marks ++ [(sheet.obuf.nextLine, f)])
        sheet.obuf.nextLine u.vars ∧ PlainFrames u) X t := by
    unfold printBreak
    split
    · rw [post_bind]
      exact hheader.post_addBreak (by decide) fun page' h' =>
        post_pure.mpr ⟨h'.mono (by rw [hnext]; exact Nat.le_succ _), h.plainFrames⟩
    · exact post_pure.mpr ⟨hheader, h.plainFrames⟩
  refine hbreak.mono (fun page₁ u hpage₁ => ?_) fun _ _ hX => hX
  rw [post_bind]
  refine (on_onVars (fun sheet a s h' => on_printArg hevals expanded o.args.getLast? h') hpage₁.1
    hpage₁.2).mono (fun page₂ u₂ hpage₂ => ?_) fun _ _ hX => hX
  rw [post_bind]
  refine hpage₂.1.post_addBreak (by decide) fun page₃ hpage₃ => ?_
  rw [post_bind]
  refine (on_onVars (fun sheet a s h' => h'.printText hevals true 1) hpage₃ hpage₂.2).mono
    (fun page₄ u₄ hpage₄ => ?_) fun _ _ hX => hX
  rw [post_bind]
  refine hpage₄.1.post_addBreak (by decide) fun page₅ hpage₅ => post_pure.mpr ?_
  have hle := hpage₂.1.le
  have hle₄ := hpage₄.1.le
  refine ⟨hpage₅.tracked, ?_, ?_, hpage₅.plain, hpage₄.2⟩
  · show sheet.frames.add sheet.line f = LineMap.ofMarks (kind Mark.frame? page₅.obuf.marks)
    rw [hpage₅.frames, LineMap.ofMarks_snoc, ← h.frames, h.tracked.line]
  · show Ascending page₅.obuf.nextLine (kind Mark.frame? page₅.obuf.marks)
    have hle₅ : page₄.obuf.nextLine + 1 ≤ page₅.obuf.nextLine := hpage₅.le
    rw [hpage₅.frames]
    exact h.ascending.snoc (Nat.le_refl _) (by omega) f

/-- The loop over the frames. -/
theorem StackSheet.Tracked.printFramesText (hevals : ∀ k, OneLine (evals k)) {expanded : Nat → Bool}
    {first : Option Nat} {fuel : Nat} {f : Option Nat} {sheet : StackSheet}
    (h : sheet.Tracked stack) :
    Post (printFramesText evals expanded first fuel f sheet) (fun sheet' t => sheet'.Tracked t) X
      stack := by
  induction fuel generalizing f sheet stack with
  | zero =>
      cases f with
      | none => exact post_pure.mpr h
      | some f => exact post_undefined
  | succ fuel ih =>
      cases f with
      | none => exact post_pure.mpr h
      | some f =>
          rw [Views.printFramesText, post_bind]
          refine (h.printFrameText hevals (expanded f) f).mono (fun sheet' t ht => ?_)
            fun _ _ hX => hX
          split
          · exact post_pure.mpr ht
          · rw [post_bind, post_get]
            exact ih ht

/-! ## What is found on a line -/

/-- The line counter is that of the text, and a variable that is shown expanded is found on its
line. -/
structure Describes (sheet : Sheet) (lines : LineMap Nat) : Prop where
  line : sheet.line.toNat = 1 + sheet.obuf.data.count '\n'
  found : ∀ l a, sheet.obuf.Shown l (.var a) → lines.find (BitVec.ofNat 32 l) = some a

theorem toNat_line {sheet : Sheet} (h : sheet.Tracked) :
    sheet.line.toNat = 1 + sheet.obuf.data.count '\n' := by
  rw [h.line, BitVec.toNat_ofNat, Nat.mod_eq_of_lt sheet.obuf.nextLine_lt]
  rfl

/-- What is shown of one kind is found. -/
theorem find_shown {f : Mark → Option Nat} {obuf : Dynarray Mark} {l b : Nat} {m : Mark}
    (hasc : Ascending obuf.nextLine (kind f obuf.marks)) (hm : f m = some b)
    (h : obuf.Shown l m) :
    (LineMap.ofMarks (kind f obuf.marks)).find (BitVec.ofNat 32 l) = some b :=
  LineMap.find_of_mem (Nat.le_of_lt obuf.nextLine_lt) hasc
    (mem_kind.mpr ⟨m, Dynarray.mem_marks.mpr h, hm⟩)

theorem describes_lines {sheet : Sheet} (h : sheet.Tracked) : Describes sheet sheet.lines where
  line := toNat_line h
  found l a hl := by
    rw [h.lines]
    exact find_shown h.ascending rfl hl

theorem lineVars_setLineVars (s : State) (view : View) (lines : LineMap Nat) :
    (s.setLineVars view lines).lineVars view = lines := by
  unfold State.setLineVars
  exact Function.update_self view lines s.lineVars

/-- Printing some variables. -/
theorem post_onVars_foldlM {q : Sheet → Nat → Vars Sheet} {as : List Nat}
    (hq : ∀ {E} (sheet a s), Sheet.On [] 0 sheet s →
      Post (q sheet a) (fun sheet' t => sheet'.On [] 0 t) E s)
    (hplain : Plain s.stack.vars) {Q : Sheet → State → Prop} {E : Unit → State → Prop}
    (hQ : ∀ sheet t, sheet.Tracked → Q sheet t) : Post (onVars (as.foldlM q {})) Q E s := by
  unfold onVars onStack Gdb.Callstack.onVars
  rw [post_zoom, post_zoom]
  exact (post_foldlM (K := fun (sheet : Sheet) s => sheet.On [] 0 s) (fun sheet a s => hq sheet a s)
    as (on_nil hplain)).mono (fun sheet t ht => hQ sheet _ ht.tracked)
      (E := fun _ _ => False) fun _ _ hE => hE.elim

theorem on_printRootText (hevals : ∀ k, OneLine (evals k)) (h : sheet.On fs n vars) :
    Post (printRootText evals sheet a) (fun sheet' t => sheet'.On fs n t) E vars := by
  unfold printRootText
  rw [post_bind]
  refine Gdb.VariableMaps.post_deref fun v _ => ?_
  split
  · exact h.printText hevals true 0
  · exact post_pure.mpr h

theorem post_varText (hevals : ∀ k, OneLine (p.evals k)) (hplain : Plain s.stack.vars) :
    Post (varText p) (fun sheet t => ∀ shown ∈ sheet, Describes shown (t.lineVars .vars))
      (fun _ _ => False) s := by
  unfold varText
  cases p.window with
  | false => exact post_pure.mpr fun shown h => absurd h (Option.not_mem_none shown)
  | true =>
      rw [if_pos rfl, post_bind, post_get]
      dsimp only
      rw [post_bind]
      refine post_onVars_foldlM (fun sheet a s h => on_printRootText hevals h) hplain
        fun sheet t htracked => ?_
      rw [post_bind, post_modify, post_pure]
      rintro shown ⟨⟩
      rw [lineVars_setLineVars]
      exact describes_lines htracked

theorem post_registerText (hevals : ∀ k, OneLine (p.evals k)) (hplain : Plain s.stack.vars) :
    Post (registerText p) (fun sheet t => ∀ shown ∈ sheet, Describes shown (t.lineVars .registers))
      (fun _ _ => False) s := by
  unfold registerText
  cases p.window with
  | false => exact post_pure.mpr fun shown h => absurd h (Option.not_mem_none shown)
  | true =>
      rw [if_pos rfl, post_bind, post_get]
      dsimp only
      rw [post_bind]
      refine post_onVars_foldlM (fun sheet a s h => h.printText hevals true 0) hplain
        fun sheet t htracked => ?_
      rw [post_bind, post_modify, post_pure]
      rintro shown ⟨⟩
      rw [lineVars_setLineVars]
      exact describes_lines htracked

theorem post_stackText (hevals : ∀ k, OneLine (p.evals k)) (hplain : Plain s.stack.vars)
    (hframes : PlainFrames s.stack) :
    Post (stackText p) (fun sheet t => ∀ shown ∈ sheet, Describes shown (t.lineVars .callstack) ∧
      ∀ l f, shown.obuf.Shown l (.frame f) → t.lineFrames.find (BitVec.ofNat 32 l) = some f)
      (fun _ _ => False) s := by
  unfold stackText
  cases p.window with
  | false => exact post_pure.mpr fun shown h => absurd h (Option.not_mem_none shown)
  | true =>
      rw [if_pos rfl, post_bind, post_get]
      dsimp only
      rw [post_bind, onStack, post_zoom]
      have hnil : StackSheet.Tracked {} s.stack := ⟨tracked_nil, rfl, ascending_nil _, hplain, hframes⟩
      refine (hnil.printFramesText hevals).mono (fun sheet t ht => ?_)
        (E := fun _ _ => False) fun _ _ hE => hE
      rw [post_bind, post_modify, post_pure]
      rintro shown ⟨⟩
      refine ⟨?_, fun l f hl => ?_⟩
      · have hdescribes := describes_lines ht.tracked
        rw [← lineVars_setLineVars { s with stack := t } .callstack sheet.lines] at hdescribes
        exact hdescribes
      · show sheet.frames.find _ = _
        rw [ht.frames]
        exact find_shown ht.ascending rfl hl

/-- A variable is found on the line on which it is shown expanded, and a frame on that of its header.
The line counter is one more than the line breaks, behind each print of a variable and at the end. -/
theorem lines_describe (p : Print) (s : State) (hevals : ∀ k, OneLine (p.evals k))
    (hplain : Plain s.stack.vars) (hframes : PlainFrames s.stack) :
    Post (varText p) (fun sheet t => ∀ shown ∈ sheet, Describes shown (t.lineVars .vars))
      (fun _ _ => False) s ∧
    Post (registerText p) (fun sheet t => ∀ shown ∈ sheet, Describes shown (t.lineVars .registers))
      (fun _ _ => False) s ∧
    Post (stackText p) (fun sheet t => ∀ shown ∈ sheet, Describes shown (t.lineVars .callstack) ∧
      ∀ l f, shown.obuf.Shown l (.frame f) → t.lineFrames.find (BitVec.ofNat 32 l) = some f)
      (fun _ _ => False) s ∧
    ∀ expand indent sheet a vars, Sheet.Tracked sheet → Plain vars →
      Post (printText p.evals expand indent sheet a)
        (fun sheet' _ => sheet'.line.toNat = 1 + sheet'.obuf.data.count '\n')
        (fun _ _ => False) vars := by
  refine ⟨post_varText hevals hplain, post_registerText hevals hplain,
    post_stackText hevals hplain hframes, fun expand indent sheet a vars htracked hvars => ?_⟩
  have hon : Sheet.On (kind Mark.frame? sheet.obuf.marks) 0 sheet vars :=
    ⟨htracked, rfl, Nat.zero_le _, hvars⟩
  exact (hon.printText hevals expand indent).mono (fun sheet' t ht => toNat_line ht.tracked)
    fun _ _ hE => hE

/-- A variable with a child that is shown. -/
private def folderVar : Gdb.VariableMaps.Object where
  var := { exp := some "s".toList, value := some "{...}".toList, childsVisible := true, nchilds := 1 }
  childs := [1]

private def memberVar : Gdb.VariableMaps.Object where
  var := { exp := some "m".toList, value := some "0".toList }
  parent := some 0

/-- A frame that has the variable as an argument and as a local variable. -/
private def shownFrame : Gdb.Callstack.Object where
  frame := { line := 3, function := some "main".toList, filename := some "main.c".toList }
  args := [0]
  locals := [0]

private def shownStack : State :=
  { State.init with
    stack := { Gdb.Callstack.State.init with
      vars :=
        { (Gdb.VariableMaps.State.init.setObject 1 memberVar).setObject 0 folderVar with next := 2 }
      frames := AList.insert 0 shownFrame ∅
      next := 1
      links := ⟨fun _ => some 0, fun _ => some 0⟩
      callstack := some 0 }
    expanded := fun _ => true }

private theorem oneLine_some {t : CStr} (h : '\n' ∉ t) : OneLine (some t) := by
  rintro t' ⟨⟩
  exact h

private theorem plain_shownStack : Plain shownStack.stack.vars := by
  have hinit : Plain Gdb.VariableMaps.State.init := fun a v h =>
    absurd ((AList.lookup_empty a).symm.trans h) nofun
  have hmember : Plain (Gdb.VariableMaps.State.init.setObject 1 memberVar) :=
    hinit.setObject (oneLine_some (by decide)) (oneLine_some (by decide))
  exact hmember.setObject (v := folderVar) (oneLine_some (by decide)) (oneLine_some (by decide))

private theorem plainFrames_shownStack : PlainFrames shownStack.stack := by
  intro f o hf
  by_cases hzero : f = 0
  · subst hzero
    obtain rfl := Option.some.inj ((AList.lookup_insert ∅).symm.trans hf)
    exact ⟨oneLine_some (by decide), nofun, oneLine_some (by decide)⟩
  · exact absurd ((AList.lookup_insert_ne hzero).symm.trans hf) nofun

/-- The header of the frame, and a variable with a child as an argument and as a local variable. -/
theorem lines_describe_frame : ∃ sheet t,
    exec (stackText ⟨true, fun _ => some "7".toList⟩) shownStack = some (.ok (some sheet), t) ∧
      sheet.obuf.data = ("[-] \xc2\xb4flmain.c`fl:\xc2\xb4ln3`ln \xc2\xb4fumain`fu(\n" ++
        " [-] \xc2\xb4cs = 7`c\n      \xc2\xb4cm = 7`c\n\n)\n [-] s = 7\n      m = 7\n\n\n").toList ∧
      Describes sheet (t.lineVars .callstack) ∧
      ∀ l f, sheet.obuf.Shown l (.frame f) → t.lineFrames.find (BitVec.ofNat 32 l) = some f := by
  have hrun : (exec (stackText ⟨true, fun _ => some "7".toList⟩) shownStack).map (fun r =>
      r.1.toOption.join.map fun sheet => sheet.obuf.data) = some (some
      ("[-] \xc2\xb4flmain.c`fl:\xc2\xb4ln3`ln \xc2\xb4fumain`fu(\n" ++
        " [-] \xc2\xb4cs = 7`c\n      \xc2\xb4cm = 7`c\n\n)\n [-] s = 7\n      m = 7\n\n\n").toList) := by
    decide +kernel
  obtain ⟨-, -, hstack, -⟩ := lines_describe ⟨true, fun _ => some "7".toList⟩ shownStack
    (fun _ => oneLine_some (by decide)) plain_shownStack plainFrames_shownStack
  rcases hexec : exec (stackText ⟨true, fun _ => some "7".toList⟩) shownStack with
    _ | ⟨_ | _ | sheet, t⟩
  · rw [hexec] at hrun
    cases hrun
  · rw [hexec] at hrun
    cases hrun
  · rw [hexec] at hrun
    cases hrun
  · rw [hexec] at hrun
    obtain ⟨hdescribes, hheader⟩ := hstack _ hexec sheet rfl
    exact ⟨sheet, t, rfl, Option.some.inj (Option.some.inj hrun), hdescribes, hheader⟩

end Vimgdb.Views
