import Vimgdb.Common.Dynarray
import Vimgdb.Gdb.VariablePrint

/-!
# The text of variables

`gdb_variable_t::print` with the text it adds to the output buffer, over the model that fills the line
map alone.

* `Sheet`, `addText`: what has been printed, with its text.
* `printRow`, `printText`: the recursive `print`, and the one the views call.
* `refines_printText`: without the text it is `print`.
* `Sheet.Tracked`: the line counter and the line map are those of the text.
* `Sheet.On.printText`: they stay so, whatever is printed and however it ends.
-/

namespace Vimgdb.Gdb.VariableMaps

open Programs Printf MarkedText

/-! ## The functions -/

/-- What a piece of text shows: a variable in expanded form, or the header of a frame. -/
inductive Mark
  | var (a : Nat)
  | frame (f : Nat)
  deriving DecidableEq

/-- The variable that is shown. -/
def Mark.var? : Mark → Option Nat
  | .var a => some a
  | .frame _ => none

/-- The frame whose header is shown. -/
def Mark.frame? : Mark → Option Nat
  | .var _ => none
  | .frame f => some f

/-- What has been printed, and its text. -/
structure Sheet extends Page where
  obuf : Dynarray Mark := .empty

/-- `obuf.add` -/
def addText {σ : Type} (sheet : Sheet) (shows : Option Mark) (fmt : String) (args : List Printf.Arg) :
    Program σ Unit Sheet :=
  match sheet.obuf.add shows fmt.toList args with
  | none => undefined
  | some obuf => pure { sheet with obuf }

/-- The mark in front of a variable that can be folded. -/
def foldMark (v : Variable) : String :=
  if v.nchilds = 0 then "   " else if v.childsVisible then "[-]" else "[+]"

/-- The recursive `print`.  It changes the variable behind the text, here in front of it. -/
def printRow (evals : Nat → Option CStr) : Nat → Nat → Sheet → Nat → Vars Sheet
  | 0, _, _, _ => undefined
  | fuel + 1, level, sheet, a => do
      let (page, ok) ← updateValue evals a sheet.toPage
      let sheet := { sheet with toPage := page }
      if ok then
        let v ← unmark a
        let sheet ← addText sheet (some (.var a)) "%s%s %s%s = %s%s\n"
          [.str (List.replicate level ' '), .str (foldMark v.var).toList,
            .str (changed v.var.modified).1, .str (orNull v.var.exp), .str (orNull v.var.value),
            .str (changed v.var.modified).2]
        let sheet := { sheet with lines := sheet.lines.add sheet.line a, line := sheet.line + 1 }
        if v.var.childsVisible then
          let sheet ← v.childs.foldlM (printRow evals fuel (level + 1)) sheet
          if level = 1 then
            let sheet ← addText sheet none "\n" []
            return { sheet with line := sheet.line + 1 }
          else return sheet
        else return sheet
      else return sheet

/-- `print` -/
def printText (evals : Nat → Option CStr) (expand : Bool) (indent : Nat) (sheet : Sheet) (a : Nat) :
    Vars Sheet := do
  if expand then printRow evals (← get).next indent sheet a
  else
    let (page, ok) ← updateValue evals a sheet.toPage
    let sheet := { sheet with toPage := page }
    if ok then
      let v ← unmark a
      addText sheet none "%s%s = %s%s" [.str (changed v.var.modified).1, .str (orNull v.var.exp),
        .str (orNull v.var.value), .str (changed v.var.modified).2]
    else return sheet

/-! ## Without the text -/

variable {σ : Type} {sheet sheet' : Sheet} {evals : Nat → Option CStr}

/-- A text that is added changes nothing else. -/
theorem refines_addText {α β : Type} {shows : Option Mark} {fmt : String} {args : List Printf.Arg}
    {k : Sheet → Program σ Unit α} {q : Program σ Unit β} {f : α → β}
    (hk : ∀ obuf, Refines f (k { sheet with obuf }) q) :
    Refines f (addText sheet shows fmt args >>= k) q := by
  unfold addText
  cases sheet.obuf.add shows fmt.toList args with
  | none => exact fun s r hr => absurd hr nofun
  | some obuf => exact hk obuf

theorem refines_addText_pure {shows : Option Mark} {fmt : String} {args : List Printf.Arg} :
    Refines Sheet.toPage (addText sheet shows fmt args : Program σ Unit Sheet)
      (pure sheet.toPage) := by
  unfold addText
  cases sheet.obuf.add shows fmt.toList args with
  | none => exact refines_undefined
  | some obuf => exact refines_pure _

theorem refines_printRow (fuel level : Nat) (sheet : Sheet) (a : Nat) :
    Refines Sheet.toPage (printRow evals fuel level sheet a)
      (printExpanded evals fuel level sheet.toPage a) := by
  induction fuel generalizing level sheet a with
  | zero => exact refines_undefined
  | succ fuel ih =>
      unfold printRow printExpanded
      refine refines_bind_self fun r => ?_
      obtain ⟨page, ok⟩ := r
      dsimp only
      split
      · refine refines_bind_self fun v => refines_addText fun obuf => ?_
        split
        · refine (refines_foldlM (fun sheet a => ih (level + 1) sheet a) v.childs _).bind fun sheet => ?_
          split
          · exact refines_addText fun obuf => refines_pure _
          · exact refines_pure _
        · exact refines_pure _
      · exact refines_pure _

/-- Without the text it is `print`. -/
theorem refines_printText (expand : Bool) (indent : Nat) (sheet : Sheet) (a : Nat) :
    Refines Sheet.toPage (printText evals expand indent sheet a)
      (print evals expand indent sheet.toPage a) := by
  unfold printText print
  cases expand with
  | true => exact refines_bind_self fun s => refines_printRow s.next indent sheet a
  | false =>
      refine refines_bind_self fun r => ?_
      obtain ⟨page, ok⟩ := r
      dsimp only
      split
      · refine refines_bind_self fun v => ?_
        exact refines_addText_pure
      · exact refines_pure _

/-! ## Lines -/

/-- The line counter and the line map are those of the text. -/
structure Sheet.Tracked (sheet : Sheet) : Prop where
  line : sheet.line = BitVec.ofNat 32 sheet.obuf.nextLine
  lines : sheet.lines = LineMap.ofMarks (kind Mark.var? sheet.obuf.marks)
  ascending : Ascending sheet.obuf.nextLine (kind Mark.var? sheet.obuf.marks)

/-- A text without line breaks, if there is one. -/
def OneLine (s : Option CStr) : Prop := ∀ t, s = some t → '\n' ∉ t

/-- Expressions and values have no line breaks. -/
def Plain (s : State) : Prop :=
  ∀ a v, s.heap.lookup a = some v → OneLine v.var.exp ∧ OneLine v.var.value

/-- While variables are printed: the headers of frames are `fs`, and line `n` has been reached. -/
structure Sheet.On (fs : List (Nat × Nat)) (n : Nat) (sheet : Sheet) (s : State) : Prop where
  tracked : sheet.Tracked
  frames : kind Mark.frame? sheet.obuf.marks = fs
  le : n ≤ sheet.obuf.nextLine
  plain : Plain s

variable {fs : List (Nat × Nat)} {n a : Nat} {s : State} {E : Unit → State → Prop}

theorem newline_notMem_orNull {t : Option CStr} (h : OneLine t) : '\n' ∉ orNull t := by
  cases t with
  | none => decide
  | some t => exact h t rfl

theorem newline_notMem_foldMark (v : Variable) : '\n' ∉ (foldMark v).toList := by
  unfold foldMark
  split_ifs <;> decide

/-- What is known of the buffer behind a text that is added. -/
theorem post_addText {s : σ} {shows : Option Mark} {fmt : String} {args : List Printf.Arg}
    {Q : Sheet → σ → Prop} {E : Unit → σ → Prop} (hargs : ∀ a ∈ args, a.OneLine)
    (h : ∀ obuf, obuf.nextLine = sheet.obuf.nextLine + (scanned fmt.toList).count '\n' →
      obuf.marks = sheet.obuf.marks ++ shows.toList.map (fun m => (sheet.obuf.nextLine, m)) →
      Q { sheet with obuf } s) : Post (addText sheet shows fmt args) Q E s := by
  unfold addText
  cases hadd : sheet.obuf.add shows fmt.toList args with
  | none => exact post_undefined
  | some obuf =>
      obtain ⟨hnext, hmarks⟩ := Dynarray.add_spec hargs hadd
      exact post_pure.mpr (h obuf hnext hmarks)

/-- A text on the line that is begun. -/
theorem Sheet.Tracked.addInline {obuf : Dynarray Mark} (h : sheet.Tracked)
    (hnext : obuf.nextLine = sheet.obuf.nextLine)
    (hmarks : kind Mark.var? obuf.marks = kind Mark.var? sheet.obuf.marks) :
    Sheet.Tracked { sheet with obuf } where
  line := by
    rw [hnext]
    exact h.line
  lines := by
    rw [hmarks]
    exact h.lines
  ascending := by
    rw [hnext, hmarks]
    exact h.ascending

/-- The end of a line. -/
theorem Sheet.Tracked.addBreak {obuf : Dynarray Mark} (h : sheet.Tracked)
    (hnext : obuf.nextLine = sheet.obuf.nextLine + 1) (hmarks : obuf.marks = sheet.obuf.marks) :
    Sheet.Tracked { sheet with obuf, line := sheet.line + 1 } where
  line := by
    show sheet.line + 1 = _
    rw [hnext, h.line, BitVec.ofNat_add]
    rfl
  lines := by
    rw [hmarks]
    exact h.lines
  ascending := by
    rw [hnext, hmarks]
    exact h.ascending.mono (Nat.le_succ _)

/-- The line of a variable. -/
theorem Sheet.Tracked.addVar {obuf : Dynarray Mark} (h : sheet.Tracked)
    (hnext : obuf.nextLine = sheet.obuf.nextLine + 1)
    (hmarks : obuf.marks = sheet.obuf.marks ++ [(sheet.obuf.nextLine, .var a)]) :
    Sheet.Tracked
      { sheet with obuf, lines := sheet.lines.add sheet.line a, line := sheet.line + 1 } := by
  have hkind : kind Mark.var? obuf.marks =
      kind Mark.var? sheet.obuf.marks ++ [(sheet.obuf.nextLine, a)] := by
    rw [hmarks, kind_append]
    rfl
  refine ⟨?_, ?_, ?_⟩
  · show sheet.line + 1 = _
    rw [hnext, h.line, BitVec.ofNat_add]
    rfl
  · show sheet.lines.add sheet.line a = _
    rw [hkind, LineMap.ofMarks_snoc, h.lines, h.line]
  · show Ascending obuf.nextLine (kind Mark.var? obuf.marks)
    rw [hkind, hnext]
    exact h.ascending.snoc (Nat.le_refl _) (Nat.lt_succ_self _) a

theorem Plain.setObject {v : Object} (h : Plain s) (hexp : OneLine v.var.exp)
    (hvalue : OneLine v.var.value) : Plain (s.setObject a v) := by
  intro b w hb
  by_cases hba : b = a
  · subst hba
    obtain rfl := Option.some.inj ((AList.lookup_insert s.heap).symm.trans hb)
    exact ⟨hexp, hvalue⟩
  · exact h b w ((AList.lookup_insert_ne hba).symm.trans hb)

/-- A value is asked for; gdb reports it without line breaks. -/
theorem Sheet.On.updateValue (h : sheet.On fs n s) (hevals : ∀ k, OneLine (evals k)) :
    Post (updateValue evals a sheet.toPage)
      (fun r t => Sheet.On fs n { sheet with toPage := r.1 } t) E s := by
  unfold VariableMaps.updateValue
  rw [post_bind]
  refine post_deref fun v hv => ?_
  have hplain := h.plain a v hv
  split
  · dsimp only
    split
    · exact post_pure.mpr ⟨⟨h.tracked.line, h.tracked.lines, h.tracked.ascending⟩, h.frames, h.le,
        h.plain⟩
    · next value hvalue =>
      rw [post_bind, post_modify, post_pure]
      refine ⟨⟨h.tracked.line, h.tracked.lines, h.tracked.ascending⟩, h.frames, h.le, ?_⟩
      exact h.plain.setObject hplain.1 fun t ht =>
        hevals sheet.evals t (hvalue.trans (congrArg some (Option.some.inj ht)))
  · exact post_pure.mpr h

theorem Sheet.On.unmark (h : sheet.On fs n s) :
    Post (unmark a) (fun v t => sheet.On fs n t ∧ OneLine v.var.exp ∧ OneLine v.var.value) E s := by
  unfold VariableMaps.unmark
  rw [post_bind]
  refine post_deref fun v hv => ?_
  obtain ⟨hexp, hvalue⟩ := h.plain a v hv
  rw [post_bind, post_modify, post_pure]
  exact ⟨⟨h.tracked, h.frames, h.le, h.plain.setObject hexp hvalue⟩, hexp, hvalue⟩

/-! ## Printing -/

/-- A text without an end of line, which shows nothing. -/
theorem Sheet.On.post_addInline {v : State} {s : σ} {E : Unit → σ → Prop} {Q : Sheet → σ → Prop}
    (h : sheet.On fs n v) {fmt : String} {args : List Printf.Arg} (hargs : ∀ a ∈ args, a.OneLine)
    (hfmt : (scanned fmt.toList).count '\n' = 0) (hQ : ∀ sheet', Sheet.On fs n sheet' v → Q sheet' s) :
    Post (addText sheet none fmt args) Q E s := by
  refine post_addText hargs fun obuf hnext hmarks => hQ _ ?_
  rw [hfmt, Nat.add_zero] at hnext
  rw [Option.toList_none, List.map_nil, List.append_nil] at hmarks
  exact ⟨h.tracked.addInline hnext (by rw [hmarks]), by rw [hmarks]; exact h.frames, by
    rw [hnext]; exact h.le, h.plain⟩

/-- The end of a line, which is counted behind it. -/
theorem Sheet.On.post_addBreak {v : State} {s : σ} {E : Unit → σ → Prop} {Q : Sheet → σ → Prop}
    (h : sheet.On fs n v) {fmt : String} (hfmt : (scanned fmt.toList).count '\n' = 1)
    (hQ : ∀ sheet' : Sheet, Sheet.On fs (sheet.obuf.nextLine + 1)
      { sheet' with line := sheet'.line + 1 } v → Q sheet' s) :
    Post (addText sheet none fmt []) Q E s := by
  refine post_addText (by simp) fun obuf hnext hmarks => hQ _ ?_
  rw [hfmt] at hnext
  rw [Option.toList_none, List.map_nil, List.append_nil] at hmarks
  exact ⟨h.tracked.addBreak hnext hmarks, by rw [hmarks]; exact h.frames, by
    rw [hnext], h.plain⟩

theorem Sheet.On.mono {m : Nat} (h : sheet.On fs n s) (hle : m ≤ n) : sheet.On fs m s :=
  { h with le := hle.trans h.le }

/-- However deep a variable is, each line that is begun is counted. -/
theorem Sheet.On.printRow (hevals : ∀ k, OneLine (evals k)) {fuel level : Nat}
    (h : sheet.On fs n s) :
    Post (printRow evals fuel level sheet a) (fun sheet' t => sheet'.On fs n t) E s := by
  induction fuel generalizing level sheet a s with
  | zero => exact post_undefined
  | succ fuel ih =>
      unfold VariableMaps.printRow
      rw [post_bind]
      refine (h.updateValue hevals).mono (fun r t ht => ?_) fun _ _ hE => hE
      obtain ⟨page, ok⟩ := r
      dsimp only at ht ⊢
      split
      · rw [post_bind]
        refine ht.unmark.mono (fun v u hu => ?_) fun _ _ hE => hE
        obtain ⟨hu, hexp, hvalue⟩ := hu
        rw [post_bind]
        refine post_addText ?_ fun obuf hnext hmarks => ?_
        · have hblank : '\n' ∉ List.replicate level ' ' := fun hmem =>
            absurd (List.eq_of_mem_replicate hmem) (by decide)
          obtain ⟨hfront, hback⟩ := newline_notMem_changed v.var.modified
          simp only [List.mem_cons, List.not_mem_nil, or_false]
          rintro arg (rfl | rfl | rfl | rfl | rfl | rfl)
          · exact hblank
          · exact newline_notMem_foldMark v.var
          · exact hfront
          · exact newline_notMem_orNull hexp
          · exact newline_notMem_orNull hvalue
          · exact hback
        · have hfmt : (scanned "%s%s %s%s = %s%s\n".toList).count '\n' = 1 := by decide
          rw [hfmt] at hnext
          have hentered : Sheet.On fs n { sheet with
              obuf, evals := page.evals, lines := page.lines.add page.line a
              line := page.line + 1 } u := by
            refine ⟨hu.tracked.addVar hnext hmarks, ?_, ?_, hu.plain⟩
            · show kind Mark.frame? obuf.marks = fs
              rw [hmarks, kind_append]
              exact (List.append_nil _).trans hu.frames
            · show n ≤ obuf.nextLine
              rw [hnext]
              exact Nat.le_succ_of_le hu.le
          split
          · rw [post_bind]
            refine (post_foldlM (K := fun (sheet : Sheet) s => sheet.On fs n s)
              (fun sheet a s h => ih h) v.childs hentered).mono (fun sheet' w hw => ?_)
              fun _ _ hE => hE
            split
            · rw [post_bind]
              exact hw.post_addBreak (by decide) fun sheet'' h'' =>
                post_pure.mpr (h''.mono (Nat.le_succ_of_le hw.le))
            · exact post_pure.mpr hw
          · exact post_pure.mpr hentered
      · exact post_pure.mpr ht

/-- Whatever is printed, and however it ends. -/
theorem Sheet.On.printText (hevals : ∀ k, OneLine (evals k)) (expand : Bool) (indent : Nat)
    (h : sheet.On fs n s) :
    Post (printText evals expand indent sheet a) (fun sheet' t => sheet'.On fs n t) E s := by
  unfold VariableMaps.printText
  cases expand with
  | true =>
      rw [if_pos rfl, post_bind, post_get]
      exact h.printRow hevals
  | false =>
      rw [if_neg Bool.false_ne_true, post_bind]
      refine (h.updateValue hevals).mono (fun r t ht => ?_) fun _ _ hE => hE
      obtain ⟨page, ok⟩ := r
      dsimp only at ht ⊢
      split
      · rw [post_bind]
        refine ht.unmark.mono (fun v u hu => ?_) fun _ _ hE => hE
        obtain ⟨hu, hexp, hvalue⟩ := hu
        obtain ⟨hfront, hback⟩ := newline_notMem_changed v.var.modified
        refine hu.post_addInline ?_ (by decide) fun _ h' => h'
        simp only [List.mem_cons, List.not_mem_nil, or_false]
        rintro arg (rfl | rfl | rfl | rfl)
        · exact hfront
        · exact newline_notMem_orNull hexp
        · exact newline_notMem_orNull hvalue
        · exact hback
      · exact post_pure.mpr ht

end Vimgdb.Gdb.VariableMaps
