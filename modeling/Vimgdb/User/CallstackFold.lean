import Vimgdb.User.Views

/-!
# Folding a frame

`Callstack fold` looks for a variable first, and a variable is found at its line and at every line
behind it.

* `Block`, `Layout`: the lines a frame takes, and frames one after the other.
* `Displayed`: the line maps of the callstack are those of such a layout.
* `displayed_run`: so they are in every run of commands.
* `fold_toggles_iff`: a header toggles its frame iff no variable is shown above it.
-/

namespace Vimgdb.Views

open Programs Runs
open Gdb (Variable)
open Gdb.VariableMaps (Page Vars Updates Prints)

/-! ## Layouts -/

/-- What is shown of a frame: the line of the header, and the variables with their lines. -/
structure Block where
  frame : Nat
  line : Nat
  vars : List (Nat × Nat)

/-- The entry of the frame. -/
def Block.header (b : Block) : BitVec 32 × Nat := (BitVec.ofNat 32 b.line, b.frame)

/-- Variables with their lines. -/
def entries (es : List (Nat × Nat)) : LineMap Nat := es.map fun e => (BitVec.ofNat 32 e.1, e.2)

/-- The blocks take the lines from `n` to the one before `m`, each its own. -/
inductive Layout : Nat → List Block → Nat → Prop
  | nil (n : Nat) : Layout n [] n
  | cons {b : Block} {bs : List Block} {m k : Nat} : b.line < m →
      (∀ e ∈ b.vars, b.line < e.1 ∧ e.1 < m) → Layout m bs k → Layout b.line (b :: bs) k

/-- The line maps of the callstack are those of the blocks. -/
structure Displayed (bs : List Block) (n : Nat) (s : State) : Prop where
  layout : Layout 1 bs n
  frames : s.lineFrames = bs.map Block.header
  vars : s.lineVars .callstack = bs.flatMap fun b => entries b.vars

variable {n m k : Nat} {bs above below : List Block} {b : Block} {s t : State}

theorem Layout.le (h : Layout n bs m) : n ≤ m := by
  induction h with
  | nil => exact Nat.le_refl _
  | cons hlt _ _ ih => omega

theorem Layout.append {cs : List Block} (h : Layout n bs m) (h' : Layout m cs k) :
    Layout n (bs ++ cs) k := by
  induction h with
  | nil => exact h'
  | cons hlt hvars _ ih => exact .cons hlt hvars (ih h')

/-- The lines of the blocks are those between the first and the last one. -/
theorem Layout.bounds (h : Layout n bs m) {c : Block} (hc : c ∈ bs) :
    n ≤ c.line ∧ c.line < m ∧ ∀ e ∈ c.vars, c.line < e.1 ∧ e.1 < m := by
  induction h with
  | nil => cases hc
  | cons hlt hvars htail ih =>
      have hle := htail.le
      rcases List.mem_cons.mp hc with rfl | hc
      · refine ⟨Nat.le_refl _, by omega, fun e he => ?_⟩
        obtain ⟨hlow, hhigh⟩ := hvars e he
        exact ⟨hlow, by omega⟩
      · obtain ⟨hlow, hhigh, hinside⟩ := ih hc
        exact ⟨by omega, hhigh, hinside⟩

/-- A layout around one of its blocks. -/
theorem Layout.split (h : Layout n (above ++ b :: below) m) :
    Layout n above b.line ∧ ∃ k, b.line < k ∧ (∀ e ∈ b.vars, b.line < e.1 ∧ e.1 < k) ∧
      Layout k below m := by
  induction above generalizing n with
  | nil =>
      cases h with
      | cons hlt hvars htail => exact ⟨.nil _, _, hlt, hvars, htail⟩
  | cons a above ih =>
      cases h with
      | cons hlt hvars htail =>
          obtain ⟨habove, hrest⟩ := ih htail
          exact ⟨.cons hlt hvars habove, hrest⟩

/-! ## Printing -/

/-- Variables have been entered, on lines from `n` to the one before `m`, which is the next. -/
structure Grows (n m : Nat) (page page' : Page) : Prop where
  le : n ≤ m
  line : page'.line = BitVec.ofNat 32 m
  lines : ∃ es, page'.lines = page.lines ++ entries es ∧ ∀ e ∈ es, n ≤ e.1 ∧ e.1 < m

variable {page page' page'' : Page} {evals : Nat → Option CStr} {vars : Gdb.VariableMaps.State}
  {E : Unit → Gdb.VariableMaps.State → Prop} {a : Nat} {as : List Nat}

/-- Nothing has been entered. -/
theorem grows_same (h : page.line = BitVec.ofNat 32 n) (hline : page'.line = page.line)
    (hlines : page'.lines = page.lines) : Grows n n page page' where
  le := Nat.le_refl n
  line := hline.trans h
  lines := ⟨[], hlines.trans (List.append_nil _).symm, fun _ he => absurd he List.not_mem_nil⟩

theorem Grows.trans (h : Grows n m page page') (h' : Grows m k page' page'') :
    Grows n k page page'' where
  le := h.le.trans h'.le
  line := h'.line
  lines := by
    obtain ⟨es, hlines, hes⟩ := h.lines
    obtain ⟨es', hlines', hes'⟩ := h'.lines
    refine ⟨es ++ es', ?_, fun e he => ?_⟩
    · rw [hlines', hlines, List.append_assoc]
      unfold entries
      rw [List.map_append]
    · rcases List.mem_append.mp he with he | he
      · exact ⟨(hes e he).1, (hes e he).2.trans_le h'.le⟩
      · exact ⟨h.le.trans (hes' e he).1, (hes' e he).2⟩

/-- A line is left empty. -/
theorem Grows.skip (h : Grows n m page page') :
    Grows n (m + 1) page { page' with line := page'.line + 1 } where
  le := Nat.le_succ_of_le h.le
  line := by
    show page'.line + 1 = _
    rw [h.line, BitVec.ofNat_add]
    rfl
  lines := by
    obtain ⟨es, hlines, hes⟩ := h.lines
    exact ⟨es, hlines, fun e he => ⟨(hes e he).1, Nat.lt_succ_of_lt (hes e he).2⟩⟩

/-- A variable is entered. -/
theorem grows_add (h : page.line = BitVec.ofNat 32 n) (a : Nat) :
    Grows n (n + 1) page
      { page with lines := page.lines.add page.line a, line := page.line + 1 } where
  le := Nat.le_succ n
  line := by
    show page.line + 1 = _
    rw [h, BitVec.ofNat_add]
    rfl
  lines := by
    refine ⟨[(n, a)], ?_, fun e he => ?_⟩
    · show page.lines ++ [(page.line, a)] = _
      rw [h]
      rfl
    · obtain rfl := List.mem_singleton.mp he
      exact ⟨Nat.le_refl _, Nat.lt_succ_self _⟩

/-- Printing enters variables on the lines that follow. -/
theorem prints_grows (n : Nat) (page : Page) :
    Prints fun page' _ => ∃ m, Grows n m page page' where
  evals k h := by
    obtain ⟨m, h⟩ := h
    exact ⟨m, h.le, h.line, h.lines⟩
  setObject h _ _ := h
  add {page' s a} h _ := by
    obtain ⟨m, h⟩ := h
    exact ⟨m + 1, h.trans (grows_add h.line a)⟩
  skip h := by
    obtain ⟨m, h⟩ := h
    exact ⟨m + 1, h.skip⟩

/-- Variables are printed one after the other. -/
theorem grows_print {expand : Bool} {indent : Nat} (h : page.line = BitVec.ofNat 32 n) :
    Post (as.foldlM (Gdb.VariableMaps.print evals expand indent) page)
      (fun page' _ => ∃ m, Grows n m page page') E vars :=
  post_foldlM (K := fun page' _ => ∃ m, Grows n m page page')
    (fun _ _ _ hp => (prints_grows n page).print expand indent hp) as ⟨n, grows_same h rfl rfl⟩

/-- Variables that are not expanded take no lines. -/
theorem updates_folded (page : Page) :
    Updates fun page' _ => page'.line = page.line ∧ page'.lines = page.lines where
  evals _ h := h
  setObject h _ _ := h

theorem post_printFolded {indent : Nat} :
    Post (as.foldlM (Gdb.VariableMaps.print evals false indent) page)
      (fun page' _ => page'.line = page.line ∧ page'.lines = page.lines) E vars :=
  post_foldlM (K := fun (page' : Page) _ => page'.line = page.line ∧ page'.lines = page.lines)
    (fun _ _ _ hp => (updates_folded page).printFolded indent hp) as ⟨rfl, rfl⟩

/-! ## Frames -/

variable {X : Unit → Gdb.Callstack.State → Prop} {stack : Gdb.Callstack.State}

/-- The arguments, and the end of the line of the header. -/
theorem post_printArgs (h : page.line = BitVec.ofNat 32 n) {expanded : Bool} {indent : Nat} :
    Post (Gdb.Callstack.onVars (as.foldlM (Gdb.VariableMaps.print evals expanded indent)
        (if as ≠ [] ∧ expanded = true then { page with line := page.line + 1 } else page)))
      (fun page' _ => ∃ m, Grows (n + 1) m page { page' with line := page'.line + 1 }) X stack := by
  have hnext : Grows (n + 1) (n + 1) page { page with line := page.line + 1 } := {
    le := Nat.le_refl _
    line := (grows_same h rfl rfl).skip.line
    lines := ⟨[], (List.append_nil _).symm, fun _ he => absurd he List.not_mem_nil⟩ }
  rw [Gdb.Callstack.onVars, post_zoom]
  split
  · refine (grows_print hnext.line).mono
      (fun page' _ hgrows => ?_) fun _ _ hE => hE
    obtain ⟨m, hgrows⟩ := hgrows
    exact ⟨_, (hnext.trans hgrows).skip⟩
  · next hfolded =>
    have hend : ∀ page' : Page, page'.line = page.line ∧ page'.lines = page.lines →
        ∃ m, Grows (n + 1) m page { page' with line := page'.line + 1 } := by
      rintro ⟨line, lines, evals⟩ ⟨rfl, rfl⟩
      exact ⟨_, hnext.le, hnext.line, hnext.lines⟩
    cases expanded with
    | false => exact post_printFolded.mono (fun page' _ hp => hend page' hp) fun _ _ hE => hE
    | true =>
        obtain rfl : as = [] := by simpa using hfolded
        exact post_pure.mpr (hend page ⟨rfl, rfl⟩)

/-- What has been printed of the callstack are the blocks. -/
structure Printed (bs : List Block) (n : Nat) (page : StackPage) : Prop where
  layout : Layout 1 bs n
  line : page.line = BitVec.ofNat 32 n
  frames : page.frames = bs.map Block.header
  vars : page.lines = bs.flatMap fun b => entries b.vars

/-- Another block follows. -/
theorem Printed.snoc {page page' : StackPage} (h : Printed bs b.line page) (hlt : b.line < m)
    (hvars : ∀ e ∈ b.vars, b.line < e.1 ∧ e.1 < m) (hline : page'.line = BitVec.ofNat 32 m)
    (hframes : page'.frames = page.frames.add page.line b.frame)
    (hlines : page'.lines = page.lines ++ entries b.vars) : Printed (bs ++ [b]) m page' where
  layout := h.layout.append (.cons hlt hvars (.nil m))
  line := hline
  frames := by
    rw [hframes, h.line, h.frames, List.map_append]
    rfl
  vars := by
    rw [hlines, h.vars, List.flatMap_append]
    simp

theorem Printed.printFrame {page : StackPage} (h : Printed bs n page) (expanded : Bool) (f : Nat) :
    Post (printFrame evals expanded f page)
      (fun page' _ => ∃ b m, Printed (bs ++ [b]) m page') X stack := by
  unfold Views.printFrame
  rw [post_bind]
  refine Gdb.Callstack.post_deref fun o _ => ?_
  extract_lets frames before page'
  rw [post_bind]
  refine (post_printArgs h.line).mono (fun page₁ t hargs => ?_) fun _ _ hE => hE
  obtain ⟨m, hargs⟩ := hargs
  extract_lets page₂
  rw [post_bind, Gdb.Callstack.onVars, post_zoom]
  refine (grows_print hargs.line).mono
    (fun page₃ w hlocals => ?_) fun _ _ hE => hE
  obtain ⟨k, hlocals⟩ := hlocals
  have hall := (hargs.trans hlocals).skip
  obtain ⟨es, hlines, hes⟩ := hall.lines
  refine post_pure.mpr ⟨⟨f, n, es⟩, k + 1, h.snoc (b := ⟨f, n, es⟩) ?_ ?_ hall.line rfl hlines⟩
  · exact hall.le
  · exact hes

theorem Printed.printFrames {page : StackPage} (h : Printed bs n page) {expanded : Nat → Bool}
    {first f : Option Nat} {fuel : Nat} :
    Post (printFrames evals expanded first fuel f page)
      (fun page' _ => ∃ bs n, Printed bs n page') X stack := by
  induction fuel generalizing page f stack bs n with
  | zero =>
      cases f with
      | none => exact post_pure.mpr ⟨bs, n, h⟩
      | some f => exact post_undefined
  | succ fuel ih =>
      cases f with
      | none => exact post_pure.mpr ⟨bs, n, h⟩
      | some f =>
          rw [Views.printFrames, post_bind]
          refine (h.printFrame (expanded f) f).mono (fun page' t ht => ?_) fun _ _ hX => hX
          obtain ⟨b, m, ht⟩ := ht
          split
          · exact post_pure.mpr ⟨_, _, ht⟩
          · rw [post_bind, post_get]
            exact ih ht

/-! ## Runs -/

/-- The line maps of the callstack are those of some blocks. -/
def Laid (s : State) : Prop := ∃ bs n, Displayed bs n s

variable {Y : Unit → State → Prop} {p : Print}

/-- The callstack is printed; the flags stay. -/
theorem post_printed (p : Print) :
    Post (cmdCallstackPrint p) (fun _ t => (Laid s → Laid t) ∧ t.expanded = s.expanded) Y s := by
  unfold cmdCallstackPrint
  split
  · rw [post_bind, post_get, post_bind, onStack, post_zoom]
    have hstart : Printed [] 1 {} := ⟨.nil 1, rfl, rfl, rfl⟩
    refine hstart.printFrames.mono (fun page stack hpage => ?_) fun _ _ hX => hX
    obtain ⟨bs, n, hpage⟩ := hpage
    exact post_modify.mpr ⟨fun _ => ⟨bs, n, hpage.layout, hpage.frames, hpage.vars⟩, rfl⟩
  · exact post_pure.mpr ⟨id, rfl⟩

theorem Laid.congr (h : Laid s) (hframes : t.lineFrames = s.lineFrames)
    (hvars : t.lineVars .callstack = s.lineVars .callstack) : Laid t := by
  obtain ⟨bs, n, h⟩ := h
  exact ⟨bs, n, h.layout, hframes.trans h.frames, hvars.trans h.vars⟩

theorem laid_onStack {α : Type} (p : Gdb.Callstack.Calls α) : Keeps Laid (onStack p) :=
  keeps_zoom fun _ _ h => h.congr rfl rfl

theorem laid_onVars {α : Type} (p : Vars α) : Keeps Laid (onVars p) := laid_onStack _

theorem laid_onMems {α : Type} (p : Memory.Mems α) : Keeps Laid (onMems p) :=
  keeps_zoom fun _ _ h => h.congr rfl rfl

theorem laid_onPer {α : Type} (p : Per.Pers α) : Keeps Laid (onPer p) :=
  keeps_zoom fun _ _ h => h.congr rfl rfl

theorem laid_cmdCallstackPrint (p : Print) : Keeps Laid (cmdCallstackPrint p) := fun _ h =>
  (post_printed p).mono (fun _ _ ht => ht.1 h) fun _ _ ht => ht

/-- The line map of another view is made anew. -/
theorem laid_setLineVars {view : View} (hview : view ≠ .callstack) (lines : LineMap Nat) :
    Keeps Laid (modify fun s => s.setLineVars view lines : Cmds Unit) :=
  keeps_modify fun _ h => h.congr rfl (Function.update_of_ne hview.symm _ _)

theorem laid_cmdVarPrint (p : Print) : Keeps Laid (cmdVarPrint p) := by
  unfold cmdVarPrint
  split
  · exact keeps_get.bind fun s => (laid_onVars _).bind fun page => laid_setLineVars (by decide) _
  · exact keeps_pure ()

theorem laid_cmdRegisterPrint (p : Print) : Keeps Laid (cmdRegisterPrint p) := by
  unfold cmdRegisterPrint
  split
  · exact keeps_get.bind fun s => (laid_onVars _).bind fun page => laid_setLineVars (by decide) _
  · exact keeps_pure ()

theorem laid_cmdCallstackUpdate (u : StackUpdate) : Keeps Laid (cmdCallstackUpdate u) := by
  refine (laid_onStack _).bind fun _ => ?_
  split
  · exact laid_cmdCallstackPrint u.print
  · exact keeps_pure ()

theorem laid_infUpdate (u : Update) : Keeps Laid (infUpdate u) :=
  (laid_onVars _).attempt.bind fun _ => (laid_cmdVarPrint u.vars).bind fun _ =>
    (laid_cmdCallstackUpdate u.stack).attempt.bind fun _ =>
      (laid_cmdRegisterPrint u.registers).bind fun _ => (laid_onMems _).attempt.bind fun _ =>
        (laid_onPer _).attempt

theorem laid_cmdVarExec (c : VarCmd) : Keeps Laid (cmdVarExec c) := by
  cases c with
  | add expr create info print =>
      refine (laid_onVars _).bind fun var => (laid_onVars _).bind fun added => ?_
      split
      · exact laid_cmdVarPrint print
      · exact keeps_pure ()
  | delete argv2 deleted print =>
      refine keeps_get.bind fun s => ?_
      split
      · exact keeps_pure ()
      · split
        · exact keeps_undefined
        · exact (laid_onVars _).bind fun _ => laid_cmdVarPrint print
  | fold argv2 listed print =>
      refine keeps_get.bind fun s => ?_
      split
      · exact keeps_pure ()
      · exact (laid_onVars _).bind fun _ => laid_cmdVarPrint print
  | set argv2 accepted u =>
      refine keeps_get.bind fun s => ?_
      split
      · exact keeps_pure ()
      · exact (laid_onVars _).bind fun _ => laid_infUpdate u
  | format argv2 accepted print =>
      refine keeps_get.bind fun s => ?_
      split
      · exact keeps_pure ()
      · exact (laid_onVars _).bind fun _ => laid_cmdVarPrint print
  | view print => exact laid_cmdVarPrint print

theorem laid_cmdRegisterExec (c : RegisterCmd) : Keeps Laid (cmdRegisterExec c) := by
  cases c with
  | set argv2 accepted changes print =>
      refine keeps_get.bind fun s => ?_
      split
      · exact keeps_pure ()
      · exact (laid_onVars _).bind fun _ => (laid_onVars _).attempt.bind fun _ =>
          laid_cmdRegisterPrint print
  | fold argv2 listed print =>
      refine keeps_get.bind fun s => ?_
      split
      · exact keeps_pure ()
      · exact (laid_onVars _).bind fun _ => laid_cmdRegisterPrint print
  | format argv2 accepted print =>
      refine keeps_get.bind fun s => ?_
      split
      · exact keeps_pure ()
      · exact (laid_onVars _).bind fun _ => laid_cmdRegisterPrint print
  | view print => exact laid_cmdRegisterPrint print

theorem laid_cmdRegisterInit (names : Option (List Register)) (print : Print) :
    Keeps Laid (cmdRegisterInit names print) := by
  refine keeps_get.bind fun s => ?_
  split
  · exact keeps_pure ()
  · refine (keeps_modify fun _ h => h.congr rfl rfl).bind fun _ => ?_
    split
    · exact keeps_throw ()
    · exact (laid_onVars _).bind fun _ => laid_cmdRegisterPrint print

theorem laid_foldFrame (f : Nat) : Keeps Laid (foldFrame f) :=
  (laid_onStack _).bind fun _ => keeps_modify fun _ h => h.congr rfl rfl

theorem laid_cmdCallstackExec (c : CallstackCmd) : Keeps Laid (cmdCallstackExec c) := by
  cases c with
  | fold argv2 listed print =>
      refine keeps_get.bind fun s => ?_
      split
      · split
        · exact keeps_pure ()
        · exact (laid_foldFrame _).bind fun _ => laid_cmdCallstackPrint print
      · exact (laid_onVars _).bind fun _ => laid_cmdCallstackPrint print
  | set argv2 accepted u =>
      refine keeps_get.bind fun s => ?_
      split
      · exact keeps_pure ()
      · exact (laid_onVars _).bind fun _ => laid_infUpdate u
  | format argv2 accepted print =>
      refine keeps_get.bind fun s => ?_
      split
      · exact keeps_pure ()
      · exact (laid_onVars _).bind fun _ => laid_cmdCallstackPrint print
  | view u => exact laid_cmdCallstackUpdate u

theorem laid_cmdMemoryExec (c : MemoryCmd) : Keeps Laid (cmdMemoryExec c) := by
  cases c with
  | set written u => exact (laid_infUpdate u).onlyIf written
  | _ => exact laid_onMems _

theorem laid_cmdPerExec (c : PerCmd) : Keeps Laid (cmdPerExec c) := by
  cases c with
  | set argv2 written u => exact (laid_onPer _).bind fun found => (laid_infUpdate u).onlyIf _
  | _ => exact laid_onPer _

theorem laid_call (c : Cmd) : Keeps Laid c.call := by
  cases c with
  | var c => exact laid_cmdVarExec c
  | register c => exact laid_cmdRegisterExec c
  | registerInit names print => exact laid_cmdRegisterInit names print
  | callstack c => exact laid_cmdCallstackExec c
  | memory c => exact laid_cmdMemoryExec c
  | per c => exact laid_cmdPerExec c
  | stop u => exact laid_infUpdate u

/-- In every run of commands, however each ends, the line maps are those of blocks. -/
theorem displayed_run {cs : List Cmd} (hrun : Run Step State.init cs s) : Laid s := by
  refine hrun.invariant ⟨[], 1, .nil 1, rfl, rfl⟩ fun t c u ht hstep => ?_
  obtain ⟨r, hexec⟩ := hstep
  exact (laid_call c t ht).holds hexec

/-! ## Folding -/

variable {argv2 : CStr} {listed : Option (List Variable)} {print : Print} {r : Except Unit Unit}
  {f : Nat}

/-- The flag of the frame is toggled and the callstack is printed, and that is all. -/
def Toggled (s : State) (f : Nat) (print : Print) (r : Except Unit Unit) (t : State) : Prop :=
  exec (cmdCallstackPrint print)
    { s with expanded := Function.update s.expanded f (!s.expanded f) } = some (r, t)

theorem Toggled.expanded (h : Toggled s f print r t) :
    t.expanded = Function.update s.expanded f (!s.expanded f) := by
  have hends := @post_printed _ (fun _ _ => False) print _ h
  cases r with
  | ok a => exact hends.2
  | error e => exact hends.elim

/-- A frame is found. -/
theorem toggled_of_find (hvar : s.varAt .callstack argv2 = none)
    (hframe : s.lineFrames.find (atoi argv2) = some f)
    (hexec : exec (cmdCallstackExec (.fold argv2 listed print)) s = some (r, t)) :
    Toggled s f print r t := by
  have hpost : Post (cmdCallstackExec (.fold argv2 listed print))
      (fun a t => Toggled s f print (.ok a) t) (fun e t => Toggled s f print (.error e) t) s := by
    unfold cmdCallstackExec
    rw [post_bind, post_get, hvar, hframe]
    dsimp only
    unfold foldFrame
    rw [post_bind, post_bind, onStack, post_zoom]
    refine Gdb.Callstack.post_deref fun o _ => ?_
    rw [post_modify]
    rintro ⟨_ | _, t⟩ hprint
    · exact hprint
    · exact hprint
  have hends := hpost _ hexec
  cases r with
  | ok a => exact hends
  | error e => exact hends

/-- A variable is found, or nothing is: the flags stay. -/
theorem expanded_of_find
    (h : s.varAt .callstack argv2 = none → s.lineFrames.find (atoi argv2) = none)
    (hexec : exec (cmdCallstackExec (.fold argv2 listed print)) s = some (r, t)) :
    t.expanded = s.expanded := by
  have hpost : Post (cmdCallstackExec (.fold argv2 listed print))
      (fun _ t => t.expanded = s.expanded) (fun _ t => t.expanded = s.expanded) s := by
    unfold cmdCallstackExec
    rw [post_bind, post_get]
    cases hvar : s.varAt .callstack argv2 with
    | none =>
        rw [h hvar]
        exact post_pure.mpr rfl
    | some var =>
        dsimp only
        rw [post_bind, onVars, onStack, post_zoom]
        rintro ⟨_ | _, stack⟩ -
        · rfl
        · exact (post_printed print).mono (fun _ _ ht => ht.2) fun _ _ ht => ht
  exact hpost.holds hexec

/-- What is found at the line decides. -/
theorem toggled_iff (hexec : exec (cmdCallstackExec (.fold argv2 listed print)) s = some (r, t)) :
    Toggled s f print r t ↔
      s.varAt .callstack argv2 = none ∧ s.lineFrames.find (atoi argv2) = some f := by
  constructor
  · intro htoggled
    have hflags := htoggled.expanded
    have hsame : (s.varAt .callstack argv2 = none → s.lineFrames.find (atoi argv2) = none) →
        False := by
      intro h
      rw [expanded_of_find h hexec] at hflags
      have hflag := congrFun hflags f
      rw [Function.update_self] at hflag
      cases hf : s.expanded f <;> rw [hf] at hflag <;> cases hflag
    cases hvar : s.varAt .callstack argv2 with
    | some var => exact (hsame fun h => by rw [hvar] at h; cases h).elim
    | none =>
        refine ⟨rfl, ?_⟩
        cases hframe : s.lineFrames.find (atoi argv2) with
        | none => exact (hsame fun _ => hframe).elim
        | some g =>
            have hother := (toggled_of_find hvar hframe hexec).expanded
            by_contra hne
            have hfg : f ≠ g := fun heq => hne (by rw [heq])
            have hflag := congrFun (hflags.symm.trans hother) f
            rw [Function.update_self, Function.update_of_ne hfg] at hflag
            cases hf : s.expanded f <;> rw [hf] at hflag <;> cases hflag
  · rintro ⟨hvar, hframe⟩
    exact toggled_of_find hvar hframe hexec

/-! ## Headers and variables -/

/-- Lines that do not wrap are in order. -/
theorem ofNat_le_iff {i j : Nat} (hi : i < 2 ^ 32) (hj : j < 2 ^ 32) :
    BitVec.ofNat 32 i ≤ BitVec.ofNat 32 j ↔ i ≤ j := by
  rw [BitVec.le_def, BitVec.toNat_ofNat, BitVec.toNat_ofNat, Nat.mod_eq_of_lt hi,
    Nat.mod_eq_of_lt hj]

/-- The header of a block is found at its line, unless the lines wrap. -/
theorem Displayed.find_header (h : Displayed (above ++ b :: below) n s) (hn : n ≤ 2 ^ 32) :
    s.lineFrames.find (BitVec.ofNat 32 b.line) = some b.frame := by
  obtain ⟨-, k, hlt, -, hbelow⟩ := h.layout.split
  have hle := hbelow.le
  rw [h.frames, List.map_append, List.map_cons]
  refine LineMap.find_append_cons (BitVec.le_refl _) fun x hx => ?_
  obtain ⟨c, hc, rfl⟩ := List.mem_map.mp hx
  obtain ⟨hlow, hhigh, -⟩ := hbelow.bounds hc
  show ¬ BitVec.ofNat 32 c.line ≤ _
  rw [ofNat_le_iff (by omega) (by omega)]
  omega

/-- No variable is found at the header of a block iff none is shown above it. -/
theorem Displayed.find_vars_iff (h : Displayed (above ++ b :: below) n s) (hn : n ≤ 2 ^ 32) :
    (s.lineVars .callstack).find (BitVec.ofNat 32 b.line) = none ↔ ∀ a ∈ above, a.vars = [] := by
  obtain ⟨habove, k, hlt, hvars, hbelow⟩ := h.layout.split
  have hle := hbelow.le
  rw [LineMap.find_eq_none_iff, h.vars]
  constructor
  · intro hnone a ha
    obtain ⟨hlow, hhigh, hinside⟩ := habove.bounds ha
    refine List.eq_nil_iff_forall_not_mem.mpr fun e he => ?_
    obtain ⟨-, he'⟩ := hinside e he
    have hmem : (BitVec.ofNat 32 e.1, e.2) ∈
        (above ++ b :: below).flatMap fun b => entries b.vars :=
      List.mem_flatMap.mpr ⟨a, List.mem_append_left _ ha, List.mem_map_of_mem he⟩
    have hbehind := hnone _ hmem
    rw [ofNat_le_iff (by omega) (by omega)] at hbehind
    omega
  · intro hclear x hx
    obtain ⟨c, hc, hx⟩ := List.mem_flatMap.mp hx
    obtain ⟨e, he, rfl⟩ := List.mem_map.mp hx
    have hbehind : b.line < e.1 ∧ e.1 < n := by
      rcases List.mem_append.mp hc with hc | hc
      · rw [hclear c hc] at he
        cases he
      · rcases List.mem_cons.mp hc with rfl | hc
        · obtain ⟨hlow, hhigh⟩ := hvars e he
          exact ⟨hlow, by omega⟩
        · obtain ⟨hlow, hhigh, hinside⟩ := hbelow.bounds hc
          obtain ⟨hlow', hhigh'⟩ := hinside e he
          exact ⟨by omega, hhigh'⟩
    show ¬ BitVec.ofNat 32 e.1 ≤ _
    rw [ofNat_le_iff (by omega) (by omega)]
    omega

/-- **In every run**, `Callstack fold` on a header toggles the frame and nothing else iff at the line
no variable is found, and the frame is.  Unless the lines wrap, this is so iff no variable is shown
above the header. -/
theorem fold_toggles_iff {cs : List Cmd} (hrun : Run Step State.init cs s) :
    ∃ bs n, Displayed bs n s ∧ ∀ above b below, bs = above ++ b :: below →
      ∀ argv2 listed print r t, atoi argv2 = BitVec.ofNat 32 b.line →
        exec (cmdCallstackExec (.fold argv2 listed print)) s = some (r, t) →
          (Toggled s b.frame print r t ↔ s.varAt .callstack argv2 = none ∧
            s.lineFrames.find (atoi argv2) = some b.frame) ∧
          (n ≤ 2 ^ 32 → (Toggled s b.frame print r t ↔ ∀ a ∈ above, a.vars = [])) := by
  obtain ⟨bs, n, h⟩ := displayed_run hrun
  refine ⟨bs, n, h, ?_⟩
  rintro above b below rfl argv2 listed print r t hline hexec
  refine ⟨toggled_iff hexec, fun hn => ?_⟩
  rw [toggled_iff hexec, State.varAt, hline, h.find_vars_iff hn, h.find_header hn]
  exact and_iff_left rfl

/-- A frame with a local variable or without. -/
private def levelOf (function : String) (name : Option String) : Gdb.Callstack.Level where
  frame := { function := some function.toList, line := 3 }
  vars := some (name.toList.map fun name =>
    { var := { name := some name.toList, type := some "int".toList }
      create := some {}
      info := some {}
      deleted := true })

/-- A window in which the values are shown. -/
private def shownWindow : Print := { window := true, evals := fun _ => some "0".toList }

/-- Two frames are shown; the inner one has a local variable or not. -/
private def showFrames (inner : Option String) : CallstackCmd :=
  .view { window := true
          frames := some [levelOf "f" inner, levelOf "main" none]
          print := shownWindow }

/-- The state behind a command. -/
private def shownBehind (c : CallstackCmd) (s : State) : State :=
  ((exec (cmdCallstackExec c) s).map Prod.snd).getD s

private theorem exec_shownBehind {c : CallstackCmd} {s : State}
    (h : (exec (cmdCallstackExec c) s).map (fun r => r.1.isOk) = some true) :
    exec (cmdCallstackExec c) s = some (.ok (), shownBehind c s) := by
  obtain ⟨t, ht⟩ := exists_exec_of_isOk h
  rw [shownBehind, ht]
  rfl

/-- The inner frame has no variables. -/
private def bareFrames : State := shownBehind (showFrames none) State.init

/-- The inner frame has a local variable. -/
private def localShown : State := shownBehind (showFrames (some "x")) State.init

private theorem exec_bareFrames :
    exec (cmdCallstackExec (showFrames none)) State.init = some (.ok (), bareFrames) :=
  exec_shownBehind (by decide +kernel)

private theorem exec_localShown :
    exec (cmdCallstackExec (showFrames (some "x"))) State.init = some (.ok (), localShown) :=
  exec_shownBehind (by decide +kernel)

private theorem step_show {inner : Option String} {t : State}
    (h : exec (cmdCallstackExec (showFrames inner)) State.init = some (.ok (), t)) :
    Run Step State.init [.callstack (showFrames inner)] t :=
  Run.nil.snoc ⟨.ok (), h⟩

/-- The header of the outer frame folds it when the inner frame has no variables. -/
theorem outer_frame_folded :
    ∃ s t, Run Step State.init [.callstack (showFrames none)] s ∧
      exec (cmdCallstackExec (.fold "3".toList none shownWindow)) s = some (.ok (), t) ∧
      Toggled s 1 shownWindow (.ok ()) t := by
  have hrun := step_show exec_bareFrames
  have hexec : exec (cmdCallstackExec (.fold "3".toList none shownWindow)) bareFrames =
      some (.ok (), shownBehind (.fold "3".toList none shownWindow) bareFrames) :=
    exec_shownBehind (by decide +kernel)
  have hheaders : bareFrames.lineFrames = [(1, 0), (3, 1)] := by decide +kernel
  have hvar : bareFrames.varAt .callstack "3".toList = none := by decide +kernel
  obtain ⟨bs, n, h, hfold⟩ := fold_toggles_iff hrun
  have hblocks := h.frames.symm.trans hheaders
  obtain ⟨b, bs, rfl, -, htail⟩ := List.map_eq_cons_iff.mp hblocks
  obtain ⟨c, bs, rfl, hc, -⟩ := List.map_eq_cons_iff.mp htail
  obtain ⟨hline, hframe⟩ := Prod.mk.inj hc
  refine ⟨_, _, hrun, hexec, ?_⟩
  rw [← hframe]
  refine (hfold [b] c bs rfl _ _ _ _ _ ?_ hexec).1.mpr ⟨hvar, ?_⟩
  · rw [hline]
    decide
  · rw [hheaders, hframe]
    decide

/-- The header of the outer frame does not fold it when the inner frame has a variable. -/
theorem outer_frame_not_folded :
    ∃ s t, Run Step State.init [.callstack (showFrames (some "x"))] s ∧
      (4, 1) ∈ s.lineFrames ∧
      exec (cmdCallstackExec (.fold "4".toList none shownWindow)) s = some (.ok (), t) ∧
      ¬ Toggled s 1 shownWindow (.ok ()) t := by
  have hexec : exec (cmdCallstackExec (.fold "4".toList none shownWindow)) localShown =
      some (.ok (), shownBehind (.fold "4".toList none shownWindow) localShown) :=
    exec_shownBehind (by decide +kernel)
  have hvar : localShown.varAt .callstack "4".toList = some 0 := by decide +kernel
  refine ⟨_, _, step_show exec_localShown, by decide +kernel, hexec, fun htoggled => ?_⟩
  rw [((toggled_iff hexec).mp htoggled).1] at hvar
  cases hvar

end Vimgdb.Views
