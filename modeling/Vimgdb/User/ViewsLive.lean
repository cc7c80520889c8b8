import Vimgdb.Lib.Runs
import Vimgdb.User.Views

/-!
# Deleted objects in line maps

Objects are deleted by some commands and at stops, and each line map is made anew by one function, which
does nothing without its window.

* `Live`: the line maps lead to objects that have not been deleted.
* `Meets`: the line maps of what a command deletes are made anew by the same command.
* `run_live`: the runs in which every command meets the condition keep the line maps alive.
-/

namespace Vimgdb.Views

open Programs Runs
open Gdb (Variable)
open Gdb.Callstack (Remains Answers)
open Gdb.VariableMaps (Page Vars Since Doomed Below Printing prints_printing)

/-! ## What is meant -/

/-- What the line maps lead to is in memory. -/
structure Live (s : State) : Prop where
  vars : ∀ view, ∀ a ∈ (s.lineVars view).objects, s.stack.vars.heap.lookup a ≠ none
  frames : ∀ f ∈ s.lineFrames.objects, s.stack.frames.lookup f ≠ none
  mems : Memory.Live s.mems
  per : Per.Live s.per

/-- The views whose line maps are made anew by `inf_update`. -/
def Update.Renews (u : Update) : View → Prop
  | .vars => u.vars.window = true
  | .registers => u.registers.window = true
  | .callstack => u.stack.window = true ∧ u.stack.print.window = true ∧ Answers u.stack.frames

/-- No line map leads to a variable that is deleted, apart from those that are made anew. -/
def Spared (s : State) (deleted : Nat → Prop) (renewed : View → Prop) : Prop :=
  ∀ view, ¬ renewed view → ∀ a ∈ (s.lineVars view).objects, ¬ deleted a

/-- `inf_update` deletes the variables of no other line maps. -/
def Update.Spares (u : Update) (s : State) : Prop :=
  Spared s (Doomed s.stack.vars (u.changes.getD [])) u.Renews

/-- The line maps of what the command deletes are made anew by the command. -/
def Meets (s : State) : Cmd → Prop
  | .var (.delete argv2 deleted print) => ∀ a r v, s.varAt .vars argv2 = some a →
      root s.stack.vars a = some r → s.stack.vars.heap.lookup r = some v → v.refcnt = 1 →
      (s.stack.vars.isListed v = true → deleted = true) →
      Spared s (Below s.stack.vars r) fun view => view = .vars ∧ print.window = true
  | .var (.set argv2 _ u) => s.varAt .vars argv2 ≠ none → u.Spares s
  | .register (.set argv2 _ changes print) => s.varAt .registers argv2 ≠ none →
      Spared s (Doomed s.stack.vars (changes.getD [])) fun view =>
        view = .registers ∧ print.window = true
  | .callstack (.set argv2 _ u) => s.varAt .callstack argv2 ≠ none → u.Spares s
  | .memory (.delete argv2 window _) => s.mems.lineMems.find (atoi argv2) ≠ none → window = true
  | .memory (.set written u) => written = true → u.Spares s
  | .per (.set argv2 written u) => s.per.lineRegs.find (atoi argv2) ≠ none → written = true →
      u.Spares s
  | .stop u => u.Spares s
  | _ => True

/-! ## The invariant -/

/-- The line maps lead to what is in memory, but for those of the views `E`; addresses are below the
next one. -/
structure Inv (E : View → Prop) (s : State) : Prop where
  stack : Gdb.Callstack.Bounded s.stack
  vars : ∀ view, ¬ E view → ∀ a ∈ (s.lineVars view).objects, s.stack.vars.heap.lookup a ≠ none
  frames : ∀ f ∈ s.lineFrames.objects, s.stack.frames.lookup f ≠ none
  mems : Memory.Live s.mems
  per : Per.Live s.per

/-- No view is left out. -/
abbrev Whole : State → Prop := Inv fun _ => False

variable {E F : View → Prop} {s t : State} {X : Unit → State → Prop}

theorem Inv.live (h : Whole s) : Live s :=
  ⟨fun view => h.vars view not_false, h.frames, h.mems, h.per⟩

theorem Inv.mono (h : Inv E s) (hE : ∀ view, E view → F view) : Inv F s :=
  { h with vars := fun view hview => h.vars view fun hEview => hview (hE view hEview) }

/-- The variables change. -/
def State.setVars (s : State) (vars : Gdb.VariableMaps.State) : State :=
  { s with stack := { s.stack with vars := vars } }

/-- Some variables are deleted. -/
theorem Inv.setVars (h : Inv E s) {D : Nat → Prop} {vars : Gdb.VariableMaps.State}
    (hvars : Since s.stack.vars D vars)
    (hF : ∀ view, ¬ F view → ¬ E view ∧ ∀ a ∈ (s.lineVars view).objects, ¬ D a) :
    Inv F (s.setVars vars) where
  stack := { h.stack with vars := hvars.bounded }
  vars view hview a ha := by
    obtain ⟨hE, hD⟩ := hF view hview
    obtain ⟨v, hv⟩ := Option.ne_none_iff_exists'.mp (h.vars view hE a ha)
    exact hvars.survive a v hv (hD a ha)
  frames := h.frames
  mems := h.mems
  per := h.per

/-- No variable is deleted. -/
theorem Inv.setVars_since (h : Inv E s) {vars : Gdb.VariableMaps.State}
    (hvars : Since s.stack.vars (fun _ => False) vars) : Inv E (s.setVars vars) :=
  h.setVars hvars fun _ hview => ⟨hview, fun _ _ => not_false⟩

/-- The frames and the variables change, and none is deleted. -/
theorem Inv.setStack (h : Inv E s) {stack : Gdb.Callstack.State} (hstack : Remains s.stack stack) :
    Inv E { s with stack := stack } where
  stack := hstack.refl
  vars view hview a ha := by
    obtain ⟨v, hv⟩ := Option.ne_none_iff_exists'.mp (h.vars view hview a ha)
    exact hstack.vars.survive a v hv not_false
  frames f hf := by
    obtain ⟨o, ho⟩ := Option.ne_none_iff_exists'.mp (h.frames f hf)
    exact hstack.frames f o ho
  mems := h.mems
  per := h.per

theorem post_onVars {α : Type} {p : Vars α} {Q : α → State → Prop} {X : Unit → State → Prop} :
    Post (onVars p) Q X s ↔
      Post p (fun a w => Q a (s.setVars w)) (fun e w => X e (s.setVars w)) s.stack.vars := by
  unfold onVars onStack Gdb.Callstack.onVars
  rw [post_zoom, post_zoom]
  exact Iff.rfl

/-- A program that deletes no variable. -/
theorem keeps_onVars {α : Type} {p : Vars α}
    (hp : ∀ s₀, Keeps (Since s₀ fun _ => False) p) : Keeps (Inv E) (onVars p) := by
  intro s h
  rw [post_onVars]
  exact (hp s.stack.vars _ h.stack.vars).mono (fun _ _ hw => h.setVars_since hw)
    fun _ _ hw => h.setVars_since hw

/-! ## Printing -/

variable {p : Print} {u : Update}

/-- A line map is made anew, and leads to what is in memory. -/
theorem Inv.setLineVars (h : Inv E s) (view : View) {lines : LineMap Nat}
    (hlines : ∀ a ∈ lines.objects, s.stack.vars.heap.lookup a ≠ none)
    (hF : ∀ w, w ≠ view → E w → F w) : Inv F (s.setLineVars view lines) where
  stack := h.stack
  vars w hw a ha := by
    by_cases hview : w = view
    · subst hview
      have hsame : (s.setLineVars w lines).lineVars w = lines := by
        show Function.update s.lineVars w lines w = lines
        rw [Function.update_self]
      rw [hsame] at ha
      exact hlines a ha
    · have hother : (s.setLineVars view lines).lineVars w = s.lineVars w := by
        show Function.update s.lineVars view lines w = s.lineVars w
        rw [Function.update_of_ne hview]
      rw [hother] at ha
      exact h.vars w (fun hE => hw (hF w hview hE)) a ha
  frames := h.frames
  mems := h.mems
  per := h.per

/-- Nothing has been printed yet. -/
theorem Inv.printing (h : Inv E s) : Printing s.stack.vars (fun _ => False) {} s.stack.vars :=
  ⟨h.stack.vars, fun _ ha => absurd ha List.not_mem_nil⟩

/-- What is printed is in memory, and is where the line map leads. -/
theorem Inv.post_printVars (h : Inv E s) (view : View) {print : Vars Page}
    (hprint : Post print (Printing s.stack.vars fun _ => False) (fun _ _ => False) s.stack.vars)
    (hF : ∀ w, w ≠ view → E w → F w) :
    Post (onVars print >>= fun page => modify fun s => s.setLineVars view page.lines)
      (fun _ => Inv F) X s := by
  rw [post_bind, post_onVars]
  refine hprint.mono (fun page w hw => ?_) fun _ _ hfalse => hfalse.elim
  rw [post_modify]
  exact (h.setVars_since hw.since).setLineVars view hw.live hF

theorem post_cmdVarPrint (h : Inv E s) :
    Post (cmdVarPrint p) (fun _ => Inv fun view => E view ∧ ¬ (view = .vars ∧ p.window = true)) X s := by
  unfold cmdVarPrint
  split
  · next hwindow =>
    rw [post_bind, post_get]
    refine h.post_printVars .vars (post_foldlM (fun page a s hs => ?_) _ h.printing)
      fun w hw hE => ⟨hE, fun hview => hw hview.1⟩
    unfold printRoot
    rw [post_bind]
    refine Gdb.VariableMaps.post_deref fun v _ => ?_
    split
    · exact prints_printing.print true 0 hs
    · exact post_pure.mpr hs
  · next hwindow => exact post_pure.mpr (h.mono fun _ hE => ⟨hE, fun hview => hwindow hview.2⟩)

theorem post_cmdRegisterPrint (h : Inv E s) :
    Post (cmdRegisterPrint p)
      (fun _ => Inv fun view => E view ∧ ¬ (view = .registers ∧ p.window = true)) X s := by
  unfold cmdRegisterPrint
  split
  · next hwindow =>
    rw [post_bind, post_get]
    exact h.post_printVars .registers
      (post_foldlM (fun page a s hs => prints_printing.print true 0 hs) _ h.printing)
      fun w hw hE => ⟨hE, fun hview => hw hview.1⟩
  · next hwindow => exact post_pure.mpr (h.mono fun _ hE => ⟨hE, fun hview => hwindow hview.2⟩)

/-- What has been printed of the callstack is in memory, and only variables have changed. -/
structure PrintingStack (s₀ : Gdb.Callstack.State) (page : StackPage) (s : Gdb.Callstack.State) :
    Prop where
  stack : s = { s₀ with vars := s.vars }
  vars : Printing s₀.vars (fun _ => False) page.toPage s.vars
  frames : ∀ f ∈ page.frames.objects, s₀.frames.lookup f ≠ none

variable {s₀ stack : Gdb.Callstack.State} {page : StackPage}

theorem PrintingStack.lookup (h : PrintingStack s₀ page stack) (f : Nat) :
    stack.frames.lookup f = s₀.frames.lookup f := by rw [h.stack]

/-- Variables of a frame are printed. -/
theorem PrintingStack.onVars (h : PrintingStack s₀ page stack) {p : Vars Page}
    {X : Unit → Gdb.Callstack.State → Prop}
    (hp : Post p (Printing s₀.vars fun _ => False) (fun _ _ => False) stack.vars) :
    Post (Gdb.Callstack.onVars p)
      (fun page' t => PrintingStack s₀ { page with toPage := page' } t) X stack := by
  rw [Gdb.Callstack.onVars, post_zoom]
  refine hp.mono (fun page' w hw => ?_) fun _ _ hfalse => hfalse.elim
  exact ⟨by rw [h.stack], hw, h.frames⟩

/-- What has been entered stays, whatever the next line is. -/
theorem PrintingStack.setLine (h : PrintingStack s₀ page stack) (line : BitVec 32) :
    PrintingStack s₀ { page with line := line } stack := ⟨h.stack, h.vars.setLine line, h.frames⟩

/-- A frame is entered with its line. -/
theorem PrintingStack.add (h : PrintingStack s₀ page stack) {f : Nat}
    (hf : stack.frames.lookup f ≠ none) :
    PrintingStack s₀ { page with frames := page.frames.add page.line f } stack where
  stack := h.stack
  vars := h.vars
  frames g hg := by
    rw [LineMap.objects_add, List.mem_append, List.mem_singleton] at hg
    rcases hg with hg | rfl
    · exact h.frames g hg
    · rwa [← h.lookup]

theorem PrintingStack.printFrame (h : PrintingStack s₀ page stack) (evals : Nat → Option CStr)
    (expanded : Bool) (f : Nat) {X : Unit → Gdb.Callstack.State → Prop} :
    Post (printFrame evals expanded f page) (PrintingStack s₀) X stack := by
  unfold Views.printFrame
  rw [post_bind]
  refine Gdb.Callstack.post_deref fun o ho => ?_
  extract_lets frames before page'
  have hadd : PrintingStack s₀ { toPage := page', frames := frames } stack := by
    have h : PrintingStack s₀ { page with frames := frames } stack :=
      h.add (by rw [ho]; exact Option.some_ne_none o)
    unfold page'
    split
    · exact h.setLine _
    · exact h
  rw [post_bind]
  refine (hadd.onVars
    (post_foldlM (fun _ _ _ hs => prints_printing.print expanded 1 hs) o.args hadd.vars)).mono
    (fun page₁ t ht => ?_) fun _ _ hX => hX
  have ht := ht.setLine (page₁.line + 1)
  rw [post_bind]
  refine (ht.onVars
    (post_foldlM (fun _ _ _ hs => prints_printing.print true 1 hs) o.locals ht.vars)).mono
    (fun page₂ w hw => ?_) fun _ _ hX => hX
  exact post_pure.mpr (hw.setLine _)

theorem PrintingStack.printFrames (evals : Nat → Option CStr) (expanded : Nat → Bool)
    (first : Option Nat) {fuel : Nat} {f : Option Nat} (h : PrintingStack s₀ page stack)
    {X : Unit → Gdb.Callstack.State → Prop} :
    Post (printFrames evals expanded first fuel f page) (PrintingStack s₀) X stack := by
  induction fuel generalizing page f stack with
  | zero =>
      cases f with
      | none => exact post_pure.mpr h
      | some f => exact post_undefined
  | succ fuel ih =>
      cases f with
      | none => exact post_pure.mpr h
      | some f =>
          rw [Views.printFrames, post_bind]
          refine (h.printFrame evals (expanded f) f).mono (fun page' t ht => ?_) fun _ _ hX => hX
          split
          · exact post_pure.mpr ht
          · rw [post_bind, post_get]
            exact ih ht

theorem post_cmdCallstackPrint (h : Inv E s) :
    Post (cmdCallstackPrint p)
      (fun _ => Inv fun view => E view ∧ ¬ (view = .callstack ∧ p.window = true)) X s := by
  unfold cmdCallstackPrint
  split
  · next hwindow =>
    have hstart : PrintingStack s.stack {} s.stack :=
      ⟨rfl, h.printing, fun _ hf => absurd hf List.not_mem_nil⟩
    rw [post_bind, post_get, post_bind, onStack, post_zoom]
    refine (hstart.printFrames p.evals s.expanded s.stack.callstack).mono (fun page stack hpage => ?_)
      fun _ _ hX => hX
    rw [post_modify]
    have hvars : Inv E { s with stack := stack } := by
      rw [hpage.stack]
      exact h.setVars_since hpage.vars.since
    have hlines := @Inv.setLineVars E (fun view => E view ∧ ¬ (view = .callstack ∧ p.window = true))
      _ hvars .callstack page.lines hpage.vars.live fun w hw hE => ⟨hE, fun hview => hw hview.1⟩
    refine { hlines with frames := fun f hf => ?_ }
    show stack.frames.lookup f ≠ none
    rw [hpage.lookup]
    exact hpage.frames f hf
  · next hwindow => exact post_pure.mpr (h.mono fun _ hE => ⟨hE, fun hview => hwindow hview.2⟩)

/-- An update that fails has left the line maps of the callstack as they were. -/
theorem post_cmdCallstackUpdate (h : Inv E s) (u : StackUpdate) :
    Post (attempt (cmdCallstackUpdate u)) (fun _ => Inv fun view => E view ∧
      ¬ (view = .callstack ∧ u.window = true ∧ u.print.window = true ∧ Answers u.frames)) X s := by
  unfold cmdCallstackUpdate
  rw [post_attempt, post_bind, onStack, post_zoom]
  refine (Gdb.Callstack.post_update_remains h.stack u.window u.frames).mono (fun _ stack hstack => ?_)
    fun _ stack hstack => ?_
  · split
    · refine (post_cmdCallstackPrint (h.setStack hstack)).mono (fun _ t ht => ?_) fun _ _ hX => hX
      exact ht.mono fun view hview => ⟨hview.1, fun hnew => hview.2 ⟨hnew.1, hnew.2.2.1⟩⟩
    · next hwindow =>
      exact post_pure.mpr ((h.setStack hstack).mono fun _ hE => ⟨hE, fun hview => hwindow hview.2.1⟩)
  · exact (h.setStack hstack.1).mono fun _ hE => ⟨hE, fun hview => hstack.2 hview.2.2.2⟩

/-! ## Stops -/

/-- The memory dumps are updated, and nothing else changes. -/
theorem post_onMems {p : Memory.Mems Unit} (h : Inv E s)
    (hp : Post p (fun _ => Memory.Live) (fun _ => Memory.Live) s.mems) :
    Post (onMems p) (fun _ => Inv E) (fun _ => Inv E) s := by
  rw [onMems, post_zoom]
  exact hp.mono (fun _ _ hmems => { h with mems := hmems }) fun _ _ hmems => { h with mems := hmems }

theorem keeps_onPer {α : Type} {p : Per.Pers α} (hp : Keeps Per.Live p) : Keeps (Inv E) (onPer p) := by
  intro s h
  rw [onPer, post_zoom]
  exact (hp s.per h.per).mono (fun _ _ hper => { h with per := hper }) fun _ _ hper =>
    { h with per := hper }

/-- What `get_changed` deletes is in no line map that is not made anew. -/
theorem post_getChanged (h : Whole s) {changes : Option (List Gdb.VariableMaps.Change)}
    (hspared : Spared s (Doomed s.stack.vars (changes.getD [])) E) :
    Post (attempt (onVars (Gdb.VariableMaps.getChanged changes))) (fun _ => Inv E) X s := by
  have hafter : ∀ w, Since s.stack.vars (Doomed s.stack.vars (changes.getD [])) w →
      Inv E (s.setVars w) := fun w hw =>
    h.setVars hw fun view hview => ⟨not_false, hspared view hview⟩
  rw [post_attempt, post_onVars]
  exact (Gdb.VariableMaps.keeps_getChanged h.stack.vars changes s.stack.vars
    h.stack.vars.bounded.since).mono (fun _ w hw => hafter w hw) fun _ w hw => hafter w hw

/-- At a stop the line maps of what may have been deleted are made anew. -/
theorem post_infUpdate (h : Whole s) (hspares : u.Spares s) :
    Post (infUpdate u) (fun _ => Whole) (fun _ => Whole) s := by
  unfold infUpdate
  rw [post_bind]
  refine (post_getChanged h hspares).mono (fun _ s₁ h₁ => ?_) fun _ _ hX => hX
  rw [post_bind]
  refine (post_cmdVarPrint h₁).mono (fun _ s₂ h₂ => ?_) fun _ _ hX => hX
  rw [post_bind]
  refine (post_cmdCallstackUpdate h₂ u.stack).mono (fun _ s₃ h₃ => ?_) fun _ _ hX => hX
  rw [post_bind]
  refine (post_cmdRegisterPrint h₃).mono (fun _ s₄ h₄ => ?_) fun _ _ hX => hX
  -- a view that is left out is made anew
  have hwhole : Whole s₄ := h₄.mono fun view hview => by
    obtain ⟨⟨⟨hrenewed, hvars⟩, hstack⟩, hregisters⟩ := hview
    cases view with
    | vars => exact hvars ⟨rfl, hrenewed⟩
    | registers => exact hregisters ⟨rfl, hrenewed⟩
    | callstack => exact hstack ⟨rfl, hrenewed⟩
  rw [post_bind, post_attempt]
  have hmems := post_onMems hwhole (Memory.keeps_update u.memory.1 u.memory.2 _ hwhole.mems)
  have hper : Keeps (Inv fun _ => False) (attempt (onPer (Per.update u.per.1 u.per.2))) :=
    (keeps_onPer (Per.keeps_update u.per.1 u.per.2)).attempt
  exact hmems.mono (fun _ t ht => hper t ht) fun _ t ht => hper t ht

/-! ## Variables -/

section vars

variable {vars : Gdb.VariableMaps.State} {D : Nat → Prop}

theorem keeps_mark (a : Nat) (accepted : Bool) : Keeps (Since vars D) (mark a accepted) := by
  intro w h
  unfold mark
  rw [post_bind]
  refine Gdb.VariableMaps.post_deref fun v hv => ?_
  split
  · exact post_modify.mpr (h.setObject hv fun _ hc => hc)
  · exact post_pure.mpr h

theorem keeps_showChilds (a : Nat) (visible : Bool) : Keeps (Since vars D) (showChilds a visible) := by
  intro w h
  unfold showChilds
  rw [post_bind]
  exact Gdb.VariableMaps.post_deref fun v hv => post_modify.mpr (h.setObject hv fun _ hc => hc)

theorem keeps_foldVar (a : Nat) (listed : Option (List Variable)) :
    Keeps (Since vars D) (foldVar a listed) := by
  intro w h
  unfold foldVar
  rw [post_bind]
  refine Gdb.VariableMaps.post_deref fun v hv => ?_
  split
  · exact ((Gdb.VariableMaps.keeps_since_initChilds a listed).attempt.bind fun _ =>
      keeps_showChilds a _) w h
  · split
    · exact post_pure.mpr h
    · next p _ => exact keeps_showChilds p false w h

theorem keeps_resetRefcnt (a : Nat) : Keeps (Since vars D) (resetRefcnt a) := by
  intro w h
  unfold resetRefcnt
  rw [post_bind]
  refine Gdb.VariableMaps.post_deref fun v hv => ?_
  split
  · exact post_pure.mpr h
  · rw [post_bind, post_modify, post_pure]
    exact h.setObject hv fun _ hc => hc

theorem keeps_acquire {origin : Gdb.VariableMaps.Origin} (horigin : origin ≠ .unknown)
    (context expr : CStr) (create info : Option Variable) :
    Keeps (Since vars D) (Gdb.VariableMaps.acquire origin context expr create info) := by
  intro w h
  exact (h.acquire horigin context expr create info).mono (fun _ _ ht => ht) fun _ _ ht => ht.1

theorem keeps_initRegister (r : Register) : Keeps (Since vars D) (initRegister r) := by
  unfold initRegister
  split
  · exact keeps_pure ()
  · refine (keeps_acquire (by decide) [] r.name r.create r.info).bind fun a => ?_
    refine (keeps_mark a r.formatted).bind fun _ => ?_
    split
    · exact keeps_pure ()
    · exact keeps_throw ()

end vars

/-! ## Commands -/

theorem keeps_cmdVarPrint (p : Print) : Keeps (Inv E) (cmdVarPrint p) := fun _ h =>
  (post_cmdVarPrint h).mono (fun _ _ ht => ht.mono fun _ hview => hview.1) fun _ _ hX => hX

theorem keeps_cmdRegisterPrint (p : Print) : Keeps (Inv E) (cmdRegisterPrint p) := fun _ h =>
  (post_cmdRegisterPrint h).mono (fun _ _ ht => ht.mono fun _ hview => hview.1) fun _ _ hX => hX

theorem keeps_cmdCallstackPrint (p : Print) : Keeps (Inv E) (cmdCallstackPrint p) := fun _ h =>
  (post_cmdCallstackPrint h).mono (fun _ _ ht => ht.mono fun _ hview => hview.1) fun _ _ hX => hX

theorem keeps_cmdCallstackUpdate (u : StackUpdate) : Keeps (Inv E) (cmdCallstackUpdate u) := by
  intro s h
  unfold cmdCallstackUpdate
  rw [post_bind, onStack, post_zoom]
  refine (Gdb.Callstack.post_update_remains h.stack u.window u.frames).mono (fun _ stack hstack => ?_)
    fun _ stack hstack => h.setStack hstack.1
  split
  · exact keeps_cmdCallstackPrint u.print _ (h.setStack hstack)
  · exact post_pure.mpr (h.setStack hstack)

/-- A command that marks a variable and goes on. -/
theorem post_mark {q : Cmds Unit} (h : Whole s) (a : Nat) (accepted : Bool)
    (hq : ∀ w, Since s.stack.vars (fun _ => False) w → Whole (s.setVars w) →
      Post q (fun _ => Whole) (fun _ => Whole) (s.setVars w)) :
    Post (onVars (mark a accepted) >>= fun _ => q) (fun _ => Whole) (fun _ => Whole) s := by
  rw [post_bind, post_onVars]
  exact (keeps_mark a accepted _ h.stack.vars).mono (fun _ w hw => hq w hw (h.setVars_since hw))
    fun _ w hw => h.setVars_since hw

/-- What is not deleted in a state is not deleted behind changes that delete nothing. -/
theorem Spared.setVars {deleted : View → Prop} {cl : List Gdb.VariableMaps.Change}
    (hspared : Spared s (Doomed s.stack.vars cl) deleted) (h : Whole s)
    {w : Gdb.VariableMaps.State} (hw : Since s.stack.vars (fun _ => False) w) :
    Spared (s.setVars w) (Doomed w cl) deleted := by
  intro view hview a ha hdoomed
  obtain ⟨v, hv⟩ := Option.ne_none_iff_exists'.mp (h.vars view not_false a ha)
  have hlt : a < s.stack.vars.next := h.stack.vars.heap a v hv
  exact hspared view hview a ha (hw.doomed h.stack.vars hdoomed hlt)

/-- `delete`, for a variable without a parent. -/
theorem post_release {a : Nat} {deleted : Bool} {p : Print} (h : Whole s)
    (hspared : ∀ v, s.stack.vars.heap.lookup a = some v → v.refcnt = 1 →
      (s.stack.vars.isListed v = true → deleted = true) →
      Spared s (Below s.stack.vars a) fun view => view = .vars ∧ p.window = true) :
    Post (do onVars (Gdb.VariableMaps.release a deleted); cmdVarPrint p)
      (fun _ => Whole) (fun _ => Whole) s := by
  -- what is deleted, if anything is
  let D : Nat → Prop := fun b => Below s.stack.vars a b ∧ ∃ v,
    s.stack.vars.heap.lookup a = some v ∧ v.refcnt = 1 ∧
      (s.stack.vars.isListed v = true → deleted = true)
  have hclosed : Gdb.VariableMaps.Closed s.stack.vars D := fun b v c hb hc hD =>
    ⟨hD.1.child hb hc, hD.2⟩
  rw [post_bind, post_onVars]
  have hafter : ∀ w, Since s.stack.vars D w →
      Inv (fun view => view = .vars ∧ p.window = true) (s.setVars w) := by
    refine fun w hw => h.setVars hw fun view hview => ⟨not_false, fun b hb hD => ?_⟩
    obtain ⟨hbelow, v, hv, hone, hdeleted⟩ := hD
    exact hspared v hv hone hdeleted view hview b hb hbelow
  have hrelease := Since.release h.stack.vars hclosed h.stack.vars (fun _ => False.elim) deleted
    fun v hv hone hdeleted _ => (⟨.self, v, hv, hone, hdeleted⟩ : D a)
  refine hrelease.mono (fun _ w hw => ?_) fun _ w hw => ?_
  · refine (post_cmdVarPrint (hafter w hw)).mono (fun _ t ht => ?_) fun _ _ hX => hX
    exact ht.mono fun view hview => hview.2 hview.1
  · exact h.setVars_since hw

theorem post_cmdVarExec (h : Whole s) {c : VarCmd} (hmeets : Meets s (.var c)) :
    Post (cmdVarExec c) (fun _ => Whole) (fun _ => Whole) s := by
  cases c with
  | add expr create info print =>
      refine ((keeps_onVars fun _ => keeps_acquire (by decide) [] expr create info).bind fun a => ?_) s h
      refine (keeps_onVars fun _ => keeps_resetRefcnt a).bind fun first => ?_
      split
      · exact keeps_cmdVarPrint print
      · exact keeps_pure ()
  | delete argv2 deleted print =>
      unfold cmdVarExec
      rw [post_bind, post_get]
      split
      · exact post_pure.mpr h
      · next a ha =>
        split
        · exact post_undefined
        · next r hr => exact post_release h fun v hv => hmeets a r v ha hr hv
  | fold argv2 listed print =>
      refine (keeps_get.bind fun s => ?_) s h
      split
      · exact keeps_pure ()
      · next a _ =>
        exact (keeps_onVars fun _ => keeps_foldVar a listed).bind fun _ => keeps_cmdVarPrint print
  | set argv2 accepted u =>
      unfold cmdVarExec
      rw [post_bind, post_get]
      split
      · exact post_pure.mpr h
      · next a ha =>
        refine post_mark h a accepted fun w hw hwhole => post_infUpdate hwhole ?_
        exact (hmeets (by rw [ha]; exact Option.some_ne_none a)).setVars h hw
  | format argv2 accepted print =>
      refine (keeps_get.bind fun s => ?_) s h
      split
      · exact keeps_pure ()
      · next a _ =>
        exact (keeps_onVars fun _ => keeps_mark a accepted).bind fun _ => keeps_cmdVarPrint print
  | view print => exact keeps_cmdVarPrint print s h

theorem post_cmdRegisterExec (h : Whole s) {c : RegisterCmd} (hmeets : Meets s (.register c)) :
    Post (cmdRegisterExec c) (fun _ => Whole) (fun _ => Whole) s := by
  cases c with
  | set argv2 accepted changes print =>
      unfold cmdRegisterExec
      rw [post_bind, post_get]
      split
      · exact post_pure.mpr h
      · next a ha =>
        refine post_mark h a accepted fun w hw hwhole => ?_
        have hspared := (hmeets (by rw [ha]; exact Option.some_ne_none a)).setVars h hw
        rw [post_bind]
        refine (post_getChanged hwhole hspared).mono (fun _ t ht => ?_) fun _ _ hX => hX
        refine (post_cmdRegisterPrint ht).mono (fun _ t ht => ?_) fun _ _ hX => hX
        exact ht.mono fun view hview => hview.2 hview.1
  | fold argv2 listed print =>
      refine (keeps_get.bind fun s => ?_) s h
      split
      · exact keeps_pure ()
      · next a _ =>
        exact (keeps_onVars fun _ => keeps_foldVar a listed).bind fun _ => keeps_cmdRegisterPrint print
  | format argv2 accepted print =>
      refine (keeps_get.bind fun s => ?_) s h
      split
      · exact keeps_pure ()
      · next a _ =>
        exact (keeps_onVars fun _ => keeps_mark a accepted).bind fun _ => keeps_cmdRegisterPrint print
  | view print => exact keeps_cmdRegisterPrint print s h

theorem keeps_cmdRegisterInit (names : Option (List Register)) (print : Print) :
    Keeps (Inv E) (cmdRegisterInit names print) := by
  refine keeps_get.bind fun s => ?_
  split
  · exact keeps_pure ()
  · refine (keeps_modify fun s h => { h with }).bind fun _ => ?_
    split
    · exact keeps_throw ()
    · next listed =>
      refine (keeps_onVars fun _ => keeps_forM keeps_initRegister listed).bind fun _ => ?_
      exact keeps_cmdRegisterPrint print

theorem keeps_foldFrame (f : Nat) : Keeps (Inv E) (foldFrame f) := by
  intro s h
  unfold foldFrame
  rw [post_bind, onStack, post_zoom]
  refine Gdb.Callstack.post_deref fun o _ => ?_
  rw [post_modify]
  exact { h with }

theorem post_cmdCallstackExec (h : Whole s) {c : CallstackCmd} (hmeets : Meets s (.callstack c)) :
    Post (cmdCallstackExec c) (fun _ => Whole) (fun _ => Whole) s := by
  cases c with
  | fold argv2 listed print =>
      refine (keeps_get.bind fun s => ?_) s h
      split
      · split
        · exact keeps_pure ()
        · next f _ => exact (keeps_foldFrame f).bind fun _ => keeps_cmdCallstackPrint print
      · next a _ =>
        exact (keeps_onVars fun _ => keeps_foldVar a listed).bind fun _ => keeps_cmdCallstackPrint print
  | set argv2 accepted u =>
      unfold cmdCallstackExec
      rw [post_bind, post_get]
      split
      · exact post_pure.mpr h
      · next a ha =>
        refine post_mark h a accepted fun w hw hwhole => post_infUpdate hwhole ?_
        exact (hmeets (by rw [ha]; exact Option.some_ne_none a)).setVars h hw
  | format argv2 accepted print =>
      refine (keeps_get.bind fun s => ?_) s h
      split
      · exact keeps_pure ()
      · next a _ =>
        exact (keeps_onVars fun _ => keeps_mark a accepted).bind fun _ => keeps_cmdCallstackPrint print
  | view u => exact keeps_cmdCallstackUpdate u s h

theorem post_cmdMemoryExec (h : Whole s) {c : MemoryCmd} (hmeets : Meets s (.memory c)) :
    Post (cmdMemoryExec c) (fun _ => Whole) (fun _ => Whole) s := by
  cases c with
  | add mem alignment window replies =>
      exact post_onMems h (Memory.keeps_add mem alignment window replies _ h.mems)
  | delete argv2 window replies => exact post_onMems h (Memory.post_delete h.mems hmeets)
  | set written u =>
      unfold cmdMemoryExec
      rw [post_onlyIf]
      split
      · next hwritten => exact post_infUpdate h (hmeets hwritten)
      · exact h
  | fold argv2 window replies =>
      exact post_onMems h (Memory.keeps_fold argv2 window replies _ h.mems)
  | view window replies => exact post_onMems h (Memory.keeps_update window replies _ h.mems)

theorem post_cmdPerExec (h : Whole s) {c : PerCmd} (hmeets : Meets s (.per c)) :
    Post (cmdPerExec c) (fun _ => Whole) (fun _ => Whole) s := by
  cases c with
  | load file text acquired window replies =>
      exact keeps_onPer (Per.keeps_load file text acquired window replies) s h
  | set argv2 written u =>
      unfold cmdPerExec
      rw [post_bind, onPer, post_zoom]
      refine (@Per.post_target s.per argv2 fun _ _ => False).mono (fun found per hper => ?_)
        fun _ _ hfalse => hfalse.elim
      obtain ⟨rfl, hfound⟩ := hper
      rw [post_onlyIf]
      split
      · next hset =>
        rw [Bool.and_eq_true] at hset
        exact post_infUpdate h (hmeets (hfound hset.1) hset.2)
      · exact h
  | fold argv2 window replies => exact keeps_onPer (Per.keeps_fold argv2 window replies) s h
  | view window replies => exact keeps_onPer (Per.keeps_update window replies) s h

/-! ## Runs -/

/-- A command that meets the condition keeps the invariant. -/
theorem Inv.step (h : Whole s) {c : Cmd} (hmeets : Meets s c) (hstep : Step s c t) : Whole t := by
  have hcall : Post c.call (fun _ => Whole) (fun _ => Whole) s := by
    cases c with
    | var c => exact post_cmdVarExec h hmeets
    | register c => exact post_cmdRegisterExec h hmeets
    | registerInit names print => exact keeps_cmdRegisterInit names print s h
    | callstack c => exact post_cmdCallstackExec h hmeets
    | memory c => exact post_cmdMemoryExec h hmeets
    | per c => exact post_cmdPerExec h hmeets
    | stop u => exact post_infUpdate h hmeets
  obtain ⟨r, hr⟩ := hstep
  exact hcall.holds hr

theorem inv_init : Whole State.init where
  stack := Gdb.Callstack.bounded_init
  vars _ _ _ ha := absurd ha List.not_mem_nil
  frames _ hf := absurd hf List.not_mem_nil
  mems _ ha := absurd ha List.not_mem_nil
  per := Per.live_nil rfl rfl

/-- One memory dump is shown. -/
def State.oneDump : State :=
  { State.init with mems := ⟨[(0, ⟨some "0x1000".toList, 8, 8, true⟩)], 1, [(1, 0)]⟩ }

theorem step_oneDump : Step State.init
    (.memory (.add (some { begin := some "0x1000".toList, length := 8 }) 8 true fun _ => true))
    State.oneDump := ⟨.ok (), rfl⟩

theorem step_delete (window : Bool) : Step State.oneDump
    (.memory (.delete "1".toList window fun _ => true))
    { State.init with mems := ⟨[], 1, if window then [] else [(1, 0)]⟩ } := by
  cases window <;> exact ⟨.ok (), rfl⟩

/-- In every run in which the line maps of what is deleted are made anew by the command that deletes,
the line maps lead to what has not been deleted. -/
theorem run_live {cs : List Cmd}
    (hrun : Run (fun s c t => Step s c t ∧ Meets s c) State.init cs t) : Live t :=
  (hrun.invariant inv_init fun _ _ _ h hstep => h.step hstep.2 hstep.1).live

/-- A memory dump is shown, and deleted while its window exists. -/
theorem run_live_of_window : ∃ t, Run (fun s c t => Step s c t ∧ Meets s c) State.init
    [.memory (.add (some { begin := some "0x1000".toList, length := 8 }) 8 true fun _ => true),
      .memory (.delete "1".toList true fun _ => true)] t ∧ Live t :=
  have hrun := (Run.nil.snoc ⟨step_oneDump, trivial⟩).snoc ⟨step_delete true, fun _ => rfl⟩
  ⟨_, hrun, run_live hrun⟩

/-- Without the window, the line map of the memory dumps leads to one that has been deleted. -/
theorem deleted_dump_in_line_map : ¬ ∀ cs t, Run Step State.init cs t → Live t := by
  intro h
  have hlive := h _ _ ((Run.nil.snoc step_oneDump).snoc (step_delete false))
  exact hlive.mems 0 List.mem_cons_self rfl

end Vimgdb.Views
