import Vimgdb.Gdb.Types
import Vimgdb.Lib.Runs

/-!
# Displayed variables

The variables the windows show, each with its children, and the commands that change, fold and print
them.  gdb holds a current value for each object; the program evaluates an object again only if its
flag `modified` is set.

* `Vars.change`, `Vars.fold`, `Vars.lines`: `get_changed`, the command `FOLD`, and `print`.
* `Vars.Current`: every object that is not flagged has gdb's current value.
* `Vars.current_changeAll`: which changes of gdb keep that.
* `run_current_iff`: the runs in which every printed value is gdb's, and no change is lost.
-/

namespace Vimgdb.Gdb.Variables

open Runs

/-! ## Variables and their children -/

/-- The variables in a list, each with the name under which `gdb_var_lst` holds it, the object, its
children and the variables behind it.  The pointer `parent` is the position. -/
inductive Vars
  | nil
  | cons (name : CStr) (v : Variable) (childs rest : Vars)

/-- The names of the objects. -/
def Vars.names : Vars → List CStr
  | nil => []
  | cons name _ childs rest => name :: (childs.names ++ rest.names)

/-- Every object is one that gdb has just described: the constructor's flags are unchanged. -/
def Vars.Fresh : Vars → Prop
  | nil => True
  | cons _ v childs rest => (v.modified = true ∧ v.inscope = 't') ∧ childs.Fresh ∧ rest.Fresh

/-- `gdb_variable_t::update`: the object is evaluated again if it is flagged. -/
def updateValue (value : CStr) (v : Variable) : Variable :=
  if v.modified = true ∧ v.inscope = 't' then { v with value := some value } else v

/-! ## Printing -/

/-- What `print` adds to the buffer for one variable. -/
structure Line where
  name : CStr
  /-- The indentation and the mark of a variable that can be unfolded. -/
  lead : CStr
  modified : Bool
  exp : Option CStr
  value : Option CStr
  deriving DecidableEq

/-- What `print` adds to the buffer. -/
inductive Output
  | var (l : Line)
  | newline
  deriving DecidableEq

/-- The mark in front of a variable. -/
def foldMark (v : Variable) : CStr :=
  if v.nchilds = 0 then "   ".toList else if v.childsVisible then "[-]".toList else "[+]".toList

/-- The line of a variable behind `lead`, after its update. -/
def line (lead : CStr) (name value : CStr) (v : Variable) : Line :=
  let v' := updateValue value v
  ⟨name, lead, v'.modified, v'.exp, v'.value⟩

/-- The object after its line is printed. -/
def printed (value : CStr) (v : Variable) : Variable :=
  { updateValue value v with modified := false }

/-- The recursive `print`, with gdb's values `cur`: what it adds at level `lvl`. -/
def Vars.lines (cur : CStr → CStr) (lvl : Nat) : Vars → List Output
  | nil => []
  | cons name v childs rest =>
      .var (line (List.replicate lvl ' ' ++ foldMark v ++ [' ']) name (cur name) v) ::
        ((if v.childsVisible then childs.lines cur (lvl + 1) else []) ++
          (if lvl = 1 ∧ v.childsVisible then [.newline] else []) ++ rest.lines cur lvl)

/-- The recursive `print`: the objects afterwards. -/
def Vars.printed (cur : CStr → CStr) : Vars → Vars
  | nil => nil
  | cons name v childs rest =>
      cons name (Variables.printed (cur name) v)
        (if v.childsVisible then childs.printed cur else childs) (rest.printed cur)

/-- A call of `print` for one variable. -/
structure PrintCall where
  name : CStr
  expand : Bool
  indent : Nat

/-- The public `print`: what it adds to the buffer. -/
def Vars.output (cur : CStr → CStr) (c : PrintCall) : Vars → List Output
  | nil => []
  | cons name v childs rest =>
      if name = c.name then
        if c.expand then (cons name v childs nil).lines cur c.indent
        else [.var (line [] name (cur name) v)]
      else rest.output cur c

/-- The public `print`: the objects afterwards. -/
def Vars.print (cur : CStr → CStr) (c : PrintCall) : Vars → Vars
  | nil => nil
  | cons name v childs rest =>
      if name = c.name then
        if c.expand then
          cons name (Variables.printed (cur name) v)
            (if v.childsVisible then childs.printed cur else childs) rest
        else cons name (Variables.printed (cur name) v) childs rest
      else cons name v childs (rest.print cur c)

/-! ## Changes -/

/-- An entry of the list gdb answers `var-update` with, and the children gdb lists when the program
asks for those of a variable whose type has changed. -/
structure Change where
  entry : Variable
  childs : Vars

/-- The object after an entry for it. -/
def reported (e : Variable) (shown : Bool) (v : Variable) : Variable :=
  let v := if shown then { v with modified := true } else v
  if e.typeChanged = some true then { v with type := e.type, nchilds := e.nchilds } else v

/-- The loop body of `get_changed`, on a list whose parent shows its children (`shown`) or not; the
variables without a parent count as shown. -/
def Vars.change (c : Change) (shown : Bool) : Vars → Vars
  | nil => nil
  | cons name v childs rest =>
      if c.entry.name = some name then
        cons name (reported c.entry shown v)
          (if c.entry.typeChanged = some true then c.childs
            else childs.change c v.childsVisible) (rest.change c shown)
      else cons name v (childs.change c v.childsVisible) (rest.change c shown)

/-- The loop of `get_changed`. -/
def Vars.changeAll (cl : List Change) (shown : Bool) (vs : Vars) : Vars :=
  cl.foldl (fun vs c => vs.change c shown) vs

/-- The flag is set by `set` and `format`. -/
def Vars.mark (target : CStr) : Vars → Vars
  | nil => nil
  | cons name v childs rest =>
      cons name (if name = target then { v with modified := true } else v) (childs.mark target)
        (rest.mark target)

/-! ## Folding -/

/-- `init_childs`, with the children gdb lists. -/
def Vars.initChilds : Vars → Vars → Vars
  | nil, listed => listed
  | childs, _ => childs

/-- The list contains a variable without children that has the name. -/
def Vars.hasLeaf (target : CStr) : Vars → Bool
  | nil => false
  | cons name v _ rest => (name = target && v.nchilds = 0) || rest.hasLeaf target

/-- The command `FOLD`: the children are shown or hidden; a variable without children hides those of
its parent. -/
def Vars.fold (target : CStr) : Vars → Vars → Vars
  | nil, _ => nil
  | cons name v childs rest, listed =>
      if name = target ∧ v.nchilds ≠ 0 then
        cons name { v with childsVisible := !v.childsVisible } (childs.initChilds listed)
          (rest.fold target listed)
      else
        cons name (if childs.hasLeaf target then { v with childsVisible := false } else v)
          (childs.fold target listed) (rest.fold target listed)

/-- A variable without a parent is released. -/
def Vars.release (target : CStr) : Vars → Vars
  | nil => nil
  | cons name v childs rest =>
      if name = target then rest else cons name v childs (rest.release target)

/-! ## The system -/

/-- The variables, and gdb's current value of each object. -/
structure State where
  vars : Vars
  cur : CStr → CStr

/-- No variable exists yet. -/
def State.start (cur : CStr → CStr) : State := ⟨.nil, cur⟩

/-- What happens to the variables.  `cur` are gdb's values afterwards. -/
inductive Event
  /-- The program stops: `get_changed` is called. -/
  | update (cl : List Change) (cur : CStr → CStr)
  /-- The command `SET`: `set`, then `get_changed`. -/
  | set (target : CStr) (cl : List Change) (cur : CStr → CStr)
  /-- `format` changes how gdb writes the value. -/
  | format (target value : CStr)
  | fold (target : CStr) (listed : Vars)
  /-- Windows are printed. -/
  | «show» (calls : List PrintCall)
  /-- A variable without a parent is created. -/
  | acquire (name : CStr) (v : Variable) (value : CStr)
  | release (name : CStr)

/-- The objects after some windows are printed. -/
def Vars.printAll (cur : CStr → CStr) : List PrintCall → Vars → Vars
  | [], vs => vs
  | c :: calls, vs => (vs.print cur c).printAll cur calls

/-- What the windows show. -/
def Vars.outputAll (cur : CStr → CStr) : List PrintCall → Vars → List Output
  | [], _ => []
  | c :: calls, vs => vs.output cur c ++ (vs.print cur c).outputAll cur calls

/-- The state after an event. -/
def State.next (s : State) : Event → State
  | .update cl cur => ⟨s.vars.changeAll cl true, cur⟩
  | .set target cl cur => ⟨(s.vars.mark target).changeAll cl true, cur⟩
  | .format target value => ⟨s.vars.mark target, Function.update s.cur target value⟩
  | .fold target listed => ⟨s.vars.fold target listed, s.cur⟩
  | .show calls => ⟨s.vars.printAll s.cur calls, s.cur⟩
  | .acquire name v value => ⟨.cons name v .nil s.vars, Function.update s.cur name value⟩
  | .release name => ⟨s.vars.release name, s.cur⟩

/-- What is shown at an event. -/
def State.output (s : State) : Event → List Output
  | .show calls => s.vars.outputAll s.cur calls
  | _ => []

/-- gdb reports the object. -/
def Reported (cl : List Change) (name : CStr) : Prop := ∃ c ∈ cl, c.entry.name = some name

/-- gdb reports that the object has another type. -/
def Retyped (cl : List Change) (name : CStr) : Prop :=
  ∃ c ∈ cl, c.entry.name = some name ∧ c.entry.typeChanged = some true

/-- gdb reports the objects whose value has changed.  With the type of an object its children cease
to exist. -/
def Vars.Reports (cl : List Change) (cur cur' : CStr → CStr) : Vars → Prop
  | nil => True
  | cons name _ childs rest =>
      (cur' name ≠ cur name → Reported cl name) ∧
        (¬ Retyped cl name → childs.Reports cl cur cur') ∧ rest.Reports cl cur cur'

/-- What gdb keeps to: it reports what has changed, describes new objects, and gives each object a
name of its own. -/
def Allowed (s : State) (e : Event) : Prop :=
  (s.next e).vars.names.Nodup ∧
    match e with
    | .update cl cur | .set _ cl cur =>
        s.vars.Reports cl s.cur cur ∧ ∀ c ∈ cl, c.childs.Fresh
    | .fold _ listed => listed.Fresh
    | .acquire _ v _ => v.modified = true ∧ v.inscope = 't'
    | _ => True

/-- One event. -/
def Step (s : State) (e : Event) (t : State) : Prop := Allowed s e ∧ t = s.next e

/-! ## What is required and what suffices -/

/-- Every object has gdb's value, or is flagged so that it is evaluated before it is shown. -/
def Vars.Current (cur : CStr → CStr) : Vars → Prop
  | nil => True
  | cons name v childs rest =>
      (v.inscope = 't' ∧ (v.modified = true ∨ v.value = some (cur name))) ∧
        childs.Current cur ∧ rest.Current cur

/-- Every value shown at the event is gdb's, and no change is lost: no object is left with another
value and without the flag. -/
def ShowsCurrent (s : State) (e : Event) : Prop :=
  (∀ l, .var l ∈ s.output e → l.value = some (s.cur l.name)) ∧
    (s.next e).vars.Current (s.next e).cur

/-- An object whose value has changed is flagged already, or the children of its parent are shown;
the objects below one whose type has changed do not count. -/
def Vars.Noticed (cl : List Change) (cur cur' : CStr → CStr) (shown : Bool) : Vars → Prop
  | nil => True
  | cons name v childs rest =>
      (cur' name ≠ cur name → shown = true ∨ v.modified = true) ∧
        (¬ Retyped cl name → childs.Noticed cl cur cur' v.childsVisible) ∧
        rest.Noticed cl cur cur' shown

/-- No change is reported for an object that is hidden by its parent and not flagged. -/
def HiddenUnchanged (s : State) : Event → Prop
  | .update cl cur => s.vars.Noticed cl s.cur cur true
  | .set target cl cur => (s.vars.mark target).Noticed cl s.cur cur true
  | _ => True

/-! ## Printing keeps the values current -/

theorem updateValue_current {cur : CStr → CStr} {name : CStr} {v : Variable}
    (hscope : v.inscope = 't') (h : v.modified = true ∨ v.value = some (cur name)) :
    (updateValue (cur name) v).value = some (cur name) := by
  unfold updateValue
  split
  · rfl
  · rename_i hnot
    exact h.resolve_left fun hmod => hnot ⟨hmod, hscope⟩

theorem updateValue_inscope (value : CStr) (v : Variable) :
    (updateValue value v).inscope = v.inscope := by
  unfold updateValue
  split <;> rfl

/-- The recursive `print` leaves every object current. -/
theorem current_printed {cur : CStr → CStr} {vs : Vars} (h : vs.Current cur) :
    (vs.printed cur).Current cur := by
  induction vs with
  | nil => trivial
  | cons name v childs rest ihc ihr =>
      obtain ⟨⟨hscope, hval⟩, hc, hr⟩ := h
      refine ⟨⟨?_, Or.inr ?_⟩, ?_, ihr hr⟩
      · exact (updateValue_inscope _ _).trans hscope
      · exact updateValue_current hscope hval
      · split
        · exact ihc hc
        · exact hc

/-- The recursive `print` shows gdb's values. -/
theorem lines_current {cur : CStr → CStr} {vs : Vars} (h : vs.Current cur) (lvl : Nat) {l : Line}
    (hl : .var l ∈ vs.lines cur lvl) : l.value = some (cur l.name) := by
  induction vs generalizing lvl with
  | nil => exact absurd hl List.not_mem_nil
  | cons name v childs rest ihc ihr =>
      obtain ⟨⟨hscope, hval⟩, hc, hr⟩ := h
      unfold Vars.lines at hl
      rw [List.mem_cons, List.mem_append, List.mem_append] at hl
      rcases hl with hl | (hl | hl) | hl
      · injection hl with hl
        rw [hl]
        exact updateValue_current hscope hval
      · split at hl
        · exact ihc hc _ hl
        · exact absurd hl List.not_mem_nil
      · split at hl
        · simp at hl
        · exact absurd hl List.not_mem_nil
      · exact ihr hr _ hl

theorem current_print {cur : CStr → CStr} {vs : Vars} (h : vs.Current cur) (c : PrintCall) :
    (vs.print cur c).Current cur := by
  induction vs with
  | nil => trivial
  | cons name v childs rest _ ihr =>
      obtain ⟨hv, hc, hr⟩ := h
      have hself : (Vars.cons name v childs .nil).Current cur := ⟨hv, hc, trivial⟩
      have hone := current_printed hself
      unfold Vars.print
      split
      · split
        · exact ⟨hone.1, hone.2.1, hr⟩
        · exact ⟨hone.1, hc, hr⟩
      · exact ⟨hv, hc, ihr hr⟩

theorem output_current {cur : CStr → CStr} {vs : Vars} (h : vs.Current cur) (c : PrintCall)
    {l : Line} (hl : .var l ∈ vs.output cur c) : l.value = some (cur l.name) := by
  induction vs with
  | nil => exact absurd hl List.not_mem_nil
  | cons name v childs rest _ ihr =>
      obtain ⟨hv, hc, hr⟩ := h
      unfold Vars.output at hl
      split at hl
      · split at hl
        · have hself : (Vars.cons name v childs .nil).Current cur := ⟨hv, hc, trivial⟩
          exact lines_current hself _ hl
        · rw [List.mem_singleton] at hl
          injection hl with hl
          rw [hl]
          exact updateValue_current hv.1 hv.2
      · exact ihr hr hl

theorem current_printAll {cur : CStr → CStr} {vs : Vars} (h : vs.Current cur)
    (calls : List PrintCall) : (vs.printAll cur calls).Current cur := by
  induction calls generalizing vs with
  | nil => exact h
  | cons c calls ih => exact ih (current_print h c)

theorem outputAll_current {cur : CStr → CStr} {vs : Vars} (h : vs.Current cur)
    (calls : List PrintCall) {l : Line} (hl : .var l ∈ vs.outputAll cur calls) :
    l.value = some (cur l.name) := by
  induction calls generalizing vs with
  | nil => exact absurd hl List.not_mem_nil
  | cons c calls ih =>
      unfold Vars.outputAll at hl
      rcases List.mem_append.mp hl with hl | hl
      · exact output_current h c hl
      · exact ih (current_print h c) hl

/-! ## Folding and marking keep them current -/

/-- New objects are flagged. -/
theorem Vars.Fresh.current {vs : Vars} (h : vs.Fresh) (cur : CStr → CStr) : vs.Current cur := by
  induction vs with
  | nil => trivial
  | cons name v childs rest ihc ihr =>
      obtain ⟨⟨hmod, hscope⟩, hc, hr⟩ := h
      exact ⟨⟨hscope, Or.inl hmod⟩, ihc hc, ihr hr⟩

theorem current_fold {cur : CStr → CStr} {vs listed : Vars} (h : vs.Current cur)
    (hlisted : listed.Fresh) (target : CStr) : (vs.fold target listed).Current cur := by
  induction vs with
  | nil => trivial
  | cons name v childs rest ihc ihr =>
      obtain ⟨hv, hc, hr⟩ := h
      unfold Vars.fold
      split
      · refine ⟨hv, ?_, ihr hr⟩
        unfold Vars.initChilds
        split
        · exact hlisted.current cur
        · exact hc
      · refine ⟨?_, ihc hc, ihr hr⟩
        split
        · exact hv
        · exact hv

theorem current_mark {cur : CStr → CStr} {vs : Vars} (h : vs.Current cur) (target : CStr) :
    (vs.mark target).Current cur := by
  induction vs with
  | nil => trivial
  | cons name v childs rest ihc ihr =>
      obtain ⟨hv, hc, hr⟩ := h
      refine ⟨?_, ihc hc, ihr hr⟩
      split
      · exact ⟨hv.1, Or.inl rfl⟩
      · exact hv

/-- A flagged object may get any value. -/
theorem current_mark_update {cur : CStr → CStr} {vs : Vars} (h : vs.Current cur)
    (target value : CStr) : (vs.mark target).Current (Function.update cur target value) := by
  induction vs with
  | nil => trivial
  | cons name v childs rest ihc ihr =>
      obtain ⟨hv, hc, hr⟩ := h
      refine ⟨?_, ihc hc, ihr hr⟩
      split
      · exact ⟨hv.1, Or.inl rfl⟩
      · rename_i hne
        rw [Function.update_of_ne hne]
        exact hv

theorem current_release {cur : CStr → CStr} {vs : Vars} (h : vs.Current cur) (target : CStr) :
    (vs.release target).Current cur := by
  induction vs with
  | nil => trivial
  | cons name v childs rest _ ihr =>
      obtain ⟨hv, hc, hr⟩ := h
      unfold Vars.release
      split
      · exact hr
      · exact ⟨hv, hc, ihr hr⟩

/-- The value of a name that no object has does not matter. -/
theorem current_update_of_not_mem {cur : CStr → CStr} {vs : Vars} (h : vs.Current cur)
    {name : CStr} (hname : name ∉ vs.names) (value : CStr) :
    vs.Current (Function.update cur name value) := by
  induction vs with
  | nil => trivial
  | cons n v childs rest ihc ihr =>
      obtain ⟨hv, hc, hr⟩ := h
      unfold Vars.names at hname
      rw [List.mem_cons, List.mem_append, not_or, not_or] at hname
      refine ⟨?_, ihc hc hname.2.1, ihr hr hname.2.2⟩
      rw [Function.update_of_ne (Ne.symm hname.1)]
      exact hv

/-- Marking changes no name, so gdb's report stays one of the variables. -/
theorem reports_mark {cl : List Change} {cur cur' : CStr → CStr} {vs : Vars}
    (h : vs.Reports cl cur cur') (target : CStr) : (vs.mark target).Reports cl cur cur' := by
  induction vs with
  | nil => trivial
  | cons name v childs rest ihc ihr =>
      obtain ⟨hv, hc, hr⟩ := h
      exact ⟨hv, fun hre => ihc (hc hre), ihr hr⟩

/-! ## What `get_changed` keeps current -/

theorem fresh_change {vs : Vars} (h : vs.Fresh) {c : Change} (hc : c.childs.Fresh)
    (shown : Bool) : (vs.change c shown).Fresh := by
  induction vs generalizing shown with
  | nil => trivial
  | cons name v childs rest ihc ihr =>
      obtain ⟨hv, hcs, hr⟩ := h
      unfold Vars.change
      split
      · refine ⟨?_, ?_, ihr hr _⟩
        · unfold reported
          split <;> split <;> first | exact hv | exact ⟨rfl, hv.2⟩
        · split
          · exact hc
          · exact ihc hcs _
      · exact ⟨hv, ihc hcs _, ihr hr _⟩

/-- What the loop of `get_changed` does to the first variable of a list. -/
structure Changed (cl : List Change) (shown : Bool) (name : CStr) (v v' : Variable)
    (childs childs' : Vars) : Prop where
  value : v'.value = v.value
  inscope : v'.inscope = v.inscope
  modified : v'.modified = true ↔ v.modified = true ∨ (shown = true ∧ Reported cl name)
  below : ¬ Retyped cl name → childs' = childs.changeAll cl v.childsVisible
  fresh : Retyped cl name ∨ childs.Fresh → childs'.Fresh

/-- The loop body on the first variable of a list. -/
theorem change_cons (c : Change) (shown : Bool) (name : CStr) (v : Variable) (childs rest : Vars)
    (hc : c.childs.Fresh) :
    ∃ v' childs', (Vars.cons name v childs rest).change c shown =
        .cons name v' childs' (rest.change c shown) ∧
      v'.childsVisible = v.childsVisible ∧ Changed [c] shown name v v' childs childs' := by
  rw [Vars.change]
  by_cases hname : c.entry.name = some name
  · rw [if_pos hname]
    have hrep : Reported [c] name := ⟨c, List.mem_singleton_self c, hname⟩
    refine ⟨_, _, rfl, ?_, ?_, ?_, ?_, fun hre => ?_, fun hfresh => ?_⟩
    · unfold reported
      split <;> split <;> rfl
    · unfold reported
      split <;> split <;> rfl
    · unfold reported
      split <;> split <;> rfl
    · unfold reported
      split <;> split <;> simp_all
    · rw [if_neg fun ht => hre ⟨c, List.mem_singleton_self c, hname, ht⟩]
      rfl
    · by_cases ht : c.entry.typeChanged = some true
      · rw [if_pos ht]
        exact hc
      · rw [if_neg ht]
        refine fresh_change (hfresh.resolve_left ?_) hc _
        rintro ⟨d, hd, -, htd⟩
        rw [List.mem_singleton.mp hd] at htd
        exact ht htd
  · rw [if_neg hname]
    have hrep : ¬ Reported [c] name := by
      rintro ⟨d, hd, hdn⟩
      rw [List.mem_singleton.mp hd] at hdn
      exact hname hdn
    refine ⟨v, _, rfl, rfl, rfl, rfl, ?_, fun _ => rfl, fun hfresh => ?_⟩
    · simp [hrep]
    · refine fresh_change (hfresh.resolve_left ?_) hc _
      rintro ⟨d, hd, hdn, -⟩
      exact hrep ⟨d, hd, hdn⟩

theorem reported_cons {c : Change} {cl : List Change} {name : CStr} :
    Reported (c :: cl) name ↔ Reported [c] name ∨ Reported cl name := by
  simp [Reported]

theorem retyped_cons {c : Change} {cl : List Change} {name : CStr} :
    Retyped (c :: cl) name ↔ Retyped [c] name ∨ Retyped cl name := by
  simp [Retyped]

/-- The whole loop on the first variable of a list. -/
theorem changeAll_cons (cl : List Change) (hcl : ∀ c ∈ cl, c.childs.Fresh) (shown : Bool)
    (name : CStr) (v : Variable) (childs rest : Vars) :
    ∃ v' childs', (Vars.cons name v childs rest).changeAll cl shown =
        .cons name v' childs' (rest.changeAll cl shown) ∧
      Changed cl shown name v v' childs childs' := by
  induction cl generalizing v childs rest with
  | nil =>
      refine ⟨v, childs, rfl, rfl, rfl, ?_, fun _ => rfl, fun h => h.resolve_left ?_⟩
      · simp [Reported]
      · simp [Retyped]
  | cons c cl ih =>
      obtain ⟨v₁, childs₁, heq₁, hvis, h₁⟩ :=
        change_cons c shown name v childs rest (hcl c List.mem_cons_self)
      obtain ⟨v₂, childs₂, heq₂, h₂⟩ :=
        ih (fun d hd => hcl d (List.mem_cons_of_mem c hd)) v₁ childs₁ (rest.change c shown)
      refine ⟨v₂, childs₂, ?_, h₂.value.trans h₁.value, h₂.inscope.trans h₁.inscope, ?_,
        fun hre => ?_, fun hfresh => h₂.fresh ?_⟩
      · unfold Vars.changeAll at heq₂ ⊢
        rw [List.foldl_cons, heq₁, heq₂, List.foldl_cons]
      · rw [h₂.modified, h₁.modified, @reported_cons c cl]
        tauto
      · rw [@retyped_cons c cl, not_or] at hre
        rw [h₂.below hre.2, h₁.below hre.1, hvis]
        rfl
      · rw [@retyped_cons c cl] at hfresh
        rcases hfresh with (hre | hre) | hf
        · exact Or.inr (h₁.fresh (Or.inl hre))
        · exact Or.inl hre
        · exact Or.inr (h₁.fresh (Or.inr hf))

/-- `get_changed` leaves the variables current exactly if every change is noticed. -/
theorem current_changeAll {cl : List Change} {cur cur' : CStr → CStr} {vs : Vars}
    (hcl : ∀ c ∈ cl, c.childs.Fresh) (hrep : vs.Reports cl cur cur') (h : vs.Current cur)
    (shown : Bool) :
    (vs.changeAll cl shown).Current cur' ↔ vs.Noticed cl cur cur' shown := by
  induction vs generalizing shown with
  | nil =>
      have hnil : Vars.nil.changeAll cl shown = .nil := by
        unfold Vars.changeAll
        induction cl with
        | nil => rfl
        | cons c cl ih => exact ih (fun d hd => hcl d (List.mem_cons_of_mem c hd)) trivial
      rw [hnil]
      exact Iff.rfl
  | cons name v childs rest ihc ihr =>
      obtain ⟨⟨hscope, hval⟩, hc, hr⟩ := h
      obtain ⟨hrepv, hrepc, hrepr⟩ := hrep
      obtain ⟨v', childs', heq, hch⟩ := changeAll_cons cl hcl shown name v childs rest
      rw [heq]
      refine and_congr ?_ (and_congr ?_ (ihr hrepr hr shown))
      · rw [hch.inscope, hch.modified, hch.value]
        constructor
        · rintro ⟨-, (hmod | hmod) | hval'⟩ hne
          · exact Or.inr hmod
          · exact Or.inl hmod.1
          · refine Or.inr (hval.resolve_right fun hold => hne ?_)
            exact Option.some.inj (hval'.symm.trans hold)
        · intro hnot
          refine ⟨hscope, ?_⟩
          by_cases hne : cur' name = cur name
          · rw [hne]
            exact hval.imp_left Or.inl
          · rcases hnot hne with hshown | hmod
            · exact Or.inl (Or.inr ⟨hshown, hrepv hne⟩)
            · exact Or.inl (Or.inl hmod)
      · by_cases hre : Retyped cl name
        · exact iff_of_true ((hch.fresh (Or.inl hre)).current cur') fun hnot => absurd hre hnot
        · rw [hch.below hre, ihc (hrepc hre) hc]
          exact ⟨fun hn _ => hn, fun hn => hn hre⟩

/-! ## Runs -/

/-- The values an allowed event shows are gdb's, and no change is lost, exactly if no hidden object
has changed. -/
theorem showsCurrent_iff {s : State} {e : Event} (hallow : Allowed s e)
    (h : s.vars.Current s.cur) : ShowsCurrent s e ↔ HiddenUnchanged s e := by
  obtain ⟨hnames, hallow⟩ := hallow
  cases e with
  | update cl cur =>
      refine (and_iff_right ?_).trans (current_changeAll hallow.2 hallow.1 h true)
      exact fun l hl => absurd hl List.not_mem_nil
  | set target cl cur =>
      refine (and_iff_right ?_).trans (current_changeAll hallow.2 (reports_mark hallow.1 target)
        (current_mark h target) true)
      exact fun l hl => absurd hl List.not_mem_nil
  | format target value =>
      refine iff_of_true ⟨?_, current_mark_update h target value⟩ trivial
      exact fun l hl => absurd hl List.not_mem_nil
  | fold target listed =>
      refine iff_of_true ⟨?_, current_fold h hallow target⟩ trivial
      exact fun l hl => absurd hl List.not_mem_nil
  | «show» calls =>
      exact iff_of_true ⟨fun l hl => outputAll_current h calls hl, current_printAll h calls⟩ trivial
  | acquire name v value =>
      refine iff_of_true ⟨fun l hl => absurd hl List.not_mem_nil, ?_⟩ trivial
      have hnew : name ∉ s.vars.names := (List.nodup_cons.mp hnames).1
      exact ⟨⟨hallow.2, Or.inl hallow.1⟩, trivial, current_update_of_not_mem h hnew value⟩
  | release name =>
      refine iff_of_true ⟨?_, current_release h name⟩ trivial
      exact fun l hl => absurd hl List.not_mem_nil

/-- From any variables none of which is out of date: the values shown are gdb's and no change is
lost, in exactly the runs in which no hidden object changes. -/
theorem run_current_of_current {s : State} (h : s.vars.Current s.cur) (es : List Event)
    (t : State) :
    Run (fun s e t => Step s e t ∧ ShowsCurrent s e) s es t ↔
      Run (fun s e t => Step s e t ∧ HiddenUnchanged s e) s es t := by
  refine Run.guarded_iff (I := fun s => s.vars.Current s.cur) h ?_ ?_ es t
  · rintro t e u ht ⟨hallow, rfl⟩ hg
    exact ((showsCurrent_iff hallow ht).mpr hg).2
  · rintro t e u ht ⟨hallow, rfl⟩
    exact showsCurrent_iff hallow ht

/-- Every value that is ever shown is gdb's current one, and no change is lost, in exactly the runs
of the program in which no change is reported for an object that its parent hides. -/
theorem run_current_iff (cur : CStr → CStr) (es : List Event) (t : State) :
    Run (fun s e t => Step s e t ∧ ShowsCurrent s e) (.start cur) es t ↔
      Run (fun s e t => Step s e t ∧ HiddenUnchanged s e) (.start cur) es t :=
  run_current_of_current (s := .start cur) trivial es t

/-- gdb's values of a structure and its member, when the member is `x`. -/
def memberIs (x : CStr) (name : CStr) : CStr :=
  if name = "u:s.x".toList then x else "{...}".toList

/-- The structure is shown with its member and folded, the member changes from 1 to 2, and the
structure is unfolded. -/
def changeWhileFolded : List Event :=
  [.acquire "u:s".toList { exp := some "s".toList, nchilds := 1 } "{...}".toList,
    .fold "u:s".toList (.cons "u:s.x".toList { exp := some "x".toList } .nil .nil),
    .show [⟨"u:s".toList, true, 0⟩],
    .fold "u:s".toList .nil,
    .update [⟨{ name := some "u:s.x".toList, typeChanged := some false }, .nil⟩]
      (memberIs "2".toList),
    .fold "u:s".toList .nil]

/-- The window shows the old value of the member. -/
theorem hidden_change_lost :
    ∃ t, Run Step (.start (memberIs "1".toList)) changeWhileFolded t ∧
      ∃ l, .var l ∈ t.output (.show [⟨"u:s".toList, true, 0⟩]) ∧ l.value ≠ some (t.cur l.name) := by
  refine ⟨changeWhileFolded.foldl State.next (.start (memberIs "1".toList)), ?_,
    ⟨"u:s.x".toList, "     ".toList, false, some "x".toList, some "1".toList⟩, by decide,
    by decide⟩
  refine Run.head ⟨⟨by decide, rfl, rfl⟩, rfl⟩ ?_
  refine Run.head ⟨⟨by decide, ⟨rfl, rfl⟩, trivial, trivial⟩, rfl⟩ ?_
  refine Run.head ⟨⟨by decide, trivial⟩, rfl⟩ ?_
  refine Run.head ⟨⟨by decide, trivial⟩, rfl⟩ ?_
  refine Run.head ⟨⟨by decide, ⟨?_, ?_, trivial⟩, ?_⟩, rfl⟩ ?_
  · exact fun hne => absurd (by decide) hne
  · exact fun _ => ⟨fun _ => ⟨_, List.mem_singleton_self _, rfl⟩, fun _ => trivial, trivial⟩
  · intro c hc
    rw [List.mem_singleton.mp hc]
    trivial
  · exact Run.head ⟨⟨by decide, trivial⟩, rfl⟩ Run.nil

end Vimgdb.Gdb.Variables
