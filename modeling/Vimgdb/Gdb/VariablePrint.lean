import Vimgdb.Common.LineMap
import Vimgdb.Gdb.VariableDeletions

/-!
# Printing variables

`gdb_variable_t::print`, as far as it fills a line map: a variable that is shown is entered with its
line, and its children behind it.

* `printExpanded`: the recursive `print`.
* `print`: the one the views call.
* `Prints`, `Prints.print`: what each step of printing keeps is kept.
* `Printing`: what is in the line map has not been deleted.
-/

namespace Vimgdb.Gdb.VariableMaps

open Programs Maps

/-! ## The functions -/

/-- What has been printed: the next line, the line map, and how many values have been asked for. -/
structure Page where
  line : BitVec 32 := 1
  lines : LineMap Nat := []
  evals : Nat := 0

/-- `update`, with the replies to `var-evaluate-expression`, and whether it succeeds. -/
def updateValue (evals : Nat → Option CStr) (a : Nat) (page : Page) : Vars (Page × Bool) := do
  let v ← deref a
  if v.var.modified && v.var.inscope = 't' then
    let page' := { page with evals := page.evals + 1 }
    match evals page.evals with
    | none => return (page', false)
    | some value =>
        modify fun s => s.setObject a { v with var := { v.var with value := some value } }
        return (page', true)
  else return (page, true)

/-- The variable has been shown. -/
def unmark (a : Nat) : Vars Object := do
  let v ← deref a
  modify fun s => s.setObject a { v with var := { v.var with modified := false } }
  return v

/-- The recursive `print`; its callers do not look at the result.  The addresses of children are behind
those of their parents, so `fuel` is the number of addresses. -/
def printExpanded (evals : Nat → Option CStr) : Nat → Nat → Page → Nat → Vars Page
  | 0, _, _, _ => undefined
  | fuel + 1, level, page, a => do
      let (page, ok) ← updateValue evals a page
      if ok then
        let v ← unmark a
        let page := { page with lines := page.lines.add page.line a, line := page.line + 1 }
        if v.var.childsVisible then
          let page ← v.childs.foldlM (printExpanded evals fuel (level + 1)) page
          return if level = 1 then { page with line := page.line + 1 } else page
        else return page
      else return page

/-- `print` -/
def print (evals : Nat → Option CStr) (expand : Bool) (indent : Nat) (page : Page) (a : Nat) :
    Vars Page := do
  if expand then printExpanded evals (← get).next indent page a
  else
    let (page, ok) ← updateValue evals a page
    if ok then
      let _ ← unmark a
      return page
    else return page

/-! ## What printing keeps -/

/-- What is kept when a value is asked for, and when a variable changes. -/
structure Updates (K : Page → State → Prop) : Prop where
  evals {page : Page} {s : State} (n : Nat) : K page s → K { page with evals := n } s
  setObject {page : Page} {s : State} {a : Nat} {v v' : Object} : K page s →
    s.heap.lookup a = some v → v'.childs = v.childs → K page (s.setObject a v')

/-- And when a variable is entered, and when a line is left empty. -/
structure Prints (K : Page → State → Prop) : Prop extends Updates K where
  add {page : Page} {s : State} {a : Nat} : K page s → s.heap.lookup a ≠ none →
    K { page with lines := page.lines.add page.line a, line := page.line + 1 } s
  skip {page : Page} {s : State} : K page s → K { page with line := page.line + 1 } s

variable {K : Page → State → Prop} {s₀ s : State} {D : Nat → Prop} {page : Page} {a : Nat}
  {v : Object} {evals : Nat → Option CStr} {E : Unit → State → Prop}

/-- A variable that changes stays in memory. -/
theorem lookup_setObject_ne_none {v' : Object} {b : Nat} (hb : s.heap.lookup b ≠ none) :
    (s.setObject a v').heap.lookup b ≠ none := by
  show (s.heap.insert a v').lookup b ≠ none
  by_cases hba : b = a
  · rw [hba, AList.lookup_insert]
    exact Option.some_ne_none v'
  · rwa [AList.lookup_insert_ne hba]

theorem Updates.updateValue (hK : Updates K) (h : K page s) :
    Post (updateValue evals a page) (fun r => K r.1) E s := by
  unfold VariableMaps.updateValue
  rw [post_bind]
  refine post_deref fun v hv => ?_
  split
  · dsimp only
    split
    · exact post_pure.mpr (hK.evals _ h)
    · next value _ =>
      rw [post_bind, post_modify, post_pure]
      exact hK.evals _ (hK.setObject h hv rfl)
  · exact post_pure.mpr h

theorem Updates.unmark (hK : Updates K) (h : K page s) :
    Post (unmark a) (fun _ t => K page t ∧ t.heap.lookup a ≠ none) E s := by
  unfold VariableMaps.unmark
  rw [post_bind]
  refine post_deref fun v hv => ?_
  rw [post_bind, post_modify, post_pure]
  refine ⟨hK.setObject h hv rfl, ?_⟩
  exact lookup_setObject_ne_none (by rw [hv]; exact Option.some_ne_none v)

/-- `print` of a variable that is not expanded. -/
theorem Updates.printFolded (hK : Updates K) (indent : Nat) (h : K page s) :
    Post (print evals false indent page a) K E s := by
  unfold VariableMaps.print
  rw [if_neg Bool.false_ne_true, post_bind]
  refine (hK.updateValue h).mono (fun r t ht => ?_) fun _ _ hE => hE
  obtain ⟨page', ok⟩ := r
  dsimp only
  split
  · rw [post_bind]
    exact (hK.unmark ht).mono (fun _ u hu => post_pure.mpr hu.1) fun _ _ hE => hE
  · exact post_pure.mpr ht

theorem Prints.printExpanded (hK : Prints K) {fuel level : Nat} (h : K page s) :
    Post (printExpanded evals fuel level page a) K E s := by
  induction fuel generalizing level page a s with
  | zero => exact post_undefined
  | succ fuel ih =>
      unfold VariableMaps.printExpanded
      rw [post_bind]
      refine (hK.updateValue h).mono (fun r t ht => ?_) fun _ _ hE => hE
      obtain ⟨page', ok⟩ := r
      dsimp only
      split
      · rw [post_bind]
        refine (hK.unmark ht).mono (fun v u hu => ?_) fun _ _ hE => hE
        have hentered := hK.add hu.1 hu.2
        split
        · rw [post_bind]
          refine (post_foldlM (fun page a s h => ih h) v.childs hentered).mono
            (fun page'' w hw => ?_) fun _ _ hE => hE
          rw [post_pure]
          split
          · exact hK.skip hw
          · exact hw
        · exact post_pure.mpr hentered
      · exact post_pure.mpr ht

theorem Prints.print (hK : Prints K) (expand : Bool) (indent : Nat) (h : K page s) :
    Post (print evals expand indent page a) K E s := by
  cases expand with
  | false => exact hK.printFolded indent h
  | true =>
      unfold VariableMaps.print
      rw [if_pos rfl, post_bind, post_get]
      exact hK.printExpanded h

/-! ## What is entered -/

/-- Nothing has been deleted, and what is in the line map is in memory. -/
structure Printing (s₀ : State) (D : Nat → Prop) (page : Page) (s : State) : Prop where
  since : Since s₀ D s
  live : ∀ a ∈ page.lines.objects, s.heap.lookup a ≠ none

theorem Printing.setLine (h : Printing s₀ D page s) (line : BitVec 32) :
    Printing s₀ D { page with line := line } s := ⟨h.since, h.live⟩

theorem prints_printing : Prints (Printing s₀ D) where
  evals _ h := ⟨h.since, h.live⟩
  setObject h ha hchilds := ⟨h.since.setObject ha fun _ hc => hchilds ▸ hc, fun b hb =>
    lookup_setObject_ne_none (h.live b hb)⟩
  add {page s a} h ha := by
    refine ⟨h.since, fun b hb => ?_⟩
    rw [LineMap.objects_add, List.mem_append, List.mem_singleton] at hb
    rcases hb with hb | rfl
    · exact h.live b hb
    · exact ha
  skip h := h.setLine _

end Vimgdb.Gdb.VariableMaps
