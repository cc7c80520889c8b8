import Vimgdb.Gdb.Variables
import Vimgdb.Lib.PointerTree
import Vimgdb.Lib.Program

/-!
# The maps of the variables

`gdb_var_lst` leads from a name to its variable; `gdb_user_var`, `gdb_register_var` and
`gdb_callstack_var` do so for the variables of one origin that have no parent.  The destructor
removes a variable from the maps and deletes its children.

* `Object`, `State`: the variables by address, and the maps.
* `acquire`, `release`, `initChilds`, `getChanged`: the operations.  The replies of gdb are
  arguments; a command that fails has none.
* `Consistent`: what the maps and the variables have to do with each other.
* `run_consistent`: it holds in every run in which no child is released for the last time.
-/

namespace Vimgdb.Gdb.VariableMaps

open Programs PointerTree Maps Runs
open Variables (reported)

/-! ## The state -/

/-- `gdb_origin_t` -/
inductive Origin
  | unknown | callstack | register | user
  deriving DecidableEq

/-- A `gdb_variable_t`: what a record describes, and the rest. -/
structure Object where
  var : Variable
  origin : Origin := .unknown
  parent : Option Nat := none
  childs : List Nat := []
  refcnt : BitVec 32 := 1

/-- The variables in memory, and the maps.  `vars` are the maps for the origins. -/
structure State where
  heap : Heap Object
  /-- The next address; none is used again. -/
  next : Nat
  varLst : AList fun _ : CStr => Nat
  vars : Origin → AList fun _ : CStr => Nat

/-- There is no variable. -/
def State.init : State := ⟨∅, 0, ∅, fun _ => ∅⟩

/-- What the operations do; the error is 0 or -1. -/
abbrev Vars := Program State Unit

/-- No variable has the name. -/
def State.unused (s : State) (name : CStr) : Bool :=
  s.heap.entries.all fun e => e.2.var.name ≠ some name

/-- A variable changes. -/
def State.setObject (s : State) (a : Nat) (v : Object) : State :=
  { s with heap := s.heap.insert a v }

/-- The pointer is followed. -/
def deref (a : Nat) : Vars Object := do
  match (← get).heap.lookup a with
  | none => undefined
  | some v => return v

/-! ## Deletion -/

/-- The destructor removes the variable from the maps. -/
def State.unlist (s : State) (v : Object) : State :=
  match v.var.name with
  | none => s
  | some name =>
      if v.origin = .unknown then s
      else { s with
        varLst := s.varLst.erase name
        vars := Function.update s.vars v.origin ((s.vars v.origin).erase name) }

/-- The destructor, up to `erase_childs`. -/
def free (a : Nat) : Vars Object := do
  let v ← deref a
  modify fun s => { s with heap := s.heap.erase a }.unlist v
  return v

/-- Variables are deleted, each in front of its children.  `fuel` is the number of variables; each
deletion takes one. -/
def deleteAll : Nat → List Nat → Vars Unit
  | _, [] => pure ()
  | 0, _ :: _ => undefined
  | fuel + 1, a :: as => do
      let v ← free a
      deleteAll fuel (v.childs ++ as)

/-- `delete` -/
def delete (as : List Nat) : Vars Unit := do deleteAll (← get).heap.entries.length as

/-- `erase_childs` -/
def eraseChilds (a : Nat) : Vars Unit := do
  let v ← deref a
  modify fun s => s.setObject a { v with childs := [] }
  delete v.childs

/-! ## Creation -/

/-- The name under which a variable is created. -/
def key (origin : Origin) (context expr : CStr) : CStr :=
  match origin with
  | .callstack => "s:".toList ++ context ++ ':' :: expr
  | .register => "r:".toList ++ expr
  | .user => "u:".toList ++ expr
  | .unknown => []

/-- A variable without a parent is entered. -/
def State.addRoot (s : State) (key : CStr) (v : Variable) (origin : Origin) : State where
  heap := s.heap.insert s.next { var := v, origin }
  next := s.next + 1
  varLst := s.varLst.insert key s.next
  vars := Function.update s.vars origin ((s.vars origin).insert key s.next)

/-- A child of `p`, which has the address `a`, is entered. -/
def State.addChild (s : State) (a : Nat) (p : Object) (name : CStr) (c : Variable) : State where
  heap := (s.heap.insert s.next { var := c, origin := p.origin, parent := some a }).insert a
    { p with childs := p.childs ++ [s.next] }
  next := s.next + 1
  varLst := s.varLst.insert name s.next
  vars := s.vars

/-- `acquire`, with the replies to `var-create` and `var-info-expression`.  gdb uses the name it is
given, and no name twice. -/
def acquire (origin : Origin) (context expr : CStr) (create info : Option Variable) : Vars Nat := do
  if origin = .unknown then throw ()
  else
    let key := key origin context expr
    match (← get).varLst.lookup key with
    | some a =>
        let v ← deref a
        modify fun s => s.setObject a { v with refcnt := v.refcnt + 1 }
        return a
    | none =>
        match create with
        | none => throw ()
        | some v =>
            assume (v.name = some key)
            assume ((← get).unused key)
            let a := (← get).next
            modify fun s => s.addRoot key v origin
            match info with
            | none => throw ()
            | some i =>
                let v ← deref a
                modify fun s => s.setObject a { v with var := { v.var with exp := i.exp } }
                return a

/-- The loop body of `init_childs`. -/
def addChild (a : Nat) (c : Variable) : Vars Unit := do
  let p ← deref a
  match c.name with
  | none => undefined
  | some name =>
      assume ((← get).unused name)
      modify fun s => s.addChild a p name c

/-- `init_childs`, with the reply to `var-list-children`. -/
def initChilds (a : Nat) (listed : Option (List Variable)) : Vars Unit := do
  let v ← deref a
  if v.childs ≠ [] then pure ()
  else
    match listed with
    | none => throw ()
    | some cs => cs.forM (addChild a)

/-! ## Release and change -/

/-- The variable is found under its name. -/
def State.isListed (s : State) (v : Object) : Bool :=
  match v.var.name with
  | none => false
  | some name => (s.varLst.lookup name).isSome

/-- `release`; `deleted` says whether `var-delete` succeeds. -/
def release (a : Nat) (deleted : Bool) : Vars Unit := do
  let v ← deref a
  modify fun s => s.setObject a { v with refcnt := v.refcnt - 1 }
  if v.refcnt - 1 = 0 then
    if (← get).isListed v && !deleted then throw () else delete [a]
  else pure ()

/-- An entry of the list gdb answers `var-update` with, and the replies to the commands that
follow. -/
structure Change where
  entry : Variable
  childs : Option (List Variable)
  deleted : Bool

/-- The parent shows its children, or there is none. -/
def shown : Option Nat → Vars Bool
  | none => pure true
  | some p => do
      let q ← deref p
      return q.var.childsVisible

/-- The loop body of `get_changed`. -/
def change (c : Change) : Vars Unit := do
  match c.entry.name with
  | none => undefined
  | some name =>
      match (← get).varLst.lookup name with
      | none => pure ()
      | some a =>
          let v ← deref a
          let visible ← shown v.parent
          modify fun s => s.setObject a { v with var := reported c.entry visible v.var }
          onlyIf (c.entry.typeChanged = some true) do
            eraseChilds a
            attempt (initChilds a c.childs)
          onlyIf (c.entry.inscope = 'i') (release a c.deleted)

/-- `get_changed`, with the reply to `var-update`. -/
def getChanged (update : Option (List Change)) : Vars Unit :=
  match update with
  | none => throw ()
  | some cl => cl.forM change

/-! ## Operations -/

/-- The operations. -/
inductive Op
  | acquire (origin : Origin) (context expr : CStr) (create info : Option Variable)
  | release (a : Nat) (deleted : Bool)
  | initChilds (a : Nat) (listed : Option (List Variable))
  | getChanged (update : Option (List Change))

/-- What an operation does. -/
def Op.call : Op → Vars Unit
  | acquire origin context expr create info => do
      let _ ← VariableMaps.acquire origin context expr create info
  | release a deleted => VariableMaps.release a deleted
  | initChilds a listed => VariableMaps.initChilds a listed
  | getChanged update => VariableMaps.getChanged update

/-- An operation that ends, with an error or without. -/
def Step (s : State) (op : Op) (t : State) : Prop := ∃ r, exec op.call s = some (r, t)

/-- Each entry of `gdb_var_lst` is a variable in memory with that name; the maps for the origins
hold the variables in memory that have the origin and no parent, which `gdb_var_lst` holds as well;
and children are in memory and in `gdb_var_lst`, and have their parent. -/
structure Consistent (s : State) : Prop where
  keyed : ∀ n a, s.varLst.lookup n = some a → ∃ v, s.heap.lookup a = some v ∧ v.var.name = some n
  roots : ∀ o a v, s.heap.lookup a = some v → v.origin = o → v.parent = none →
    ∃ n, v.var.name = some n ∧ (s.vars o).lookup n = some a
  vars : ∀ o n a, (s.vars o).lookup n = some a → s.varLst.lookup n = some a ∧
    ∃ v, s.heap.lookup a = some v ∧ v.origin = o ∧ v.parent = none
  childs : ∀ a v c, s.heap.lookup a = some v → c ∈ v.childs →
    ∃ w n, s.heap.lookup c = some w ∧ w.parent = some a ∧ w.var.name = some n ∧
      s.varLst.lookup n = some c

/-- The variable has no parent, or it is not deleted when it is released. -/
def Spared (s : State) (a : Nat) (deleted : Bool) : Prop :=
  ∀ v, s.heap.lookup a = some v → v.parent ≠ none → v.refcnt = 1 → deleted = false

/-- The entry deletes no child. -/
def ChangeSpares (s : State) (c : Change) : Prop :=
  c.entry.inscope = 'i' → ∀ name a, c.entry.name = some name → s.varLst.lookup name = some a →
    Spared s a c.deleted

/-- No entry deletes a child, one after the other. -/
def ChangesSpare : List Change → State → Prop
  | [], _ => True
  | c :: cl, s => ChangeSpares s c ∧ ∀ t, exec (change c) s = some (.ok (), t) → ChangesSpare cl t

/-- No child is released for the last time. -/
def Spares (s : State) : Op → Prop
  | .release a deleted => Spared s a deleted
  | .getChanged (some cl) => ChangesSpare cl s
  | _ => True

/-! ## The invariant -/

/-- What names have to do with variables. -/
structure Names (s : State) : Prop where
  keyed : ∀ n a, s.varLst.lookup n = some a → ∃ v, s.heap.lookup a = some v ∧ v.var.name = some n
  listed : ∀ a v, s.heap.lookup a = some v → ∃ n, v.var.name = some n ∧ s.varLst.lookup n = some a
  origin : ∀ a v, s.heap.lookup a = some v → v.origin ≠ .unknown
  vars : ∀ o n a, (s.vars o).lookup n = some a ↔
    ∃ v, s.heap.lookup a = some v ∧ v.origin = o ∧ v.parent = none ∧ v.var.name = some n
  below : ∀ a v, s.heap.lookup a = some v → a < s.next

/-- The invariant, while the variables `P` are to be deleted. -/
structure Inv (P : List Nat) (s : State) : Prop where
  linked : Linked Object.parent Object.childs P s.heap
  names : Names s

theorem inv_init : Inv [] State.init where
  linked := linked_empty
  names := by
    constructor
    · intro n a h
      cases h
    · intro a v h
      cases h
    · intro a v h
      cases h
    · intro o n a
      constructor
      · intro h
        cases h
      · rintro ⟨v, hv, -⟩
        cases hv
    · intro a v h
      cases h

theorem Inv.consistent {s : State} (h : Inv [] s) : Consistent s where
  keyed := h.names.keyed
  roots o a v ha ho hp := by
    obtain ⟨n, hn, -⟩ := h.names.listed a v ha
    exact ⟨n, hn, (h.names.vars o n a).mpr ⟨v, ha, ho, hp, hn⟩⟩
  vars o n a hn := by
    obtain ⟨v, ha, ho, hp, hname⟩ := (h.names.vars o n a).mp hn
    obtain ⟨m, hm, hlst⟩ := h.names.listed a v ha
    rw [hname, Option.some.injEq] at hm
    exact ⟨hm ▸ hlst, v, ha, ho, hp⟩
  childs a v c ha hc := by
    obtain ⟨w, hw, hpw⟩ := h.linked.child a v c ha hc
    obtain ⟨n, hn, hlst⟩ := h.names.listed c w hw
    exact ⟨w, n, hw, hpw, hn, hlst⟩

/-- Two variables in memory have different names. -/
theorem Names.inj {s : State} (h : Names s) {a b : Nat} {v w : Object}
    (ha : s.heap.lookup a = some v) (hb : s.heap.lookup b = some w)
    (heq : v.var.name = w.var.name) :
    a = b := by
  obtain ⟨n, hn, hna⟩ := h.listed a v ha
  obtain ⟨m, hm, hmb⟩ := h.listed b w hb
  rw [hn, hm, Option.some.injEq] at heq
  rw [heq, hmb, Option.some.injEq] at hna
  exact hna.symm

/-! ## Deletion -/

theorem post_deref {s : State} {a : Nat} {Q : Object → State → Prop} {E : Unit → State → Prop}
    (h : ∀ v, s.heap.lookup a = some v → Q v s) : Post (deref a) Q E s := by
  unfold deref
  rw [post_bind, post_get]
  split
  · exact post_undefined
  · rename_i v hv
    exact post_pure.mpr (h v hv)

/-- The destructor. -/
theorem free_spec {s : State} {a : Nat} {Q : Object → State → Prop} {E : Unit → State → Prop}
    (h : ∀ v, s.heap.lookup a = some v → Q v ({ s with heap := s.heap.erase a }.unlist v)) :
    Post (free a) Q E s := by
  unfold free
  rw [post_bind]
  refine post_deref fun v hv => ?_
  rw [post_bind, post_modify, post_pure]
  exact h v hv

/-- What each deletion keeps, of the state and of the variables that are still to be deleted. -/
theorem deleteAll_spec {K : List Nat → State → Prop} {fuel : Nat} {as : List Nat} {s : State}
    {E : Unit → State → Prop} (h : K as s)
    (hfree : ∀ s a as v, K (a :: as) s → s.heap.lookup a = some v →
      K (v.childs ++ as) ({ s with heap := s.heap.erase a }.unlist v)) :
    Post (deleteAll fuel as) (fun _ => K []) E s := by
  induction fuel generalizing as s with
  | zero =>
      cases as with
      | nil => exact post_pure.mpr h
      | cons a as => exact post_undefined
  | succ fuel ih =>
      cases as with
      | nil => exact post_pure.mpr h
      | cons a as =>
          rw [deleteAll, post_bind]
          exact free_spec fun v hv => ih (hfree s a as v h hv)

/-- The destructor removes the variable, and no other one, from the maps. -/
theorem Names.free {s : State} (h : Names s) {a : Nat} {v : Object}
    (ha : s.heap.lookup a = some v) :
    Names ({ s with heap := s.heap.erase a }.unlist v) := by
  obtain ⟨n, hn, hna⟩ := h.listed a v ha
  have hunlist : { s with heap := s.heap.erase a }.unlist v =
      { s with
        heap := s.heap.erase a
        varLst := s.varLst.erase n
        vars := Function.update s.vars v.origin ((s.vars v.origin).erase n) } := by
    unfold State.unlist
    rw [hn]
    exact if_neg (h.origin a v ha)
  -- another variable has another name
  have hother : ∀ b u m, s.heap.lookup b = some u → u.var.name = some m → (b ≠ a ↔ m ≠ n) := by
    intro b u m hb hm
    rw [not_iff_not]
    constructor
    · rintro rfl
      rw [ha, Option.some.injEq] at hb
      rw [hb, hm, Option.some.injEq] at hn
      exact hn
    · rintro rfl
      exact h.inj hb ha (hm.trans hn.symm)
  rw [hunlist]
  constructor
  · intro m b hm
    obtain ⟨hne, hm⟩ := lookup_erase_eq_some.mp hm
    obtain ⟨u, hu, hname⟩ := h.keyed m b hm
    exact ⟨u, lookup_erase_eq_some.mpr ⟨(hother b u m hu hname).mpr hne, hu⟩, hname⟩
  · intro b u hb
    obtain ⟨hne, hb⟩ := lookup_erase_eq_some.mp hb
    obtain ⟨m, hm, hmb⟩ := h.listed b u hb
    exact ⟨m, hm, lookup_erase_eq_some.mpr ⟨(hother b u m hb hm).mp hne, hmb⟩⟩
  · intro b u hb
    exact h.origin b u (lookup_erase_eq_some.mp hb).2
  · intro o m b
    have hvars : (Function.update s.vars v.origin ((s.vars v.origin).erase n) o).lookup m = some b ↔
        m ≠ n ∧ (s.vars o).lookup m = some b := by
      by_cases ho : o = v.origin
      · rw [ho, Function.update_self, lookup_erase_eq_some]
      · rw [Function.update_of_ne ho, iff_and_self]
        rintro hmb rfl
        obtain ⟨u, hu, huo, -, hname⟩ := (h.vars o m b).mp hmb
        obtain rfl := h.inj hu ha (hname.trans hn.symm)
        rw [ha, Option.some.injEq] at hu
        exact ho (hu ▸ huo.symm)
    rw [hvars, h.vars]
    constructor
    · rintro ⟨hne, u, hu, huo, hup, hname⟩
      exact ⟨u, lookup_erase_eq_some.mpr ⟨(hother b u m hu hname).mpr hne, hu⟩, huo, hup, hname⟩
    · rintro ⟨u, hu, huo, hup, hname⟩
      obtain ⟨hne, hu⟩ := lookup_erase_eq_some.mp hu
      exact ⟨(hother b u m hu hname).mp hne, u, hu, huo, hup, hname⟩
  · intro b u hb
    exact h.below b u (lookup_erase_eq_some.mp hb).2

theorem unlist_heap (s : State) (v : Object) : (s.unlist v).heap = s.heap := by
  unfold State.unlist
  split
  · rfl
  · split <;> rfl

/-- A variable is deleted, and its children are to follow. -/
theorem Inv.free {s : State} {a : Nat} {P : List Nat} {v : Object} (h : Inv (a :: P) s)
    (ha : s.heap.lookup a = some v) :
    Inv (v.childs ++ P) ({ s with heap := s.heap.erase a }.unlist v) := by
  refine ⟨?_, h.names.free ha⟩
  rw [unlist_heap]
  exact h.linked.erase ha

/-- All are deleted.  What is older than them stays as it is. -/
theorem post_deleteAll {fuel : Nat} {P : List Nat} {s : State} (h : Inv P s)
    {E : Unit → State → Prop} :
    Post (deleteAll fuel P) (fun _ t => Inv [] t ∧
      ∀ a, (∀ c ∈ P, a < c) → t.heap.lookup a = s.heap.lookup a) E s := by
  have hall : Post (deleteAll fuel P) (fun _ t => Inv [] t ∧ ∀ a, (∀ c ∈ P, a < c) →
      (∀ c ∈ [], a < c) ∧ t.heap.lookup a = s.heap.lookup a) E s := by
    refine @deleteAll_spec (fun rest t => Inv rest t ∧ ∀ a, (∀ c ∈ P, a < c) →
      (∀ c ∈ rest, a < c) ∧ t.heap.lookup a = s.heap.lookup a) _ _ _ _
      ⟨h, fun a ha => ⟨ha, rfl⟩⟩ ?_
    rintro t b as v ⟨hinv, hold⟩ hb
    refine ⟨hinv.free hb, fun a ha => ?_⟩
    obtain ⟨hrest, hsame⟩ := hold a ha
    have hab := hrest b List.mem_cons_self
    refine ⟨fun c hc => ?_, ?_⟩
    · -- the children of `b` are newer than `b`
      rcases List.mem_append.mp hc with hc | hc
      · obtain ⟨w, hw, hpw⟩ := hinv.linked.child b v c hb hc
        exact hab.trans (hinv.linked.older c w b hw hpw)
      · exact hrest c (List.mem_cons_of_mem _ hc)
    · rw [unlist_heap, ← hsame]
      exact AList.lookup_erase_ne (Nat.ne_of_lt hab)
  exact hall.mono (fun _ t ht => ⟨ht.1, fun a ha => (ht.2 a ha).2⟩) fun _ _ hE => hE

theorem post_delete {P : List Nat} {s : State} (h : Inv P s) {E : Unit → State → Prop} :
    Post (delete P) (fun _ t => Inv [] t ∧
      ∀ a, (∀ c ∈ P, a < c) → t.heap.lookup a = s.heap.lookup a) E s := by
  unfold delete
  rw [post_bind, post_get]
  exact post_deleteAll h

/-! ## Changes of a variable -/

/-- The variable keeps its name, origin and parent. -/
theorem Names.setObject {s : State} (h : Names s) {a : Nat} {v v' : Object}
    (ha : s.heap.lookup a = some v) (hname : v'.var.name = v.var.name)
    (horigin : v'.origin = v.origin) (hparent : v'.parent = v.parent) :
    Names (s.setObject a v') := by
  have hold : ∀ b u, (s.setObject a v').heap.lookup b = some u → ∃ u₀, s.heap.lookup b = some u₀ ∧
      u.var.name = u₀.var.name ∧ u.origin = u₀.origin ∧ u.parent = u₀.parent := by
    intro b u hb
    rcases lookup_insert_eq_some.mp hb with ⟨rfl, rfl⟩ | ⟨-, hb⟩
    · exact ⟨v, ha, hname, horigin, hparent⟩
    · exact ⟨u, hb, rfl, rfl, rfl⟩
  have hnew : ∀ b u₀, s.heap.lookup b = some u₀ → ∃ u, (s.setObject a v').heap.lookup b = some u ∧
      u.var.name = u₀.var.name ∧ u.origin = u₀.origin ∧ u.parent = u₀.parent := by
    intro b u₀ hb
    by_cases hba : b = a
    · subst hba
      rw [ha, Option.some.injEq] at hb
      exact ⟨v', AList.lookup_insert _, hb ▸ hname, hb ▸ horigin, hb ▸ hparent⟩
    · exact ⟨u₀, lookup_insert_eq_some.mpr (Or.inr ⟨hba, hb⟩), rfl, rfl, rfl⟩
  constructor
  · intro n b hn
    obtain ⟨u₀, hu₀, hname₀⟩ := h.keyed n b hn
    obtain ⟨u, hu, hnameu, -⟩ := hnew b u₀ hu₀
    exact ⟨u, hu, hnameu.trans hname₀⟩
  · intro b u hb
    obtain ⟨u₀, hu₀, hnameu, -⟩ := hold b u hb
    rw [hnameu]
    exact h.listed b u₀ hu₀
  · intro b u hb
    obtain ⟨u₀, hu₀, -, horiginu, -⟩ := hold b u hb
    rw [horiginu]
    exact h.origin b u₀ hu₀
  · intro o n b
    refine (h.vars o n b).trans ⟨?_, ?_⟩
    · rintro ⟨u₀, hu₀, ho, hp, hn⟩
      obtain ⟨u, hu, hnameu, horiginu, hparentu⟩ := hnew b u₀ hu₀
      exact ⟨u, hu, horiginu.trans ho, hparentu.trans hp, hnameu.trans hn⟩
    · rintro ⟨u, hu, ho, hp, hn⟩
      obtain ⟨u₀, hu₀, hnameu, horiginu, hparentu⟩ := hold b u hu
      exact ⟨u₀, hu₀, horiginu.symm.trans ho, hparentu.symm.trans hp, hnameu.symm.trans hn⟩
  · intro b u hb
    obtain ⟨u₀, hu₀, -⟩ := hold b u hb
    exact h.below b u₀ hu₀

/-- A variable changes, but not its place. -/
theorem Inv.setObject {P : List Nat} {s : State} (h : Inv P s) {a : Nat} {v v' : Object}
    (ha : s.heap.lookup a = some v) (hname : v'.var.name = v.var.name)
    (horigin : v'.origin = v.origin) (hparent : v'.parent = v.parent)
    (hchilds : v'.childs = v.childs) : Inv P (s.setObject a v') :=
  ⟨h.linked.update ha hparent hchilds, h.names.setObject ha hname horigin hparent⟩

/-- The variable, if there is one, has the parent and the references that `v` has. -/
def Held (a : Nat) (v : Object) (s : State) : Prop :=
  ∀ w, s.heap.lookup a = some w → w.parent = v.parent ∧ w.refcnt = v.refcnt

theorem post_eraseChilds {a : Nat} {v : Object} {s : State} (h : Inv [] s) (hheld : Held a v s)
    {E : Unit → State → Prop} : Post (eraseChilds a) (fun _ t => Inv [] t ∧ Held a v t) E s := by
  unfold eraseChilds
  rw [post_bind]
  refine post_deref fun u hu => ?_
  rw [post_bind, post_modify]
  have hdetach : Inv u.childs (s.setObject a { u with childs := [] }) :=
    ⟨h.linked.detach hu rfl rfl, h.names.setObject hu rfl rfl rfl⟩
  refine (post_delete hdetach).mono (fun _ t ht => ⟨ht.1, fun w hw => ?_⟩) fun _ _ hE => hE
  have hnewer : ∀ c ∈ u.childs, a < c := by
    intro c hc
    obtain ⟨x, hx, hpx⟩ := h.linked.child a u c hu hc
    exact h.linked.older c x a hx hpx
  rw [ht.2 a hnewer] at hw
  rcases lookup_insert_eq_some.mp hw with ⟨-, rfl⟩ | ⟨hne, -⟩
  · exact hheld u hu
  · exact absurd rfl hne

/-! ## New variables -/

theorem unused_iff {s : State} {name : CStr} :
    s.unused name = true ↔ ∀ a v, s.heap.lookup a = some v → v.var.name ≠ some name := by
  unfold State.unused
  rw [List.all_eq_true]
  constructor
  · intro h a v ha
    simpa using h ⟨a, v⟩ (AList.mem_lookup_iff.mp ha)
  · rintro h ⟨a, v⟩ hmem
    simpa using h a v (AList.mem_lookup_iff.mpr hmem)

theorem Names.next_free {s : State} (h : Names s) : s.heap.lookup s.next = none := by
  by_contra hne
  obtain ⟨v, hv⟩ := Option.ne_none_iff_exists'.mp hne
  exact absurd (h.below _ v hv) (Nat.lt_irrefl _)

/-- A variable with a new name and a new address is entered. -/
theorem Names.addRoot {s : State} (h : Names s) {name : CStr} {v : Variable} {origin : Origin}
    (hname : v.name = some name) (horigin : origin ≠ .unknown) (hunused : s.unused name = true) :
    Names (s.addRoot name v origin) := by
  have hlookup : ∀ {b u}, (s.addRoot name v origin).heap.lookup b = some u ↔
      b = s.next ∧ { var := v, origin } = u ∨ b ≠ s.next ∧ s.heap.lookup b = some u :=
    lookup_insert_eq_some
  have hold : ∀ b u, s.heap.lookup b = some u → b ≠ s.next ∧ u.var.name ≠ some name := fun b u hb =>
    ⟨Nat.ne_of_lt (h.below b u hb), unused_iff.mp hunused b u hb⟩
  constructor
  · intro n b hn
    rcases lookup_insert_eq_some.mp hn with ⟨rfl, rfl⟩ | ⟨-, hn⟩
    · exact ⟨_, hlookup.mpr (Or.inl ⟨rfl, rfl⟩), hname⟩
    · obtain ⟨u, hu, hun⟩ := h.keyed n b hn
      exact ⟨u, hlookup.mpr (Or.inr ⟨(hold b u hu).1, hu⟩), hun⟩
  · intro b u hb
    rcases hlookup.mp hb with ⟨rfl, rfl⟩ | ⟨-, hb⟩
    · exact ⟨name, hname, AList.lookup_insert _⟩
    · obtain ⟨n, hn, hnb⟩ := h.listed b u hb
      refine ⟨n, hn, lookup_insert_eq_some.mpr (Or.inr ⟨fun heq => ?_, hnb⟩)⟩
      exact (hold b u hb).2 (heq ▸ hn)
  · intro b u hb
    rcases hlookup.mp hb with ⟨rfl, rfl⟩ | ⟨-, hb⟩
    · exact horigin
    · exact h.origin b u hb
  · intro o n b
    have hvars : ((s.addRoot name v origin).vars o).lookup n = some b ↔
        (o = origin ∧ n = name ∧ b = s.next) ∨ (s.vars o).lookup n = some b := by
      show (Function.update s.vars origin ((s.vars origin).insert name s.next) o).lookup n =
        some b ↔ _
      by_cases ho : o = origin
      · subst ho
        rw [Function.update_self, lookup_insert_eq_some]
        constructor
        · rintro (⟨rfl, rfl⟩ | ⟨-, hn⟩)
          · exact Or.inl ⟨rfl, rfl, rfl⟩
          · exact Or.inr hn
        · rintro (⟨-, rfl, rfl⟩ | hn)
          · exact Or.inl ⟨rfl, rfl⟩
          · refine Or.inr ⟨?_, hn⟩
            rintro rfl
            obtain ⟨u, hu, -, -, hun⟩ := (h.vars o n b).mp hn
            exact (hold b u hu).2 hun
      · rw [Function.update_of_ne ho]
        simp [ho]
    rw [hvars, h.vars]
    constructor
    · rintro (⟨rfl, rfl, rfl⟩ | ⟨u, hu, huo, hup, hun⟩)
      · exact ⟨_, hlookup.mpr (Or.inl ⟨rfl, rfl⟩), rfl, rfl, hname⟩
      · exact ⟨u, hlookup.mpr (Or.inr ⟨(hold b u hu).1, hu⟩), huo, hup, hun⟩
    · rintro ⟨u, hu, huo, hup, hun⟩
      rcases hlookup.mp hu with ⟨rfl, rfl⟩ | ⟨-, hu⟩
      · rw [hname, Option.some.injEq] at hun
        exact Or.inl ⟨huo.symm, hun.symm, rfl⟩
      · exact Or.inr ⟨u, hu, huo, hup, hun⟩
  · intro b u hb
    rcases hlookup.mp hb with ⟨rfl, rfl⟩ | ⟨-, hb⟩
    · exact Nat.lt_succ_self _
    · exact Nat.lt_succ_of_lt (h.below b u hb)

/-- A child with a new name and a new address is entered. -/
theorem Names.addChild {s : State} (h : Names s) {a : Nat} {p : Object} {name : CStr} {c : Variable}
    (ha : s.heap.lookup a = some p) (hname : c.name = some name) (hunused : s.unused name = true) :
    Names (s.addChild a p name c) := by
  -- the parent changes only in its children
  have hset : Names (s.setObject a { p with childs := p.childs ++ [s.next] }) :=
    h.setObject ha rfl rfl rfl
  have hne : s.next ≠ a := Nat.ne_of_gt (h.below a p ha)
  have hlookup : ∀ {b u}, (s.addChild a p name c).heap.lookup b = some u ↔
      b = s.next ∧ { var := c, origin := p.origin, parent := some a } = u ∨
        b ≠ s.next ∧
          (s.setObject a { p with childs := p.childs ++ [s.next] }).heap.lookup b = some u := by
    intro b u
    show ((s.heap.insert s.next _).insert a _).lookup b = some u ↔
      _ ∨ _ ∧ (s.heap.insert a _).lookup b = some u
    rw [lookup_insert_eq_some, lookup_insert_eq_some, lookup_insert_eq_some]
    constructor
    · rintro (⟨rfl, rfl⟩ | ⟨hba, ⟨rfl, rfl⟩ | ⟨hbn, hb⟩⟩)
      · exact Or.inr ⟨hne.symm, Or.inl ⟨rfl, rfl⟩⟩
      · exact Or.inl ⟨rfl, rfl⟩
      · exact Or.inr ⟨hbn, Or.inr ⟨hba, hb⟩⟩
    · rintro (⟨rfl, rfl⟩ | ⟨hbn, ⟨rfl, rfl⟩ | ⟨hba, hb⟩⟩)
      · exact Or.inr ⟨hne, Or.inl ⟨rfl, rfl⟩⟩
      · exact Or.inl ⟨rfl, rfl⟩
      · exact Or.inr ⟨hba, Or.inr ⟨hbn, hb⟩⟩
  have hfresh : ∀ b u, s.heap.lookup b = some u → u.var.name ≠ some name := unused_iff.mp hunused
  have hold : ∀ b u,
      (s.setObject a { p with childs := p.childs ++ [s.next] }).heap.lookup b = some u →
        b ≠ s.next ∧ u.var.name ≠ some name := by
    intro b u hb
    refine ⟨Nat.ne_of_lt (hset.below b u hb), ?_⟩
    rcases lookup_insert_eq_some.mp hb with ⟨rfl, rfl⟩ | ⟨-, hb⟩
    · exact hfresh b p ha
    · exact hfresh b u hb
  constructor
  · intro n b hn
    rcases lookup_insert_eq_some.mp hn with ⟨rfl, rfl⟩ | ⟨-, hn⟩
    · exact ⟨_, hlookup.mpr (Or.inl ⟨rfl, rfl⟩), hname⟩
    · obtain ⟨u, hu, hun⟩ := hset.keyed n b hn
      exact ⟨u, hlookup.mpr (Or.inr ⟨(hold b u hu).1, hu⟩), hun⟩
  · intro b u hb
    rcases hlookup.mp hb with ⟨rfl, rfl⟩ | ⟨-, hb⟩
    · exact ⟨name, hname, AList.lookup_insert _⟩
    · obtain ⟨n, hn, hnb⟩ := hset.listed b u hb
      refine ⟨n, hn, lookup_insert_eq_some.mpr (Or.inr ⟨fun heq => ?_, hnb⟩)⟩
      exact (hold b u hb).2 (heq ▸ hn)
  · intro b u hb
    rcases hlookup.mp hb with ⟨rfl, rfl⟩ | ⟨-, hb⟩
    · exact h.origin a p ha
    · exact hset.origin b u hb
  · intro o n b
    refine (hset.vars o n b).trans ⟨?_, ?_⟩
    · rintro ⟨u, hu, huo, hup, hun⟩
      exact ⟨u, hlookup.mpr (Or.inr ⟨(hold b u hu).1, hu⟩), huo, hup, hun⟩
    · rintro ⟨u, hu, huo, hup, hun⟩
      rcases hlookup.mp hu with ⟨rfl, rfl⟩ | ⟨-, hu⟩
      · cases hup
      · exact ⟨u, hu, huo, hup, hun⟩
  · intro b u hb
    rcases hlookup.mp hb with ⟨rfl, rfl⟩ | ⟨-, hb⟩
    · exact Nat.lt_succ_self _
    · exact Nat.lt_succ_of_lt (hset.below b u hb)

/-! ## The operations -/

/-- `acquire` fails in front of the creation of a variable, references a variable that is known, or
creates one, of which gdb may refuse to give the expression. -/
theorem acquire_spec {origin : Origin} {context expr : CStr} {create info : Option Variable}
    {s : State} {Q : Nat → State → Prop} {E : Unit → State → Prop}
    (hfails : origin = .unknown ∨
      s.varLst.lookup (key origin context expr) = none ∧ create = none → E () s)
    (hknown : origin ≠ .unknown → ∀ a v, s.varLst.lookup (key origin context expr) = some a →
      s.heap.lookup a = some v → Q a (s.setObject a { v with refcnt := v.refcnt + 1 }))
    (hnew : origin ≠ .unknown → s.varLst.lookup (key origin context expr) = none →
      ∀ v, create = some v → v.name = some (key origin context expr) →
        s.unused (key origin context expr) = true →
          (info = none → E () (s.addRoot (key origin context expr) v origin)) ∧
          ∀ i, info = some i → Q s.next ((s.addRoot (key origin context expr) v origin).setObject
            s.next { var := { v with exp := i.exp }, origin })) :
    Post (acquire origin context expr create info) Q E s := by
  unfold acquire
  split
  · next horigin => exact post_throw.mpr (hfails (Or.inl horigin))
  · next horigin =>
    extract_lets name
    rw [post_bind, post_get]
    split
    · next a ha =>
      rw [post_bind]
      refine post_deref fun v hv => ?_
      rw [post_bind, post_modify, post_pure]
      exact hknown horigin a v ha hv
    · next hnone =>
      split
      · exact post_throw.mpr (hfails (Or.inr ⟨hnone, rfl⟩))
      · rename_i v
        rw [post_bind, post_assume]
        intro hname
        rw [post_bind, post_get, post_bind, post_assume]
        intro hunused
        obtain ⟨hrefused, hcreated⟩ := hnew horigin hnone v rfl (of_decide_eq_true hname) hunused
        rw [post_bind, post_get]
        extract_lets a
        rw [post_bind, post_modify]
        split
        · exact post_throw.mpr (hrefused rfl)
        · rename_i i
          rw [post_bind]
          refine post_deref fun u hu => ?_
          obtain rfl := Option.some.inj ((AList.lookup_insert _).symm.trans hu)
          rw [post_bind, post_modify, post_pure]
          exact hcreated i rfl

/-- A child is entered under a new name. -/
theorem addChild_spec {a : Nat} {c : Variable} {s : State} {Q : Unit → State → Prop}
    {E : Unit → State → Prop}
    (h : ∀ p name, s.heap.lookup a = some p → c.name = some name → s.unused name = true →
      Q () (s.addChild a p name c)) : Post (addChild a c) Q E s := by
  unfold addChild
  rw [post_bind]
  refine post_deref fun p hp => ?_
  split
  · exact post_undefined
  · next name hname =>
    rw [post_bind, post_get, post_bind, post_assume]
    intro hunused
    rw [post_modify]
    exact h p name hp hname hunused

/-- `init_childs` keeps what each child keeps. -/
theorem keeps_initChilds_of {I : State → Prop} {a : Nat} (h : ∀ c, Keeps I (addChild a c))
    (listed : Option (List Variable)) : Keeps I (initChilds a listed) := by
  intro s hs
  unfold initChilds
  rw [post_bind]
  refine post_deref fun v hv => ?_
  split
  · exact post_pure.mpr hs
  · split
    · exact post_throw.mpr hs
    · next cs => exact keeps_forM h cs s hs

theorem Inv.addRoot {s : State} (h : Inv [] s) {name : CStr} {v : Variable} {origin : Origin}
    (hname : v.name = some name) (horigin : origin ≠ .unknown) (hunused : s.unused name = true) :
    Inv [] (s.addRoot name v origin) :=
  ⟨h.linked.addRoot h.names.next_free rfl rfl, h.names.addRoot hname horigin hunused⟩

theorem keeps_acquire (origin : Origin) (context expr : CStr) (create info : Option Variable) :
    Keeps (Inv []) (acquire origin context expr create info) := by
  intro s hs
  refine acquire_spec (fun _ => hs) (fun _ a v _ hv => ?_) fun horigin _ v _ hname hunused => ?_
  · exact hs.setObject hv rfl rfl rfl rfl
  · have hnew := hs.addRoot hname horigin hunused
    exact ⟨fun _ => hnew, fun i _ => hnew.setObject (AList.lookup_insert _) rfl rfl rfl rfl⟩

theorem post_addChild {a : Nat} {c : Variable} {s : State} (h : Inv [] s)
    {E : Unit → State → Prop} :
    Post (addChild a c) (fun _ t => Inv [] t ∧ ∀ v, Held a v s → Held a v t) E s := by
  refine addChild_spec fun p name hp hname hunused => ?_
  refine ⟨⟨?_, h.names.addChild hp hname hunused⟩, fun v hheld w hw => ?_⟩
  · exact h.linked.addChild hp h.names.next_free (h.names.below a p hp) rfl rfl rfl rfl
  · rcases lookup_insert_eq_some.mp hw with ⟨-, rfl⟩ | ⟨hne, -⟩
    · exact hheld p hp
    · exact absurd rfl hne

/-- The children are entered; the variable keeps its parent and its references. -/
theorem keeps_initChilds (a : Nat) (v : Object) (listed : Option (List Variable)) :
    Keeps (fun s => Inv [] s ∧ Held a v s) (initChilds a listed) := by
  refine keeps_initChilds_of (fun c s hs => ?_) listed
  exact (post_addChild hs.1).mono (fun _ _ ht => ⟨ht.1, ht.2 v hs.2⟩) fun _ _ hE => hE

theorem post_initChilds {a : Nat} {listed : Option (List Variable)} {s : State} (h : Inv [] s) :
    Post (initChilds a listed) (fun _ => Inv []) (fun _ => Inv []) s := by
  refine keeps_initChilds_of (fun c t ht => ?_) listed s h
  exact (post_addChild ht).mono (fun _ _ hu => hu.1) fun _ _ hE => hE

/-- A reference is dropped.  With the last one the variable is deleted, unless gdb refuses to delete
the object of a variable that is listed. -/
theorem release_spec {a : Nat} {deleted : Bool} {s : State} {Q : Unit → State → Prop}
    {E : Unit → State → Prop}
    (hrefused : ∀ v, s.heap.lookup a = some v → v.refcnt = 1 → s.isListed v = true →
      deleted = false → E () (s.setObject a { v with refcnt := v.refcnt - 1 }))
    (hlast : ∀ v, s.heap.lookup a = some v → v.refcnt = 1 → (s.isListed v = true → deleted = true) →
      Post (delete [a]) Q E (s.setObject a { v with refcnt := v.refcnt - 1 }))
    (hmore : ∀ v, s.heap.lookup a = some v → v.refcnt ≠ 1 →
      Q () (s.setObject a { v with refcnt := v.refcnt - 1 })) :
    Post (release a deleted) Q E s := by
  unfold release
  rw [post_bind]
  refine post_deref fun v hv => ?_
  rw [post_bind, post_modify]
  have hone : v.refcnt - 1 = 0 ↔ v.refcnt = 1 := by
    rw [BitVec.sub_eq_iff_eq_add]
    simp
  -- the counter does not matter to whether it is listed
  have hlisted : (s.setObject a { v with refcnt := v.refcnt - 1 }).isListed v = s.isListed v := rfl
  split
  · next hzero =>
    rw [post_bind, post_get, hlisted]
    split
    · next hboth =>
      rw [Bool.and_eq_true, Bool.not_eq_true'] at hboth
      exact post_throw.mpr (hrefused v hv (hone.mp hzero) hboth.1 hboth.2)
    · next hnot =>
      refine hlast v hv (hone.mp hzero) fun hyes => ?_
      rw [hyes] at hnot
      simpa using hnot
  · next hnonzero => exact post_pure.mpr (hmore v hv (mt hone.mpr hnonzero))

/-- A variable that has no parent, or is not deleted, is released. -/
theorem post_release {a : Nat} {deleted : Bool} {s : State} (h : Inv [] s)
    (hspared : Spared s a deleted) :
    Post (release a deleted) (fun _ => Inv []) (fun _ => Inv []) s := by
  have hset : ∀ v, s.heap.lookup a = some v →
      Inv [] (s.setObject a { v with refcnt := v.refcnt - 1 }) := fun v hv =>
    h.setObject hv rfl rfl rfl rfl
  refine release_spec (fun v hv _ _ _ => hset v hv) (fun v hv hone hdeleted => ?_)
    fun v hv _ => hset v hv
  -- it is deleted, so it has no parent
  have hroot : v.parent = none := by
    by_contra hparent
    obtain ⟨n, hn, hlst⟩ := h.names.listed a v hv
    have hlisted : s.isListed v = true := by
      unfold State.isListed
      rw [hn]
      show Option.isSome (s.varLst.lookup n) = true
      rw [hlst]
      rfl
    rw [hspared v hv hparent hone] at hdeleted
    cases hdeleted hlisted
  have hroots : Inv [a] (s.setObject a { v with refcnt := v.refcnt - 1 }) :=
    ⟨(hset v hv).linked.root (AList.lookup_insert _) hroot, (hset v hv).names⟩
  exact (post_delete hroots).mono (fun _ _ ht => ht.1) fun _ _ hE => hE

theorem reported_name (e : Variable) (visible : Bool) (v : Variable) :
    (reported e visible v).name = v.name := by
  unfold reported
  split <;> split <;> rfl

theorem post_shown {p : Option Nat} {s : State} {Q : Bool → State → Prop}
    {E : Unit → State → Prop} (h : ∀ visible, Q visible s) : Post (shown p) Q E s := by
  unfold shown
  split
  · exact post_pure.mpr (h true)
  · rw [post_bind]
    refine post_deref fun q hq => ?_
    exact post_pure.mpr (h _)

/-- An entry for a variable that is known changes it; then its children and its references follow. -/
theorem change_spec {c : Change} {s : State} {Q : Unit → State → Prop} {E : Unit → State → Prop}
    (hunknown : ∀ name, c.entry.name = some name → s.varLst.lookup name = none → Q () s)
    (hknown : ∀ name a v visible, c.entry.name = some name → s.varLst.lookup name = some a →
      s.heap.lookup a = some v →
        Post (onlyIf (c.entry.typeChanged = some true) (eraseChilds a >>= fun _ =>
          attempt (initChilds a c.childs)) >>= fun _ =>
            onlyIf (c.entry.inscope = 'i') (release a c.deleted)) Q E
          (s.setObject a { v with var := reported c.entry visible v.var })) :
    Post (change c) Q E s := by
  unfold change
  split
  · exact post_undefined
  · next name hname =>
    rw [post_bind, post_get]
    split
    · next hnone => exact post_pure.mpr (hunknown name hname hnone)
    · next a ha =>
      rw [post_bind]
      refine post_deref fun v hv => ?_
      rw [post_bind]
      refine post_shown fun visible => ?_
      rw [post_bind, post_modify]
      exact hknown name a v visible hname ha hv

/-- An entry that deletes no child. -/
theorem post_change {c : Change} {s : State} (h : Inv [] s) (hspares : ChangeSpares s c) :
    Post (change c) (fun _ => Inv []) (fun _ => Inv []) s := by
  refine change_spec (fun _ _ _ => h) fun name a v visible hname ha hv => ?_
  have hset : Inv [] (s.setObject a { v with var := reported c.entry visible v.var }) :=
    h.setObject hv (reported_name _ _ _) rfl rfl rfl
  have hheld : Held a v (s.setObject a { v with var := reported c.entry visible v.var }) := by
    intro w hw
    rcases lookup_insert_eq_some.mp hw with ⟨-, rfl⟩ | ⟨hne, -⟩
    · exact ⟨rfl, rfl⟩
    · exact absurd rfl hne
  -- whether or not the type has changed, the variable is still what it was for `release`
  have hrelease : ∀ t, Inv [] t ∧ Held a v t →
      Post (onlyIf (c.entry.inscope = 'i') (release a c.deleted)) (fun _ => Inv [])
        (fun _ => Inv []) t := by
    rintro t ⟨ht, htheld⟩
    rw [post_onlyIf]
    split
    · rename_i hscope
      refine post_release ht fun w hw hparent hone => ?_
      obtain ⟨hwparent, hwone⟩ := htheld w hw
      exact hspares (by simpa using hscope) name a hname ha v hv (hwparent ▸ hparent)
        (hwone ▸ hone)
    · exact ht
  rw [post_bind, post_onlyIf]
  split
  · rw [post_bind]
    refine (post_eraseChilds hset hheld).mono (fun _ t ht => ?_) fun _ _ hE => hE
    exact ((keeps_initChilds a v c.childs).noError ht).mono (fun _ u hu => hrelease u hu)
      fun _ _ hE => hE
  · exact hrelease _ ⟨hset, hheld⟩

theorem post_forM_change {cl : List Change} {s : State} (h : Inv [] s)
    (hspare : ChangesSpare cl s) :
    Post (cl.forM change) (fun _ => Inv []) (fun _ => Inv []) s := by
  induction cl generalizing s with
  | nil => exact post_pure.mpr h
  | cons c cl ih =>
      show Post (change c >>= fun _ => cl.forM change) _ _ s
      rw [post_bind]
      exact (post_change h hspare.1).ofExec.mono (fun _ t ht => ih ht.2 (hspare.2 t ht.1))
        fun _ _ ht => ht

/-! ## What stays -/

/-- The variables stay in memory, and keep their names. -/
def Kept (s t : State) : Prop :=
  ∀ a v, s.heap.lookup a = some v → ∃ w, t.heap.lookup a = some w ∧ w.var.name = v.var.name

theorem Kept.refl (s : State) : Kept s s := fun _ v ha => ⟨v, ha, rfl⟩

theorem Kept.trans {s t u : State} (h : Kept s t) (h' : Kept t u) : Kept s u := by
  intro a v ha
  obtain ⟨w, hw, hwv⟩ := h a v ha
  obtain ⟨x, hx, hxw⟩ := h' a w hw
  exact ⟨x, hx, hxw.trans hwv⟩

theorem kept_setObject {s : State} {a : Nat} {v v' : Object} (ha : s.heap.lookup a = some v)
    (hname : v'.var.name = v.var.name) : Kept s (s.setObject a v') := by
  intro b u hb
  by_cases hba : b = a
  · subst hba
    rw [ha, Option.some.injEq] at hb
    exact ⟨v', AList.lookup_insert _, hb ▸ hname⟩
  · exact ⟨u, lookup_insert_eq_some.mpr (Or.inr ⟨hba, hb⟩), rfl⟩

theorem returns_deref {s : State} {a : Nat} {v : Object} {Q : Object → State → Prop}
    (ha : s.heap.lookup a = some v) (h : Q v s) : Returns (deref a) Q s := by
  unfold deref
  rw [returns_bind, returns_get, ha]
  exact returns_pure.mpr h

/-- An acquire that is answered returns the variable. -/
theorem returns_acquire {origin : Origin} {context expr : CStr} {v i : Variable} {s : State}
    (h : Inv [] s) (horigin : origin ≠ .unknown) (hname : v.name = some (key origin context expr)) :
    Returns (acquire origin context expr (some v) (some i))
      (fun a t => Inv [] t ∧ Kept s t ∧
        ∃ w, t.heap.lookup a = some w ∧ w.var.name = some (key origin context expr)) s := by
  suffices hreturns : Returns (acquire origin context expr (some v) (some i))
      (fun a t => Kept s t ∧
        ∃ w, t.heap.lookup a = some w ∧ w.var.name = some (key origin context expr)) s from
    (hreturns.and_post (keeps_acquire origin context expr (some v) (some i) s h)).mono
      fun a t ht => ⟨ht.2, ht.1⟩
  unfold acquire
  rw [if_neg horigin]
  rw [returns_bind, returns_get]
  split
  · rename_i a ha
    obtain ⟨u, hu, hname⟩ := h.names.keyed _ a ha
    rw [returns_bind]
    refine returns_deref hu ?_
    rw [returns_bind, returns_modify, returns_pure]
    exact ⟨kept_setObject hu rfl, _, AList.lookup_insert _, hname⟩
  · rename_i hnone
    have hunused : s.unused (key origin context expr) = true := by
      rw [unused_iff]
      intro b u hb heq
      obtain ⟨n, hn, hlst⟩ := h.names.listed b u hb
      rw [heq, Option.some.injEq] at hn
      rw [hn, hlst] at hnone
      cases hnone
    rw [returns_bind, returns_assume (by simpa using hname), returns_bind, returns_get,
      returns_bind, returns_assume hunused, returns_bind, returns_get, returns_bind,
      returns_modify, returns_bind]
    have hnew : (s.addRoot (key origin context expr) v origin).heap.lookup s.next =
        some { var := v, origin } := AList.lookup_insert _
    refine returns_deref hnew ?_
    rw [returns_bind, returns_modify, returns_pure]
    refine ⟨Kept.trans ?_ (kept_setObject hnew rfl), _, AList.lookup_insert _, hname⟩
    intro b u hb
    exact ⟨u, lookup_insert_eq_some.mpr (Or.inr ⟨Nat.ne_of_lt (h.names.below b u hb), hb⟩), rfl⟩

/-! ## Runs -/

/-- An operation that deletes no child keeps the invariant. -/
theorem Inv.step {s t : State} {op : Op} (h : Inv [] s) (hstep : Step s op t)
    (hspares : Spares s op) : Inv [] t := by
  have hpost : Post op.call (fun _ => Inv []) (fun _ => Inv []) s := by
    cases op with
    | acquire origin context expr create info =>
        exact (keeps_acquire origin context expr create info).bind (fun _ => keeps_pure ()) s h
    | release a deleted => exact post_release h hspares
    | initChilds a listed => exact post_initChilds h
    | getChanged update =>
        cases update with
        | none => exact post_throw.mpr h
        | some cl => exact post_forM_change h hspares
  obtain ⟨r, hr⟩ := hstep
  exact hpost.holds hr

/-- In every run in which no child is released for the last time, the maps and the variables are
consistent. -/
theorem run_consistent {ops : List Op} {s : State}
    (h : Run (fun s op t => Step s op t ∧ Spares s op) State.init ops s) : Consistent s :=
  (h.invariant inv_init fun _ _ _ ht hstep => ht.step hstep.1 hstep.2).consistent

/-- `gdb` describes a variable. -/
private def described (name : CStr) : Variable := { name := some name, exp := some "a".toList }

/-- A variable is created, unfolded and released. -/
theorem unfolded_then_released :
    ∃ s, Run (fun s op t => Step s op t ∧ Spares s op) State.init
        [.acquire .user [] "a".toList (some (described "u:a".toList)) (some (described [])),
          .initChilds 0 (some [described "u:a.x".toList]), .release 0 true] s ∧ Consistent s := by
  refine Exists.imp (fun s hs => ⟨hs, run_consistent hs⟩) ?_
  refine ⟨_, Run.snoc (Run.snoc (Run.snoc Run.nil ⟨⟨.ok (), rfl⟩, trivial⟩)
    ⟨⟨.ok (), rfl⟩, trivial⟩) ⟨⟨.ok (), rfl⟩, fun v hv hparent => ?_⟩⟩
  obtain rfl := Option.some.inj hv
  exact absurd rfl hparent

/-- A child is released: its parent still lists it. -/
theorem released_child :
    ∃ s, Run Step State.init
        [.acquire .user [] "a".toList (some (described "u:a".toList)) (some (described [])),
          .initChilds 0 (some [described "u:a.x".toList]), .release 1 true] s ∧ ¬ Consistent s := by
  refine ⟨_, Run.snoc (Run.snoc (Run.snoc Run.nil ⟨.ok (), rfl⟩) ⟨.ok (), rfl⟩) ⟨.ok (), rfl⟩,
    fun h => ?_⟩
  obtain ⟨w, n, hw, -⟩ := h.childs 0 _ 1 rfl (List.Mem.head _)
  cases hw

end Vimgdb.Gdb.VariableMaps
