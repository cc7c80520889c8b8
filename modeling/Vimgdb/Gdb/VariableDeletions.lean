import Vimgdb.Gdb.VariableMaps

/-!
# Deleted variables

Variables are deleted with their children, by `release` and where a type has changed.  The others stay
in memory.

* `Since s₀ D s`: of the variables of `s₀` only those in `D` have been deleted.
* `Doomed`: the variables that `get_changed` may delete.
* `keeps_getChanged`: no other ones are.
-/

namespace Vimgdb.Gdb.VariableMaps

open Programs PointerTree Maps
open Variables (reported)

/-! ## What has happened since -/

/-- Addresses are below the next one.  What was there in `s₀` still has its name, and children it had
there; of what was there, only variables in `D` have been deleted. -/
structure Since (s₀ : State) (D : Nat → Prop) (s : State) : Prop where
  next : s₀.next ≤ s.next
  heap : ∀ a v, s.heap.lookup a = some v → a < s.next
  names : ∀ n a, s.varLst.lookup n = some a → a < s.next ∧ (a < s₀.next → s₀.varLst.lookup n = some a)
  childs : ∀ a v c, s.heap.lookup a = some v → c ∈ v.childs → c < s.next ∧
    (c < s₀.next → ∃ v₀, s₀.heap.lookup a = some v₀ ∧ c ∈ v₀.childs)
  survive : ∀ a v, s₀.heap.lookup a = some v → ¬ D a → s.heap.lookup a ≠ none

/-- Addresses are below the next one. -/
def Bounded (s : State) : Prop := Since s (fun _ => False) s

/-- `D` contains the children of what it contains. -/
def Closed (s₀ : State) (D : Nat → Prop) : Prop :=
  ∀ a v c, s₀.heap.lookup a = some v → c ∈ v.childs → D a → D c

variable {s₀ s t : State} {D : Nat → Prop} {a : Nat} {v : Object}

theorem bounded_init : Bounded State.init where
  next := Nat.le_refl _
  heap _ _ h := nomatch h
  names _ _ h := nomatch h
  childs _ _ _ h := nomatch h
  survive _ _ h := nomatch h

/-- Nothing has happened since. -/
theorem Bounded.since (h : Bounded s) : Since s D s :=
  { h with survive := fun a v ha _ => by rw [ha]; exact Option.some_ne_none v }

theorem Since.bounded (h : Since s₀ D s) : Bounded s where
  next := Nat.le_refl _
  heap := h.heap
  names n a hn := ⟨(h.names n a hn).1, fun _ => hn⟩
  childs a v c ha hc := ⟨(h.childs a v c ha hc).1, fun _ => ⟨v, ha, hc⟩⟩
  survive a v ha _ := by rw [ha]; exact Option.some_ne_none v

/-- A variable changes, and has no children it has not had. -/
theorem Since.setObject (h : Since s₀ D s) {v' : Object} (ha : s.heap.lookup a = some v)
    (hchilds : ∀ c ∈ v'.childs, c ∈ v.childs) : Since s₀ D (s.setObject a v') where
  next := h.next
  heap b u hb := by
    rcases lookup_insert_eq_some.mp hb with ⟨rfl, -⟩ | ⟨-, hb⟩
    · exact h.heap b v ha
    · exact h.heap b u hb
  names := h.names
  childs b u c hb hc := by
    rcases lookup_insert_eq_some.mp hb with ⟨rfl, rfl⟩ | ⟨-, hb⟩
    · exact h.childs b v c ha (hchilds c hc)
    · exact h.childs b u c hb hc
  survive b u hb hD := by
    by_cases hba : b = a
    · subst hba
      show (s.heap.insert b v').lookup b ≠ none
      rw [AList.lookup_insert]
      exact Option.some_ne_none v'
    · show (s.heap.insert a v').lookup b ≠ none
      rw [AList.lookup_insert_ne hba]
      exact h.survive b u hb hD

/-- A variable is entered. -/
theorem Since.addRoot (h : Since s₀ D s) (name : CStr) (v : Variable) (origin : Origin) :
    Since s₀ D (s.addRoot name v origin) where
  next := h.next.trans (Nat.le_succ _)
  heap b u hb := by
    rcases lookup_insert_eq_some.mp hb with ⟨rfl, -⟩ | ⟨-, hb⟩
    · exact Nat.lt_succ_self _
    · exact Nat.lt_succ_of_lt (h.heap b u hb)
  names n b hn := by
    rcases lookup_insert_eq_some.mp hn with ⟨-, rfl⟩ | ⟨-, hn⟩
    · exact ⟨Nat.lt_succ_self _, fun hlt => absurd h.next (Nat.not_le_of_lt hlt)⟩
    · exact ⟨Nat.lt_succ_of_lt (h.names n b hn).1, (h.names n b hn).2⟩
  childs b u c hb hc := by
    rcases lookup_insert_eq_some.mp hb with ⟨-, rfl⟩ | ⟨-, hb⟩
    · exact absurd hc List.not_mem_nil
    · exact ⟨Nat.lt_succ_of_lt (h.childs b u c hb hc).1, (h.childs b u c hb hc).2⟩
  survive b u hb hD := by
    show (s.heap.insert s.next _).lookup b ≠ none
    by_cases hbn : b = s.next
    · subst hbn
      rw [AList.lookup_insert]
      exact Option.some_ne_none _
    · rw [AList.lookup_insert_ne hbn]
      exact h.survive b u hb hD

/-- A child is entered. -/
theorem Since.addChild (h : Since s₀ D s) {p : Object} (ha : s.heap.lookup a = some p) (name : CStr)
    (c : Variable) : Since s₀ D (s.addChild a p name c) := by
  have hlookup : ∀ {b u}, (s.addChild a p name c).heap.lookup b = some u →
      b = a ∧ { p with childs := p.childs ++ [s.next] } = u ∨
        b = s.next ∧ { var := c, origin := p.origin, parent := some a } = u ∨
        s.heap.lookup b = some u := by
    intro b u hb
    rcases lookup_insert_eq_some.mp hb with hb | ⟨-, hb⟩
    · exact Or.inl hb
    · rcases lookup_insert_eq_some.mp hb with hb | ⟨-, hb⟩
      · exact Or.inr (Or.inl hb)
      · exact Or.inr (Or.inr hb)
  constructor
  · exact h.next.trans (Nat.le_succ _)
  · intro b u hb
    rcases hlookup hb with ⟨rfl, -⟩ | ⟨rfl, -⟩ | hb
    · exact Nat.lt_succ_of_lt (h.heap b p ha)
    · exact Nat.lt_succ_self _
    · exact Nat.lt_succ_of_lt (h.heap b u hb)
  · intro n b hn
    rcases lookup_insert_eq_some.mp hn with ⟨-, rfl⟩ | ⟨-, hn⟩
    · exact ⟨Nat.lt_succ_self _, fun hlt => absurd h.next (Nat.not_le_of_lt hlt)⟩
    · exact ⟨Nat.lt_succ_of_lt (h.names n b hn).1, (h.names n b hn).2⟩
  · intro b u d hb hd
    rcases hlookup hb with ⟨rfl, rfl⟩ | ⟨rfl, rfl⟩ | hb
    · rcases List.mem_append.mp hd with hd | hd
      · exact ⟨Nat.lt_succ_of_lt (h.childs b p d ha hd).1, (h.childs b p d ha hd).2⟩
      · obtain rfl := List.mem_singleton.mp hd
        exact ⟨Nat.lt_succ_self _, fun hlt => absurd h.next (Nat.not_le_of_lt hlt)⟩
    · exact absurd hd List.not_mem_nil
    · exact ⟨Nat.lt_succ_of_lt (h.childs b u d hb hd).1, (h.childs b u d hb hd).2⟩
  · intro b u hb hD
    show ((s.heap.insert s.next _).insert a _).lookup b ≠ none
    by_cases hba : b = a
    · subst hba
      rw [AList.lookup_insert]
      exact Option.some_ne_none _
    · rw [AList.lookup_insert_ne hba]
      by_cases hbn : b = s.next
      · subst hbn
        rw [AList.lookup_insert]
        exact Option.some_ne_none _
      · rw [AList.lookup_insert_ne hbn]
        exact h.survive b u hb hD

/-! ## Deletion -/

/-- The variables that are to be deleted are in `D`, apart from new ones. -/
def Marked (s₀ : State) (D : Nat → Prop) (P : List Nat) : Prop := ∀ a ∈ P, a < s₀.next → D a

/-- The children of a variable that is deleted are deleted. -/
theorem Since.marked (h : Since s₀ D s) (hbounded : Bounded s₀) (hclosed : Closed s₀ D) {P : List Nat}
    (hP : Marked s₀ D (a :: P)) (ha : s.heap.lookup a = some v) : Marked s₀ D (v.childs ++ P) := by
  intro c hc hlt
  rcases List.mem_append.mp hc with hc | hc
  · obtain ⟨v₀, hv₀, hc₀⟩ := (h.childs a v c ha hc).2 hlt
    exact hclosed a v₀ c hv₀ hc₀ (hP a List.mem_cons_self (hbounded.heap a v₀ hv₀))
  · exact hP c (List.mem_cons_of_mem _ hc) hlt

/-- The destructor. -/
theorem Since.free (h : Since s₀ D s) (hbounded : Bounded s₀) (hD : a < s₀.next → D a) :
    Since s₀ D ({ s with heap := s.heap.erase a }.unlist v) := by
  have herase : Since s₀ D { s with heap := s.heap.erase a } := by
    refine { h with heap := fun b u hb => ?_, childs := fun b u c hb => ?_,
                    survive := fun b u hb hDb => ?_ }
    · exact h.heap b u (lookup_erase_eq_some.mp hb).2
    · exact h.childs b u c (lookup_erase_eq_some.mp hb).2
    · have hne : b ≠ a := by
        rintro rfl
        exact hDb (hD (hbounded.heap b u hb))
      show (s.heap.erase a).lookup b ≠ none
      rw [AList.lookup_erase_ne hne]
      exact h.survive b u hb hDb
  unfold State.unlist
  split
  · exact herase
  · split
    · exact herase
    · exact { herase with names := fun n b hn => h.names n b (lookup_erase_eq_some.mp hn).2 }

/-- What is deleted was to be deleted. -/
theorem Since.deleteAll (hbounded : Bounded s₀) (hclosed : Closed s₀ D) {fuel : Nat} {P : List Nat}
    (h : Since s₀ D s) (hP : Marked s₀ D P) {E : Unit → State → Prop} :
    Post (deleteAll fuel P) (fun _ => Since s₀ D) E s := by
  have hall : Post (VariableMaps.deleteAll fuel P) (fun _ t => Marked s₀ D [] ∧ Since s₀ D t) E s := by
    refine @deleteAll_spec (fun rest t => Marked s₀ D rest ∧ Since s₀ D t) _ _ _ _ ⟨hP, h⟩ ?_
    rintro t b as v ⟨hrest, ht⟩ hb
    exact ⟨ht.marked hbounded hclosed hrest hb, ht.free hbounded (hrest b List.mem_cons_self)⟩
  exact hall.mono (fun _ _ ht => ht.2) fun _ _ hE => hE

theorem Since.delete (hbounded : Bounded s₀) (hclosed : Closed s₀ D) {P : List Nat}
    (h : Since s₀ D s) (hP : Marked s₀ D P) {E : Unit → State → Prop} :
    Post (delete P) (fun _ => Since s₀ D) E s := by
  unfold VariableMaps.delete
  rw [post_bind, post_get]
  exact Since.deleteAll hbounded hclosed h hP

/-- The children of a variable are deleted. -/
theorem Since.eraseChilds (hbounded : Bounded s₀) (hclosed : Closed s₀ D) (h : Since s₀ D s)
    (hD : ∀ v c, s₀.heap.lookup a = some v → c ∈ v.childs → D c) {E : Unit → State → Prop} :
    Post (eraseChilds a) (fun _ => Since s₀ D) E s := by
  unfold VariableMaps.eraseChilds
  rw [post_bind]
  refine post_deref fun u hu => ?_
  rw [post_bind, post_modify]
  refine Since.delete hbounded hclosed (h.setObject hu fun c hc => absurd hc List.not_mem_nil) ?_
  intro c hc hlt
  obtain ⟨v₀, hv₀, hc₀⟩ := (h.childs a u c hu hc).2 hlt
  exact hD v₀ c hv₀ hc₀

theorem Since.mono {D' : Nat → Prop} (h : Since s₀ D s) (hsub : ∀ a, D a → D' a) : Since s₀ D' s :=
  { h with survive := fun a v ha hD => h.survive a v ha fun hDa => hD (hsub a hDa) }

/-- A variable is released, and deleted with the last reference unless gdb refuses; then nothing is
deleted. -/
theorem Since.release {D' : Nat → Prop} (hbounded : Bounded s₀) (hclosed : Closed s₀ D)
    (h : Since s₀ D' s) (hsub : ∀ a, D' a → D a) (deleted : Bool)
    (hD : ∀ v, s.heap.lookup a = some v → v.refcnt = 1 →
      (s.isListed v = true → deleted = true) → a < s₀.next → D a) :
    Post (release a deleted) (fun _ => Since s₀ D) (fun _ => Since s₀ D') s := by
  have hset : ∀ u, s.heap.lookup a = some u →
      Since s₀ D' (s.setObject a { u with refcnt := u.refcnt - 1 }) := fun u hu =>
    h.setObject hu fun _ hc => hc
  refine release_spec (fun u hu _ _ _ => hset u hu) (fun u hu hone hdeleted => ?_)
    fun u hu _ => (hset u hu).mono hsub
  refine Since.delete hbounded hclosed ((hset u hu).mono hsub) fun b hb => ?_
  obtain rfl := List.mem_singleton.mp hb
  exact hD u hu hone hdeleted

/-! ## Creation -/

/-- An acquire fails only where gdb does not answer. -/
theorem Since.acquire (h : Since s₀ D s) {origin : Origin} (horigin : origin ≠ .unknown)
    (context expr : CStr) (create info : Option Variable) :
    Post (acquire origin context expr create info) (fun _ => Since s₀ D)
      (fun _ t => Since s₀ D t ∧ (create = none ∨ info = none)) s := by
  refine acquire_spec (fun hfails => ?_) (fun _ a v _ hv => ?_) fun _ _ v _ _ _ => ?_
  · exact ⟨h, Or.inl (hfails.resolve_left horigin).2⟩
  · exact h.setObject hv fun _ hc => hc
  · have hnew := h.addRoot (key origin context expr) v origin
    exact ⟨fun hinfo => ⟨hnew, Or.inr hinfo⟩, fun i _ =>
      hnew.setObject (AList.lookup_insert _) fun _ hc => hc⟩

theorem keeps_since_addChild (a : Nat) (c : Variable) : Keeps (Since s₀ D) (addChild a c) :=
  fun _ h => addChild_spec fun _ name hp _ _ => h.addChild hp name c

theorem keeps_since_initChilds (a : Nat) (listed : Option (List Variable)) :
    Keeps (Since s₀ D) (initChilds a listed) :=
  keeps_initChilds_of (keeps_since_addChild a) listed

/-! ## Changes -/

/-- The variable and those below it, which are deleted with it. -/
inductive Below (s : State) (r : Nat) : Nat → Prop
  | self : Below s r r
  | child {a b : Nat} {v : Object} : Below s r a → s.heap.lookup a = some v → b ∈ v.childs →
      Below s r b

/-- The variables that the entries delete: the children of those with another type, and those that have
gone out of scope, each with its children. -/
inductive Doomed (s : State) (cl : List Change) : Nat → Prop
  | retyped {c : Change} {name : CStr} {a b : Nat} {v : Object} : c ∈ cl →
      c.entry.typeChanged = some true → c.entry.name = some name → s.varLst.lookup name = some a →
      s.heap.lookup a = some v → b ∈ v.childs → Doomed s cl b
  | invalid {c : Change} {name : CStr} {a : Nat} : c ∈ cl → c.entry.inscope = 'i' →
      c.entry.name = some name → s.varLst.lookup name = some a → Doomed s cl a
  | child {a b : Nat} {v : Object} : Doomed s cl a → s.heap.lookup a = some v → b ∈ v.childs →
      Doomed s cl b

theorem closed_doomed (s : State) (cl : List Change) : Closed s (Doomed s cl) :=
  fun _ _ _ ha hc hdoomed => .child hdoomed ha hc

/-- A variable that was there before and is to be deleted was to be deleted before. -/
theorem Since.doomed (h : Since s₀ D s) (hbounded : Bounded s₀) {cl : List Change}
    (hdoomed : Doomed s cl a) (hlt : a < s₀.next) : Doomed s₀ cl a := by
  induction hdoomed with
  | retyped hc htype hname ha hv hb =>
      obtain ⟨v₀, hv₀, hb₀⟩ := (h.childs _ _ _ hv hb).2 hlt
      exact .retyped hc htype hname ((h.names _ _ ha).2 (hbounded.heap _ _ hv₀)) hv₀ hb₀
  | invalid hc hscope hname ha => exact .invalid hc hscope hname ((h.names _ _ ha).2 hlt)
  | child _ hv hb ih =>
      obtain ⟨v₀, hv₀, hb₀⟩ := (h.childs _ _ _ hv hb).2 hlt
      exact .child (ih (hbounded.heap _ _ hv₀)) hv₀ hb₀

theorem keeps_change (hbounded : Bounded s₀) {cl : List Change} {c : Change} (hc : c ∈ cl) :
    Keeps (Since s₀ (Doomed s₀ cl)) (change c) := by
  intro s h
  have hclosed := closed_doomed s₀ cl
  refine change_spec (fun _ _ _ => h) fun name a v visible hname ha hv => ?_
  have hold := (h.names name a ha).2
  have hset : Since s₀ (Doomed s₀ cl)
      (s.setObject a { v with var := reported c.entry visible v.var }) :=
    h.setObject hv fun _ hd => hd
  have hrelease : ∀ t, Since s₀ (Doomed s₀ cl) t →
      Post (onlyIf (c.entry.inscope = 'i') (release a c.deleted))
        (fun _ => Since s₀ (Doomed s₀ cl)) (fun _ => Since s₀ (Doomed s₀ cl)) t := by
    intro t ht
    rw [post_onlyIf]
    split
    · next hscope =>
      exact Since.release hbounded hclosed ht (fun _ => id) c.deleted fun _ _ _ _ hlt =>
        .invalid hc (of_decide_eq_true hscope) hname (hold hlt)
    · exact ht
  rw [post_bind, post_onlyIf]
  split
  · next htype =>
    rw [post_bind]
    refine (Since.eraseChilds hbounded hclosed hset fun v₀ d hv₀ hd => ?_).mono
      (fun _ t ht => ?_) fun _ _ hE => hE
    · exact .retyped hc (of_decide_eq_true htype) hname (hold (hbounded.heap a v₀ hv₀)) hv₀ hd
    · exact ((keeps_since_initChilds a c.childs).noError ht).mono (fun _ u hu => hrelease u hu)
        fun _ _ hE => hE
  · exact hrelease _ hset

/-- `get_changed` deletes no other variables. -/
theorem keeps_getChanged (hbounded : Bounded s₀) (update : Option (List Change)) :
    Keeps (Since s₀ (Doomed s₀ (update.getD []))) (getChanged update) := by
  cases update with
  | none => exact keeps_throw ()
  | some cl =>
      -- each entry is one of the whole list
      suffices hsub : ∀ cl' : List Change, (∀ c ∈ cl', c ∈ cl) →
          Keeps (Since s₀ (Doomed s₀ cl)) (cl'.forM change) from hsub cl fun _ hc => hc
      intro cl' hcl'
      induction cl' with
      | nil => exact keeps_pure _
      | cons c cl' ih =>
          exact (keeps_change hbounded (hcl' c List.mem_cons_self)).bind fun _ =>
            ih fun d hd => hcl' d (List.mem_cons_of_mem _ hd)

end Vimgdb.Gdb.VariableMaps
