import Vimgdb.Gdb.VariableDeletions

/-!
# Invariants of the variables

The operations change the variables and the maps in four ways: a variable changes but keeps its place,
or is deleted, and a variable or a child is entered.

* `Stable I`: each of these keeps `I`.
* `Stable.step`, `Stable.run`: an operation keeps what is stable, however it ends, and so does a run.
* `Sound`: the names are those in the maps and children are newer than their parents, in every run.
-/

namespace Vimgdb.Gdb.VariableMaps

open Programs PointerTree Maps Runs
open Variables (reported)

/-! ## Stable properties -/

/-- What is kept by each change that the operations make. -/
structure Stable (I : State → Prop) : Prop where
  setObject {s : State} {a : Nat} {v v' : Object} : I s → s.heap.lookup a = some v →
    v'.var.name = v.var.name → v'.origin = v.origin → v'.parent = v.parent →
      (v'.childs = v.childs ∨ v'.childs = []) → I (s.setObject a v')
  free {s : State} {a : Nat} {v : Object} : I s → s.heap.lookup a = some v →
    I ({ s with heap := s.heap.erase a }.unlist v)
  addRoot {s : State} {v : Variable} {origin : Origin} {context expr : CStr} : I s →
    v.name = some (key origin context expr) → origin ≠ .unknown →
      s.unused (key origin context expr) = true → I (s.addRoot (key origin context expr) v origin)
  addChild {s : State} {a : Nat} {p : Object} {name : CStr} {c : Variable} : I s →
    s.heap.lookup a = some p → c.name = some name → s.unused name = true →
      I (s.addChild a p name c)

variable {I : State → Prop} {s t : State}

theorem Stable.deleteAll (h : Stable I) (fuel : Nat) (as : List Nat) : Keeps I (deleteAll fuel as) :=
  fun _ hs => @deleteAll_spec (fun _ => I) _ _ _ _ hs fun _ _ _ _ ht hv => h.free ht hv

theorem Stable.delete (h : Stable I) (as : List Nat) : Keeps I (delete as) :=
  keeps_get.bind fun s => h.deleteAll s.heap.entries.length as

theorem Stable.eraseChilds (h : Stable I) (a : Nat) : Keeps I (eraseChilds a) := by
  intro s hs
  unfold VariableMaps.eraseChilds
  rw [post_bind]
  refine post_deref fun v hv => ?_
  rw [post_bind, post_modify]
  exact h.delete v.childs _ (h.setObject hs hv rfl rfl rfl (Or.inr rfl))

theorem Stable.acquire (h : Stable I) (origin : Origin) (context expr : CStr)
    (create info : Option Variable) : Keeps I (acquire origin context expr create info) := by
  intro s hs
  refine acquire_spec (fun _ => hs) (fun _ a v _ hv => ?_) fun horigin _ v _ hname hunused => ?_
  · exact h.setObject hs hv rfl rfl rfl (Or.inl rfl)
  · have hnew := h.addRoot hs hname horigin hunused
    exact ⟨fun _ => hnew, fun i _ =>
      h.setObject hnew (AList.lookup_insert _) rfl rfl rfl (Or.inl rfl)⟩

theorem Stable.initChilds (h : Stable I) (a : Nat) (listed : Option (List Variable)) :
    Keeps I (initChilds a listed) := by
  refine keeps_initChilds_of (fun c s hs => ?_) listed
  exact addChild_spec fun p name hp hname hunused => h.addChild hs hp hname hunused

theorem Stable.release (h : Stable I) (a : Nat) (deleted : Bool) : Keeps I (release a deleted) := by
  intro s hs
  have hset : ∀ v, s.heap.lookup a = some v →
      I (s.setObject a { v with refcnt := v.refcnt - 1 }) := fun v hv =>
    h.setObject hs hv rfl rfl rfl (Or.inl rfl)
  exact release_spec (fun v hv _ _ _ => hset v hv) (fun v hv _ _ => h.delete [a] _ (hset v hv))
    fun v hv _ => hset v hv

theorem Stable.change (h : Stable I) (c : Change) : Keeps I (change c) := by
  intro s hs
  refine change_spec (fun _ _ _ => hs) fun name a v visible _ _ hv => ?_
  have hset : I (s.setObject a { v with var := reported c.entry visible v.var }) :=
    h.setObject hs hv (reported_name _ _ _) rfl rfl (Or.inl rfl)
  have hretype : Keeps I (VariableMaps.eraseChilds a >>= fun _ =>
      attempt (VariableMaps.initChilds a c.childs)) :=
    (h.eraseChilds a).bind fun _ => (h.initChilds a c.childs).attempt
  exact ((hretype.onlyIf _).bind fun _ => (h.release a c.deleted).onlyIf _) _ hset

/-- An operation keeps what is stable. -/
theorem Stable.step (h : Stable I) {op : Op} (hs : I s) (hstep : Step s op t) : I t := by
  have hkeeps : Keeps I op.call := by
    cases op with
    | acquire origin context expr create info =>
        exact (h.acquire origin context expr create info).bind fun _ => keeps_pure ()
    | release a deleted => exact h.release a deleted
    | initChilds a listed => exact h.initChilds a listed
    | getChanged update =>
        cases update with
        | none => exact keeps_throw ()
        | some cl => exact keeps_forM h.change cl
  obtain ⟨r, hr⟩ := hstep
  exact (hkeeps s hs).holds hr

/-- What is stable and holds at the start holds in every state that is reached. -/
theorem Stable.run (h : Stable I) {ops : List Op} (hinit : I State.init)
    (hrun : Run Step State.init ops s) : I s :=
  hrun.invariant hinit fun _ _ _ hs hstep => h.step hs hstep

/-! ## Names and children -/

/-- The names are those in the maps, and children are newer than their parents. -/
structure Sound (s : State) : Prop where
  names : Names s
  newer : ∀ a v c, s.heap.lookup a = some v → c ∈ v.childs → a < c ∧ c < s.next

theorem sound_init : Sound State.init := by
  refine ⟨inv_init.names, fun a v c ha => ?_⟩
  cases ha

theorem stable_sound : Stable Sound := by
  constructor
  · intro s a v v' hs ha hname horigin hparent hchilds
    refine ⟨hs.names.setObject ha hname horigin hparent, fun b u c hb hc => ?_⟩
    rcases lookup_insert_eq_some.mp hb with ⟨rfl, rfl⟩ | ⟨-, hb⟩
    · rcases hchilds with heq | heq
      · exact hs.newer b v c ha (heq ▸ hc)
      · rw [heq] at hc
        exact absurd hc List.not_mem_nil
    · exact hs.newer b u c hb hc
  · intro s a v hs ha
    refine ⟨hs.names.free ha, fun b u c hb hc => ?_⟩
    rw [unlist_heap] at hb
    have hnext : ({ s with heap := s.heap.erase a }.unlist v).next = s.next := by
      unfold State.unlist
      split
      · rfl
      · split <;> rfl
    rw [hnext]
    exact hs.newer b u c (lookup_erase_eq_some.mp hb).2 hc
  · intro s v origin context expr hs hname horigin hunused
    refine ⟨hs.names.addRoot hname horigin hunused, fun b u c hb hc => ?_⟩
    rcases lookup_insert_eq_some.mp hb with ⟨-, rfl⟩ | ⟨-, hb⟩
    · exact absurd hc List.not_mem_nil
    · obtain ⟨hlt, hnext⟩ := hs.newer b u c hb hc
      exact ⟨hlt, Nat.lt_succ_of_lt hnext⟩
  · intro s a p name c hs ha hname hunused
    refine ⟨hs.names.addChild ha hname hunused, fun b u d hb hd => ?_⟩
    rcases lookup_insert_eq_some.mp hb with ⟨rfl, rfl⟩ | ⟨-, hb⟩
    · rcases List.mem_append.mp hd with hd | hd
      · obtain ⟨hlt, hnext⟩ := hs.newer b p d ha hd
        exact ⟨hlt, Nat.lt_succ_of_lt hnext⟩
      · obtain rfl := List.mem_singleton.mp hd
        exact ⟨hs.names.below b p ha, Nat.lt_succ_self _⟩
    · rcases lookup_insert_eq_some.mp hb with ⟨-, rfl⟩ | ⟨-, hb⟩
      · exact absurd hd List.not_mem_nil
      · obtain ⟨hlt, hnext⟩ := hs.newer b u d hb hd
        exact ⟨hlt, Nat.lt_succ_of_lt hnext⟩

theorem Sound.bounded (h : Sound s) : Bounded s where
  next := Nat.le_refl _
  heap := h.names.below
  names n a hn := by
    obtain ⟨v, hv, -⟩ := h.names.keyed n a hn
    exact ⟨h.names.below a v hv, fun _ => hn⟩
  childs a v c ha hc := ⟨(h.newer a v c ha hc).2, fun _ => ⟨v, ha, hc⟩⟩
  survive a v ha _ := by rw [ha]; exact Option.some_ne_none v

end Vimgdb.Gdb.VariableMaps
