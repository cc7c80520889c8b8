import Vimgdb.Gdb.VariableInvariants

/-!
# Added variables

A variable that is added is to be one without a parent, entered in `gdb_user_var` under its
expression.  `acquire` looks the name up in `gdb_var_lst`, which holds children as well.

* `Rooted`: a variable without a parent has the name that `acquire` made for it.
* `IsUserRoot`: what is required of the variable that `acquire` returns.
* `acquire_isUserRoot_iff`: in which of the states that are reached it is met.
-/

namespace Vimgdb.Gdb.VariableMaps

open Programs PointerTree Maps Runs

variable {s t : State} {a : Nat}

/-! ## Names of roots -/

/-- The names are those in the maps, and a variable without a parent has a name that was made for
its origin. -/
structure Rooted (s : State) : Prop where
  names : Names s
  root : ∀ a v, s.heap.lookup a = some v → v.parent = none →
    ∃ context expr, v.var.name = some (key v.origin context expr)

theorem stable_rooted : Stable Rooted := by
  constructor
  · intro s a v v' hs ha hname horigin hparent _
    refine ⟨hs.names.setObject ha hname horigin hparent, fun b u hb hroot => ?_⟩
    rcases lookup_insert_eq_some.mp hb with ⟨rfl, rfl⟩ | ⟨-, hb⟩
    · rw [hname, horigin]
      exact hs.root b v ha (hparent.symm.trans hroot)
    · exact hs.root b u hb hroot
  · intro s a v hs ha
    refine ⟨hs.names.free ha, fun b u hb => ?_⟩
    rw [unlist_heap] at hb
    exact hs.root b u (lookup_erase_eq_some.mp hb).2
  · intro s v origin context expr hs hname horigin hunused
    refine ⟨hs.names.addRoot hname horigin hunused, fun b u hb hroot => ?_⟩
    rcases lookup_insert_eq_some.mp hb with ⟨-, rfl⟩ | ⟨-, hb⟩
    · exact ⟨context, expr, hname⟩
    · exact hs.root b u hb hroot
  · intro s a p name c hs ha hname hunused
    refine ⟨hs.names.addChild ha hname hunused, fun b u hb hroot => ?_⟩
    rcases lookup_insert_eq_some.mp hb with ⟨rfl, rfl⟩ | ⟨-, hb⟩
    · exact hs.root b p ha hroot
    · rcases lookup_insert_eq_some.mp hb with ⟨-, rfl⟩ | ⟨-, hb⟩
      · cases hroot
      · exact hs.root b u hb hroot

theorem rooted_init : Rooted State.init := by
  refine ⟨inv_init.names, fun a v ha => ?_⟩
  cases ha

/-- The names for different origins have different letters in front. -/
theorem origin_of_key_user {origin : Origin} {context expr context' expr' : CStr}
    (h : key origin context expr = key .user context' expr') : origin = .user := by
  cases origin with
  | user => rfl
  | unknown => cases h
  | callstack => exact absurd (List.cons.inj h).1 (by decide)
  | register => exact absurd (List.cons.inj h).1 (by decide)

/-! ## Added variables -/

/-- The variable has no parent, and is the one in `gdb_user_var` for the expression. -/
def IsUserRoot (t : State) (expr : CStr) (a : Nat) : Prop :=
  (∃ v, t.heap.lookup a = some v ∧ v.parent = none) ∧
    (t.vars .user).lookup (key .user [] expr) = some a

/-- No child has the name for the expression. -/
def NoChildNamed (s : State) (expr : CStr) : Prop :=
  ∀ b w, s.heap.lookup b = some w → w.parent ≠ none → w.var.name ≠ some (key .user [] expr)

/-- A variable that is known is returned. -/
theorem Rooted.known (h : Rooted s) {expr : CStr} {v : Object}
    (hlookup : s.varLst.lookup (key .user [] expr) = some a) (ha : s.heap.lookup a = some v)
    (hname : v.var.name = some (key .user [] expr)) :
    IsUserRoot (s.setObject a { v with refcnt := v.refcnt + 1 }) expr a ↔ NoChildNamed s expr := by
  constructor
  · rintro ⟨⟨w, hw, hroot⟩, -⟩ b u hb hchild hu
    obtain rfl := Option.some.inj ((AList.lookup_insert _).symm.trans hw)
    obtain rfl := h.names.inj hb ha (hu.trans hname.symm)
    obtain rfl := Option.some.inj (ha.symm.trans hb)
    exact hchild hroot
  · intro hno
    have hroot : v.parent = none := by_contra fun hchild => hno a v ha hchild hname
    refine ⟨⟨_, AList.lookup_insert _, hroot⟩, ?_⟩
    obtain ⟨context, expr', hkey⟩ := h.root a v ha hroot
    have horigin := origin_of_key_user (Option.some.inj (hkey.symm.trans hname))
    exact (h.names.vars .user _ a).mpr ⟨v, ha, horigin, hroot, hname⟩

/-- A variable that is not known is created. -/
theorem Rooted.created (h : Rooted s) {expr : CStr} {v : Variable} {w : Object}
    (hlookup : s.varLst.lookup (key .user [] expr) = none) (hroot : w.parent = none) :
    IsUserRoot ((s.addRoot (key .user [] expr) v .user).setObject s.next w) expr s.next ↔
      NoChildNamed s expr := by
  refine iff_of_true ⟨⟨w, AList.lookup_insert _, hroot⟩, ?_⟩ fun b u hb _ hu => ?_
  · show (Function.update s.vars .user ((s.vars .user).insert _ s.next) .user).lookup _ = _
    rw [Function.update_self, AList.lookup_insert]
  · obtain ⟨n, hn, hlst⟩ := h.names.listed b u hb
    rw [← Option.some.inj (hu.symm.trans hn), hlookup] at hlst
    cases hlst

/-- `acquire` of a variable that is known. -/
theorem exec_acquire_known {v : Object} {origin : Origin} {context expr : CStr}
    {create info : Option Variable} (horigin : origin ≠ .unknown)
    (hlookup : s.varLst.lookup (key origin context expr) = some a) (ha : s.heap.lookup a = some v) :
    exec (VariableMaps.acquire origin context expr create info) s =
      some (.ok a, s.setObject a { v with refcnt := v.refcnt + 1 }) := by
  have hreturns : Returns (VariableMaps.acquire origin context expr create info)
      (fun b t => b = a ∧ t = s.setObject a { v with refcnt := v.refcnt + 1 }) s := by
    unfold VariableMaps.acquire
    rw [if_neg horigin, returns_bind, returns_get]
    dsimp only
    rw [hlookup]
    dsimp only
    rw [returns_bind]
    refine returns_deref ha ?_
    rw [returns_bind, returns_modify, returns_pure]
    exact ⟨rfl, rfl⟩
  obtain ⟨b, t, hexec, rfl, rfl⟩ := hreturns
  exact hexec

/-- What is returned is what is required iff no child has the name. -/
theorem Rooted.acquire (h : Rooted s) (expr : CStr) (create info : Option Variable) :
    Post (acquire .user [] expr create info)
      (fun a t => IsUserRoot t expr a ↔ NoChildNamed s expr) (fun _ _ => True) s := by
  refine acquire_spec (fun _ => trivial) (fun _ a v hlookup hv => ?_) fun _ hlookup v _ _ _ => ?_
  · obtain ⟨v', hv', hname⟩ := h.names.keyed _ a hlookup
    obtain rfl := Option.some.inj (hv.symm.trans hv')
    exact h.known hlookup hv hname
  · exact ⟨fun _ => trivial, fun i _ => h.created hlookup rfl⟩

/-- In every state that is reached, and for every expression: the variable that is returned is the
one for the expression iff no child has its name. -/
theorem acquire_isUserRoot_iff {ops : List Op} {expr : CStr} {create info : Option Variable}
    (hrun : Run Step State.init ops s)
    (hexec : exec (acquire .user [] expr create info) s = some (.ok a, t)) :
    IsUserRoot t expr a ↔ NoChildNamed s expr :=
  (stable_rooted.run rooted_init hrun).acquire expr create info _ hexec

/-- The variable `a` is added and unfolded. -/
private def addA : List Op :=
  [.acquire .user [] "a".toList (some { name := some "u:a".toList }) (some {}),
    .initChilds 0 (some [{ name := some "u:a.b".toList }])]

private theorem run_addA : ∃ s v w, Run Step State.init addA s ∧
    s.varLst.lookup "u:a".toList = some 0 ∧ s.heap.lookup 0 = some v ∧ v.parent = none ∧
      s.varLst.lookup "u:a.b".toList = some 1 ∧ s.heap.lookup 1 = some w ∧ w.parent = some 0 :=
  ⟨_, _, _, Run.snoc (Run.snoc Run.nil ⟨.ok (), rfl⟩) ⟨.ok (), rfl⟩, rfl, rfl, rfl, rfl, rfl, rfl⟩

/-- The variable is added once more. -/
theorem added_again : ∃ s a t, Run Step State.init addA s ∧
    exec (acquire .user [] "a".toList none none) s = some (.ok a, t) ∧
      IsUserRoot t "a".toList a := by
  obtain ⟨s, v, w, hrun, hlookup, hv, hroot, -⟩ := run_addA
  have hexec := @exec_acquire_known s 0 v .user [] "a".toList none none (by decide) hlookup hv
  refine ⟨s, 0, _, hrun, hexec, (acquire_isUserRoot_iff hrun hexec).mpr ?_⟩
  intro b u hb hchild hname
  have hnames := (stable_rooted.run rooted_init hrun).names
  obtain ⟨v', hv', hvname⟩ := hnames.keyed _ 0 hlookup
  obtain rfl := Option.some.inj (hv.symm.trans hv')
  obtain rfl := hnames.inj hb hv (hname.trans hvname.symm)
  obtain rfl := Option.some.inj (hv.symm.trans hb)
  exact hchild hroot

/-- Its member is added. -/
theorem member_returned : ¬ ∀ ops expr create info s a t, Run Step State.init ops s →
    exec (acquire .user [] expr create info) s = some (.ok a, t) → IsUserRoot t expr a := by
  intro h
  obtain ⟨s, v, w, hrun, -, -, -, hlookup, hw, hparent⟩ := run_addA
  have hexec := @exec_acquire_known s 1 w .user [] "a.b".toList none none (by decide) hlookup hw
  obtain ⟨⟨u, hu, hroot⟩, -⟩ := h addA _ _ _ s 1 _ hrun hexec
  obtain rfl := Option.some.inj ((AList.lookup_insert _).symm.trans hu)
  exact absurd (hparent.symm.trans hroot) (Option.some_ne_none 0)

end Vimgdb.Gdb.VariableMaps
