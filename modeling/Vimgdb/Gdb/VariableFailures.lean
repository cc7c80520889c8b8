import Vimgdb.Gdb.VariableRoots

/-!
# Commands that fail

`acquire` and `release` give up where gdb refuses a command, and return null and -1.

* `World`: the variables, and the objects in gdb.
* `acquireIn_unchanged_iff`: the commands behind which a failing `acquire` has changed nothing.
* `run_undamaged_iff`: the runs of releases in which one that fails changes nothing.
-/

namespace Vimgdb.Gdb.VariableMaps

open Programs PointerTree Maps Runs

variable {s t : State} {a : Nat} {v : Object}

/-! ## Creation that fails -/

/-- The variables, and the names of the variable objects in gdb. -/
structure World where
  vars : State
  objects : Finset CStr

/-- Programs over the variables. -/
def inVars {α : Type} (p : Vars α) : Program World Unit α :=
  zoom World.vars (fun vars w => { w with vars }) p

/-- `acquire`.  `var-create` adds an object to gdb, which has none of that name. -/
def acquireIn (origin : Origin) (context expr : CStr) (create info : Option Variable) :
    Program World Unit Nat := do
  let name := key origin context expr
  let w ← get
  onlyIf (origin ≠ .unknown ∧ w.vars.varLst.lookup name = none ∧ create.isSome) do
    assume (name ∉ w.objects)
    modify fun w => { w with objects := insert name w.objects }
  inVars (acquire origin context expr create info)

/-- An `acquire` that fails has been refused `var-create`, or has created a variable. -/
theorem post_acquire_error {origin : Origin} {context expr : CStr} {create info : Option Variable} :
    Post (acquire origin context expr create info) (fun _ _ => True)
      (fun _ t => if origin = .unknown ∨ create = none then t = s
        else s.varLst.lookup (key origin context expr) = none ∧ ∃ v, create = some v ∧
          t = s.addRoot (key origin context expr) v origin) s := by
  refine acquire_spec (fun hfails => ?_) (fun _ a v _ hv => trivial)
    fun horigin hlookup v hcreate _ _ => ⟨fun hinfo => ?_, fun i _ => trivial⟩
  · rw [if_pos (hfails.imp_right And.right)]
  · rw [if_neg (by simp [horigin, hcreate])]
    exact ⟨hlookup, v, hcreate, rfl⟩

/-- An `acquire` that returns null has changed nothing iff `var-create` was refused, or not sent. -/
theorem acquireIn_unchanged_iff {origin : Origin} {context expr : CStr}
    {create info : Option Variable} {w w' : World}
    (hexec : exec (acquireIn origin context expr create info) w = some (.error (), w')) :
    w' = w ↔ origin = .unknown ∨ create = none := by
  have hpost : Post (acquireIn origin context expr create info) (fun _ _ => True)
      (fun _ w' => w' = w ↔ origin = .unknown ∨ create = none) w := by
    unfold acquireIn
    extract_lets name
    rw [post_bind, post_get, post_bind, post_onlyIf]
    split
    · next hnew =>
      obtain ⟨horigin, hlookup, hcreate⟩ := of_decide_eq_true hnew
      rw [post_bind, post_assume]
      intro hobject
      rw [post_modify]
      unfold inVars
      rw [post_zoom]
      refine post_acquire_error.mono (fun _ _ hE => hE) fun _ t ht => ?_
      have hnot : ¬ (origin = .unknown ∨ create = none) := by
        rintro (heq | rfl)
        · exact horigin heq
        · cases hcreate
      rw [if_neg hnot] at ht
      obtain ⟨-, v, -, rfl⟩ := ht
      refine iff_of_false (fun heq => ?_) hnot
      have hnext : w.vars.next + 1 = w.vars.next := congrArg (fun w => w.vars.next) heq
      exact absurd hnext (Nat.succ_ne_self _)
    · next hnew =>
      unfold inVars
      rw [post_zoom]
      refine post_acquire_error.mono (fun _ _ hE => hE) fun _ t ht => ?_
      split at ht
      · next hyes =>
        subst ht
        exact iff_of_true rfl hyes
      · next hnot =>
        obtain ⟨hlookup, v, hcreate, -⟩ := ht
        refine absurd (decide_eq_true ⟨fun heq => hnot (Or.inl heq), hlookup, ?_⟩) hnew
        rw [hcreate]
        rfl
  exact hpost _ hexec

/-- gdb refuses to create the variable. -/
theorem create_refused : ∃ w', exec (acquireIn .user [] "a".toList none none) ⟨State.init, ∅⟩ =
    some (.error (), w') ∧ w' = ⟨State.init, ∅⟩ := by
  have hexec : exec (acquireIn .user [] "a".toList none none) ⟨State.init, ∅⟩ =
      some (.error (), ⟨State.init, ∅⟩) := rfl
  exact ⟨_, hexec, (acquireIn_unchanged_iff hexec).mpr (Or.inr rfl)⟩

/-- gdb creates the variable, and refuses to describe it. -/
theorem info_refused : ¬ ∀ origin context expr create info w w',
    exec (acquireIn origin context expr create info) w = some (.error (), w') → w' = w := by
  intro h
  have hsame := h .user [] "a".toList (some { name := some "u:a".toList }) none
    ⟨State.init, ∅⟩ _ rfl
  exact absurd (congrArg (fun w => w.vars.next) hsame) (by decide)

/-- A variable that was created, but not described, is returned by the next `acquire`. -/
theorem returned_incomplete {origin : Origin} {context expr : CStr} {v : Variable}
    {create info : Option Variable}
    (hexec : exec (acquire origin context expr (some v) none) s = some (.error (), t))
    (horigin : origin ≠ .unknown) :
    ∃ w, exec (acquire origin context expr create info) t =
      some (.ok s.next, t.setObject s.next w) ∧ w.var.exp = v.exp := by
  have hpost : if origin = .unknown ∨ some v = none then t = s
      else s.varLst.lookup (key origin context expr) = none ∧ ∃ u, some v = some u ∧
        t = s.addRoot (key origin context expr) u origin := post_acquire_error _ hexec
  rw [if_neg (by simp [horigin])] at hpost
  obtain ⟨-, v', hv', rfl⟩ := hpost
  obtain rfl := Option.some.inj hv'
  exact ⟨_, exec_acquire_known horigin (AList.lookup_insert _) (AList.lookup_insert _), rfl⟩

/-! ## Releases that fail -/

/-- Only what is deleted changes. -/
theorem post_deleteAll_le (fuel : Nat) (as : List Nat) {E : Unit → State → Prop} :
    Post (deleteAll fuel as) (fun _ t =>
      (∀ b w, t.heap.lookup b = some w → s.heap.lookup b = some w) ∧
        ∀ a ∈ as, t.heap.lookup a = none) E s := by
  have hall : Post (deleteAll fuel as) (fun _ t =>
      (∀ b w, t.heap.lookup b = some w → s.heap.lookup b = some w) ∧
        ∀ a ∈ as, a ∈ [] ∨ t.heap.lookup a = none) E s := by
    refine @deleteAll_spec (fun rest t =>
      (∀ b w, t.heap.lookup b = some w → s.heap.lookup b = some w) ∧
        ∀ a ∈ as, a ∈ rest ∨ t.heap.lookup a = none) _ _ _ _
      ⟨fun _ _ hb => hb, fun _ ha => Or.inl ha⟩ ?_
    rintro t a rest v ⟨hold, hgone⟩ hv
    rw [unlist_heap]
    refine ⟨fun b w hb => hold b w (lookup_erase_eq_some.mp hb).2, fun b hb => ?_⟩
    by_cases hba : b = a
    · exact Or.inr (hba ▸ AList.lookup_erase _ _)
    · rcases hgone b hb with hmem | hnone
      · exact Or.inl (List.mem_append_right _ ((List.mem_cons.mp hmem).resolve_left hba))
      · exact Or.inr ((AList.lookup_erase_ne hba).trans hnone)
  exact hall.mono
    (fun _ t ht => ⟨ht.1, fun a ha => (ht.2 a ha).resolve_left List.not_mem_nil⟩) fun _ _ hE => hE

/-- What a release comes to. -/
theorem post_release_cases {deleted : Bool} (ha : s.heap.lookup a = some v) :
    Post (release a deleted)
      (fun _ t => ¬ (v.refcnt = 1 ∧ s.isListed v = true ∧ deleted = false) ∧
        if v.refcnt = 1 then t.heap.lookup a = none ∧
          ∀ b w, t.heap.lookup b = some w → s.heap.lookup b = some w
        else t = s.setObject a { v with refcnt := v.refcnt - 1 })
      (fun _ t => (v.refcnt = 1 ∧ s.isListed v = true ∧ deleted = false) ∧
        t = s.setObject a { v with refcnt := 0 }) s := by
  refine release_spec (fun u hu hone hlisted hrefused => ?_) (fun u hu hone hdeleted => ?_)
    fun u hu hone => ?_
  · obtain rfl := Option.some.inj (ha.symm.trans hu)
    refine ⟨⟨hone, hlisted, hrefused⟩, ?_⟩
    rw [hone]
    rfl
  · obtain rfl := Option.some.inj (ha.symm.trans hu)
    unfold VariableMaps.delete
    rw [post_bind, post_get]
    refine (post_deleteAll_le _ _).mono (fun _ t ht => ⟨?_, ?_⟩) fun _ _ hE => hE
    · rintro ⟨-, hyes, hno⟩
      rw [hdeleted hyes] at hno
      cases hno
    · rw [if_pos hone]
      refine ⟨ht.2 a (List.mem_singleton_self a), fun b w hb => ?_⟩
      rcases lookup_insert_eq_some.mp (ht.1 b w hb) with ⟨rfl, -⟩ | ⟨-, hb⟩
      · exact absurd ((ht.2 b (List.mem_singleton_self b)).symm.trans hb)
          (Option.some_ne_none w).symm
      · exact hb
  · obtain rfl := Option.some.inj (ha.symm.trans hu)
    refine ⟨fun h => hone h.1, ?_⟩
    rw [if_neg hone]

/-- A release of a variable, and whether gdb would delete its object. -/
def ReleaseStep (s : State) (op : Nat × Bool) (t : State) : Prop := Step s (.release op.1 op.2) t

/-- What is required of a release: the reference counter is not zero, a release that fails changes
nothing, and the last one deletes the variable if gdb deletes the object. -/
structure Undamaged (s : State) (op : Nat × Bool) (t : State) : Prop where
  counted : ∀ v, s.heap.lookup op.1 = some v → v.refcnt ≠ 0
  failed : exec (release op.1 op.2) s = some (.error (), t) → t = s
  deleted : ∀ v, s.heap.lookup op.1 = some v → v.refcnt = 1 → op.2 = true →
    t.heap.lookup op.1 = none

/-- The last reference is not released while gdb refuses to delete the object. -/
def Answered (s : State) (op : Nat × Bool) : Prop :=
  ∀ v, s.heap.lookup op.1 = some v → v.refcnt = 1 → s.isListed v = true → op.2 = true

/-- Every variable has a reference. -/
def Counted (s : State) : Prop := ∀ a v, s.heap.lookup a = some v → v.refcnt ≠ 0

/-- A release of a variable that is there. -/
theorem ReleaseStep.cases {op : Nat × Bool} (h : ReleaseStep s op t) :
    ∃ v, s.heap.lookup op.1 = some v ∧
      ((exec (release op.1 op.2) s = some (.ok (), t) ∧
          ¬ (v.refcnt = 1 ∧ s.isListed v = true ∧ op.2 = false) ∧
          if v.refcnt = 1 then t.heap.lookup op.1 = none ∧
            ∀ b w, t.heap.lookup b = some w → s.heap.lookup b = some w
          else t = s.setObject op.1 { v with refcnt := v.refcnt - 1 }) ∨
        (exec (release op.1 op.2) s = some (.error (), t) ∧
          (v.refcnt = 1 ∧ s.isListed v = true ∧ op.2 = false) ∧
          t = s.setObject op.1 { v with refcnt := 0 })) := by
  obtain ⟨r, hr⟩ := h
  rcases hlookup : s.heap.lookup op.1 with _ | v
  · have hnone : Post (release op.1 op.2) (fun _ _ => False) (fun _ _ => False) s := by
      unfold release
      rw [post_bind]
      refine post_deref fun v hv => ?_
      cases hlookup.symm.trans hv
    cases r with
    | ok u => exact (hnone _ hr).elim
    | error e => exact (hnone _ hr).elim
  · refine ⟨v, rfl, ?_⟩
    have hends := post_release_cases hlookup _ hr
    cases r with
    | ok u => exact Or.inl ⟨hr, hends⟩
    | error e => exact Or.inr ⟨hr, hends⟩

theorem Counted.step {op : Nat × Bool} (h : Counted s) (hstep : ReleaseStep s op t)
    (hanswered : Answered s op) : Counted t := by
  obtain ⟨v, hv, ⟨-, -, ht⟩ | ⟨-, ⟨hone, hlisted, hrefused⟩, -⟩⟩ := hstep.cases
  · split at ht
    · exact fun b w hb => h b w (ht.2 b w hb)
    · next hone =>
      rw [ht]
      intro b w hb
      rcases lookup_insert_eq_some.mp hb with ⟨-, rfl⟩ | ⟨-, hb⟩
      · intro hzero
        rw [BitVec.sub_eq_iff_eq_add] at hzero
        exact hone (by simpa using hzero)
      · exact h b w hb
  · rw [hanswered v hv hone hlisted] at hrefused
    cases hrefused

theorem Counted.undamaged_iff {op : Nat × Bool} (h : Counted s) (hstep : ReleaseStep s op t) :
    Undamaged s op t ↔ Answered s op := by
  obtain ⟨v, hv, ⟨hok, hnot, ht⟩ | ⟨herror, ⟨hone, hlisted, hrefused⟩, ht⟩⟩ := hstep.cases
  · refine iff_of_true ⟨h op.1, fun herror => ?_, fun u hu hone _ => ?_⟩ fun u hu hone hlisted => ?_
    · cases hok.symm.trans herror
    · obtain rfl := Option.some.inj (hv.symm.trans hu)
      rw [if_pos hone] at ht
      exact ht.1
    · obtain rfl := Option.some.inj (hv.symm.trans hu)
      by_contra hrefused
      exact hnot ⟨hone, hlisted, Bool.eq_false_of_not_eq_true hrefused⟩
  · refine iff_of_false (fun hsafe => ?_) fun hanswered => ?_
    · have hsame := hsafe.failed herror
      rw [ht] at hsame
      have hset : (s.setObject op.1 { v with refcnt := 0 }).heap.lookup op.1 =
          some { v with refcnt := 0 } := AList.lookup_insert _
      rw [hsame, hv, Option.some.injEq] at hset
      rw [hset] at hone
      cases hone
    · rw [hanswered v hv hone hlisted] at hrefused
      cases hrefused

/-- In a run of releases none does damage iff the last reference of a variable is never released
while gdb refuses to delete the object. -/
theorem run_undamaged_iff (h : Counted s) (ops : List (Nat × Bool)) :
    Run (fun s op t => ReleaseStep s op t ∧ Undamaged s op t) s ops t ↔
      Run (fun s op t => ReleaseStep s op t ∧ Answered s op) s ops t :=
  Run.guarded_iff h
    (fun _ _ _ hs hstep hanswered => hs.step hstep hanswered)
    (fun _ _ _ hs hstep => hs.undamaged_iff hstep) ops t

/-- A release that gdb refuses, and that does no damage, changes nothing. -/
theorem Undamaged.eq (ha : s.heap.lookup a = some v) (hone : v.refcnt = 1)
    (hlisted : s.isListed v = true) (hstep : ReleaseStep s (a, false) t)
    (h : Undamaged s (a, false) t) : t = s := by
  obtain ⟨u, hu, ⟨-, hnot, -⟩ | ⟨herror, -, -⟩⟩ := hstep.cases
  · obtain rfl := Option.some.inj (ha.symm.trans hu)
    exact absurd ⟨hone, hlisted, rfl⟩ hnot
  · exact h.failed herror

/-- However often gdb refuses before, the variable is deleted when it does not. -/
theorem deleted_of_undamaged {n : Nat} (ha : s.heap.lookup a = some v) (hone : v.refcnt = 1)
    (hlisted : s.isListed v = true)
    (hrun : Run (fun s op t => ReleaseStep s op t ∧ Undamaged s op t) s
      (List.replicate n (a, false) ++ [(a, true)]) t) : t.heap.lookup a = none := by
  have hsame : ∀ {ops t}, Run (fun s op t => ReleaseStep s op t ∧ Undamaged s op t) s ops t →
      (∀ op ∈ ops, op = (a, false)) → t = s := by
    intro ops t hrun
    induction hrun with
    | nil => exact fun _ => rfl
    | snoc _ hstep ih =>
        intro hops
        obtain rfl := hops _ (List.mem_append_right _ (List.mem_singleton_self _))
        obtain rfl := ih fun op hop => hops op (List.mem_append_left _ hop)
        exact Undamaged.eq ha hone hlisted hstep.1 hstep.2
  generalize hops : List.replicate n (a, false) ++ [(a, true)] = ops at hrun
  cases hrun with
  | nil => exact absurd hops (List.append_ne_nil_of_right_ne_nil _ (List.cons_ne_nil _ _))
  | snoc hbefore hstep =>
      obtain ⟨hinit, hlast⟩ := List.append_inj' hops rfl
      obtain rfl := (List.cons.inj hlast).1
      obtain rfl := hsame hbefore fun op hop => List.eq_of_mem_replicate (hinit ▸ hop)
      exact hstep.2.deleted v ha hone rfl

/-- The variable `a`, with some references. -/
private def stateA (refcnt : BitVec 32) : State :=
  (State.init.addRoot "u:a".toList { name := some "u:a".toList } .user).setObject 0
    { var := { name := some "u:a".toList }, origin := .user, refcnt }

private theorem counted_stateA {refcnt : BitVec 32} (h : refcnt ≠ 0) : Counted (stateA refcnt) := by
  intro a v ha
  rcases lookup_insert_eq_some.mp ha with ⟨-, rfl⟩ | ⟨hne, ha⟩
  · exact h
  · rcases lookup_insert_eq_some.mp ha with ⟨rfl, -⟩ | ⟨-, ha⟩
    · exact absurd rfl hne
    · cases ha

/-- A variable with two references: gdb is asked to delete it when the last one is released. -/
theorem released_twice : ∃ t, Run (fun s op t => ReleaseStep s op t ∧ Undamaged s op t) (stateA 2)
    [(0, false), (0, true)] t := by
  refine ⟨_, (run_undamaged_iff (counted_stateA (by decide)) _).mpr
    (Run.snoc (Run.snoc Run.nil ⟨⟨.ok (), rfl⟩, ?_⟩) ⟨⟨.ok (), rfl⟩, fun _ _ _ _ => rfl⟩)⟩
  intro v hv hone
  obtain rfl := Option.some.inj hv
  cases hone

/-- gdb refuses to delete the object, and when it would delete it the counter is below zero. -/
theorem refused_wraps : ∃ t u w, exec (release 0 false) (stateA 1) = some (.error (), t) ∧
    ¬ Undamaged (stateA 1) (0, false) t ∧ exec (release 0 true) t = some (.ok (), u) ∧
      u.heap.lookup 0 = some w ∧ w.refcnt = 0xffffffff := by
  refine ⟨_, _, _, rfl, fun h => ?_, rfl, rfl, rfl⟩
  have hsame := congrArg (fun s => (s.heap.lookup 0).map Object.refcnt) (h.failed rfl)
  cases hsame

end Vimgdb.Gdb.VariableMaps
