import Vimgdb.Gdb.FrameDeletions

/-!
# Updates that fail

A frame is entered in `gdb_frame_lst` before its variables are created, and one that is found there
is taken to be complete.

* `Complete`: the frames entered have the variables that gdb reported when they were entered.
* `Breaks`: a command fails while variables of a new frame are still to come.
* `run_complete_iff`: the frames stay complete in exactly the runs in which no update breaks.
-/

namespace Vimgdb.Gdb.Callstack

open Programs IntrusiveList Maps Runs
open VariableMaps (key)

variable {s t : State} {ctx : CStr} {g : Nat} {x : Listed} {xs : List Listed}

/-! ## Variables that are missing -/

/-- The name in gdb of a variable of a frame. -/
def Listed.key (ctx : CStr) (x : Listed) : CStr :=
  VariableMaps.key .callstack ctx (x.var.name.getD [])

/-- The variable is known, or created; `known` are the names known. -/
def Listed.creates (ctx : CStr) (known : CStr → Bool) (x : Listed) : Bool :=
  known (x.key ctx) || (x.create.isSome && x.info.isSome)

/-- The names known behind the variable. -/
def learned (ctx : CStr) (known : CStr → Bool) (x : Listed) (name : CStr) : Bool :=
  known name || name = x.key ctx

/-- The entry of the list is released. -/
def Listed.releases (ctx : CStr) (known : CStr → Bool) (x : Listed) : Bool :=
  !learned ctx known x (x.var.name.getD []) || x.deleted

/-- The variables that a new frame does not get because a command fails. -/
def missing (ctx : CStr) : (known : CStr → Bool) → List Listed → Option (List Listed)
  | _, [] => none
  | known, x :: xs =>
      if !x.creates ctx known then some (x :: xs)
      else if !x.releases ctx known then some xs
      else missing ctx (learned ctx known x) xs

/-- The names of the variables. -/
def knownIn (vars : VariableMaps.State) (name : CStr) : Bool := (vars.varLst.lookup name).isSome

theorem knownIn_eq_true {vars : VariableMaps.State} {name : CStr} {a : Nat}
    (h : vars.varLst.lookup name = some a) : knownIn vars name = true := by
  unfold knownIn
  rw [h]
  rfl

theorem knownIn_eq_false {vars : VariableMaps.State} {name : CStr} :
    knownIn vars name = false ↔ vars.varLst.lookup name = none := by
  unfold knownIn
  rw [Option.isSome_eq_false_iff, Option.isNone_iff_eq_none]

/-- `acquire` for a variable of a frame. -/
theorem post_acquire_callstack {s : VariableMaps.State} {name : CStr}
    {create info : Option Variable}
    (h : VariableMaps.Inv [] s) :
    Post (VariableMaps.acquire .callstack ctx name create info)
      (fun a t => VariableMaps.Inv [] t ∧ VariableMaps.Kept s t ∧
        (∃ w, t.heap.lookup a = some w ∧ w.var.name = some (key .callstack ctx name)) ∧
        (∀ n, knownIn t n = (knownIn s n || n = key .callstack ctx name)) ∧
        (knownIn s (key .callstack ctx name) = true ∨ create ≠ none ∧ info ≠ none))
      (fun _ t => VariableMaps.Inv [] t ∧ VariableMaps.Kept s t ∧
        knownIn s (key .callstack ctx name) = false ∧ (create = none ∨ info = none)) s := by
  have hkeeps := VariableMaps.keeps_acquire .callstack ctx name create info s h
  refine ((hkeeps.and ?_).mono (fun _ _ ht => ht) fun _ _ ht => ht)
  refine VariableMaps.acquire_spec (fun hfails => ?_) (fun _ a v ha hv => ?_)
    fun _ hnone v hcreate hname hunused => ?_
  · obtain ⟨hnone, rfl⟩ := hfails.resolve_left (by decide)
    exact ⟨.refl s, knownIn_eq_false.mpr hnone, Or.inl rfl⟩
  · obtain ⟨u, hu, huname⟩ := h.names.keyed _ a ha
    obtain rfl := Option.some.inj (hu.symm.trans hv)
    have hknown : knownIn s (key .callstack ctx name) = true := knownIn_eq_true ha
    refine ⟨VariableMaps.kept_setObject hv rfl, ⟨_, AList.lookup_insert _, huname⟩, fun n => ?_,
      Or.inl hknown⟩
    show knownIn s n = _
    by_cases hn : n = key .callstack ctx name
    · rw [hn, hknown]
      rfl
    · rw [decide_eq_false hn, Bool.or_false]
  · have hkept : VariableMaps.Kept s (s.addRoot (key .callstack ctx name) v .callstack) := by
      intro b u hb
      exact ⟨u, lookup_insert_eq_some.mpr (Or.inr ⟨Nat.ne_of_lt (h.names.below b u hb), hb⟩), rfl⟩
    refine ⟨fun hinfo => ⟨hkept, knownIn_eq_false.mpr hnone, Or.inr hinfo⟩, fun i hinfo => ?_⟩
    refine ⟨hkept.trans (VariableMaps.kept_setObject (AList.lookup_insert _) rfl),
      ⟨_, AList.lookup_insert _, hname⟩, fun n => ?_, Or.inr ⟨?_, ?_⟩⟩
    · show ((s.varLst.insert (key .callstack ctx name) s.next).lookup n).isSome = _
      by_cases hn : n = key .callstack ctx name
      · rw [hn, AList.lookup_insert, decide_eq_true rfl, Bool.or_true]
        rfl
      · rw [AList.lookup_insert_ne hn, decide_eq_false hn, Bool.or_false]
        rfl
    · rw [hcreate]
      exact Option.some_ne_none v
    · rw [hinfo]
      exact Option.some_ne_none i

/-! ## The variables of a new frame -/

/-- The frame gets no variable. -/
theorem filled_vars {v : VariableMaps.State} (h : VariableMaps.Inv [] v)
    (hkept : VariableMaps.Kept s.vars v) : Filled ctx g [] s { s with vars := v } where
  vars := h
  kept := hkept
  others _ _ := rfl
  frame o ho := ⟨[], [], by simpa using ho, .nil, .nil⟩
  next := rfl
  links := rfl
  frameLst := rfl
  callstack := rfl

/-- The loop body for a variable. -/
theorem filled_addVariable {known : CStr → Bool} (h : VariableMaps.Inv [] s.vars)
    (hknown : ∀ n, knownIn s.vars n = known n) :
    Post (addVariable ctx g x)
      (fun _ t => Filled ctx g [x] s t ∧ (∀ n, knownIn t.vars n = learned ctx known x n) ∧
        x.creates ctx known = true ∧ x.releases ctx known = true)
      (fun _ t => x.creates ctx known = false ∧ Filled ctx g [] s t ∨
        x.creates ctx known = true ∧ x.releases ctx known = false ∧ Filled ctx g [x] s t) s := by
  unfold addVariable
  split
  · exact post_undefined
  · next name hname =>
    have hkey : x.key ctx = key .callstack ctx name := by
      unfold Listed.key
      rw [hname]
      rfl
    dsimp only
    unfold onVars
    rw [post_bind, post_zoom]
    refine (post_acquire_callstack h).mono (fun a v hv => ?_) fun _ v hv => ?_
    · obtain ⟨hinv, hkept, ⟨w, hw, hwname⟩, hlearned, hcreates⟩ := hv
      rw [post_bind, post_zoom]
      refine VariableMaps.post_deref fun u hu => ?_
      obtain rfl := Option.some.inj (hw.symm.trans hu)
      rw [post_bind, post_zoom, post_modify, post_bind]
      refine post_deref fun o ho => ?_
      rw [post_bind, post_modify, post_zoom]
      have hfilled := filled_push (x := x) hinv hkept hw hwname hname ho
      have hknown' : ∀ n, knownIn (v.setObject a (referred w x.var.argument)) n =
          learned ctx known x n := by
        intro n
        unfold learned
        rw [hkey, ← hknown]
        exact hlearned n
      have hcreates' : x.creates ctx known = true := by
        unfold Listed.creates
        rw [hkey, ← hknown]
        rcases hcreates with hyes | ⟨hcreate, hinfo⟩
        · rw [hyes]
          rfl
        · rw [Ne, Option.map_eq_none_iff] at hcreate
          rw [Option.isSome_iff_ne_none.mpr hcreate, Option.isSome_iff_ne_none.mpr hinfo]
          exact Bool.or_true _
      have hreleases : x.releases ctx known =
          !(knownIn (v.setObject a (referred w x.var.argument)) name && !x.deleted) := by
        unfold Listed.releases
        rw [← hknown', hname, Bool.not_and, Bool.not_not]
        rfl
      unfold releaseEntry
      rw [post_bind, post_get]
      split
      · next hrefused =>
        refine post_throw.mpr (Or.inr ⟨hcreates', ?_, hfilled⟩)
        rw [hreleases]
        exact congrArg Bool.not hrefused
      · next hreleased =>
        refine post_pure.mpr ⟨hfilled, hknown', hcreates', ?_⟩
        rw [hreleases]
        exact congrArg Bool.not (Bool.eq_false_of_not_eq_true hreleased)
    · obtain ⟨hinv, hkept, hunknown, hnone⟩ := hv
      refine Or.inl ⟨?_, filled_vars hinv hkept⟩
      unfold Listed.creates
      rw [hkey, ← hknown, hunknown, Bool.false_or]
      rcases hnone with hnone | hnone
      · rw [Option.map_eq_none_iff.mp hnone]
        rfl
      · rw [hnone]
        exact Bool.and_false _

/-- The variables are added until a command fails. -/
theorem filled_addVariables {known : CStr → Bool} (h : VariableMaps.Inv [] s.vars)
    (hknown : ∀ n, knownIn s.vars n = known n) :
    Post (xs.forM (addVariable ctx g))
      (fun _ t => Filled ctx g xs s t ∧ (∀ n, knownIn t.vars n = xs.foldl (learned ctx) known n) ∧
        missing ctx known xs = none)
      (fun _ t => ∃ done rest, xs = done ++ rest ∧ missing ctx known xs = some rest ∧
        Filled ctx g done s t) s := by
  induction xs generalizing s known with
  | nil => exact post_pure.mpr ⟨filled_nil h, hknown, rfl⟩
  | cons x xs ih =>
      show Post (addVariable ctx g x >>= fun _ => xs.forM (addVariable ctx g)) _ _ s
      rw [post_bind]
      refine (filled_addVariable h hknown).mono (fun _ t ht => ?_) fun _ t ht => ?_
      · obtain ⟨hfilled, hlearned, hcreates, hreleases⟩ := ht
        have hmissing : missing ctx known (x :: xs) = missing ctx (learned ctx known x) xs := by
          rw [missing, hcreates, hreleases]
          rfl
        rw [hmissing]
        refine (ih hfilled.vars hlearned).mono (fun _ u hu => ?_) fun _ u hu => ?_
        · exact ⟨hfilled.cons hu.1, hu.2.1, hu.2.2⟩
        · obtain ⟨done, rest, rfl, hrest, hu⟩ := hu
          exact ⟨x :: done, rest, rfl, hrest, hfilled.cons hu⟩
      · rcases ht with ⟨hcreates, hfilled⟩ | ⟨hcreates, hreleases, hfilled⟩
        · refine ⟨[], x :: xs, rfl, ?_, hfilled⟩
          rw [missing, hcreates]
          rfl
        · refine ⟨[x], xs, rfl, ?_, hfilled⟩
          rw [missing, hcreates, hreleases]
          rfl

/-! ## What is required and what it takes -/

/-- The frame has the variables of the report. -/
def HasAll (vars : VariableMaps.State) (q : CStr × Report) (o : Object) : Prop :=
  Named vars q.1 o.args q.2.args ∧ Named vars q.1 o.locals q.2.locals

/-- Every frame in `gdb_frame_lst` has the variables that gdb reported when it was entered.  The
reports are `past`. -/
def Complete (past : List (CStr × CStr × Report)) (s : State) : Prop :=
  ∀ k f, s.frameLst.lookup k = some f → ∃ q o, past.lookup k = some q ∧
    s.frames.lookup f = some o ∧ HasAll s.vars q o

/-- The frame is entered. -/
def enteredIn (s : State) (k : CStr) : Bool := (s.frameLst.lookup k).isSome

/-- The key of a level, its context and what gdb reports. -/
def Level.point (ctx : CStr) (l : Level) : CStr × CStr × Report :=
  (l.context ctx ++ ':' :: l.function, l.context ctx, l.report)

/-- A command fails while variables of a new frame are still to come.  `frames` are the keys of the
frames that are entered, and `known` the names known. -/
def Breaks : (frames known : CStr → Bool) → (ctx : CStr) → List Level → Prop
  | _, _, _, [] => False
  | frames, known, ctx, l :: ls =>
      match l.vars with
      | none => False
      | some varlst =>
          if frames (l.point ctx).1 then Breaks frames known (l.context ctx) ls
          else
            match missing (l.context ctx) known varlst with
            | some rest => rest ≠ []
            | none => Breaks (fun k => frames k || k = (l.point ctx).1)
                (varlst.foldl (learned (l.context ctx)) known) (l.context ctx) ls

/-- An update: whether the window exists, and the reply to `stack-list-frames`. -/
structure Stop where
  window : Bool
  frames : Option (List Level)

/-- The frames from the outermost one on. -/
def Stop.levels (e : Stop) : List Level := (e.frames.getD []).reverse

/-- A command fails at the stop while variables of a new frame are still to come. -/
def Stop.Breaks (e : Stop) (s : State) : Prop :=
  e.window = true ∧ Callstack.Breaks (enteredIn s) (knownIn s.vars) [] e.levels

/-- The state, with what gdb has reported of the frames that are entered. -/
structure History where
  past : List (CStr × CStr × Report)
  state : State

/-- An update that ends, with an error or without. -/
def History.Step (h : History) (e : Stop) (h' : History) : Prop :=
  (∃ r, exec (update e.window e.frames) h.state = some (r, h'.state)) ∧
    h'.past = h.past ++ (points [] e.levels).filter fun p => enteredIn h'.state p.1

/-! ## The invariant -/

variable {past done : List (CStr × CStr × Report)} {ls : List Level} {l : Level} {u : Nat}
  {us : List Nat} {framelst : Option Nat} {s₀ : State}

/-- What is known of the frames while none has been left incomplete. -/
structure Good (past : List (CStr × CStr × Report)) (s : State) : Prop where
  bounded : Bounded s
  vars : VariableMaps.Inv [] s.vars
  held : ∀ p ∈ past, enteredIn s p.1 = true
  found : ∀ k f, s.frameLst.lookup k = some f → ∃ q o, past.lookup k = some q ∧
    s.frames.lookup f = some o ∧ o.context = some k ∧ HasAll s.vars q o

/-- A frame has been left incomplete. -/
def Bad (past : List (CStr × CStr × Report)) (s : State) : Prop :=
  (∀ p ∈ past, enteredIn s p.1 = true) ∧ ∃ k f q o, s.frameLst.lookup k = some f ∧
    past.lookup k = some q ∧ s.frames.lookup f = some o ∧ ¬ HasAll s.vars q o

theorem Good.complete (h : Good past s) : Complete past s := by
  intro k f hk
  obtain ⟨q, o, hq, ho, -, hall⟩ := h.found k f hk
  exact ⟨q, o, hq, ho, hall⟩

theorem Bad.not_complete (h : Bad past s) : ¬ Complete past s := by
  intro hcomplete
  obtain ⟨-, k, f, q, o, hk, hq, ho, hnot⟩ := h
  obtain ⟨q', o', hq', ho', hall⟩ := hcomplete k f hk
  obtain rfl := Option.some.inj (hq.symm.trans hq')
  obtain rfl := Option.some.inj (ho.symm.trans ho')
  exact hnot hall

theorem HasAll.kept {v w : VariableMaps.State} {q : CStr × Report} {o : Object} (h : HasAll v q o)
    (hkept : VariableMaps.Kept v w) : HasAll w q o :=
  ⟨h.1.kept hkept, h.2.kept hkept⟩

/-- The frames that are entered have been reported, so further reports do not matter. -/
theorem Good.append (h : Good past s) {more : List (CStr × CStr × Report)}
    (hmore : ∀ p ∈ more, enteredIn s p.1 = true) : Good (past ++ more) s where
  bounded := h.bounded
  vars := h.vars
  held p hp := (List.mem_append.mp hp).elim (h.held p) (hmore p)
  found k f hk := by
    obtain ⟨q, o, hq, hrest⟩ := h.found k f hk
    refine ⟨q, o, ?_, hrest⟩
    rw [List.lookup_append, hq]
    rfl

theorem Bad.append (h : Bad past s) {more : List (CStr × CStr × Report)}
    (hmore : ∀ p ∈ more, enteredIn s p.1 = true) : Bad (past ++ more) s := by
  obtain ⟨hheld, k, f, q, o, hk, hq, hrest⟩ := h
  refine ⟨fun p hp => (List.mem_append.mp hp).elim (hheld p) (hmore p), k, f, q, o, hk, ?_, hrest⟩
  rw [List.lookup_append, hq]
  rfl

theorem names_append (argument : Bool) (xs ys : List Listed) :
    names argument (xs ++ ys) = names argument xs ++ names argument ys := by
  unfold names
  rw [List.filter_append, List.map_append]

/-- Variables that have names are not missing. -/
theorem Named.append_iff {vars : VariableMaps.State} {as : List Nat} {argument : Bool}
    {rest : List Listed} (h : Named vars ctx as (names argument xs)) :
    Named vars ctx as (names argument (xs ++ rest)) ↔ names argument rest = [] := by
  rw [names_append]
  constructor
  · intro hall
    have hlength := h.length_eq.symm.trans hall.length_eq
    rw [List.length_append] at hlength
    exact List.eq_nil_of_length_eq_zero (by omega)
  · intro hnil
    rw [hnil, List.append_nil]
    exact h

/-- A variable is an argument or is not one. -/
theorem names_eq_nil_iff : names true xs = [] ∧ names false xs = [] ↔ xs = [] := by
  constructor
  · rintro ⟨hargs, hlocals⟩
    cases xs with
    | nil => rfl
    | cons x xs =>
        unfold names at hargs hlocals
        rw [List.map_eq_nil_iff, List.filter_eq_nil_iff] at hargs hlocals
        cases hargument : x.var.argument with
        | true => exact absurd (decide_eq_true hargument) (hargs x List.mem_cons_self)
        | false => exact absurd (decide_eq_true hargument) (hlocals x List.mem_cons_self)
  · rintro rfl
    exact ⟨rfl, rfl⟩

/-- A new frame has all variables of its level iff none is missing. -/
theorem hasAll_iff {rest : List Listed} {vars : VariableMaps.State} {o : Object}
    (hvars : l.vars = some (xs ++ rest)) (hargs : Named vars ctx o.args (names true xs))
    (hlocals : Named vars ctx o.locals (names false xs)) :
    HasAll vars (ctx, l.report) o ↔ rest = [] := by
  have hreport : ∀ argument, names argument (l.vars.getD []) = names argument (xs ++ rest) := by
    intro argument
    rw [hvars]
    rfl
  show Named vars ctx o.args (names true (l.vars.getD [])) ∧
    Named vars ctx o.locals (names false (l.vars.getD [])) ↔ _
  rw [hreport, hreport, hargs.append_iff, hlocals.append_iff, names_eq_nil_iff]

/-! ## A frame comes to the callstack -/

/-- The frame `u` has been entered and has got the variables of the list. -/
structure Added (ctx key : CStr) (u : Nat) (xs : List Listed) (s t : State) : Prop where
  vars : VariableMaps.Inv [] t.vars
  kept : VariableMaps.Kept s.vars t.vars
  others : ∀ b, b ≠ u → t.frames.lookup b = s.frames.lookup b
  frame : ∃ o, t.frames.lookup u = some o ∧ o.context = some key ∧
    Named t.vars ctx o.args (names true xs) ∧ Named t.vars ctx o.locals (names false xs)
  frameLst : t.frameLst = s.frameLst.insert key u

/-- Only the frame `u` has changed. -/
structure Dropped (u : Nat) (s t : State) : Prop where
  vars : t.vars = s.vars
  others : ∀ b, b ≠ u → t.frames.lookup b = s.frames.lookup b
  frameLst : t.frameLst = s.frameLst

theorem Filled.added {s' : State} {key : CStr} {f : Frame} (h : Filled ctx u xs s' t)
    (hvars : s'.vars = s.vars)
    (hframes : s'.frames = s.frames.insert u { frame := f, context := some key })
    (hlst : s'.frameLst = s.frameLst.insert key u) : Added ctx key u xs s t := by
  have hlookup : ∀ b, s'.frames.lookup b =
      (s.frames.insert u { frame := f, context := some key }).lookup b := fun b => by rw [hframes]
  obtain ⟨as, bs, hframe, has, hbs⟩ := h.frame _ ((hlookup u).trans (AList.lookup_insert _))
  exact {
    vars := h.vars
    kept := hvars ▸ h.kept
    others := fun b hb =>
      (h.others b hb).trans ((hlookup b).trans (AList.lookup_insert_ne hb))
    frame := ⟨_, hframe, rfl, has, hbs⟩
    frameLst := h.frameLst.trans hlst }

/-- The frame has been entered; its variables are added. -/
theorem post_addNew {s' : State} {key : CStr} {f : Frame} (h : VariableMaps.Inv [] s.vars)
    (hvars : s'.vars = s.vars)
    (hframes : s'.frames = s.frames.insert u { frame := f, context := some key })
    (hlst : s'.frameLst = s.frameLst.insert key u) :
    Post (xs.forM (addVariable ctx u))
      (fun _ t => missing ctx (knownIn s.vars) xs = none ∧ Added ctx key u xs s t ∧
        ∀ n, knownIn t.vars n = xs.foldl (learned ctx) (knownIn s.vars) n)
      (fun _ t => ∃ done rest, xs = done ++ rest ∧ missing ctx (knownIn s.vars) xs = some rest ∧
        Added ctx key u done s t) s' := by
  have hknown : ∀ n, knownIn s'.vars n = knownIn s.vars n := fun n => by rw [hvars]
  refine (filled_addVariables (hvars ▸ h) hknown).mono (fun _ t ht => ?_) fun _ t ht => ?_
  · exact ⟨ht.2.2, ht.1.added hvars hframes hlst, ht.2.1⟩
  · obtain ⟨done, rest, hxs, hrest, hfilled⟩ := ht
    exact ⟨done, rest, hxs, hrest, hfilled.added hvars hframes hlst⟩

theorem post_addTail {a : Nat} {E : Unit → State → Prop} :
    Post (addTail a) (fun _ t => ∃ links callstack, t = { s with links, callstack }) E s := by
  unfold addTail
  rw [post_bind, post_get]
  split
  · exact post_undefined
  · next links callstack _ => exact post_modify.mpr ⟨links, callstack, rfl⟩

theorem post_rm {a : Nat} {E : Unit → State → Prop} :
    Post (rm framelst a) (fun _ t => ∃ links, t = { s with links }) E s := by
  unfold rm
  rw [post_bind, post_get]
  split
  · exact post_undefined
  · next links lst _ =>
    rw [post_bind, post_modify, post_pure]
    exact ⟨links, rfl⟩

/-- A frame that is not entered and has no variables is deleted. -/
theorem dropped_release {f : Frame} {deleted : Bool} {E : Unit → State → Prop}
    (hu : s.frames.lookup u = some { frame := f }) :
    Post (release u deleted) (fun _ t => Dropped u s t) E s := by
  unfold release
  rw [post_bind]
  refine post_deref fun o ho => ?_
  obtain rfl := Option.some.inj (hu.symm.trans ho)
  rw [post_bind, post_modify]
  exact post_attempt.mpr (post_zoom.mpr (post_pure.mpr {
    vars := rfl
    others := fun b hb => AList.lookup_erase_ne hb
    frameLst := rfl }))

/-- The frame is entered unless one was entered under its key. -/
theorem added_enter {function : CStr} {f : Frame} {deleted : Bool}
    (hvars : VariableMaps.Inv [] s.vars) (hu : s.frames.lookup u = some { frame := f })
    (hunlisted : ∀ k, s.frameLst.lookup k ≠ some u) :
    Post (enter ctx function framelst u xs deleted)
      (fun _ t =>
        enteredIn s (ctx ++ ':' :: function) = true ∧ Dropped u s t ∨
        enteredIn s (ctx ++ ':' :: function) = false ∧ missing ctx (knownIn s.vars) xs = none ∧
          Added ctx (ctx ++ ':' :: function) u xs s t ∧
          ∀ n, knownIn t.vars n = xs.foldl (learned ctx) (knownIn s.vars) n)
      (fun _ t => enteredIn s (ctx ++ ':' :: function) = false ∧ ∃ done rest, xs = done ++ rest ∧
        missing ctx (knownIn s.vars) xs = some rest ∧
          Added ctx (ctx ++ ':' :: function) u done s t) s := by
  unfold enter acquire
  rw [post_bind, post_bind, post_get]
  dsimp only
  split
  · next g hg =>
    have hgu : g ≠ u := fun heq => hunlisted _ (heq ▸ hg)
    have hentered : enteredIn s (ctx ++ ':' :: function) = true := by
      unfold enteredIn
      rw [hg]
      rfl
    rw [post_pure, post_bind]
    refine post_addTail.mono (fun _ t ht => ?_) fun _ _ hE => hE
    obtain ⟨links, callstack, rfl⟩ := ht
    rw [if_pos hgu, post_bind]
    refine post_rm.mono (fun lst t ht => ?_) fun _ _ hE => hE
    obtain ⟨links', rfl⟩ := ht
    rw [post_bind]
    have hu' : { s with links := links', callstack }.frames.lookup u = some { frame := f } := hu
    show Post (release u deleted) _ _ { s with links := links', callstack }
    refine (dropped_release hu').mono (fun _ t ht => ?_) fun _ _ hE => hE
    exact post_pure.mpr (Or.inl ⟨hentered, { ht with }⟩)
  · next hnone =>
    have hentered : enteredIn s (ctx ++ ':' :: function) = false := by
      unfold enteredIn
      rw [hnone]
      rfl
    rw [post_bind]
    refine post_deref fun o ho => ?_
    obtain rfl := Option.some.inj (hu.symm.trans ho)
    rw [post_bind, post_modify, post_pure, post_bind]
    refine post_addTail.mono (fun _ t ht => ?_) fun _ _ hE => hE
    obtain ⟨links, callstack, rfl⟩ := ht
    rw [if_neg (not_not_intro rfl), post_bind]
    refine Post.mono (@post_addNew s _ _ u _ (ctx ++ ':' :: function) f hvars ?_ ?_ ?_)
      (fun _ t ht => ?_) fun _ t ht => ?_
    · rfl
    · rfl
    · rfl
    · exact post_pure.mpr (Or.inr ⟨hentered, ht⟩)
    · exact ⟨hentered, ht⟩

/-- What is known stays known when a frame is dropped. -/
theorem Good.dropped (h : Good past s) (hdropped : Dropped u s t) (hbounded : Bounded t)
    (hunlisted : ∀ k, s.frameLst.lookup k ≠ some u) : Good past t where
  bounded := hbounded
  vars := hdropped.vars ▸ h.vars
  held p hp := by
    unfold enteredIn
    rw [hdropped.frameLst]
    exact h.held p hp
  found k f hk := by
    rw [hdropped.frameLst] at hk
    obtain ⟨q, o, hq, ho, hrest⟩ := h.found k f hk
    have hfu : f ≠ u := fun heq => hunlisted k (heq ▸ hk)
    exact ⟨q, o, hq, (hdropped.others f hfu).trans ho, hdropped.vars ▸ hrest⟩

theorem Added.entered {key : CStr} (h : Added ctx key u xs s t) (k : CStr) :
    enteredIn t k = (enteredIn s k || k = key) := by
  unfold enteredIn
  rw [h.frameLst]
  by_cases hk : k = key
  · rw [hk, AList.lookup_insert, decide_eq_true rfl, Bool.or_true]
    rfl
  · rw [AList.lookup_insert_ne hk, decide_eq_false hk, Bool.or_false]

/-- The report of a frame that has just been entered is the last one. -/
theorem Good.lookup_new (h : Good past s) {key : CStr} (hnew : enteredIn s key = false)
    (q : CStr × Report) : (past ++ [(key, q)]).lookup key = some q := by
  refine lookup_append_singleton.mpr (Or.inr ⟨?_, rfl⟩)
  rw [List.lookup_eq_none_iff]
  intro p hp
  refine bne_iff_ne.mpr ?_
  rintro rfl
  rw [h.held p hp] at hnew
  cases hnew

/-- A frame has been entered with all its variables. -/
theorem Good.added (h : Good past s) {key : CStr} {rest : List Listed}
    (hvars : l.vars = some (xs ++ rest)) (hadded : Added ctx key u xs s t) (hbounded : Bounded t)
    (hunlisted : ∀ k, s.frameLst.lookup k ≠ some u) (hnew : enteredIn s key = false)
    (hrest : rest = []) : Good (past ++ [(key, ctx, l.report)]) t where
  bounded := hbounded
  vars := hadded.vars
  held p hp := by
    rw [hadded.entered]
    rcases List.mem_append.mp hp with hp | hp
    · rw [h.held p hp]
      rfl
    · obtain rfl := List.mem_singleton.mp hp
      rw [decide_eq_true rfl, Bool.or_true]
  found k f hk := by
    rw [hadded.frameLst] at hk
    rcases lookup_insert_eq_some.mp hk with ⟨rfl, rfl⟩ | ⟨-, hk⟩
    · obtain ⟨o, ho, hkey, hargs, hlocals⟩ := hadded.frame
      exact ⟨_, o, h.lookup_new hnew _, ho, hkey, (hasAll_iff hvars hargs hlocals).mpr hrest⟩
    · obtain ⟨q, o, hq, ho, hkey, hall⟩ := h.found k f hk
      have hfu : f ≠ u := fun heq => hunlisted k (heq ▸ hk)
      exact ⟨q, o, lookup_append_singleton.mpr (Or.inl hq), (hadded.others f hfu).trans ho, hkey,
        hall.kept hadded.kept⟩

/-- A frame has been entered without all its variables. -/
theorem Good.broken (h : Good past s) {key : CStr} {rest : List Listed}
    (hvars : l.vars = some (xs ++ rest)) (hadded : Added ctx key u xs s t)
    (hnew : enteredIn s key = false) (hrest : rest ≠ []) :
    Bad (past ++ [(key, ctx, l.report)]) t := by
  obtain ⟨o, ho, -, hargs, hlocals⟩ := hadded.frame
  refine ⟨fun p hp => ?_, key, u, _, o, ?_, h.lookup_new hnew _, ho, fun hall => ?_⟩
  · rw [hadded.entered]
    rcases List.mem_append.mp hp with hp | hp
    · rw [h.held p hp]
      rfl
    · obtain rfl := List.mem_singleton.mp hp
      rw [decide_eq_true rfl, Bool.or_true]
  · rw [hadded.frameLst]
    exact AList.lookup_insert _
  · exact hrest ((hasAll_iff hvars hargs hlocals).mp hall)

/-! ## The loop -/

theorem breaks_unlisted {frames known : CStr → Bool} (hvars : l.vars = none) :
    ¬ Breaks frames known ctx (l :: ls) := by
  unfold Breaks
  rw [hvars]
  exact not_false

theorem breaks_found {frames known : CStr → Bool} (hvars : l.vars = some xs)
    (hfound : frames (l.point ctx).1 = true) :
    Breaks frames known ctx (l :: ls) ↔ Breaks frames known (l.context ctx) ls := by
  rw [Breaks]
  simp only [hvars]
  rw [if_pos hfound]

theorem breaks_missing {frames known : CStr → Bool} {rest : List Listed} (hvars : l.vars = some xs)
    (hnew : frames (l.point ctx).1 = false)
    (hmissing : missing (l.context ctx) known xs = some rest) :
    Breaks frames known ctx (l :: ls) ↔ rest ≠ [] := by
  rw [Breaks]
  simp only [hvars]
  rw [if_neg (Bool.eq_false_iff.mp hnew), hmissing]

theorem breaks_new {frames known : CStr → Bool} (hvars : l.vars = some xs)
    (hnew : frames (l.point ctx).1 = false) (hmissing : missing (l.context ctx) known xs = none) :
    Breaks frames known ctx (l :: ls) ↔ Breaks (fun k => frames k || k = (l.point ctx).1)
      (xs.foldl (learned (l.context ctx)) known) (l.context ctx) ls := by
  rw [Breaks]
  simp only [hvars]
  rw [if_neg (Bool.eq_false_iff.mp hnew), hmissing]

/-- The loop has come to a level.  The frames `us` are to come, one for each of the levels `ls`. -/
structure Stage (s₀ : State) (past : List (CStr × CStr × Report)) (framelst : Option Nat)
    (ls : List Level) (us : List Nat) (s : State) : Prop where
  walk : Walk s₀ framelst us s
  good : Good past s
  pending : Pending s ls us

/-- Some of the levels have been dealt with, and a frame has been left incomplete iff it breaks. -/
def Settled (past : List (CStr × CStr × Report)) (ctx : CStr) (ls : List Level) (breaks : Prop)
    (s : State) : Prop :=
  ∃ mid rest, points ctx ls = mid ++ rest ∧ (breaks → Bad (past ++ mid) s) ∧
    (¬ breaks → Good (past ++ mid) s)

/-- The levels behind are settled. -/
theorem Settled.cons {breaks : Prop}
    (h : Settled (past ++ [(l.context ctx ++ ':' :: l.function, l.context ctx, l.report)])
      (l.context ctx) ls breaks s) : Settled past ctx (l :: ls) breaks s := by
  obtain ⟨mid, rest, hpoints, hbad, hgood⟩ := h
  rw [← List.append_cons] at hbad hgood
  exact ⟨_ :: mid, rest, congrArg _ hpoints, hbad, hgood⟩

/-- The frame of the level is dropped: the one that was entered is used again. -/
theorem Stage.dropped (h : Stage s₀ past framelst (l :: ls) (u :: us) s) {lst : Option Nat}
    (hfound : enteredIn s (l.point ctx).1 = true) (hdropped : Dropped u s t)
    (hwalk : Walk s₀ lst us t) : Stage s₀ (past ++ [l.point ctx]) lst ls us t := by
  obtain ⟨⟨-, hlisted⟩, hpending⟩ := List.forall₂_cons.mp h.pending
  obtain ⟨huus, -⟩ := List.nodup_cons.mp h.walk.rest.nodup
  refine ⟨hwalk, (h.good.dropped hdropped hwalk.remains.refl fun k hk => hlisted ⟨k, hk⟩).append ?_,
    Pending.congr hpending (fun w hw => hdropped.others w (ne_of_mem_of_not_mem hw huus)) ?_⟩
  · intro p hp
    obtain rfl := List.mem_singleton.mp hp
    unfold enteredIn
    rw [hdropped.frameLst]
    exact hfound
  · rintro w hw ⟨k, hk⟩
    exact ⟨k, hdropped.frameLst ▸ hk⟩

/-- The frame of the level is entered with all variables. -/
theorem Stage.added (h : Stage s₀ past framelst (l :: ls) (u :: us) s) {lst : Option Nat}
    (hvars : l.vars = some xs) (hnew : enteredIn s (l.point ctx).1 = false)
    (hadded : Added (l.context ctx) (l.point ctx).1 u xs s t) (hwalk : Walk s₀ lst us t) :
    Stage s₀ (past ++ [l.point ctx]) lst ls us t := by
  obtain ⟨⟨-, hlisted⟩, hpending⟩ := List.forall₂_cons.mp h.pending
  obtain ⟨huus, -⟩ := List.nodup_cons.mp h.walk.rest.nodup
  have hall : l.vars = some (xs ++ []) := by rw [hvars, List.append_nil]
  refine ⟨hwalk, h.good.added hall hadded hwalk.remains.refl (fun k hk => hlisted ⟨k, hk⟩) hnew rfl,
    Pending.congr hpending (fun w hw => hadded.others w (ne_of_mem_of_not_mem hw huus)) ?_⟩
  rintro w hw ⟨k, hk⟩
  rw [hadded.frameLst] at hk
  rcases lookup_insert_eq_some.mp hk with ⟨-, rfl⟩ | ⟨-, hk⟩
  · exact absurd hw huus
  · exact ⟨k, hk⟩

/-- What is known behind the loop body for a frame, if the walk goes on. -/
theorem Stage.entered (h : Stage s₀ past framelst (l :: ls) (u :: us) s) (ctx : CStr) :
    Post (addFrame ctx framelst u l)
      (fun r t => r.1 = l.context ctx ∧
        (Walk s₀ r.2 us t → Stage s₀ (past ++ [l.point ctx]) r.2 ls us t) ∧
        (Breaks (enteredIn s) (knownIn s.vars) ctx (l :: ls) ↔
          Breaks (enteredIn t) (knownIn t.vars) (l.context ctx) ls))
      (fun _ t => Bounded t →
        Settled past ctx (l :: ls) (Breaks (enteredIn s) (knownIn s.vars) ctx (l :: ls)) t) s := by
  obtain ⟨⟨hu, hlisted⟩, -⟩ := List.forall₂_cons.mp h.pending
  have hunlisted : ∀ k, s.frameLst.lookup k ≠ some u := fun k hk => hlisted ⟨k, hk⟩
  unfold addFrame
  cases hvars : l.vars with
  | none =>
      refine post_throw.mpr fun _ => ⟨[], _, rfl, fun hbreaks => ?_, fun _ => ?_⟩
      · exact absurd hbreaks (breaks_unlisted hvars)
      · rw [List.append_nil]
        exact h.good
  | some varlst =>
      dsimp only
      rw [post_bind]
      refine post_deref fun o ho => ?_
      obtain rfl := Option.some.inj (hu.symm.trans ho)
      split
      · next function args hfunction hargs =>
        obtain rfl : l.function = function := by
          unfold Level.function
          rw [hfunction]
          rfl
        have hctx : ctx ++ l.function ++ ':' :: args = l.context ctx := by
          unfold Level.context
          rw [hvars]
          show _ = ctx ++ l.function ++ ':' :: (arguments varlst).getD []
          rw [hargs]
          rfl
        rw [hctx, post_bind]
        refine (added_enter h.good.vars hu hunlisted).mono (fun lst t ht => ?_) fun _ t ht => ?_
        · refine post_pure.mpr ⟨rfl, ?_⟩
          rcases ht with ⟨hfound, hdropped⟩ | ⟨hnew, hmissing, hadded, hlearned⟩
          · refine ⟨h.dropped hfound hdropped, (breaks_found hvars hfound).trans ?_⟩
            unfold enteredIn
            rw [hdropped.frameLst, hdropped.vars]
          · refine ⟨h.added hvars hnew hadded, (breaks_new hvars hnew hmissing).trans ?_⟩
            rw [funext hlearned, (funext hadded.entered : enteredIn t = _)]
            rfl
        · obtain ⟨hnew, done, rest, rfl, hmissing, hadded⟩ := ht
          have hbreaks := @breaks_missing ctx _ ls l _ _ _ hvars hnew hmissing
          exact fun hbounded => ⟨[l.point ctx], points (l.context ctx) ls, rfl,
            fun hb => h.good.broken hvars hadded hnew (hbreaks.mp hb),
            fun hb => h.good.added hvars hadded hbounded hunlisted hnew
              (not_not.mp fun hrest => hb (hbreaks.mpr hrest))⟩
      · exact post_undefined

/-- The loop body for a frame. -/
theorem Stage.addFrame (h : Stage s₀ past framelst (l :: ls) (u :: us) s) (hbounded : Bounded s₀)
    (ctx : CStr) :
    Post (addFrame ctx framelst u l)
      (fun r t => r.1 = l.context ctx ∧ Stage s₀ (past ++ [l.point ctx]) r.2 ls us t ∧
        (Breaks (enteredIn s) (knownIn s.vars) ctx (l :: ls) ↔
          Breaks (enteredIn t) (knownIn t.vars) (l.context ctx) ls))
      (fun _ => Settled past ctx (l :: ls) (Breaks (enteredIn s) (knownIn s.vars) ctx (l :: ls)))
      s :=
  ((h.walk.addFrame hbounded ctx l).and (h.entered ctx)).mono
    (fun _ _ ht => ⟨ht.2.1, ht.2.2.1 ht.1, ht.2.2.2⟩) fun _ _ ht => ht.2 ht.1.1.refl

theorem Stage.loop (h : Stage s₀ past framelst ls us s) (hbounded : Bounded s₀) (ctx : CStr) :
    Post (loop ls ctx framelst us.head? us.tail.head?)
      (fun _ => Settled past ctx ls (Breaks (enteredIn s) (knownIn s.vars) ctx ls))
      (fun _ => Settled past ctx ls (Breaks (enteredIn s) (knownIn s.vars) ctx ls)) s := by
  induction ls generalizing s past ctx framelst us with
  | nil =>
      obtain rfl := List.forall₂_nil_left_iff.mp h.pending
      refine post_pure.mpr ⟨[], [], rfl, fun hbreaks => ?_, fun _ => ?_⟩
      · exact hbreaks.elim
      · rw [List.append_nil]
        exact h.good
  | cons l ls ih =>
      obtain ⟨u, us, -, -, rfl⟩ := List.forall₂_cons_left_iff.mp h.pending
      show Post (Callstack.addFrame ctx framelst u l >>= _) _ _ s
      rw [post_bind]
      refine (h.addFrame hbounded ctx).mono (fun r t ht => ?_) fun _ _ ht => ht
      obtain ⟨hctx, hstage, hbreaks⟩ := ht
      rw [post_bind]
      refine hstage.walk.following.mono (fun next w hw => ?_) fun _ _ hE => hE
      obtain ⟨rfl, rfl⟩ := hw
      rw [hctx, hbreaks]
      exact (ih hstage (l.context ctx)).mono (fun _ _ hu => hu.cons) fun _ _ hu => hu.cons

/-! ## Updates -/

/-- gdb lists the frames. -/
theorem Listing.stage (h : Listing s₀ framelst us s) (hgood : Good past s)
    (hpending : Pending s ls us) (rest : List Level) {E : Unit → State → Prop} :
    Post (Callstack.listFrames rest framelst)
      (fun lst t => (∃ us, lst = us.head? ∧ Stage s₀ past lst (rest.reverse ++ ls) us t) ∧
        t.vars = s.vars ∧ t.frameLst = s.frameLst) E s := by
  induction rest generalizing s framelst us ls with
  | nil => exact post_pure.mpr ⟨⟨us, h.isList.head, h.walk, hgood, hpending⟩, rfl, rfl⟩
  | cons l rest ih =>
      have hold : ∀ g, g ≠ s.next →
          (s.addFrame framelst l.frame).frames.lookup g = s.frames.lookup g := fun g hg =>
        AList.lookup_insert_ne hg
      have hlisted : ¬ s.Listed s.next := by
        rintro ⟨k, hk⟩
        exact absurd (h.remains.listed k _ hk) (Nat.lt_irrefl _)
      have hus : s.next ∉ us := by
        intro hmem
        obtain ⟨-, f, hf⟩ := h.fresh _ hmem
        exact absurd (h.remains.below _ _ hf) (Nat.lt_irrefl _)
      unfold Callstack.listFrames
      rw [post_bind, post_get]
      dsimp only
      rw [post_bind, post_modify, List.reverse_cons, List.append_assoc]
      have hgood' : Good past (s.addFrame framelst l.frame) := {
        bounded := (h.cons l.frame).remains.refl
        vars := hgood.vars
        held := hgood.held
        found := fun k f hk => by
          obtain ⟨q, o, hq, ho, hrest⟩ := hgood.found k f hk
          exact ⟨q, o, hq, (hold f fun heq => hlisted ⟨k, heq ▸ hk⟩).trans ho, hrest⟩ }
      have hpending' : Pending (s.addFrame framelst l.frame) (l :: ls) (s.next :: us) :=
        .cons ⟨AList.lookup_insert _, hlisted⟩
          (hpending.congr (fun g hg => hold g (ne_of_mem_of_not_mem hg hus)) fun _ _ hl => hl)
      exact ih (h.cons l.frame) hgood' hpending'

/-- The reports of the frames that are entered behind an update. -/
def Stop.entered (e : Stop) (t : State) : List (CStr × CStr × Report) :=
  (points [] e.levels).filter fun p => enteredIn t p.1

/-- An update ends with an incomplete frame iff it breaks. -/
def Stop.Leaves (e : Stop) (past : List (CStr × CStr × Report)) (s t : State) : Prop :=
  (e.Breaks s → Bad (past ++ e.entered t) t) ∧ (¬ e.Breaks s → Good (past ++ e.entered t) t)

/-- The reports of levels that have not been dealt with do not matter. -/
theorem Settled.leaves {e : Stop} (h : Settled past [] e.levels (e.Breaks s) t) :
    e.Leaves past s t := by
  obtain ⟨mid, rest, hpoints, hbad, hgood⟩ := h
  have hmore : ∀ p ∈ rest.filter (fun p => enteredIn t p.1), enteredIn t p.1 = true := fun p hp =>
    (List.mem_filter.mp hp).2
  have hsplit : (∀ p ∈ past ++ mid, enteredIn t p.1 = true) →
      past ++ e.entered t = past ++ mid ++ rest.filter fun p => enteredIn t p.1 := by
    intro hheld
    unfold Stop.entered
    rw [hpoints, List.filter_append, List.append_assoc,
      List.filter_eq_self.mpr fun p hp => hheld p (List.mem_append_right _ hp)]
  constructor
  · intro hbreaks
    rw [hsplit (hbad hbreaks).1]
    exact (hbad hbreaks).append hmore
  · intro hbreaks
    rw [hsplit (hgood hbreaks).held]
    exact (hgood hbreaks).append hmore

/-- However an update ends. -/
theorem Good.update (h : Good past s) (e : Stop) :
    Post (update e.window e.frames) (fun _ => e.Leaves past s) (fun _ => e.Leaves past s) s := by
  have hidle : (e.Breaks s → False) → ∀ t, Good past t → e.Leaves past s t := by
    intro hbreaks t ht
    exact ⟨fun hb => (hbreaks hb).elim, fun _ => ht.append fun p hp => (List.mem_filter.mp hp).2⟩
  unfold Callstack.update
  split
  · next hwindow =>
    rw [post_bind, post_modify]
    have hreset : Good past { s with callstack := none } := { h with bounded := { h.bounded with } }
    split
    · next hframes =>
      refine post_throw.mpr (hidle (fun hb => ?_) _ hreset)
      have hbreaks := hb.2
      unfold Stop.levels at hbreaks
      rw [hframes] at hbreaks
      exact hbreaks
    · next ls hframes =>
      have hlevels : e.levels = ls.reverse := by
        unfold Stop.levels
        rw [hframes]
        rfl
      have hlisting : Listing s none [] { s with callstack := none } := {
        remains := { h.bounded with }
        isList := isList_nil _
        callstack := rfl
        fresh := fun _ hw => absurd hw List.not_mem_nil
        unlisted := fun _ _ _ => List.not_mem_nil }
      rw [post_bind]
      refine (hlisting.stage hreset .nil ls).mono (fun lst t ht => ?_) fun _ _ hE => hE
      obtain ⟨⟨us, rfl, ht⟩, hvars, hlst⟩ := ht
      rw [List.append_nil] at ht
      rw [post_bind]
      refine ht.walk.following.mono (fun next w hw => ?_) fun _ _ hE => hE
      obtain ⟨rfl, rfl⟩ := hw
      have hbreaks : Callstack.Breaks (enteredIn w) (knownIn w.vars) [] ls.reverse =
          e.Breaks s := by
        unfold Stop.Breaks enteredIn
        rw [hlevels, hvars, hlst, hwindow, eq_self, true_and]
      have hloop := ht.loop h.bounded []
      rw [hbreaks, ← hlevels] at hloop
      rw [← hlevels]
      exact hloop.mono (fun _ _ hx => hx.leaves) fun _ _ hx => hx.leaves
  · next hwindow => exact post_pure.mpr (hidle (fun hb => hwindow hb.1) s h)

theorem good_init : Good [] State.init where
  bounded := bounded_init
  vars := VariableMaps.inv_init
  held _ hp := absurd hp List.not_mem_nil
  found _ _ hk := by cases hk

/-- **In every run of updates**, however each ends, the frames that are entered stay complete iff no
update breaks. -/
theorem run_complete_iff (es : List Stop) (h : History) :
    Run (fun h e h' => History.Step h e h' ∧ Complete h'.past h'.state) ⟨[], State.init⟩ es h ↔
      Run (fun h e h' => History.Step h e h' ∧ ¬ e.Breaks h.state) ⟨[], State.init⟩ es h := by
  have hstep : ∀ {h e h'}, Good h.past h.state → History.Step h e h' →
      (e.Breaks h.state → Bad h'.past h'.state) ∧ (¬ e.Breaks h.state → Good h'.past h'.state) := by
    rintro h e ⟨past', t⟩ hgood ⟨⟨r, hexec⟩, hpast⟩
    obtain rfl : past' = h.past ++ e.entered t := hpast
    exact (hgood.update e).holds hexec
  refine Run.guarded_iff (I := fun h => Good h.past h.state) good_init ?_ ?_ es h
  · intro h e h' hgood hs hb
    exact (hstep hgood hs).2 hb
  · intro h e h' hgood hs
    constructor
    · intro hcomplete hb
      exact ((hstep hgood hs).1 hb).not_complete hcomplete
    · intro hb
      exact ((hstep hgood hs).2 hb).complete

/-- A frame with two variables; gdb creates the second one or refuses to. -/
private def twoLocals (second : Option Variable) : List Level :=
  [{ frame := { function := some "f".toList, line := 3 }
     vars := some ([("x", some {}), ("y", second)].map fun v =>
       { var := { name := some v.1.toList, type := some "int".toList }
         create := v.2
         info := some {}
         deleted := true }) }]

/-- The second variable of a frame is not created.  The update fails, and the next one finds the
frame and shows it with one variable. -/
theorem second_local_missing :
    ∃ s t, exec (update true (some (twoLocals none))) State.init = some (.error (), s) ∧
      ¬ Complete (points [] (twoLocals none)) s ∧
      exec (update true (some (twoLocals (some {})))) s = some (.ok (), t) ∧
      ¬ Shows (twoLocals (some {})) t := by
  have hfirst : (exec (update true (some (twoLocals none))) State.init).map (fun r =>
      (r.1.isOk, r.2.frameLst.lookup "f::f".toList, (r.2.frames.lookup 0).map (·.locals.length))) =
      some (false, some 0, some 1) := by
    decide +kernel
  have hsecond : ((exec (update true (some (twoLocals none))) State.init).bind fun r =>
      exec (update true (some (twoLocals (some {})))) r.2).map (fun r =>
        (r.1.isOk, r.2.callstack, (r.2.frames.lookup 0).map (·.locals.length))) =
      some (true, some 0, some 1) := by
    decide +kernel
  obtain ⟨⟨_ | _, s⟩, hexec, heq⟩ := Option.map_eq_some_iff.mp hfirst
  · obtain ⟨hlst, hlocals⟩ := Prod.mk.inj (Prod.mk.inj heq).2
    rw [hexec] at hsecond
    obtain ⟨⟨_ | _, t⟩, hexec', heq'⟩ := Option.map_eq_some_iff.mp hsecond
    · cases (Prod.mk.inj heq').1
    · obtain ⟨hcallstack, hlocals'⟩ := Prod.mk.inj (Prod.mk.inj heq').2
      refine ⟨s, t, hexec, ?_, hexec', ?_⟩
      · intro hcomplete
        obtain ⟨q, o, hq, ho, -, hnamed⟩ := hcomplete _ 0 hlst
        rw [ho] at hlocals
        obtain rfl : (_, (twoLocals none).head (List.cons_ne_nil _ _) |>.report) = q :=
          Option.some.inj hq
        exact absurd (hnamed.length_eq.symm.trans (Option.some.inj hlocals)) (by decide)
      · rintro ⟨as, hlist, -, hall⟩
        obtain ⟨a, as, ⟨o, ho, hdesc⟩, -, rfl⟩ := List.forall₂_cons_left_iff.mp hall
        obtain rfl : 0 = a := Option.some.inj (hcallstack.symm.trans hlist.head)
        rw [ho] at hlocals'
        exact absurd (hdesc.locals.length_eq.symm.trans (Option.some.inj hlocals')) (by decide)
  · cases (Prod.mk.inj heq).1

end Vimgdb.Gdb.Callstack
