import Vimgdb.Gdb.VariableMaps
import Vimgdb.Lib.IntrusiveList

/-!
# The callstack

At each stop `cmd_callstack_update` lists the frames, and the variables of each frame.  A frame is
entered in `gdb_frame_lst` under a key, which is made of the functions and arguments that lead to it,
and the object found there is used again at later stops.

* `update`: `cmd_callstack_update`.  The replies of gdb are arguments.
* `Shows`: the callstack is what gdb reported.
* `AllFit`: what the stops have to do with each other.
* `updates_show`: if they fit, every update returns and shows its stop.
-/

namespace Vimgdb.Gdb.Callstack

open Programs IntrusiveList Maps
open VariableMaps (key)

/-! ## The state -/

/-- A `gdb_frame_t`: what a record describes, the key, and the variables by address. -/
structure Object where
  frame : Frame
  context : Option CStr := none
  args : List Nat := []
  locals : List Nat := []

/-- The variables, the frames in memory with their pointers, the map of the frames, and the list that
is shown. -/
structure State where
  vars : VariableMaps.State
  frames : PointerTree.Heap Object
  /-- The next address; none is used again. -/
  next : Nat
  links : Links Nat
  frameLst : AList fun _ : CStr => Nat
  callstack : Option Nat

/-- There is no frame. -/
def State.init : State := ⟨.init, ∅, 0, ⟨fun _ => none, fun _ => none⟩, ∅, none⟩

/-- What the operations do; the error is -1. -/
abbrev Calls := Program State Unit

/-- A frame changes. -/
def State.setFrame (s : State) (a : Nat) (o : Object) : State :=
  { s with frames := s.frames.insert a o }

/-- A program over the variables. -/
def onVars {α : Type} (p : VariableMaps.Vars α) : Calls α :=
  zoom State.vars (fun v s => { s with vars := v }) p

/-- The pointer is followed. -/
def deref (a : Nat) : Calls Object := do
  match (← get).frames.lookup a with
  | none => undefined
  | some o => return o

/-! ## Frames -/

/-- The three-argument `acquire`. -/
def acquire (name context : CStr) (src : Nat) : Calls Nat := do
  let key := context ++ ':' :: name
  match (← get).frameLst.lookup key with
  | some a => return a
  | none =>
      let o ← deref src
      modify fun s =>
        { s.setFrame src { o with context := some key } with frameLst := s.frameLst.insert key src }
      return src

/-- `release`; `deleted` says whether the commands `var-delete` succeed. -/
def release (a : Nat) (deleted : Bool) : Calls Unit := do
  let o ← deref a
  modify fun s => { s with
    frames := s.frames.erase a
    frameLst := match o.context with
      | none => s.frameLst
      | some key => s.frameLst.erase key }
  attempt (onVars ((o.args ++ o.locals).forM fun v => VariableMaps.release v deleted))

/-- A frame is added at the end of the callstack. -/
def addTail (a : Nat) : Calls Unit := do
  let s ← get
  match s.links.addTail s.callstack a with
  | none => undefined
  | some (links, callstack) => modify fun s => { s with links, callstack }

/-- A frame is taken out of the list. -/
def rm (framelst : Option Nat) (a : Nat) : Calls (Option Nat) := do
  match (← get).links.rm framelst a with
  | none => undefined
  | some (links, framelst) =>
      modify fun s => { s with links }
      return framelst

/-! ## Variables -/

/-- An entry of the list gdb answers `stack-list-variables` with, and the replies to the commands that
follow for it: `var-create`, where gdb uses the name it is given, `var-info-expression` and
`var-delete`. -/
structure Listed where
  var : Variable
  create : Option Variable
  info : Option Variable
  deleted : Bool

/-- The variable is referenced, and is an argument or not. -/
def referred (v : VariableMaps.Object) (argument : Bool) : VariableMaps.Object :=
  { v with
    refcnt := if v.refcnt = 1 then v.refcnt + 1 else v.refcnt
    var := { v.var with argument } }

/-- `release` of an entry of the list, which is in no map. -/
def releaseEntry (name : CStr) (deleted : Bool) : VariableMaps.Vars Unit := do
  if ((← get).varLst.lookup name).isSome && !deleted then throw () else pure ()

/-- The frame gets a variable. -/
def Object.push (o : Object) (a : Nat) (argument : Bool) : Object :=
  if argument then { o with args := o.args ++ [a] } else { o with locals := o.locals ++ [a] }

/-- The loop body for a variable. -/
def addVariable (ctx : CStr) (frame : Nat) (x : Listed) : Calls Unit := do
  match x.var.name with
  | none => undefined
  | some name =>
      let created := x.create.map fun v => { v with name := some (key .callstack ctx name) }
      let a ← onVars (VariableMaps.acquire .callstack ctx name created x.info)
      let v ← onVars (VariableMaps.deref a)
      onVars (modify fun s => s.setObject a (referred v x.var.argument))
      let o ← deref frame
      modify fun s => s.setFrame frame (o.push a x.var.argument)
      onVars (releaseEntry name x.deleted)

/-! ## The update -/

/-- A frame of the list gdb answers `stack-list-frames` with, and the reply to `stack-list-variables`
for it. -/
structure Level where
  frame : Frame
  vars : Option (List Listed)
  deleted : Bool := true

/-- The arguments, each with its type. -/
def arguments : List Listed → Option CStr
  | [] => some []
  | x :: xs => do
      let rest ← arguments xs
      if x.var.argument then return (← x.var.type) ++ (← x.var.name) ++ rest else return rest

/-- The frame is added to the callstack.  One that was not entered gets its variables, another one is
deleted. -/
def enter (ctx function : CStr) (framelst : Option Nat) (tframe : Nat) (varlst : List Listed)
    (deleted : Bool) : Calls (Option Nat) := do
  let frame ← acquire function ctx tframe
  addTail frame
  if frame ≠ tframe then
    let framelst ← rm framelst tframe
    release tframe deleted
    return framelst
  else
    varlst.forM (addVariable ctx frame)
    return framelst

/-- The loop body for a frame: the context, and the list that is left. -/
def addFrame (ctx : CStr) (framelst : Option Nat) (tframe : Nat) (l : Level) :
    Calls (CStr × Option Nat) := do
  match l.vars with
  | none => throw ()
  | some varlst =>
      let o ← deref tframe
      match o.frame.function, arguments varlst with
      | some function, some args =>
          let ctx := ctx ++ function ++ ':' :: args
          return (ctx, ← enter ctx function framelst tframe varlst l.deleted)
      | _, _ => undefined

/-- The pointer `next` of a frame. -/
def following : Option Nat → Calls (Option Nat)
  | none => pure none
  | some a => do
      let _ ← deref a
      return (← get).links.next a

/-- The loop over the frames.  `next` is read one frame ahead. -/
def loop : List Level → CStr → (framelst entry next : Option Nat) → Calls Unit
  | _, _, _, none, _ => pure ()
  | [], _, _, some _, _ => undefined
  | l :: ls, ctx, framelst, some tframe, next => do
      let r ← addFrame ctx framelst tframe l
      let next' ← following next
      loop ls r.1 r.2 next next'

/-- The parser adds each frame in front of the list. -/
def listFrames : List Level → Option Nat → Calls (Option Nat)
  | [], framelst => pure framelst
  | l :: ls, framelst => do
      let s ← get
      let (links, framelst') := s.links.addHead framelst s.next
      modify fun s => { s with
        frames := s.frames.insert s.next { frame := l.frame }
        next := s.next + 1
        links }
      listFrames ls framelst'

/-- `cmd_callstack_update`, up to the output: whether the window exists, and the reply to
`stack-list-frames`, from the innermost frame on. -/
def update (window : Bool) (frames : Option (List Level)) : Calls Unit :=
  if window then do
    modify fun s => { s with callstack := none }
    match frames with
    | none => throw ()
    | some ls =>
        let framelst ← listFrames ls none
        let next ← following framelst
        loop ls.reverse [] framelst framelst next
  else pure ()

/-- The frames `cmd_callstack_print` goes through, with the number of frames at most. -/
def printed (l : Links Nat) (first : Option Nat) : Nat → Option Nat → Option (List Nat)
  | _, none => some []
  | 0, some _ => none
  | fuel + 1, some frame =>
      if some frame = first then some [frame]
      else return frame :: (← printed l first fuel (l.prev frame))

/-! ## What is required and what suffices -/

/-- What gdb reports of a frame. -/
structure Report where
  function : CStr
  filename : Option CStr
  fullname : Option CStr
  «from» : Option CStr
  line : BitVec 32
  args : List CStr
  locals : List CStr
  deriving DecidableEq

/-- The function. -/
def Level.function (l : Level) : CStr := l.frame.function.getD []

/-- The names of the arguments, or of the other variables. -/
def names (argument : Bool) (xs : List Listed) : List CStr :=
  (xs.filter fun x => x.var.argument = argument).map fun x => x.var.name.getD []

/-- What gdb reports of the frame. -/
def Level.report (l : Level) : Report where
  function := l.function
  filename := l.frame.filename
  fullname := l.frame.fullname
  «from» := l.frame.from
  line := l.frame.line
  args := names true (l.vars.getD [])
  locals := names false (l.vars.getD [])

/-- The context of the frame, behind that of its caller. -/
def Level.context (ctx : CStr) (l : Level) : CStr :=
  ctx ++ l.function ++ ':' :: (arguments (l.vars.getD [])).getD []

/-- The keys of the frames of a stop, from the outermost one on, each with its context and what gdb
reports. -/
def points (ctx : CStr) : List Level → List (CStr × CStr × Report)
  | [] => []
  | l :: ls => (l.context ctx ++ ':' :: l.function, l.context ctx, l.report) ::
      points (l.context ctx) ls

/-- The variables have the names under which those in the list are created. -/
def Named (s : VariableMaps.State) (ctx : CStr) (as : List Nat) (ns : List CStr) : Prop :=
  List.Forall₂ (fun a name => ∃ v, s.heap.lookup a = some v ∧
    v.var.name = some (key .callstack ctx name)) as ns

/-- The frame has the function, the file, the line and the variables of the report. -/
structure Described (s : VariableMaps.State) (ctx : CStr) (r : Report) (o : Object) : Prop where
  function : o.frame.function = some r.function
  filename : o.frame.filename = r.filename
  fullname : o.frame.fullname = r.fullname
  «from» : o.frame.from = r.from
  line : o.frame.line = r.line
  args : Named s ctx o.args r.args
  locals : Named s ctx o.locals r.locals

/-- The callstack, which `cmd_callstack_print` goes through backwards, is what gdb reported. -/
def Shows (ls : List Level) (s : State) : Prop :=
  ∃ as, IsList s.links s.callstack as ∧
    printed s.links s.callstack as.length as.getLast? = some as.reverse ∧
    List.Forall₂ (fun p a => ∃ o, s.frames.lookup a = some o ∧ Described s.vars p.2.1 p.2.2 o)
      (points [] ls.reverse) as

/-- gdb names the function, lists the variables, and gives each its name and type. -/
structure Level.Complete (l : Level) : Prop where
  function : l.frame.function ≠ none
  listed : ∃ varlst, l.vars = some varlst ∧ ∀ x ∈ varlst, x.var.name ≠ none ∧ x.var.type ≠ none

/-- The commands for the variables succeed. -/
def Level.Answered (l : Level) : Prop :=
  ∀ x ∈ l.vars.getD [], x.create ≠ none ∧ x.info ≠ none ∧ x.deleted = true

/-- No two frames have the same key.  A frame whose key was reported before is what it was when it was
reported first; the commands for the variables of the others succeed, and the frames they call are
new as well. -/
def Fits (past : List (CStr × CStr × Report)) (ctx : CStr) : List Level → Prop
  | [] => True
  | l :: ls =>
      let key := l.context ctx ++ ':' :: l.function
      (∀ p ∈ points (l.context ctx) ls, p.1 ≠ key) ∧
        (match past.lookup key with
          | some q => q.2 = l.report
          | none => l.Answered ∧ ∀ p ∈ points (l.context ctx) ls, past.lookup p.1 = none) ∧
        Fits past (l.context ctx) ls

/-- Each stop fits those before it. -/
def AllFit (past : List (CStr × CStr × Report)) : List (List Level) → Prop
  | [] => True
  | ls :: stops => Fits past [] ls.reverse ∧ AllFit (past ++ points [] ls.reverse) stops

/-! ## Variables -/

theorem Named.kept {s t : VariableMaps.State} {ctx : CStr} {as : List Nat} {ns : List CStr}
    (h : Named s ctx as ns) (hkept : VariableMaps.Kept s t) : Named t ctx as ns := by
  refine h.imp fun a name ha => ?_
  obtain ⟨v, hv, hname⟩ := ha
  obtain ⟨w, hw, hwv⟩ := hkept a v hv
  exact ⟨w, hw, hwv.trans hname⟩

theorem Described.kept {s t : VariableMaps.State} {ctx : CStr} {r : Report} {o : Object}
    (h : Described s ctx r o) (hkept : VariableMaps.Kept s t) : Described t ctx r o :=
  ⟨h.function, h.filename, h.fullname, h.from, h.line, h.args.kept hkept, h.locals.kept hkept⟩

theorem post_deref {s : State} {a : Nat} {Q : Object → State → Prop} {E : Unit → State → Prop}
    (h : ∀ o, s.frames.lookup a = some o → Q o s) : Post (deref a) Q E s := by
  unfold deref
  rw [post_bind, post_get]
  split
  · exact post_undefined
  · next o ho => exact post_pure.mpr (h o ho)

theorem returns_deref {s : State} {a : Nat} {o : Object} {Q : Object → State → Prop}
    (ha : s.frames.lookup a = some o) (h : Q o s) : Returns (deref a) Q s := by
  unfold deref
  rw [returns_bind, returns_get, ha]
  exact returns_pure.mpr h

/-- The frame `g` has got the variables of the list, and nothing else has happened to the frames. -/
structure Filled (ctx : CStr) (g : Nat) (xs : List Listed) (s t : State) : Prop where
  vars : VariableMaps.Inv [] t.vars
  kept : VariableMaps.Kept s.vars t.vars
  others : ∀ b, b ≠ g → t.frames.lookup b = s.frames.lookup b
  frame : ∀ o, s.frames.lookup g = some o → ∃ as ls,
    t.frames.lookup g = some { o with args := o.args ++ as, locals := o.locals ++ ls } ∧
      Named t.vars ctx as (names true xs) ∧ Named t.vars ctx ls (names false xs)
  next : t.next = s.next
  links : t.links = s.links
  frameLst : t.frameLst = s.frameLst
  callstack : t.callstack = s.callstack

theorem filled_nil {ctx : CStr} {g : Nat} {s : State} (h : VariableMaps.Inv [] s.vars) :
    Filled ctx g [] s s where
  vars := h
  kept := .refl _
  others _ _ := rfl
  frame o ho := ⟨[], [], by simpa using ho, .nil, .nil⟩
  next := rfl
  links := rfl
  frameLst := rfl
  callstack := rfl

theorem Filled.cons {ctx : CStr} {g : Nat} {x : Listed} {xs : List Listed} {s t u : State}
    (h : Filled ctx g [x] s t) (h' : Filled ctx g xs t u) : Filled ctx g (x :: xs) s u where
  vars := h'.vars
  kept := h.kept.trans h'.kept
  others b hb := (h'.others b hb).trans (h.others b hb)
  frame o ho := by
    obtain ⟨as, ls, hg, has, hls⟩ := h.frame o ho
    obtain ⟨as', ls', hg', has', hls'⟩ := h'.frame _ hg
    have hnames : ∀ b, names b (x :: xs) = names b [x] ++ names b xs := by
      intro b
      unfold names
      rw [← List.map_append, ← List.filter_append]
      rfl
    refine ⟨as ++ as', ls ++ ls', ?_, ?_, ?_⟩
    · rw [hg']
      simp only [List.append_assoc]
    · rw [hnames]
      exact List.rel_append (has.kept h'.kept) has'
    · rw [hnames]
      exact List.rel_append (hls.kept h'.kept) hls'
  next := h'.next.trans h.next
  links := h'.links.trans h.links
  frameLst := h'.frameLst.trans h.frameLst
  callstack := h'.callstack.trans h.callstack

/-- The variable is among the arguments or among the others. -/
theorem exists_push {ctx : CStr} {x : Listed} {s : VariableMaps.State} {a : Nat}
    (h : Named s ctx [a] [x.var.name.getD []]) (o : Object) :
    ∃ as ls, o.push a x.var.argument = { o with args := o.args ++ as, locals := o.locals ++ ls } ∧
      Named s ctx as (names true [x]) ∧ Named s ctx ls (names false [x]) := by
  have hnone : Named s ctx [] [] := List.Forall₂.nil
  unfold Object.push names
  cases hargument : x.var.argument
  · refine ⟨[], [a], ?_, ?_, ?_⟩
    · simp
    · simpa [hargument] using hnone
    · simpa [hargument] using h
  · refine ⟨[a], [], ?_, ?_, ?_⟩
    · simp
    · simpa [hargument] using h
    · simpa [hargument] using hnone

/-- The frame gets one variable. -/
theorem filled_push {ctx : CStr} {g : Nat} {x : Listed} {s : State} {o : Object} {name : CStr}
    {v : VariableMaps.State} {a : Nat} {w : VariableMaps.Object} (h : VariableMaps.Inv [] v)
    (hkept : VariableMaps.Kept s.vars v) (hw : v.heap.lookup a = some w)
    (hwname : w.var.name = some (key .callstack ctx name)) (hname : x.var.name = some name)
    (hg : s.frames.lookup g = some o) :
    Filled ctx g [x] s ({ s with vars := v.setObject a (referred w x.var.argument) }.setFrame g
      (o.push a x.var.argument)) := by
  constructor
  · exact h.setObject hw rfl rfl rfl rfl
  · exact hkept.trans (VariableMaps.kept_setObject hw rfl)
  · intro b hb
    exact AList.lookup_insert_ne hb
  · intro o' ho'
    obtain rfl := Option.some.inj (hg.symm.trans ho')
    have hnamed : Named (v.setObject a (referred w x.var.argument)) ctx [a] [x.var.name.getD []] :=
      .cons ⟨_, AList.lookup_insert _, by rw [hname]; exact hwname⟩ .nil
    obtain ⟨as, ls, heq, has, hls⟩ := exists_push hnamed o
    refine ⟨as, ls, ?_, has, hls⟩
    rw [← heq]
    exact AList.lookup_insert _
  · rfl
  · rfl
  · rfl
  · rfl

/-- A variable is added to the frame. -/
theorem returns_addVariable {ctx : CStr} {g : Nat} {x : Listed} {s : State} {o : Object}
    {name : CStr} (h : VariableMaps.Inv [] s.vars) (hg : s.frames.lookup g = some o)
    (hname : x.var.name = some name) (hcreate : x.create ≠ none) (hinfo : x.info ≠ none)
    (hdeleted : x.deleted = true) :
    Returns (addVariable ctx g x) (fun _ t => Filled ctx g [x] s t) s := by
  obtain ⟨c, hc⟩ := Option.ne_none_iff_exists'.mp hcreate
  obtain ⟨i, hi⟩ := Option.ne_none_iff_exists'.mp hinfo
  unfold addVariable
  rw [hname, hc, hi]
  show Returns (onVars (VariableMaps.acquire .callstack ctx name
    (some { c with name := some (key .callstack ctx name) }) (some i)) >>= _) _ s
  rw [returns_bind, onVars, returns_zoom]
  refine (VariableMaps.returns_acquire h (by decide) rfl).mono ?_
  rintro a v ⟨hv, hkept, w, hw, hwname⟩
  rw [returns_bind, onVars, returns_zoom]
  refine VariableMaps.returns_deref hw ?_
  rw [returns_bind, onVars, returns_zoom, returns_modify, returns_bind]
  refine returns_deref hg ?_
  rw [returns_bind, returns_modify, onVars, returns_zoom]
  unfold releaseEntry
  rw [returns_bind, returns_get, hdeleted]
  simp only [Bool.not_true, Bool.and_false, Bool.false_eq_true, if_false]
  rw [returns_pure]
  exact filled_push hv hkept hw hwname hname hg

/-- The variables are added to the frame. -/
theorem returns_addVariables {ctx : CStr} {g : Nat} {xs : List Listed} {s : State} {o : Object}
    (h : VariableMaps.Inv [] s.vars) (hg : s.frames.lookup g = some o)
    (hname : ∀ x ∈ xs, x.var.name ≠ none)
    (hanswered : ∀ x ∈ xs, x.create ≠ none ∧ x.info ≠ none ∧ x.deleted = true) :
    Returns (xs.forM (addVariable ctx g)) (fun _ t => Filled ctx g xs s t) s := by
  induction xs generalizing s o with
  | nil => exact returns_pure.mpr (filled_nil h)
  | cons x xs ih =>
      show Returns (addVariable ctx g x >>= fun _ => xs.forM (addVariable ctx g)) _ s
      obtain ⟨name, hx⟩ := Option.ne_none_iff_exists'.mp (hname x List.mem_cons_self)
      obtain ⟨hcreate, hinfo, hdeleted⟩ := hanswered x List.mem_cons_self
      rw [returns_bind]
      refine (returns_addVariable h hg hx hcreate hinfo hdeleted).mono fun _ t ht => ?_
      obtain ⟨as, ls, hg', -⟩ := ht.frame o hg
      refine (ih ht.vars hg' (fun y hy => hname y (List.mem_cons_of_mem x hy)) fun y hy =>
        hanswered y (List.mem_cons_of_mem x hy)).mono fun _ u hu => ht.cons hu

/-! ## The invariant -/

/-- The frames `past` have been reported: those in `gdb_frame_lst` are what was reported first under
their keys. -/
structure Inv (past : List (CStr × CStr × Report)) (s : State) : Prop where
  vars : VariableMaps.Inv [] s.vars
  found : ∀ k a, s.frameLst.lookup k = some a → ∃ q o, past.lookup k = some q ∧
    s.frames.lookup a = some o ∧ o.context = some k ∧ Described s.vars q.1 q.2 o
  held : ∀ k q, past.lookup k = some q → ∃ a, s.frameLst.lookup k = some a
  below : ∀ a o, s.frames.lookup a = some o → a < s.next

variable {past done : List (CStr × CStr × Report)} {ls : List Level} {as gs : List Nat} {s t : State}

theorem inv_init : Inv [] State.init where
  vars := VariableMaps.inv_init
  found k a h := by cases h
  held k q h := by cases h
  below a o h := by cases h

/-- Different keys lead to different frames. -/
theorem Inv.key_eq (h : Inv past s) {k k' : CStr} {a : Nat} (hk : s.frameLst.lookup k = some a)
    (hk' : s.frameLst.lookup k' = some a) : k = k' := by
  obtain ⟨q, o, -, ho, hok, -⟩ := h.found k a hk
  obtain ⟨q', o', -, ho', hok', -⟩ := h.found k' a hk'
  rw [ho, Option.some.injEq] at ho'
  rw [← ho', hok, Option.some.injEq] at hok'
  exact hok'

/-- The frame is entered in `gdb_frame_lst`. -/
def State.Listed (s : State) (a : Nat) : Prop := ∃ k, s.frameLst.lookup k = some a

/-- Frames that were just reported, and are not entered yet. -/
def Pending (s : State) (ls : List Level) (gs : List Nat) : Prop :=
  List.Forall₂ (fun l g => s.frames.lookup g = some { frame := l.frame } ∧ ¬ s.Listed g) ls gs

/-- In the loop, the frames `done` are dealt with: they are `as`.  The frames `gs` are to come. -/
structure During (past done : List (CStr × CStr × Report)) (as : List Nat) (ls : List Level)
    (gs : List Nat) (s : State) : Prop where
  inv : Inv (past ++ done) s
  stack : IsList s.links s.callstack as
  done : List.Forall₂ (fun p a => s.frameLst.lookup p.1 = some a) done as
  pending : Pending s ls gs
  nodup : gs.Nodup

/-- A frame on the callstack is entered under one of the keys. -/
theorem During.key_of_mem (h : During past done as ls gs s) {a : Nat} (ha : a ∈ as) :
    ∃ p ∈ done, s.frameLst.lookup p.1 = some a := by
  have hdone := h.done
  clear h
  induction hdone with
  | nil => cases ha
  | cons hp _ ih =>
      rcases List.mem_cons.mp ha with rfl | ha
      · exact ⟨_, List.mem_cons_self, hp⟩
      · obtain ⟨p, hmem, hp⟩ := ih ha
        exact ⟨p, List.mem_cons_of_mem _ hmem, hp⟩

/-- A frame to come is in memory, and is not entered. -/
theorem Pending.of_mem (h : Pending s ls gs) {g : Nat} (hg : g ∈ gs) :
    (∃ f, s.frames.lookup g = some { frame := f }) ∧ ¬ s.Listed g := by
  induction h with
  | nil => cases hg
  | cons hp _ ih =>
      rcases List.mem_cons.mp hg with rfl | hg
      · exact ⟨⟨_, hp.1⟩, hp.2⟩
      · exact ih hg

/-- A frame to come is not on the callstack. -/
theorem During.not_mem (h : During past done as ls gs s) {g : Nat} (hg : g ∈ gs) : g ∉ as := by
  intro ha
  obtain ⟨p, -, hp⟩ := h.key_of_mem ha
  exact (h.pending.of_mem hg).2 ⟨p.1, hp⟩

/-- The frames to come stay pending when the others change. -/
theorem Pending.congr (h : Pending s ls gs)
    (hframes : ∀ g ∈ gs, t.frames.lookup g = s.frames.lookup g)
    (hlisted : ∀ g ∈ gs, t.Listed g → s.Listed g) : Pending t ls gs := by
  induction h with
  | nil => exact .nil
  | cons hp _ ih =>
      refine .cons ⟨?_, ?_⟩ (ih ?_ ?_)
      · rw [hframes _ List.mem_cons_self]
        exact hp.1
      · exact fun hl => hp.2 (hlisted _ List.mem_cons_self hl)
      · exact fun g hg => hframes g (List.mem_cons_of_mem _ hg)
      · exact fun g hg => hlisted g (List.mem_cons_of_mem _ hg)

/-! ## The steps of the loop -/

theorem returns_acquire_found {name ctx : CStr} {src a : Nat} {Q : Nat → State → Prop}
    (ha : s.frameLst.lookup (ctx ++ ':' :: name) = some a) (h : Q a s) :
    Returns (acquire name ctx src) Q s := by
  unfold acquire
  rw [returns_bind, returns_get]
  simp only [ha]
  exact returns_pure.mpr h

theorem returns_acquire_new {name ctx : CStr} {src : Nat} {o : Object} {Q : Nat → State → Prop}
    (hnone : s.frameLst.lookup (ctx ++ ':' :: name) = none) (ho : s.frames.lookup src = some o)
    (h : Q src { s.setFrame src { o with context := some (ctx ++ ':' :: name) } with
      frameLst := s.frameLst.insert (ctx ++ ':' :: name) src }) :
    Returns (acquire name ctx src) Q s := by
  unfold acquire
  rw [returns_bind, returns_get]
  simp only [hnone]
  rw [returns_bind]
  refine returns_deref ho ?_
  rw [returns_bind, returns_modify]
  exact returns_pure.mpr h

/-- The frame comes last on the callstack; other lists stay. -/
theorem returns_addTail {a : Nat} {Q : Unit → State → Prop} (hstack : IsList s.links s.callstack as)
    (ha : a ∉ as)
    (h : ∀ links callstack, IsList links callstack (as ++ [a]) →
      (∀ ys, a ∉ ys → (∀ x ∈ as, x ∉ ys) → s.links.SameOn links ys) →
        Q () { s with links, callstack }) :
    Returns (addTail a) Q s := by
  obtain ⟨links, hadd, hlist⟩ := hstack.addTail ha
  unfold addTail
  rw [returns_bind, returns_get]
  simp only [hadd]
  rw [returns_modify]
  exact h links _ hlist fun ys hys hdisjoint => hstack.addTail_sameOn hadd hys hdisjoint

/-- The first frame is taken out of the list; other lists stay. -/
theorem returns_rm {framelst : Option Nat} {g : Nat} {Q : Option Nat → State → Prop}
    (hlst : IsList s.links framelst (g :: gs))
    (h : ∀ links framelst, IsList links framelst gs →
      (∀ ys, (∀ x ∈ g :: gs, x ∉ ys) → s.links.SameOn links ys) →
        Q framelst { s with links }) :
    Returns (rm framelst g) Q s := by
  obtain ⟨links, hrm, hlist⟩ := hlst.rmFirst
  unfold rm
  rw [returns_bind, returns_get]
  simp only [hrm]
  rw [returns_bind, returns_modify]
  exact returns_pure.mpr (h links _ hlist fun ys hdisjoint => hlst.rmFirst_sameOn hrm hdisjoint)

/-- A frame that was just reported is deleted. -/
theorem returns_release {g : Nat} {f : Frame} {deleted : Bool} {Q : Unit → State → Prop}
    (hg : s.frames.lookup g = some { frame := f }) (h : Q () { s with frames := s.frames.erase g }) :
    Returns (release g deleted) Q s := by
  unfold release
  rw [returns_bind]
  refine returns_deref hg ?_
  rw [returns_bind, returns_modify]
  refine Returns.attempt ?_
  rw [onVars, returns_zoom]
  exact returns_pure.mpr h

theorem arguments_eq {xs : List Listed} (h : ∀ x ∈ xs, x.var.name ≠ none ∧ x.var.type ≠ none) :
    arguments xs = some ((arguments xs).getD []) := by
  suffices hsome : (arguments xs).isSome by
    obtain ⟨args, hargs⟩ := Option.isSome_iff_exists.mp hsome
    rw [hargs]
    rfl
  induction xs with
  | nil => rfl
  | cons x xs ih =>
      obtain ⟨args, hargs⟩ := Option.isSome_iff_exists.mp
        (ih fun y hy => h y (List.mem_cons_of_mem x hy))
      obtain ⟨hname, htype⟩ := h x List.mem_cons_self
      obtain ⟨name, hname⟩ := Option.ne_none_iff_exists'.mp hname
      obtain ⟨type, htype⟩ := Option.ne_none_iff_exists'.mp htype
      unfold arguments
      rw [hargs, hname, htype]
      show (if x.var.argument = true then _ else _ : Option CStr).isSome = true
      split <;> rfl

theorem Level.Complete.function_eq {l : Level} (h : l.Complete) :
    l.frame.function = some l.function := by
  obtain ⟨function, hfunction⟩ := Option.ne_none_iff_exists'.mp h.function
  unfold Level.function
  rw [hfunction]
  rfl

/-- The context is that of the frame. -/
theorem returns_addFrame {l : Level} {g : Nat} {ctx : CStr} {framelst : Option Nat}
    {Q : CStr × Option Nat → State → Prop} (hl : l.Complete)
    (hg : s.frames.lookup g = some { frame := l.frame })
    (h : Returns (enter (l.context ctx) l.function framelst g (l.vars.getD []) l.deleted)
      (fun r => Q (l.context ctx, r)) s) :
    Returns (addFrame ctx framelst g l) Q s := by
  obtain ⟨varlst, hvars, hnamed⟩ := hl.listed
  have hctx : l.context ctx = ctx ++ l.function ++ ':' :: (arguments varlst).getD [] := by
    unfold Level.context
    rw [hvars]
    rfl
  rw [hctx, hvars] at h
  unfold addFrame
  rw [hvars]
  show Returns (deref g >>= _) _ s
  rw [returns_bind]
  refine returns_deref hg ?_
  rw [hl.function_eq, arguments_eq hnamed]
  show Returns (enter (ctx ++ l.function ++ ':' :: (arguments varlst).getD []) l.function framelst g
    varlst l.deleted >>= _) _ s
  rw [returns_bind]
  exact h.mono fun _ _ hr => returns_pure.mpr hr

/-- A frame that was reported before is added to the callstack. -/
theorem During.reused {l : Level} {g : Nat} {ctx : CStr} {framelst : Option Nat}
    (h : During past done as (l :: ls) (g :: gs) s) (hlst : IsList s.links framelst (g :: gs))
    {q : CStr × Report} (hpast : past.lookup (ctx ++ ':' :: l.function) = some q)
    (hdistinct : ∀ p ∈ done, p.1 ≠ ctx ++ ':' :: l.function) :
    Returns (enter ctx l.function framelst g (l.vars.getD []) l.deleted)
      (fun framelst t => IsList t.links framelst gs ∧
        ∃ a, During past (done ++ [(ctx ++ ':' :: l.function, ctx, l.report)]) (as ++ [a]) ls gs t)
      s := by
  have hseen : (past ++ done).lookup (ctx ++ ':' :: l.function) = some q := by
    rw [List.lookup_append, hpast]
    rfl
  obtain ⟨a, ha⟩ := h.inv.held _ q hseen
  obtain ⟨hg, hpending⟩ := List.forall₂_cons.mp h.pending
  obtain ⟨hgs, hnodup⟩ := List.nodup_cons.mp h.nodup
  -- the frame found is not on the callstack, and not in the list
  have hag : ∀ x ∈ g :: gs, a ≠ x := by
    rintro x hx rfl
    exact (h.pending.of_mem hx).2 ⟨_, ha⟩
  have haas : a ∉ as := by
    intro hmem
    obtain ⟨p, hp, hpa⟩ := h.key_of_mem hmem
    exact hdistinct p hp (h.inv.key_eq hpa ha)
  unfold enter
  rw [returns_bind]
  refine returns_acquire_found ha ?_
  rw [returns_bind]
  refine returns_addTail h.stack haas fun links callstack hstack hsame => ?_
  rw [if_pos (hag g List.mem_cons_self), returns_bind]
  have hlst' : IsList links framelst (g :: gs) := hlst.congr (hsame _
    (fun hmem => hag a hmem rfl) fun x hx hmem => h.not_mem hmem hx)
  refine returns_rm hlst' fun links' framelst' hlist hsame' => ?_
  rw [returns_bind]
  refine returns_release hg.1 ?_
  rw [returns_pure]
  refine ⟨hlist, a, ?_⟩
  have herase : ∀ b, b ≠ g → (s.frames.erase g).lookup b = s.frames.lookup b :=
    fun b hb => AList.lookup_erase_ne hb
  have hout : ∀ x ∈ g :: gs, x ∉ as ++ [a] := by
    intro x hx hmem
    rcases List.mem_append.mp hmem with hmem | hmem
    · exact h.not_mem hx hmem
    · exact hag x hx (List.mem_singleton.mp hmem).symm
  constructor
  · rw [← List.append_assoc]
    constructor
    · exact h.inv.vars
    · intro k b hk
      obtain ⟨q', o, hq', ho, hok, hdesc⟩ := h.inv.found k b hk
      refine ⟨q', o, lookup_append_singleton.mpr (Or.inl hq'), ?_, hok, hdesc⟩
      have hbg : b ≠ g := fun heq => hg.2 ⟨k, heq ▸ hk⟩
      exact (herase b hbg).trans ho
    · intro k q' hq'
      rcases lookup_append_singleton.mp hq' with hq' | ⟨hnone, heq⟩
      · exact h.inv.held k q' hq'
      · rw [← (Prod.mk.inj heq).1, hseen] at hnone
        cases hnone
    · intro b o hb
      exact h.inv.below b o (lookup_erase_eq_some.mp hb).2
  · exact hstack.congr (hsame' _ hout)
  · exact List.rel_append h.done (.cons ha .nil)
  · refine Pending.congr hpending (fun x hx => herase x ?_) fun x hx hl => hl
    exact ne_of_mem_of_not_mem hx hgs
  · exact hnodup

/-- A frame that is new is added to the callstack, with its variables. -/
theorem During.new {l : Level} {g : Nat} {ctx : CStr} {framelst : Option Nat}
    (h : During past done as (l :: ls) (g :: gs) s) (hforward : s.links.Forward gs)
    (hl : l.Complete) (hanswered : l.Answered)
    (hpast : past.lookup (ctx ++ ':' :: l.function) = none)
    (hdistinct : ∀ p ∈ done, p.1 ≠ ctx ++ ':' :: l.function) :
    Returns (enter ctx l.function framelst g (l.vars.getD []) l.deleted)
      (fun _ t => t.links.Forward gs ∧
        During past (done ++ [(ctx ++ ':' :: l.function, ctx, l.report)]) (as ++ [g]) ls gs t) s := by
  obtain ⟨varlst, hvars, hnamed⟩ := hl.listed
  have hunseen : (past ++ done).lookup (ctx ++ ':' :: l.function) = none := by
    rw [List.lookup_append, hpast, Option.none_or, List.lookup_eq_none_iff]
    intro p hp
    exact bne_iff_ne.mpr (hdistinct p hp).symm
  have hnone : s.frameLst.lookup (ctx ++ ':' :: l.function) = none := by
    by_contra hne
    obtain ⟨a, ha⟩ := Option.ne_none_iff_exists'.mp hne
    obtain ⟨q, -, hq, -⟩ := h.inv.found _ a ha
    rw [hunseen] at hq
    cases hq
  obtain ⟨hg, hpending⟩ := List.forall₂_cons.mp h.pending
  obtain ⟨hgs, hnodup⟩ := List.nodup_cons.mp h.nodup
  unfold enter
  rw [returns_bind]
  refine returns_acquire_new hnone hg.1 ?_
  rw [returns_bind]
  refine returns_addTail h.stack (h.not_mem List.mem_cons_self) fun links callstack hstack hsame => ?_
  rw [if_neg (fun hne => hne rfl), returns_bind, hvars]
  refine Returns.mono (returns_addVariables h.inv.vars (AList.lookup_insert _)
    (fun x hx => (hnamed x hx).1) (by rwa [Level.Answered, hvars] at hanswered)) fun _ t ht => ?_
  rw [returns_pure]
  obtain ⟨args, locals, hframe, hargs, hlocals⟩ := ht.frame _ (AList.lookup_insert _)
  have hothers : ∀ b, b ≠ g → t.frames.lookup b = s.frames.lookup b := fun b hb =>
    (ht.others b hb).trans (AList.lookup_insert_ne hb)
  have hlookup : ∀ k b, t.frameLst.lookup k = some b ↔
      k = ctx ++ ':' :: l.function ∧ g = b ∨ k ≠ ctx ++ ':' :: l.function ∧
        s.frameLst.lookup k = some b := by
    intro k b
    rw [ht.frameLst]
    exact lookup_insert_eq_some
  refine ⟨?_, ?_⟩
  · rw [ht.links]
    exact hforward.congr (hsame gs hgs fun x hx hmem => h.not_mem (List.mem_cons_of_mem g hmem) hx)
  constructor
  · rw [← List.append_assoc]
    constructor
    · exact ht.vars
    · intro k b hk
      rcases (hlookup k b).mp hk with ⟨rfl, rfl⟩ | ⟨hne, hk⟩
      · refine ⟨_, _, lookup_append_singleton.mpr (Or.inr ⟨hunseen, rfl⟩), hframe, rfl, ?_⟩
        rw [← Option.getD_some (a := varlst) (b := []), ← hvars] at hargs hlocals
        exact ⟨hl.function_eq, rfl, rfl, rfl, rfl, hargs, hlocals⟩
      · obtain ⟨q, o, hq, ho, hok, hdesc⟩ := h.inv.found k b hk
        have hbg : b ≠ g := fun heq => hg.2 ⟨k, heq ▸ hk⟩
        exact ⟨q, o, lookup_append_singleton.mpr (Or.inl hq), (hothers b hbg).trans ho, hok,
          hdesc.kept ht.kept⟩
    · intro k q hq
      rcases lookup_append_singleton.mp hq with hq | ⟨-, heq⟩
      · obtain ⟨a, ha⟩ := h.inv.held k q hq
        refine ⟨a, (hlookup k a).mpr (Or.inr ⟨?_, ha⟩)⟩
        rintro rfl
        rw [hnone] at ha
        cases ha
      · exact ⟨g, (hlookup k g).mpr (Or.inl ⟨(Prod.mk.inj heq).1.symm, rfl⟩)⟩
    · intro b o hb
      rw [ht.next]
      by_cases hbg : b = g
      · exact hbg ▸ h.inv.below g _ hg.1
      · exact h.inv.below b o ((hothers b hbg).symm.trans hb)
  · rw [ht.links, ht.callstack]
    exact hstack
  · refine List.rel_append (h.done.imp ?_) (.cons ((hlookup _ g).mpr (Or.inl ⟨rfl, rfl⟩)) .nil)
    intro p a hp
    refine (hlookup _ a).mpr (Or.inr ⟨?_, hp⟩)
    intro heq
    rw [heq, hnone] at hp
    cases hp
  · refine Pending.congr hpending (fun x hx => hothers x (ne_of_mem_of_not_mem hx hgs)) ?_
    rintro x hx ⟨k, hk⟩
    rcases (hlookup k x).mp hk with ⟨-, rfl⟩ | ⟨-, hk⟩
    · exact absurd hx hgs
    · exact ⟨k, hk⟩
  · exact hnodup

/-! ## The loop -/

/-- The pointer that is read ahead. -/
theorem returns_following {Q : Option Nat → State → Prop} (hpending : Pending s ls gs)
    (hforward : s.links.Forward gs) (h : Q gs.tail.head? s) : Returns (following gs.head?) Q s := by
  cases hpending with
  | nil => exact returns_pure.mpr h
  | cons hg _ =>
      show Returns (deref _ >>= _) Q s
      rw [returns_bind]
      refine returns_deref hg.1 ?_
      rw [returns_bind, returns_get, returns_pure, hforward.1]
      exact h

/-- The loop over frames that are new. -/
theorem During.loop_new {ctx : CStr} {framelst : Option Nat} (h : During past done as ls gs s)
    (hforward : s.links.Forward gs) (hcomplete : ∀ l ∈ ls, l.Complete)
    (hnew : ∀ p ∈ points ctx ls, past.lookup p.1 = none) (hfits : Fits past ctx ls)
    (hdistinct : ∀ p ∈ done, ∀ q ∈ points ctx ls, p.1 ≠ q.1) :
    Returns (loop ls ctx framelst gs.head? gs.tail.head?)
      (fun _ t => ∃ as, During past (done ++ points ctx ls) as [] [] t) s := by
  induction ls generalizing done as gs s ctx framelst with
  | nil =>
      obtain rfl := List.forall₂_nil_left_iff.mp h.pending
      rw [points, List.append_nil]
      exact returns_pure.mpr ⟨as, h⟩
  | cons l ls ih =>
      obtain ⟨g, gs, hg, -, rfl⟩ := List.forall₂_cons_left_iff.mp h.pending
      obtain ⟨hkey, hl, hls⟩ := hfits
      have hpast := hnew _ List.mem_cons_self
      simp only [hpast] at hl
      show Returns (addFrame ctx framelst g l >>= _) _ s
      rw [returns_bind]
      refine returns_addFrame (hcomplete l List.mem_cons_self) hg.1 ?_
      refine (h.new hforward.2 (hcomplete l List.mem_cons_self) hl.1 hpast fun p hp =>
        hdistinct p hp _ List.mem_cons_self).mono fun r t ht => ?_
      rw [returns_bind]
      refine returns_following ht.2.pending ht.1 ?_
      rw [points, List.append_cons]
      refine ih ht.2 ht.1 (fun l' hl' => hcomplete l' (List.mem_cons_of_mem l hl'))
        (fun p hp => hnew p (List.mem_cons_of_mem _ hp)) hls fun p hp q hq => ?_
      rcases List.mem_append.mp hp with hp | hp
      · exact hdistinct p hp q (List.mem_cons_of_mem _ hq)
      · obtain rfl := List.mem_singleton.mp hp
        exact (hkey q hq).symm

/-- The loop over the frames. -/
theorem During.loop {ctx : CStr} {framelst : Option Nat} (h : During past done as ls gs s)
    (hlst : IsList s.links framelst gs) (hcomplete : ∀ l ∈ ls, l.Complete)
    (hfits : Fits past ctx ls) (hdistinct : ∀ p ∈ done, ∀ q ∈ points ctx ls, p.1 ≠ q.1) :
    Returns (Callstack.loop ls ctx framelst gs.head? gs.tail.head?)
      (fun _ t => ∃ as, During past (done ++ points ctx ls) as [] [] t) s := by
  induction ls generalizing done as gs s ctx framelst with
  | nil =>
      obtain rfl := List.forall₂_nil_left_iff.mp h.pending
      rw [points, List.append_nil]
      exact returns_pure.mpr ⟨as, h⟩
  | cons l ls ih =>
      obtain ⟨g, gs, hg, -, rfl⟩ := List.forall₂_cons_left_iff.mp h.pending
      obtain ⟨hkey, hl, hls⟩ := id hfits
      cases hpast : past.lookup (l.context ctx ++ ':' :: l.function) with
      | none =>
          simp only [hpast] at hl
          refine h.loop_new hlst.forward hcomplete ?_ hfits hdistinct
          intro p hp
          rcases List.mem_cons.mp hp with rfl | hp
          · exact hpast
          · exact hl.2 p hp
      | some q =>
          show Returns (addFrame ctx framelst g l >>= _) _ s
          rw [returns_bind]
          refine returns_addFrame (hcomplete l List.mem_cons_self) hg.1 ?_
          refine (h.reused hlst hpast fun p hp =>
            hdistinct p hp _ List.mem_cons_self).mono fun r t ht => ?_
          obtain ⟨hlst', a, ht⟩ := ht
          rw [returns_bind]
          refine returns_following ht.pending hlst'.forward ?_
          rw [points, List.append_cons]
          refine ih ht hlst' (fun l' hl' => hcomplete l' (List.mem_cons_of_mem l hl')) hls ?_
          intro p hp q hq
          rcases List.mem_append.mp hp with hp | hp
          · exact hdistinct p hp q (List.mem_cons_of_mem _ hq)
          · obtain rfl := List.mem_singleton.mp hp
            exact (hkey q hq).symm

/-! ## Stops -/

/-- The parser builds the list; nothing else changes. -/
theorem returns_listFrames {rest : List Level} {framelst : Option Nat} (h : Inv past s)
    (hlst : IsList s.links framelst gs) (hpending : Pending s ls gs) :
    Returns (listFrames rest framelst)
      (fun framelst t => Inv past t ∧ t.callstack = s.callstack ∧
        ∃ gs, IsList t.links framelst gs ∧ Pending t (rest.reverse ++ ls) gs) s := by
  induction rest generalizing s framelst ls gs with
  | nil => exact returns_pure.mpr ⟨h, rfl, gs, hlst, hpending⟩
  | cons l rest ih =>
      have hfresh : ∀ a, s.Listed a → a ≠ s.next := by
        rintro a ⟨k, hk⟩ rfl
        obtain ⟨q, o, -, ho, -⟩ := h.found k _ hk
        exact absurd (h.below _ o ho) (Nat.lt_irrefl _)
      have hgs : s.next ∉ gs := by
        intro hmem
        obtain ⟨⟨f, hf⟩, -⟩ := hpending.of_mem hmem
        exact absurd (h.below _ _ hf) (Nat.lt_irrefl _)
      have hold : ∀ a, a ≠ s.next → (s.frames.insert s.next { frame := l.frame }).lookup a =
          s.frames.lookup a := fun a ha => AList.lookup_insert_ne ha
      unfold listFrames
      rw [returns_bind, returns_get]
      show Returns ((modify fun t => _) >>= _) _ s
      rw [returns_bind, returns_modify, List.reverse_cons, List.append_assoc]
      refine ih ?_ (hlst.addHead hgs) (.cons ⟨AList.lookup_insert _, fun hl => ?_⟩ ?_)
      · constructor
        · exact h.vars
        · intro k a hk
          obtain ⟨q, o, hq, ho, hrest⟩ := h.found k a hk
          exact ⟨q, o, hq, (hold a (hfresh a ⟨k, hk⟩)).trans ho, hrest⟩
        · exact h.held
        · intro a o ha
          rcases lookup_insert_eq_some.mp ha with ⟨rfl, -⟩ | ⟨-, ha⟩
          · exact Nat.lt_succ_self _
          · exact Nat.lt_succ_of_lt (h.below a o ha)
      · exact hfresh _ hl rfl
      · refine hpending.congr (fun g hg => hold g (ne_of_mem_of_not_mem hg hgs)) fun _ _ hl => hl

/-- Going through a list backwards. -/
theorem printed_eq {l : Links Nat} {first : Option Nat} {xs : List Nat}
    (h : IsList l first xs) : printed l first xs.length xs.getLast? = some xs.reverse := by
  obtain ⟨hhead, hchain, -, -, hnodup⟩ := h
  induction xs using List.reverseRecOn with
  | nil => rfl
  | append_singleton xs x ih =>
      rw [List.length_append, List.length_singleton, List.getLast?_concat, List.reverse_append]
      unfold printed
      rcases xs with _ | ⟨y, ys⟩
      · have hfirst : some x = first := hhead.symm
        rw [if_pos hfirst]
        rfl
      · have hne : some x ≠ first := by
          rw [hhead]
          intro heq
          obtain rfl := Option.some.inj heq
          exact (List.nodup_append.mp hnodup).2.2 x List.mem_cons_self x List.mem_cons_self rfl
        obtain ⟨hys, -, hlast⟩ := List.isChain_append.mp hchain
        rw [if_neg hne]
        obtain ⟨last, hl⟩ : ∃ last, (y :: ys).getLast? = some last :=
          ⟨_, List.getLast?_eq_some_getLast (List.cons_ne_nil y ys)⟩
        rw [(hlast last hl x rfl).2, ← hl, ih hhead hys (List.nodup_append.mp hnodup).1]
        rfl

theorem key_of_mem_points {ctx : CStr} {p : CStr × CStr × Report} (h : p ∈ points ctx ls) :
    p.1 = p.2.1 ++ ':' :: p.2.2.function := by
  induction ls generalizing ctx with
  | nil => cases h
  | cons l ls ih =>
      rcases List.mem_cons.mp h with rfl | h
      · rfl
      · exact ih h

/-- A frame that fits is what was reported first under its key. -/
theorem Fits.lookup {ctx : CStr} (h : Fits past ctx ls)
    (hkeys : ∀ p ∈ past, p.1 = p.2.1 ++ ':' :: p.2.2.function) {p : CStr × CStr × Report}
    (hp : p ∈ points ctx ls) : (past ++ points ctx ls).lookup p.1 = some p.2 := by
  rw [List.lookup_append]
  induction ls generalizing ctx with
  | nil => cases hp
  | cons l ls ih =>
      obtain ⟨hkey, hl, hls⟩ := h
      rcases List.mem_cons.mp hp with rfl | hp
      · cases hpast : past.lookup (l.context ctx ++ ':' :: l.function) with
        | none => simp [points]
        | some q =>
            obtain ⟨l₁, l₂, hmem, -⟩ := List.lookup_eq_some_iff.mp hpast
            have hq := hkeys (_, q) (hmem ▸ List.mem_append_right l₁ List.mem_cons_self)
            simp only [hpast] at hl
            obtain ⟨qctx, qreport⟩ := q
            obtain rfl : qreport = l.report := hl
            rw [List.append_cancel_right hq]
            rfl
      · have hne := hkey p hp
        rw [points, List.lookup_cons, beq_false_of_ne hne]
        exact ih hls hp

/-- Behind the loop the callstack is what gdb reported. -/
theorem During.shows {ctx : CStr} (h : During past (points ctx ls) as [] [] s)
    (hfits : Fits past ctx ls) (hkeys : ∀ p ∈ past, p.1 = p.2.1 ++ ':' :: p.2.2.function) :
    List.Forall₂ (fun p a => ∃ o, s.frames.lookup a = some o ∧ Described s.vars p.2.1 p.2.2 o)
      (points ctx ls) as := by
  have hfound := (List.forall₂_and_left _ _).mpr ⟨fun p hp => hfits.lookup hkeys hp, h.done⟩
  refine hfound.imp fun p a hpa => ?_
  obtain ⟨q, o, hq, ho, -, hdesc⟩ := h.inv.found p.1 a hpa.2
  rw [hpa.1, Option.some.injEq] at hq
  subst hq
  exact ⟨o, ho, hdesc⟩

/-- A stop that fits is shown. -/
theorem returns_update (h : Inv past s) (hcomplete : ∀ l ∈ ls, l.Complete)
    (hkeys : ∀ p ∈ past, p.1 = p.2.1 ++ ':' :: p.2.2.function) (hfits : Fits past [] ls.reverse) :
    Returns (update true (some ls))
      (fun _ t => Inv (past ++ points [] ls.reverse) t ∧ Shows ls t) s := by
  unfold update
  rw [if_pos rfl, returns_bind, returns_modify]
  show Returns (listFrames ls none >>= _) _ _
  rw [returns_bind]
  have hreset : Inv past { s with callstack := none } := ⟨h.vars, h.found, h.held, h.below⟩
  refine (returns_listFrames hreset (isList_nil _) .nil).mono ?_
  rintro framelst t ⟨ht, hnone, gs, hlst, hpending⟩
  rw [List.append_nil] at hpending
  obtain rfl := hlst.head
  rw [returns_bind]
  refine returns_following hpending hlst.forward ?_
  have hduring : During past [] [] ls.reverse gs t := by
    refine ⟨by rwa [List.append_nil], ?_, .nil, hpending, hlst.nodup⟩
    rw [hnone]
    exact isList_nil _
  refine (hduring.loop hlst (fun l hl => hcomplete l (List.mem_reverse.mp hl)) hfits nofun).mono ?_
  rintro _ u ⟨as, hu⟩
  rw [List.nil_append] at hu
  exact ⟨hu.inv, as, hu.stack, printed_eq hu.stack, hu.shows hfits hkeys⟩

/-- **In every sequence of stops that fit**, each update returns, and the callstack is then what gdb
reported at that stop. -/
theorem updates_show (stops : List (List Level)) (last : List Level)
    (hcomplete : ∀ ls ∈ stops ++ [last], ∀ l ∈ ls, l.Complete)
    (hfit : AllFit [] (stops ++ [last])) :
    Returns ((stops ++ [last]).forM fun ls => update true (some ls)) (fun _ => Shows last)
      State.init := by
  suffices hall : ∀ past s, Inv past s → (∀ p ∈ past, p.1 = p.2.1 ++ ':' :: p.2.2.function) →
      AllFit past (stops ++ [last]) →
        Returns ((stops ++ [last]).forM fun ls => update true (some ls)) (fun _ => Shows last) s from
    hall [] State.init inv_init nofun hfit
  clear hfit
  induction stops with
  | nil =>
      intro past s h hkeys hfit
      show Returns (update true (some last) >>= fun _ => pure ()) _ s
      rw [returns_bind]
      exact (returns_update h (hcomplete last List.mem_cons_self) hkeys hfit.1).mono
        fun _ t ht => returns_pure.mpr ht.2
  | cons ls stops ih =>
      intro past s h hkeys hfit
      show Returns (update true (some ls) >>= fun _ => (stops ++ [last]).forM _) _ s
      rw [returns_bind]
      refine (returns_update h (hcomplete ls List.mem_cons_self) hkeys hfit.1).mono fun _ t ht => ?_
      refine ih (fun ls' hls' => hcomplete ls' (List.mem_cons_of_mem ls hls')) _ t ht.1 ?_ hfit.2
      intro p hp
      rcases List.mem_append.mp hp with hp | hp
      · exact hkeys p hp
      · exact key_of_mem_points hp

/-- A frame with one argument or none. -/
private def reported (function : String) (line : BitVec 32) (arg : Option String) : Level where
  frame := { function := some function.toList, line }
  vars := some (arg.toList.map fun name =>
    { var := { name := some name.toList, type := some "int".toList, argument := true }
      create := some {}
      info := some {}
      deleted := true })

/-- A function is called. -/
theorem call_shown :
    Returns ([[reported "main" 10 (some "argc")],
        [reported "f" 3 (some "x"), reported "main" 10 (some "argc")]].forM
          fun ls => update true (some ls))
      (fun _ => Shows [reported "f" 3 (some "x"), reported "main" 10 (some "argc")]) State.init := by
  refine updates_show [[reported "main" 10 (some "argc")]] _ ?_ ?_
  · have hcomplete : ∀ function line name, (reported function line (some name)).Complete := by
      intro function line name
      refine ⟨nofun, _, rfl, fun x hx => ?_⟩
      obtain rfl := List.mem_singleton.mp hx
      exact ⟨nofun, nofun⟩
    intro ls hls l hl
    simp only [List.cons_append, List.nil_append, List.mem_cons, List.not_mem_nil, or_false] at hls
    rcases hls with rfl | rfl
    · obtain rfl := List.mem_singleton.mp hl
      exact hcomplete _ _ _
    · simp only [List.mem_cons, List.not_mem_nil, or_false] at hl
      rcases hl with rfl | rfl
      · exact hcomplete _ _ _
      · exact hcomplete _ _ _
  · have hanswered : ∀ function line name, (reported function line (some name)).Answered := by
      intro function line name x hx
      obtain rfl := List.mem_singleton.mp hx
      exact ⟨nofun, nofun, rfl⟩
    have hcalled : ∀ past function line name ctx,
        past.lookup ((reported function line (some name)).context ctx ++ ':' ::
          (reported function line (some name)).function) = none →
            Fits past ctx [reported function line (some name)] := by
      intro past function line name ctx hnew
      refine ⟨fun p hp => absurd hp List.not_mem_nil, ?_, trivial⟩
      rw [hnew]
      exact ⟨hanswered _ _ _, fun p hp => absurd hp List.not_mem_nil⟩
    refine ⟨hcalled [] _ _ _ _ rfl, ?_, trivial⟩
    show Fits (points [] [reported "main" 10 (some "argc")]) []
      [reported "main" 10 (some "argc"), reported "f" 3 (some "x")]
    refine ⟨by decide, rfl, hcalled _ _ _ _ _ rfl⟩

/-- The line of a frame changes: the callstack shows the old one. -/
theorem line_not_updated :
    Returns ([[reported "main" 10 none], [reported "main" 11 none]].forM
        fun ls => update true (some ls))
      (fun _ s => ¬ Shows [reported "main" 11 none] s) State.init := by
  have hrun : (exec ([[reported "main" 10 none], [reported "main" 11 none]].forM
      fun ls => update true (some ls)) State.init).map (fun r =>
        (r.1.toOption, r.2.callstack, (r.2.frames.lookup 0).map fun o => o.frame.line)) =
      some (some (), some 0, some 10) := by
    decide +kernel
  obtain ⟨⟨_ | _, s⟩, hexec, heq⟩ := Option.map_eq_some_iff.mp hrun
  · cases (Prod.mk.inj heq).1
  · obtain ⟨-, hrest⟩ := Prod.mk.inj heq
    obtain ⟨hcallstack, hline⟩ := Prod.mk.inj hrest
    refine ⟨(), s, hexec, ?_⟩
    rintro ⟨as, hlist, -, hall⟩
    obtain ⟨a, as, ⟨o, ho, hdesc⟩, -, rfl⟩ := List.forall₂_cons_left_iff.mp hall
    obtain rfl : 0 = a := Option.some.inj (hcallstack.symm.trans hlist.head)
    rw [ho] at hline
    exact absurd (hdesc.line.symm.trans (Option.some.inj hline)) (by decide)

end Vimgdb.Gdb.Callstack
