import Vimgdb.Gdb.Parser
import Vimgdb.Gdb.VariableInvariants

/-!
# Reported changes

The reply to `var-update`, from the tokens to what `get_changed` does to the variables.

* `Entry`, `reply`: a list of changes, and the tokens gdb writes for it.
* `record_reply`: what the parser makes of it.
* `Handled`: what is required of `get_changed`.
* `Told`: what its loop keeps.
* `getChanged_handled_iff`: the lists for which it does what is required, in every reachable state.
-/

namespace Vimgdb.Gdb

/-! ## Bodies -/

variable {α β : Type} {item : Tok → Option (α → P α)} {fuel : Nat} {t : Tok} {ts rest : List Tok}
  {f : α → P α} {a b : α}

/-- An entry at the front of a body. -/
theorem itemsFuel_item (hitem : item t = some f) (ht : t ≠ .chr ',')
    (hf : f a ts = .accepted (b, rest)) :
    itemsFuel item (fuel + 1) a (t :: ts) = itemsFuel item fuel b rest := by
  rw [itemsFuel]
  dsimp only
  split
  · next heq => exact absurd (List.cons.inj heq).1 ht
  · next heq =>
    obtain ⟨rfl, rfl⟩ := List.cons.inj heq
    rw [hitem]
    show Outcome.bind (f a ts) _ = _
    rw [hf]
    rfl
  · next heq => cases heq

/-- An entry behind a comma. -/
theorem itemsFuel_comma (hitem : item t = some f) (hf : f a ts = .accepted (b, rest)) :
    itemsFuel item (fuel + 1) a (.chr ',' :: t :: ts) = itemsFuel item fuel b rest := by
  rw [itemsFuel]
  simp only [hitem]
  show Outcome.bind (f a ts) _ = _
  rw [hf]
  rfl

/-- The end of a body. -/
theorem itemsFuel_end (hitem : item t = none) (ht : t ≠ .chr ',') :
    itemsFuel item (fuel + 1) a (t :: ts) = .accepted (a, t :: ts) := by
  rw [itemsFuel]
  dsimp only
  split
  · next heq => exact absurd (List.cons.inj heq).1 ht
  · next heq =>
    obtain ⟨rfl, rfl⟩ := List.cons.inj heq
    rw [hitem]
  · next heq => cases heq

/-- The tokens of a string. -/
def stringToks (s : CStr) : List Tok :=
  if s = [] then [.chr '"', .chr '"'] else [.chr '"', .string s, .chr '"']

/-- The tokens of a field. -/
def fieldToks (v : Var) (s : CStr) : List Tok := .var v :: .chr '=' :: stringToks s

end Vimgdb.Gdb

namespace Vimgdb.Gdb.VariableMaps

open Programs PointerTree Maps Runs
open Variables (reported)

/-! ## The reply to `var-update` -/

/-- `in_scope` -/
inductive Scope
  | inScope | notInScope | invalid
  deriving DecidableEq

/-- What gdb writes for it. -/
def Scope.text : Scope → CStr
  | inScope => "true".toList
  | notInScope => "false".toList
  | invalid => "invalid".toList

/-- `new_type` and `new_num_children` -/
structure NewType where
  type : CStr
  count : CStr

/-- An entry of the list, and what else `get_changed` reads when it comes to the entry. -/
structure Entry where
  name : CStr
  scope : Scope
  /-- `type_changed`, with the new type if it is true. -/
  typeChanged : Option (Option NewType)
  /-- It is missing only where the variable is invalid. -/
  told : scope ≠ .invalid → typeChanged ≠ none
  /-- What is in memory for `type_changed`, which the constructor leaves uninitialised. -/
  junk : Bool
  /-- The replies to the commands that follow. -/
  childs : Option (List Variable)
  deleted : Bool

/-- The tokens for `type_changed`. -/
def typeToks : Option (Option NewType) → List Tok
  | none => []
  | some none => .chr ',' :: fieldToks .typeChanged "false".toList
  | some (some nt) =>
      .chr ',' :: (fieldToks .typeChanged "true".toList ++
        .chr ',' :: (fieldToks .newType nt.type ++ .chr ',' :: fieldToks .newNumChild nt.count))

/-- The tokens of an entry. -/
def Entry.toks (e : Entry) : List Tok :=
  .chr '{' :: (fieldToks .name e.name ++ .chr ',' :: (fieldToks .inscope e.scope.text ++
    (typeToks e.typeChanged ++ .chr ',' :: (fieldToks .hasMore "0".toList ++ [.chr '}']))))

/-- The tokens of the list. -/
def listToks : List Entry → List Tok
  | [] => []
  | e :: es => e.toks ++ es.flatMap fun e => .chr ',' :: e.toks

/-- The tokens of the reply. -/
def reply (token : BitVec 32) (es : List Entry) : List Tok :=
  .number token :: .chr '^' :: .rc .done :: .chr ',' :: .var .changelist :: .chr '=' :: .chr '[' ::
    (listToks es ++ [.chr ']'])

/-- What the parser makes of an entry.  `in_scope` is a truth value. -/
def Entry.record (e : Entry) : Variable where
  name := some e.name
  type := e.typeChanged.join.map NewType.type
  inscope := if e.scope = .inScope then '\x01' else '\x00'
  typeChanged := e.typeChanged.map Option.isSome
  nchilds := (e.typeChanged.join.map fun nt => atoi nt.count).getD 0

/-- The body of an entry. -/
theorem variableBody_toks (e : Entry) (rest : List Tok) :
    variableBody (fieldToks .inscope e.scope.text ++ (typeToks e.typeChanged ++
      .chr ',' :: (fieldToks .hasMore "0".toList ++ .chr '}' :: rest))) =
      .accepted ({ e.record with name := none }, .chr '}' :: rest) := by
  obtain ⟨name, scope, typeChanged, told, junk, childs, deleted⟩ := e
  rcases typeChanged with _ | _ | ⟨⟨_ | ⟨c, type⟩, _ | ⟨d, count⟩⟩⟩ <;> cases scope <;> rfl

theorem variable_toks (e : Entry) (rest : List Tok) :
    variable_ (fieldToks .name e.name ++ .chr ',' :: (fieldToks .inscope e.scope.text ++
      (typeToks e.typeChanged ++
        .chr ',' :: (fieldToks .hasMore "0".toList ++ .chr '}' :: rest)))) =
      .accepted (some e.record, .chr '}' :: rest) := by
  have hbody := variableBody_toks e rest
  obtain ⟨name, scope, typeChanged, told, junk, childs, deleted⟩ := e
  cases name with
  | nil =>
      show Outcome.bind (variableBody _) _ = _
      rw [hbody]
      rfl
  | cons c name =>
      show Outcome.bind (variableBody _) _ = _
      rw [hbody]
      rfl

/-- The list behind its first entries. -/
theorem itemsFuel_list {item : Tok → Option (List Variable → P (List Variable))}
    {f : List Variable → P (List Variable)} (hitem : item (.chr '{') = some f)
    (hf : ∀ (e : Entry) l rest, f l (e.toks.tail ++ rest) = .accepted (l ++ [e.record], rest))
    (hend : item (.chr ']') = none) {es : List Entry} {fuel : Nat} (hfuel : es.length < fuel)
    (l : List Variable) (rest : List Tok) :
    itemsFuel item fuel l ((es.flatMap fun e => .chr ',' :: e.toks) ++ .chr ']' :: rest) =
      .accepted (l ++ es.map Entry.record, .chr ']' :: rest) := by
  induction es generalizing fuel l with
  | nil =>
      obtain ⟨fuel, rfl⟩ := Nat.exists_eq_add_of_lt hfuel
      rw [List.map_nil, List.append_nil]
      exact itemsFuel_end hend (by decide)
  | cons e es ih =>
      cases fuel with
      | zero => exact absurd hfuel (Nat.not_lt_zero _)
      | succ fuel =>
          have htoks : ((e :: es).flatMap fun e => Tok.chr ',' :: e.toks) ++ .chr ']' :: rest =
              .chr ',' :: .chr '{' :: (e.toks.tail ++
                ((es.flatMap fun e => Tok.chr ',' :: e.toks) ++ .chr ']' :: rest)) := by
            rw [List.flatMap_cons, List.append_assoc]
            rfl
          rw [htoks, itemsFuel_comma hitem (hf e l _), ih (Nat.lt_of_succ_lt_succ hfuel),
            List.append_assoc]
          rfl

theorem tail_toks (e : Entry) (rest : List Tok) : e.toks.tail ++ rest =
    fieldToks .name e.name ++ .chr ',' :: (fieldToks .inscope e.scope.text ++
      (typeToks e.typeChanged ++
        .chr ',' :: (fieldToks .hasMore "0".toList ++ .chr '}' :: rest))) := by
  unfold Entry.toks
  simp only [List.tail_cons, List.append_assoc, List.cons_append, List.nil_append]

/-- The body of the list. -/
theorem variableList_items : ∃ item f, item (.chr '{') = some f ∧ item (.chr ']') = none ∧
    (∀ l ts, f l ts = Outcome.bind (variable_ ts) fun r =>
      Outcome.bind (chr '}' r.2) fun q => listAddTail l r.1 q.2) ∧
      ∀ ts, variableList (.chr '=' :: .chr '[' :: ts) =
        Outcome.bind (itemsFuel item (ts.length + 1) [] ts) fun r =>
          Outcome.bind (chr ']' r.2) fun q => .accepted (r.1, q.2) := by
  refine ⟨_, _, rfl, ?_, ?_, fun ts => rfl⟩
  · rfl
  · intro l ts
    rfl

theorem length_le_flatMap (es : List Entry) :
    es.length ≤ (es.flatMap fun e => Tok.chr ',' :: e.toks).length := by
  induction es with
  | nil => exact Nat.zero_le _
  | cons e es ih =>
      rw [List.flatMap_cons, List.length_append, List.length_cons, List.length_cons]
      omega

theorem variableList_toks (es : List Entry) (rest : List Tok) :
    variableList (.chr '=' :: .chr '[' :: (listToks es ++ .chr ']' :: rest)) =
      .accepted (es.map Entry.record, rest) := by
  obtain ⟨item, f, hitem, hend, hf, hlist⟩ := variableList_items
  have hentry : ∀ (e : Entry) l rest,
      f l (e.toks.tail ++ rest) = .accepted (l ++ [e.record], rest) := by
    intro e l rest
    rw [hf, tail_toks, variable_toks]
    rfl
  rw [hlist]
  cases es with
  | nil =>
      rw [show listToks [] = [] from rfl, List.nil_append, itemsFuel_end hend (by decide)]
      rfl
  | cons e es =>
      have htoks : listToks (e :: es) ++ .chr ']' :: rest = .chr '{' :: (e.toks.tail ++
          ((es.flatMap fun e => Tok.chr ',' :: e.toks) ++ .chr ']' :: rest)) := by
        rw [listToks, List.append_assoc]
        rfl
      have hlen : es.length + 1 < (Tok.chr '{' :: (e.toks.tail ++
          ((es.flatMap fun e => Tok.chr ',' :: e.toks) ++ .chr ']' :: rest))).length + 1 := by
        have hle := length_le_flatMap es
        rw [List.length_cons, List.length_append, List.length_append]
        omega
      obtain ⟨fuel, hfuel⟩ := Nat.exists_eq_add_of_lt hlen
      rw [htoks, hfuel, itemsFuel_item hitem (by decide) (hentry e [] _),
        itemsFuel_list hitem hentry hend (by omega)]
      rfl

theorem result_changelist (ts : List Tok) : result (.var .changelist :: ts) =
    Outcome.bind (variableList ts) fun r => .accepted (.variables r.1, r.2) := rfl

theorem response_done (ts : List Tok) : response (.rc .done :: .chr ',' :: ts) =
    Outcome.bind (result ts) fun r => .accepted ((.done, some r.1), r.2) := rfl

theorem recordCall_result (token : BitVec 32) (ts : List Tok) :
    recordCall (.number token :: .chr '^' :: ts) =
      Outcome.bind (response ts) fun r => .accepted (.procResult r.1.1 token r.1.2, r.2) := rfl

/-- The entries, as the parser hands them on. -/
theorem record_reply (token : BitVec 32) (es : List Entry) : record (reply token es) =
    .accepted (.procResult .done token (some (.variables (es.map Entry.record)))) := by
  unfold record reply
  rw [recordCall_result, response_done, result_changelist, variableList_toks]
  rfl

/-- The entry as `get_changed` reads it, also where the record does not have `type_changed`, and the
replies behind it. -/
def Entry.change (e : Entry) (v : Variable) : Change where
  entry := { v with typeChanged := some (v.typeChanged.getD e.junk) }
  childs := e.childs
  deleted := e.deleted

/-- The list for `get_changed`: the objects of the reply, with the entries they were made from. -/
def received (outcome : Outcome Call) (es : List Entry) : Option (List Change) :=
  match outcome with
  | ⟨false, some (.procResult .done _ (some (.variables vs)))⟩ => some (List.zipWith Entry.change es vs)
  | _ => none

/-- The entries, as `get_changed` finds them. -/
def changes (es : List Entry) : List Change := es.map fun e => e.change e.record

theorem received_reply (token : BitVec 32) (es : List Entry) :
    received (record (reply token es)) es = some (changes es) := by
  rw [record_reply]
  show some (List.zipWith Entry.change es (es.map Entry.record)) = _
  rw [List.zipWith_map_right, List.zipWith_self]
  rfl

/-! ## What is required -/

/-- The last new type that the entries have for the name. -/
def newType (name : CStr) (es : List Entry) : Option NewType :=
  es.foldl (fun nt e => if e.name = name then e.typeChanged.join.or nt else nt) none

/-- Children of variables that have another type, and what is below them. -/
inductive Orphaned (s : State) (es : List Entry) : Nat → Prop
  | retyped {name : CStr} {a b : Nat} {v : Object} : newType name es ≠ none →
      s.varLst.lookup name = some a → s.heap.lookup a = some v → b ∈ v.childs → Orphaned s es b
  | child {a b : Nat} {v : Object} : Orphaned s es a → s.heap.lookup a = some v → b ∈ v.childs →
      Orphaned s es b

/-- The variables that are to be removed: those that are orphaned, and those that are invalid and
have no other reference, with what is below them. -/
inductive Removed (s : State) (es : List Entry) : Nat → Prop
  | orphaned {a : Nat} : Orphaned s es a → Removed s es a
  | invalid {e : Entry} {a : Nat} {v : Object} : e ∈ es → e.scope = .invalid →
      s.varLst.lookup e.name = some a → s.heap.lookup a = some v → v.refcnt = 1 → Removed s es a
  | child {a b : Nat} {v : Object} : Removed s es a → s.heap.lookup a = some v → b ∈ v.childs →
      Removed s es b

/-- One reference is gone, and the variable with the last one. -/
def Released (v : Object) (w : Option Object) : Prop :=
  if v.refcnt = 1 then w = none else ∃ u, w = some u ∧ u.refcnt = v.refcnt - 1

/-- What is required of the variables behind `get_changed`. -/
structure Handled (s : State) (es : List Entry) (t : State) : Prop where
  invalid : ∀ e ∈ es, e.scope = .invalid → ∀ a v, s.varLst.lookup e.name = some a →
    s.heap.lookup a = some v → Released v (t.heap.lookup a)
  retyped : ∀ name nt a v, newType name es = some nt → s.varLst.lookup name = some a →
    s.heap.lookup a = some v → (∀ c ∈ v.childs, t.heap.lookup c = none) ∧
      ∀ w, t.heap.lookup a = some w → w.var.type = some nt.type ∧ w.var.nchilds = atoi nt.count
  unlisted : ∀ a v, s.heap.lookup a = some v → (∀ e ∈ es, v.var.name ≠ some e.name) →
    ¬ Removed s es a → t.heap.lookup a = some v

/-- Every variable that gdb reports to be invalid is deleted anyway, with a parent that has another
type, and has no other reference. -/
def InvalidOrphaned (s : State) (es : List Entry) : Prop :=
  ∀ e ∈ es, e.scope = .invalid → ∀ a v, s.varLst.lookup e.name = some a →
    s.heap.lookup a = some v → v.refcnt = 1 ∧ Orphaned s es a

/-! ## What the loop keeps -/

/-- The last of the changes for the name that have another type. -/
def newest (name : CStr) (cl : List Change) : Option Variable :=
  cl.foldl (fun e c => if c.entry.name = some name ∧ c.entry.typeChanged = some true then
    some c.entry else e) none

theorem newest_append (name : CStr) (cl : List Change) (c : Change) : newest name (cl ++ [c]) =
    if c.entry.name = some name ∧ c.entry.typeChanged = some true then some c.entry
    else newest name cl := by
  rw [newest, List.foldl_append]
  rfl

/-- The changes `done` have been made since `s`, and the variables `P` are to be deleted.  A
variable that was there in `s` is deleted with its children, unless it loses them first; it has its
references, and what the last of its changes says. -/
structure Told (s : State) (done : List Change) (P : List Nat) (u : State) : Prop where
  sound : Sound u
  next : s.next ≤ u.next
  names : ∀ n a, u.varLst.lookup n = some a → a < s.next → s.varLst.lookup n = some a
  cut : ∀ a v c, s.heap.lookup a = some v → c ∈ v.childs → u.heap.lookup c = none ∨ c ∈ P ∨
    ∃ w, u.heap.lookup a = some w ∧ c ∈ w.childs
  kept : ∀ a v w, s.heap.lookup a = some v → u.heap.lookup a = some w →
    w.var.name = v.var.name ∧ w.refcnt = v.refcnt
  unlisted : ∀ a v w, s.heap.lookup a = some v → u.heap.lookup a = some w →
    (∀ c ∈ done, c.entry.name ≠ v.var.name) → w = v
  retyped : ∀ a v w n e, s.heap.lookup a = some v → u.heap.lookup a = some w → v.var.name = some n →
    newest n done = some e → w.var.type = e.type ∧ w.var.nchilds = e.nchilds ∧
      ∀ c ∈ w.childs, s.next ≤ c

variable {s t u : State} {done cl : List Change} {P : List Nat} {a b : Nat} {v w : Object}

theorem Sound.told (h : Sound s) : Told s [] [] s where
  sound := h
  next := Nat.le_refl _
  names _ _ hn _ := hn
  cut a v c ha hc := Or.inr (Or.inr ⟨v, ha, hc⟩)
  kept a v w ha hw := by
    obtain rfl := Option.some.inj (ha.symm.trans hw)
    exact ⟨rfl, rfl⟩
  unlisted a v w ha hw _ := (Option.some.inj (ha.symm.trans hw)).symm
  retyped a v w n e ha hw hname hnew := nomatch hnew

/-- The destructor. -/
theorem Told.free (h : Told s done (b :: P) u) (hb : u.heap.lookup b = some w) :
    Told s done (w.childs ++ P) ({ u with heap := u.heap.erase b }.unlist w) := by
  have hheap : ({ u with heap := u.heap.erase b }.unlist w).heap = u.heap.erase b := unlist_heap _ _
  have hold : ∀ {a x}, ({ u with heap := u.heap.erase b }.unlist w).heap.lookup a = some x →
      a ≠ b ∧ u.heap.lookup a = some x := by
    intro a x hx
    rw [hheap] at hx
    exact lookup_erase_eq_some.mp hx
  constructor
  · exact stable_sound.free h.sound hb
  · unfold State.unlist
    split
    · exact h.next
    · split
      · exact h.next
      · exact h.next
  · intro n a hn hlt
    unfold State.unlist at hn
    split at hn
    · exact h.names n a hn hlt
    · split at hn
      · exact h.names n a hn hlt
      · exact h.names n a (lookup_erase_eq_some.mp hn).2 hlt
  · intro a v c ha hc
    rw [hheap]
    by_cases hcb : c = b
    · exact Or.inl (hcb ▸ AList.lookup_erase _ _)
    · rcases h.cut a v c ha hc with hnone | hmem | ⟨x, hx, hcx⟩
      · exact Or.inl ((AList.lookup_erase_ne hcb).trans hnone)
      · exact Or.inr (Or.inl (List.mem_append_right _ ((List.mem_cons.mp hmem).resolve_left hcb)))
      · by_cases hab : a = b
        · subst hab
          obtain rfl := Option.some.inj (hb.symm.trans hx)
          exact Or.inr (Or.inl (List.mem_append_left _ hcx))
        · exact Or.inr (Or.inr ⟨x, (AList.lookup_erase_ne hab).trans hx, hcx⟩)
  · intro a v x ha hx
    exact h.kept a v x ha (hold hx).2
  · intro a v x ha hx
    exact h.unlisted a v x ha (hold hx).2
  · intro a v x n e ha hx
    exact h.retyped a v x n e ha (hold hx).2

theorem Told.deleteAll {fuel : Nat} (h : Told s done P u) {E : Unit → State → Prop} :
    Post (deleteAll fuel P) (fun _ => Told s done []) E u :=
  deleteAll_spec (K := Told s done) h fun _ _ _ _ ht hw => ht.free hw

/-- A child is entered.  The variable it is entered for is a new one, or one whose changes count. -/
theorem Told.addChild (hs : Sound s) (h : Told s done [] u) {p : Object}
    (hp : u.heap.lookup b = some p) {name : CStr} {c : Variable} (hname : c.name = some name)
    (hunused : u.unused name = true)
    (hlisted : ∀ v, s.heap.lookup b = some v → ∃ c ∈ done, c.entry.name = v.var.name) :
    Told s done [] (u.addChild b p name c) := by
  have hnext : ∀ {a v}, s.heap.lookup a = some v → a ≠ u.next := fun ha =>
    Nat.ne_of_lt ((hs.names.below _ _ ha).trans_le h.next)
  -- a variable that was there in `s` is the one for which the child is entered, or is unchanged
  have hold : ∀ {a v x}, s.heap.lookup a = some v → (u.addChild b p name c).heap.lookup a = some x →
      a = b ∧ { p with childs := p.childs ++ [u.next] } = x ∨ u.heap.lookup a = some x := by
    intro a v x ha hx
    rcases lookup_insert_eq_some.mp hx with hx | ⟨-, hx⟩
    · exact Or.inl hx
    · exact Or.inr ((lookup_insert_eq_some.mp hx).resolve_left fun heq => hnext ha heq.1).2
  constructor
  · exact stable_sound.addChild h.sound hp hname hunused
  · exact h.next.trans (Nat.le_succ _)
  · intro n a hn hlt
    rcases lookup_insert_eq_some.mp hn with ⟨-, rfl⟩ | ⟨-, hn⟩
    · exact absurd hlt (Nat.not_lt_of_le h.next)
    · exact h.names n a hn hlt
  · intro a v d ha hd
    have hdnext : d ≠ u.next := Nat.ne_of_lt ((hs.newer a v d ha hd).2.trans_le h.next)
    rcases h.cut a v d ha hd with hnone | hmem | ⟨x, hx, hdx⟩
    · refine Or.inl ?_
      have hdb : d ≠ b := by
        rintro rfl
        exact absurd (hnone.symm.trans hp) (Option.some_ne_none p).symm
      show ((u.heap.insert u.next _).insert b _).lookup d = none
      rw [AList.lookup_insert_ne hdb, AList.lookup_insert_ne hdnext, hnone]
    · exact absurd hmem List.not_mem_nil
    · refine Or.inr (Or.inr ?_)
      by_cases hab : a = b
      · subst hab
        obtain rfl := Option.some.inj (hp.symm.trans hx)
        exact ⟨_, AList.lookup_insert _, List.mem_append_left _ hdx⟩
      · refine ⟨x, ?_, hdx⟩
        show ((u.heap.insert u.next _).insert b _).lookup a = some x
        rw [AList.lookup_insert_ne hab, AList.lookup_insert_ne (hnext ha), hx]
  · intro a v x ha hx
    rcases hold ha hx with ⟨rfl, rfl⟩ | hx
    · exact h.kept a v p ha hp
    · exact h.kept a v x ha hx
  · intro a v x ha hx hnot
    rcases hold ha hx with ⟨rfl, rfl⟩ | hx
    · obtain ⟨c, hc, hcname⟩ := hlisted v ha
      exact absurd hcname (hnot c hc)
    · exact h.unlisted a v x ha hx hnot
  · intro a v x n e ha hx hn hnew
    rcases hold ha hx with ⟨rfl, rfl⟩ | hx
    · obtain ⟨htype, hcount, hchilds⟩ := h.retyped a v p n e ha hp hn hnew
      refine ⟨htype, hcount, fun d hd => ?_⟩
      rcases List.mem_append.mp hd with hd | hd
      · exact hchilds d hd
      · exact (List.mem_singleton.mp hd) ▸ h.next
    · exact h.retyped a v x n e ha hx hn hnew

theorem Told.initChilds (hs : Sound s) (h : Told s done [] u)
    (hlisted : ∀ v, s.heap.lookup b = some v → ∃ c ∈ done, c.entry.name = v.var.name)
    (listed : Option (List Variable)) :
    Post (initChilds b listed) (fun _ => Told s done []) (fun _ => Told s done []) u := by
  refine keeps_initChilds_of (fun c u h => ?_) listed u h
  exact addChild_spec fun p name hp hname hunused => h.addChild hs hp hname hunused hlisted

/-- The entry is for a variable that is not known. -/
theorem Told.skip (h : Told s done [] u) {c : Change} {name : CStr}
    (hname : c.entry.name = some name) (hnone : u.varLst.lookup name = none) :
    Told s (done ++ [c]) [] u := by
  refine { h with
    unlisted := fun a v w ha hw hnot => ?_, retyped := fun a v w n e ha hw hn hnew => ?_ }
  · exact h.unlisted a v w ha hw fun d hd => hnot d (List.mem_append_left _ hd)
  · rw [newest_append] at hnew
    split at hnew
    · next heq =>
      -- a variable with this name would be known
      obtain ⟨m, hm, hlookup⟩ := h.sound.names.listed a w hw
      rw [(h.kept a v w ha hw).1, hn] at hm
      rw [hname] at heq
      rw [← Option.some.inj hm, ← Option.some.inj heq.1, hnone] at hlookup
      cases hlookup
    · exact h.retyped a v w n e ha hw hn hnew

/-- The variable of the entry changes: it gets the new type and loses its children, or neither. -/
theorem Told.update (h : Told s done [] u) {c : Change} {w' : Object} {u' : State}
    (hsound : Sound u') (hnext : u'.next = u.next) (hnames : u'.varLst = u.varLst)
    (hw : u.heap.lookup b = some w) (hw' : u'.heap.lookup b = some w')
    (hother : ∀ a, a ≠ b → u'.heap.lookup a = u.heap.lookup a)
    (hname : c.entry.name = w.var.name) (hname' : w'.var.name = w.var.name)
    (hrefcnt : w'.refcnt = w.refcnt)
    (hretype : c.entry.typeChanged = some true →
      w'.var.type = c.entry.type ∧ w'.var.nchilds = c.entry.nchilds ∧ w'.childs = [] ∧ P = w.childs)
    (hsame : c.entry.typeChanged ≠ some true → w'.var.type = w.var.type ∧
      w'.var.nchilds = w.var.nchilds ∧ w'.childs = w.childs ∧ P = []) :
    Told s (done ++ [c]) P u' := by
  constructor
  · exact hsound
  · rw [hnext]
    exact h.next
  · intro n a hn
    rw [hnames] at hn
    exact h.names n a hn
  · intro a v d ha hd
    rcases h.cut a v d ha hd with hnone | hmem | ⟨x, hx, hdx⟩
    · refine Or.inl ?_
      have hdb : d ≠ b := by
        rintro rfl
        exact absurd (hnone.symm.trans hw) (Option.some_ne_none w).symm
      rw [hother d hdb, hnone]
    · exact absurd hmem List.not_mem_nil
    · refine Or.inr ?_
      by_cases hab : a = b
      · subst hab
        obtain rfl := Option.some.inj (hw.symm.trans hx)
        by_cases htype : c.entry.typeChanged = some true
        · obtain ⟨-, -, -, rfl⟩ := hretype htype
          exact Or.inl hdx
        · obtain ⟨-, -, hchilds, -⟩ := hsame htype
          exact Or.inr ⟨w', hw', hchilds ▸ hdx⟩
      · exact Or.inr ⟨x, (hother a hab).trans hx, hdx⟩
  · intro a v x ha hx
    by_cases hab : a = b
    · subst hab
      obtain rfl := Option.some.inj (hw'.symm.trans hx)
      obtain ⟨hn, hr⟩ := h.kept a v w ha hw
      exact ⟨hname'.trans hn, hrefcnt.trans hr⟩
    · exact h.kept a v x ha ((hother a hab).symm.trans hx)
  · intro a v x ha hx hnot
    by_cases hab : a = b
    · subst hab
      refine absurd ?_ (hnot c (List.mem_append_right _ (List.mem_singleton_self c)))
      exact hname.trans (h.kept a v w ha hw).1
    · exact h.unlisted a v x ha ((hother a hab).symm.trans hx) fun d hd =>
        hnot d (List.mem_append_left _ hd)
  · intro a v x n e ha hx hn hnew
    rw [newest_append] at hnew
    by_cases hab : a = b
    · subst hab
      obtain rfl := Option.some.inj (hw'.symm.trans hx)
      have hcname : c.entry.name = some n := (hname.trans (h.kept a v w ha hw).1).trans hn
      by_cases htype : c.entry.typeChanged = some true
      · rw [if_pos ⟨hcname, htype⟩] at hnew
        obtain rfl := Option.some.inj hnew
        obtain ⟨ht, hc, hchilds, -⟩ := hretype htype
        refine ⟨ht, hc, fun d hd => ?_⟩
        rw [hchilds] at hd
        exact absurd hd List.not_mem_nil
      · rw [if_neg fun heq => htype heq.2] at hnew
        obtain ⟨ht, hc, hchilds⟩ := h.retyped a v w n e ha hw hn hnew
        obtain ⟨ht', hc', hchilds', -⟩ := hsame htype
        exact ⟨ht'.trans ht, hc'.trans hc, hchilds' ▸ hchilds⟩
    · have hxu := (hother a hab).symm.trans hx
      rw [if_neg] at hnew
      · exact h.retyped a v x n e ha hxu hn hnew
      · rintro ⟨hcname, -⟩
        have hxn : x.var.name = some n := (h.kept a v x ha hxu).1.trans hn
        exact hab (h.sound.names.inj hxu hw (hxn.trans (hcname.symm.trans hname)))

theorem reported_retyped (e : Variable) (visible : Bool) (v : Variable)
    (htype : e.typeChanged = some true) :
    (reported e visible v).type = e.type ∧ (reported e visible v).nchilds = e.nchilds := by
  unfold reported
  rw [if_pos htype]
  exact ⟨rfl, rfl⟩

theorem reported_same (e : Variable) (visible : Bool) (v : Variable)
    (htype : e.typeChanged ≠ some true) :
    (reported e visible v).type = v.type ∧ (reported e visible v).nchilds = v.nchilds := by
  unfold reported
  rw [if_neg htype]
  split <;> exact ⟨rfl, rfl⟩

/-- An entry that is not taken for invalid. -/
theorem Told.change (hs : Sound s) (h : Told s done [] u) {c : Change}
    (hscope : c.entry.inscope ≠ 'i') {E : Unit → State → Prop} :
    Post (change c) (fun _ => Told s (done ++ [c]) []) E u := by
  refine change_spec (fun name hname hnone => h.skip hname hnone)
    fun name b w visible hname hb hw => ?_
  obtain ⟨w₀, hw₀, hwname⟩ := h.sound.names.keyed name b hb
  obtain rfl := Option.some.inj (hw.symm.trans hw₀)
  have hcname := hname.trans hwname.symm
  generalize hx : ({ w with var := reported c.entry visible w.var } : Object) = x
  have hxname : x.var.name = w.var.name := by rw [← hx]; exact reported_name _ _ _
  have hxchilds : x.childs = w.childs := by rw [← hx]
  have hxrefcnt : x.refcnt = w.refcnt := by rw [← hx]
  have hset : Sound (u.setObject b x) :=
    stable_sound.setObject h.sound hw hxname (by rw [← hx]) (by rw [← hx]) (Or.inl hxchilds)
  have hself : (u.setObject b x).heap.lookup b = some x := AList.lookup_insert _
  have hother : ∀ a, a ≠ b → (u.setObject b x).heap.lookup a = u.heap.lookup a :=
    fun a ha => AList.lookup_insert_ne ha
  rw [decide_eq_false hscope]
  show Post (onlyIf _ _ >>= fun _ => pure ()) _ _ _
  rw [post_bind, post_onlyIf]
  split
  · next htype =>
    have htype := of_decide_eq_true htype
    have hretyped := reported_retyped c.entry visible w.var htype
    rw [post_bind]
    unfold VariableMaps.eraseChilds
    rw [post_bind]
    refine post_deref fun y hy => ?_
    obtain rfl := Option.some.inj (hself.symm.trans hy)
    rw [post_bind, post_modify]
    have hcut : Sound ((u.setObject b x).setObject b { x with childs := [] }) :=
      stable_sound.setObject hset hself rfl rfl rfl (Or.inr rfl)
    have htold : Told s (done ++ [c]) x.childs
        ((u.setObject b x).setObject b { x with childs := [] }) := by
      refine h.update hcut rfl rfl hw (AList.lookup_insert _) (fun a ha => ?_) hcname hxname
        hxrefcnt (fun _ => ⟨?_, ?_, rfl, hxchilds⟩) fun hnot => absurd htype hnot
      · exact (AList.lookup_insert_ne ha).trans (hother a ha)
      · rw [← hx]; exact hretyped.1
      · rw [← hx]; exact hretyped.2
    unfold VariableMaps.delete
    rw [post_bind, post_get]
    refine htold.deleteAll.mono (fun _ t ht => ?_) fun _ _ hE => hE
    rw [post_attempt]
    have hinit := ht.initChilds hs (b := b) ?_ c.childs
    · exact hinit.mono (fun _ _ hv => post_pure.mpr hv) fun _ _ hv => post_pure.mpr hv
    · intro v hv
      refine ⟨c, List.mem_append_right _ (List.mem_singleton_self c), ?_⟩
      exact hcname.trans (h.kept b v w hv hw).1
  · next htype =>
    have htype := of_decide_eq_false (Bool.eq_false_of_not_eq_true htype)
    have hsame := reported_same c.entry visible w.var htype
    refine post_pure.mpr (h.update hset rfl rfl hw hself hother hcname hxname hxrefcnt
      (fun hyes => absurd hyes htype) fun _ => ⟨?_, ?_, hxchilds, rfl⟩)
    · rw [← hx]; exact hsame.1
    · rw [← hx]; exact hsame.2

/-- No entry is taken for invalid. -/
theorem Told.forM (hs : Sound s) (h : Told s done [] u) (hscope : ∀ c ∈ cl, c.entry.inscope ≠ 'i')
    {E : Unit → State → Prop} :
    Post (cl.forM VariableMaps.change) (fun _ => Told s (done ++ cl) []) E u := by
  induction cl generalizing done u with
  | nil =>
      rw [List.append_nil]
      exact post_pure.mpr h
  | cons c cl ih =>
      show Post (VariableMaps.change c >>= fun _ => cl.forM VariableMaps.change) _ _ u
      rw [post_bind]
      refine (h.change hs (hscope c List.mem_cons_self)).mono (fun _ v hv => ?_) fun _ _ hE => hE
      have hrest := ih hv fun d hd => hscope d (List.mem_cons_of_mem _ hd)
      rwa [List.append_assoc] at hrest

theorem inscope_record (e : Entry) : e.record.inscope ≠ 'i' := by
  unfold Entry.record
  dsimp only
  split <;> decide

/-- `get_changed`. -/
theorem Sound.told_getChanged {es : List Entry} (hs : Sound s)
    (hexec : exec (getChanged (some (changes es))) s = some (.ok (), t)) :
    Told s (changes es) [] t ∧ Since s (Doomed s (changes es)) t := by
  constructor
  · have hpost := @Told.forM s s [] (changes es) hs hs.told (fun c hc => ?_) (fun _ _ => True)
    · exact hpost _ hexec
    · obtain ⟨e, -, rfl⟩ := List.mem_map.mp hc
      exact inscope_record e
  · exact keeps_getChanged hs.bounded (some (changes es)) s hs.bounded.since _ hexec

/-! ## What is deleted -/

variable {es : List Entry} {name : CStr}

theorem newest_ne_none {c : Change} (hc : c ∈ cl) (hname : c.entry.name = some name)
    (htype : c.entry.typeChanged = some true) : newest name cl ≠ none := by
  induction cl using List.reverseRecOn with
  | nil => exact absurd hc List.not_mem_nil
  | append_singleton cl d ih =>
      rw [newest_append]
      split
      · exact Option.some_ne_none _
      · next hnot =>
        rcases List.mem_append.mp hc with hc | hc
        · exact ih hc
        · rw [← List.mem_singleton.mp hc] at hnot
          exact absurd ⟨hname, htype⟩ hnot

/-- What is doomed is deleted. -/
theorem Told.gone (hs : Sound s) (h : Told s (changes es) [] t) (ha : Doomed s (changes es) a) :
    t.heap.lookup a = none := by
  induction ha with
  | @retyped c name a b v hc htype hname hlookup hv hb =>
      rcases h.cut a v b hv hb with hnone | hmem | ⟨w, hw, hbw⟩
      · exact hnone
      · exact absurd hmem List.not_mem_nil
      · obtain ⟨v', hv', hvname⟩ := hs.names.keyed name a hlookup
        obtain rfl := Option.some.inj (hv.symm.trans hv')
        obtain ⟨e, he⟩ := Option.ne_none_iff_exists'.mp (newest_ne_none hc hname htype)
        have hnew := (h.retyped a v w name e hv hw hvname he).2.2 b hbw
        exact absurd (hs.newer a v b hv hb).2 (Nat.not_lt_of_le hnew)
  | @invalid c name a hc hscope =>
      obtain ⟨e, -, rfl⟩ := List.mem_map.mp hc
      exact absurd hscope (inscope_record e)
  | @child a b v _ hv hb ih =>
      rcases h.cut a v b hv hb with hnone | hmem | ⟨w, hw, -⟩
      · exact hnone
      · exact absurd hmem List.not_mem_nil
      · exact absurd (ih.symm.trans hw) (Option.some_ne_none w).symm

theorem newType_append (name : CStr) (es : List Entry) (e : Entry) : newType name (es ++ [e]) =
    if e.name = name then e.typeChanged.join.or (newType name es) else newType name es := by
  rw [newType, List.foldl_append]
  rfl

theorem changes_append (es : List Entry) (e : Entry) :
    changes (es ++ [e]) = changes es ++ [e.change e.record] := List.map_append

/-- What the entries say of the type is what the loop finds, if none is for an invalid variable. -/
theorem newest_changes (name : CStr) (hvalid : ∀ e ∈ es, e.name = name → e.scope ≠ .invalid) :
    (newest name (changes es)).map (fun v => (v.type, v.nchilds)) =
      (newType name es).map fun nt => (some nt.type, atoi nt.count) := by
  induction es using List.reverseRecOn with
  | nil => rfl
  | append_singleton es e ih =>
      have ih := ih fun d hd => hvalid d (List.mem_append_left _ hd)
      have hself := hvalid e (List.mem_append_right _ (List.mem_singleton_self e))
      rw [changes_append, newest_append, newType_append]
      by_cases hname : e.name = name
      · have htold := e.told (hself hname)
        have hcname : (e.change e.record).entry.name = some name := congrArg some hname
        rw [if_pos hname]
        rcases htype : e.typeChanged with _ | _ | nt
        · exact absurd htype htold
        · have hsame : (e.change e.record).entry.typeChanged = some false := by
            unfold Entry.change Entry.record
            rw [htype]
            rfl
          rw [if_neg fun heq => absurd (hsame.symm.trans heq.2) (by decide)]
          exact ih
        · have hchanged : (e.change e.record).entry.typeChanged = some true := by
            unfold Entry.change Entry.record
            rw [htype]
            rfl
          rw [if_pos ⟨hcname, hchanged⟩]
          unfold Entry.change Entry.record
          rw [htype]
          rfl
      · rw [if_neg hname, if_neg fun heq => hname (Option.some.inj heq.1)]
        exact ih

/-- A variable with a new type has an entry that says so. -/
theorem mem_of_newType {nt : NewType} (h : newType name es = some nt) :
    ∃ e ∈ es, e.name = name ∧ e.typeChanged = some (some nt) := by
  induction es using List.reverseRecOn with
  | nil => cases h
  | append_singleton es e ih =>
      rw [newType_append] at h
      have hrest : newType name es = some nt → ∃ d ∈ es ++ [e], d.name = name ∧
          d.typeChanged = some (some nt) := by
        intro hes
        obtain ⟨d, hd, hdname⟩ := ih hes
        exact ⟨d, List.mem_append_left _ hd, hdname⟩
      split at h
      · next hname =>
        rcases htype : e.typeChanged with _ | _ | nt'
        · rw [htype] at h
          exact hrest h
        · rw [htype] at h
          exact hrest h
        · rw [htype] at h
          obtain rfl := Option.some.inj h
          exact ⟨e, List.mem_append_right _ (List.mem_singleton_self e), hname, htype⟩
      · exact hrest h

theorem Orphaned.doomed (h : Orphaned s es a) : Doomed s (changes es) a := by
  induction h with
  | @retyped name a b v hnew hlookup hv hb =>
      obtain ⟨nt, hnt⟩ := Option.ne_none_iff_exists'.mp hnew
      obtain ⟨e, he, rfl, htype⟩ := mem_of_newType hnt
      refine .retyped (List.mem_map_of_mem he) ?_ rfl hlookup hv hb
      unfold Entry.change Entry.record
      rw [htype]
      rfl
  | child _ hv hb ih => exact .child ih hv hb

/-- If all that is invalid is deleted, this is because of the types. -/
theorem Sound.orphaned (hs : Sound s)
    (hinvalid : ∀ e ∈ es, e.scope = .invalid → ∀ a v, s.varLst.lookup e.name = some a →
      s.heap.lookup a = some v → Doomed s (changes es) a)
    (h : Doomed s (changes es) a) : Orphaned s es a := by
  -- the parent of a variable is older than the variable
  induction a using Nat.strong_induction_on with
  | _ a ih =>
      cases h with
      | @retyped c name b _ v hc htype hname hlookup hv hb =>
          have hlt := (hs.newer b v a hv hb).1
          by_cases hvalid : ∀ e ∈ es, e.name = name → e.scope ≠ .invalid
          · refine .retyped (fun hnone => ?_) hlookup hv hb
            have hnew := newest_changes name hvalid
            rw [hnone] at hnew
            exact newest_ne_none hc hname htype (Option.map_eq_none_iff.mp hnew)
          · push Not at hvalid
            obtain ⟨e, he, rfl, hscope⟩ := hvalid
            exact .child (ih b hlt (hinvalid e he hscope b v hlookup hv)) hv hb
      | @invalid c name _ hc hscope =>
          obtain ⟨e, -, rfl⟩ := List.mem_map.mp hc
          exact absurd hscope (inscope_record e)
      | @child b _ v hdoomed hv hb =>
          exact .child (ih b (hs.newer b v a hv hb).1 hdoomed) hv hb

/-! ## The condition -/

/-- `get_changed` does what is required iff the invalid variables are deleted with their parents. -/
theorem handled_iff (hs : Sound s)
    (hexec : exec (getChanged (some (changes es))) s = some (.ok (), t)) :
    Handled s es t ↔ InvalidOrphaned s es := by
  obtain ⟨htold, hsince⟩ := hs.told_getChanged hexec
  have hdoomed : ∀ {a v}, s.heap.lookup a = some v → t.heap.lookup a = none →
      Doomed s (changes es) a := fun ha hnone =>
    by_contra fun hnot => hsince.survive _ _ ha hnot hnone
  constructor
  · intro h
    have hinvalid : ∀ e ∈ es, e.scope = .invalid → ∀ a v, s.varLst.lookup e.name = some a →
        s.heap.lookup a = some v → v.refcnt = 1 ∧ Doomed s (changes es) a := by
      intro e he hscope a v hlookup ha
      have hreleased := h.invalid e he hscope a v hlookup ha
      unfold Released at hreleased
      split at hreleased
      · next hone => exact ⟨hone, hdoomed ha hreleased⟩
      · obtain ⟨w, hw, hrefcnt⟩ := hreleased
        rw [(htold.kept a v w ha hw).2] at hrefcnt
        bv_omega
    intro e he hscope a v hlookup ha
    obtain ⟨hone, hdead⟩ := hinvalid e he hscope a v hlookup ha
    refine ⟨hone, hs.orphaned (fun e he hscope a v hlookup ha => ?_) hdead⟩
    exact (hinvalid e he hscope a v hlookup ha).2
  · intro h
    have horphaned : ∀ {a}, Doomed s (changes es) a → Orphaned s es a := fun hdead =>
      hs.orphaned (fun e he hscope a v hl hv => (h e he hscope a v hl hv).2.doomed) hdead
    constructor
    · intro e he hscope a v hlookup ha
      obtain ⟨hone, hdead⟩ := h e he hscope a v hlookup ha
      unfold Released
      rw [if_pos hone]
      exact htold.gone hs hdead.doomed
    · intro name nt a v hnew hlookup ha
      have hne : newType name es ≠ none := by
        rw [hnew]
        exact Option.some_ne_none nt
      refine ⟨fun c hc => ?_, fun w hw => ?_⟩
      · exact htold.gone hs (Orphaned.doomed (.retyped hne hlookup ha hc))
      · obtain ⟨v', hv', hvname⟩ := hs.names.keyed name a hlookup
        obtain rfl := Option.some.inj (ha.symm.trans hv')
        -- an invalid variable would be deleted
        have hvalid : ∀ e ∈ es, e.name = name → e.scope ≠ .invalid := by
          rintro e he rfl hscope
          have hnone := htold.gone hs (h e he hscope a v hlookup ha).2.doomed
          exact absurd (hnone.symm.trans hw) (Option.some_ne_none w).symm
        have hnewest := newest_changes name hvalid
        rw [hnew, Option.map_some, Option.map_eq_some_iff] at hnewest
        obtain ⟨e, he, heq⟩ := hnewest
        obtain ⟨htype, hcount, -⟩ := htold.retyped a v w name e ha hw hvname he
        rw [htype, hcount]
        exact Prod.mk.inj heq
    · intro a v ha hnot hremoved
      have halive : t.heap.lookup a ≠ none :=
        hsince.survive a v ha fun hdead => hremoved (.orphaned (horphaned hdead))
      obtain ⟨w, hw⟩ := Option.ne_none_iff_exists'.mp halive
      rw [hw, htold.unlisted a v w ha hw]
      intro c hc heq
      obtain ⟨e, he, rfl⟩ := List.mem_map.mp hc
      exact hnot e he heq.symm

/-- In every state that is reached, and for every list that gdb answers `var-update` with. -/
theorem getChanged_handled_iff {ops : List Op} {token : BitVec 32}
    (hrun : Run Step State.init ops s)
    (hexec : exec (getChanged (received (record (reply token es)) es)) s = some (.ok (), t)) :
    Handled s es t ↔ InvalidOrphaned s es := by
  rw [received_reply] at hexec
  exact handled_iff (stable_sound.run sound_init hrun) hexec

/-- What gdb says of the variable `u:a`, and of its member. -/
private def unfoldA : List Op :=
  [.acquire .user [] "a".toList (some { name := some "u:a".toList }) (some {}),
    .initChilds 0 (some [{ name := some "u:a.x".toList }])]

/-- The variable has another type, and its member is invalid. -/
private def retypedA : List Entry :=
  [⟨"u:a".toList, .inScope, some (some ⟨"T".toList, "1".toList⟩), fun _ => Option.some_ne_none _,
      false, some [{ name := some "u:a.y".toList }], true⟩,
    ⟨"u:a.x".toList, .invalid, none, fun h => absurd rfl h, false, none, true⟩]

/-- The variable is invalid. -/
private def invalidA : List Entry :=
  [⟨"u:a".toList, .invalid, none, fun h => absurd rfl h, false, none, true⟩]

/-- The state behind a program. -/
private def after (p : Vars Unit) (s : State) : State := (exec p s).elim s Prod.snd

private theorem exec_after {p : Vars Unit} {s : State}
    (h : (exec p s).map (fun r => r.1.isOk) = some true) : exec p s = some (.ok (), after p s) := by
  obtain ⟨t, ht⟩ := exists_exec_of_isOk h
  rw [after, ht]
  rfl

/-- The state in which the member is known. -/
private def unfoldedA : State := unfoldA.foldl (fun s op => after op.call s) State.init

private theorem run_unfoldA : Run Step State.init unfoldA unfoldedA :=
  Run.snoc (Run.snoc Run.nil ⟨.ok (), rfl⟩) ⟨.ok (), rfl⟩

/-- A variable gets another type, and its member is invalid. -/
theorem invalid_member_handled : ∃ s t, Run Step State.init unfoldA s ∧
    exec (getChanged (received (record (reply 1 retypedA)) retypedA)) s = some (.ok (), t) ∧
      Handled s retypedA t := by
  have hexec : exec (getChanged (received (record (reply 1 retypedA)) retypedA)) unfoldedA =
      some (.ok (), after (getChanged (some (changes retypedA))) unfoldedA) := by
    rw [received_reply]
    exact exec_after (by decide +kernel)
  refine ⟨_, _, run_unfoldA, hexec, (getChanged_handled_iff run_unfoldA hexec).mpr ?_⟩
  intro e he hscope a v hlookup ha
  rcases List.mem_cons.mp he with rfl | he
  · cases hscope
  · obtain rfl := List.mem_singleton.mp he
    obtain rfl : 1 = a := Option.some.inj hlookup
    obtain rfl := Option.some.inj ha
    have hnew : (newType "u:a".toList retypedA).isSome = true := by decide
    exact ⟨rfl, @Orphaned.retyped _ _ "u:a".toList 0 1 _ (Option.isSome_iff_ne_none.mp hnew) rfl rfl
      (List.mem_singleton_self 1)⟩

/-- An invalid variable keeps its reference. -/
theorem invalid_not_released : ¬ ∀ ops token es s t, Run Step State.init ops s →
    exec (getChanged (received (record (reply token es)) es)) s = some (.ok (), t) →
      Handled s es t := by
  intro h
  have hexec : exec (getChanged (received (record (reply 1 invalidA)) invalidA)) unfoldedA =
      some (.ok (), after (getChanged (some (changes invalidA))) unfoldedA) := by
    rw [received_reply]
    exact exec_after (by decide +kernel)
  have hhandled := h _ 1 invalidA _ _ run_unfoldA hexec
  have hreleased := hhandled.invalid _ (List.mem_singleton_self _) rfl 0 _ rfl rfl
  unfold Released at hreleased
  rw [if_pos rfl] at hreleased
  have hkept : ((after (getChanged (some (changes invalidA))) unfoldedA).heap.lookup 0).isSome =
      true := by
    decide +kernel
  rw [hreleased] at hkept
  cases hkept

end Vimgdb.Gdb.VariableMaps
