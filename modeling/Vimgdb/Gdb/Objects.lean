import Vimgdb.Gdb.Entries

/-!
# Objects

The tuples and lists that describe the objects of gdb's results.

* `Breakpoint.rule`, `Variable.rule`, …: what the results of a tuple enter.
* `Breakpoint.ofFields`, `Frame.ofFields`, `variableOf`, …: the objects.
* `breakpoint_eq`, `frame_eq`, `variable_settles`, …: the parser builds them from their tokens.
-/

namespace Vimgdb.Gdb

open Flex Lexing

/-! ## Lists of strings -/

/-- The strings of a list. -/
def stringsOf (vs : List Value) : Outcome (List CStr) :=
  enterAll (fun
    | .const s => some fun l => .accepted (l ++ [s])
    | _ => none) [] vs

theorem ends_brace {α : Type} {item : Tok → Option (α → P α)} (h : item (.chr '}') = none)
    (rest : List Tok) : EndsBody item (.chr '}' :: rest) := by
  intro t ht
  rw [← Option.mem_some.mp ht]
  exact ⟨by decide, h⟩

theorem ends_bracket {α : Type} {item : Tok → Option (α → P α)} (h : item (.chr ']') = none)
    (rest : List Tok) : EndsBody item (.chr ']' :: rest) := by
  intro t ht
  rw [← Option.mem_some.mp ht]
  exact ⟨by decide, h⟩

theorem ends_nil {α : Type} (item : Tok → Option (α → P α)) : EndsBody item [] := by
  intro t ht
  cases ht

theorem string_tokens_drop (s : CStr) (rest : List Tok) :
    string (.chr '"' :: ((Value.const s).tokens.drop 1 ++ rest)) = .accepted (s, rest) := by
  have h := string_reading (.const s) rest
  rw [Value.tokens_eq] at h
  exact h

theorem strlist_matches (v : Value) : Matches ((fun
    | .chr '"' => some fun l => fun toks => (do return l ++ [← string]) (.chr '"' :: toks)
    | _ => none : Tok → Option (List CStr → P (List CStr))) v.first) (v.tokens.drop 1) (match v with
    | .const s => some fun l => .accepted (l ++ [s])
    | _ => none) := by
  cases v with
  | const s =>
      intro l rest
      show Outcome.bind (string (.chr '"' :: ((Value.const s).tokens.drop 1 ++ rest))) _ = _
      rw [string_tokens_drop]
      rfl
  | tuple fs | list vs | results fs => exact trivial

theorem strlist_settles {rest : List Tok} (hrest : EndsBody (α := List CStr) (fun
    | .chr '"' => some fun l => fun toks => (do return l ++ [← string]) (.chr '"' :: toks)
    | _ => none) rest) (vs : List Value) :
    Settles (strlist ((valuesTokens vs).drop 1 ++ rest)) (stringsOf vs) rest := by
  exact settles_values strlist_matches hrest [] vs

/-! ## Enclosed bodies -/

section
variable {α : Type}

/-- Results in braces. -/
theorem tuple_reading {item : Tok → Option (α → P α)} {rule : Tok → Value → Option (α → Outcome α)}
    (h : ∀ t v, (∀ c, t ≠ .chr c) → Matches (item t) (.chr '=' :: v.tokens) (rule t v))
    (hend : item (.chr '}') = none) (a : α) :
    Reading (enclosed '{' '}' (items item a)) (Value.tuple? (enterFields rule a)) := by
  intro v rest
  cases v with
  | tuple fs =>
      rw [Value.tokens]
      exact enclosed_of_settles (.inl rfl) (settles_fields h (ends_brace hend rest) a fs)
  | const s =>
      rw [Value.tokens_eq]
      exact enclosed_eq_rejected (by simp [Value.first])
  | list vs | results fs =>
      rw [Value.tokens]
      exact enclosed_eq_rejected (by decide)

/-- Results in brackets. -/
theorem results_reading {item : Tok → Option (α → P α)} {rule : Tok → Value → Option (α → Outcome α)}
    (h : ∀ t v, (∀ c, t ≠ .chr c) → Matches (item t) (.chr '=' :: v.tokens) (rule t v))
    (hend : item (.chr ']') = none)
    (hvalue : ∀ v : Value, item v.first = none) (a : α) :
    Reading (enclosed '[' ']' (items item a)) (Value.results? (enterFields rule a)) := by
  intro v rest
  cases v with
  | results fs =>
      rw [Value.tokens]
      exact enclosed_of_settles (.inr rfl) (settles_fields h (ends_bracket hend rest) a fs)
  | list vs =>
      rw [Value.tokens]
      let silent : Value → Option (α → Outcome α) := fun _ => none
      have hnone : ∀ v : Value, Matches (item v.first) (v.tokens.drop 1) (silent v) := fun v => by
        rw [hvalue v]
        exact trivial
      have hvs := settles_values hnone (ends_bracket hend rest) a vs
      cases vs with
      | nil => exact enclosed_of_settles (.inr rfl) hvs
      | cons v vs => exact enclosed_of_settles (.inr rfl) hvs
  | tuple fs =>
      rw [Value.tokens]
      exact enclosed_eq_rejected (by decide)
  | const s =>
      rw [Value.tokens_eq]
      exact enclosed_eq_rejected (by simp [Value.first])

/-- Values in brackets. -/
theorem list_reading {item : Tok → Option (α → P α)} {rule : Value → Option (α → Outcome α)}
    (h : ∀ v, Matches (item v.first) (v.tokens.drop 1) (rule v)) (hend : item (.chr ']') = none)
    (hword : ∀ w, item (wordTok w) = none) (a : α) :
    Reading (enclosed '[' ']' (items item a)) (Value.list? (enterAll rule a)) := by
  intro v rest
  cases v with
  | list vs =>
      rw [Value.tokens]
      exact enclosed_of_settles (.inr rfl) (settles_values h (ends_bracket hend rest) a vs)
  | results fs =>
      rw [Value.tokens]
      let silent : CStr × Value → Option (α → Outcome α) := fun _ => none
      have hnone : ∀ e ∈ fs, Matches (item (wordTok e.1)) (.chr '=' :: e.2.tokens) (silent e) := fun e _ => by
        rw [hword]
        exact trivial
      have hfs := settles_items hnone
        (fun e _ => ⟨wordTok_ne_chr _ _, wordTok_ne_chr _ _, wordTok_ne_chr _ _⟩)
        (ends_bracket hend rest) a
      rw [← (fieldsTokens_eq fs).2] at hfs
      cases fs with
      | nil => exact enclosed_of_settles (.inr rfl) hfs
      | cons e fs => exact enclosed_of_settles (.inr rfl) hfs
  | tuple fs =>
      rw [Value.tokens]
      exact enclosed_eq_rejected (by decide)
  | const s =>
      rw [Value.tokens_eq]
      exact enclosed_eq_rejected (by simp [Value.first])

end

/-- Lists of strings. -/
theorem strlist_reading : Reading (enclosed '[' ']' strlist) (Value.list? stringsOf) := by
  refine list_reading strlist_matches rfl (fun w => ?_) []
  · have hw := wordTok_ne_chr w
    cases h : wordTok w with
    | chr c => exact absurd h (hw c)
    | _ => rfl

theorem listDummy_skipping : Skipping listDummy (Value.list? stringsOf) := by
  intro v rest
  have hdummy : ∀ toks, listDummy toks = (enclosed '[' ']' strlist toks).map fun p => ((), p.2) := by
    intro toks
    show Outcome.bind (chr '[' toks) _ = (Outcome.bind (chr '[' toks) _).map _
    rw [Outcome.bind_map]
    refine congrArg _ (funext fun p => ?_)
    show Outcome.bind (Outcome.bind (strlist p.2) _) _ = (Outcome.bind (strlist p.2) _).map _
    rw [Outcome.bind_assoc, Outcome.bind_map]
    refine congrArg _ (funext fun q => ?_)
    obtain ⟨l, ts⟩ := q
    exact (Outcome.bind_map (chr ']' ts) (fun u => .accepted (l, u.2)) fun p => ((), p.2)).symm
  rw [hdummy, strlist_reading, Outcome.map_map]
  rfl

/-! ## Objects -/

/-- What the results of a location enter. -/
def Breakpoint.locationRule (t : Tok) (v : Value) : Option (Breakpoint → Outcome Breakpoint) :=
  match t with
  | .var .number => skipped v.str
  | .var .enabled => skipped v.str
  | .var .address => skipped v.str
  | .var .function => skipped v.str
  | .var .file => entered v.str fun b s => { b with filename := some s }
  | .var .fullname => skipped v.str
  | .var .line => entered v.num fun b n => { b with line := some n }
  | .var .threadGroups => skipped (v.list? stringsOf)
  | _ => none

/-- The last one of some locations. -/
def Breakpoint.ofLocations (vs : List Value) : Outcome Breakpoint :=
  enterAll (fun
    | .tuple fs => some fun _ => enterFields Breakpoint.locationRule {} fs
    | _ => none) {} vs

/-- What the results of a breakpoint enter. -/
def Breakpoint.rule (t : Tok) (v : Value) : Option (Breakpoint → Outcome Breakpoint) :=
  match t with
  | .var .number => entered v.num fun b n => { b with num := some n }
  | .var .line => entered v.num fun b n => { b with line := some n }
  | .var .file => entered v.str fun b s => { b with filename := some s }
  | .var .fullname => entered v.str fun b s => { b with fullname := some s }
  | .var .enabled => entered v.bool fun b e => { b with enabled := some e }
  | .var .at_ => entered v.str fun b s => { b with «at» := some s }
  | .var .condition => entered v.str fun b s => { b with condition := some s }
  | .var .ignore => entered v.str fun b s => { b with ignoreCnt := some s }
  | .var .disposition => entered v.str fun b s => { b with temporary := s = "del".toList }
  | .var .type => skipped v.str
  | .var .address => skipped v.str
  | .var .function => skipped v.str
  | .var .origLocation => skipped v.str
  | .var .locations => entered (v.list? Breakpoint.ofLocations) fun b l =>
      { b with filename := l.filename, line := l.line }
  | .var .times => skipped v.str
  | .var .threadGroups => skipped (v.list? stringsOf)
  | _ => none

def Breakpoint.ofFields : List (CStr × Value) → Outcome Breakpoint := enterFields Breakpoint.rule {}

/-- What the results of a location enter. -/
def Location.rule (t : Tok) (v : Value) : Option (Location → Outcome Location) :=
  match t with
  | .var .file => entered v.str fun l s => { l with filename := some s }
  | .var .fullname => entered v.str fun l s => { l with fullname := some s }
  | .var .macroInfo => skipped v.str
  | _ => none

def Location.ofFields : List (CStr × Value) → Outcome Location := enterFields Location.rule {}

/-- What the results of a variable enter. -/
def Variable.rule (t : Tok) (v : Value) : Option (Variable → Outcome Variable) :=
  match t with
  | .var .type => entered v.str fun x s => { x with type := some s }
  | .var .value => entered v.str fun x s => { x with value := some (strdeescape s) }
  | .var .numChild => entered v.num fun x n => { x with nchilds := n }
  | .var .exp => entered v.str fun x s => { x with exp := some s }
  | .var .arg => entered v.str fun x _ => { x with argument := true }
  | .var .inscope => entered v.bool fun x b => { x with inscope := if b then '\x01' else '\x00' }
  | .var .typeChanged => entered v.bool fun x b => { x with typeChanged := some b }
  | .var .newType => entered v.str fun x s => { x with type := some s }
  | .var .newNumChild => entered v.num fun x n => { x with nchilds := n }
  | .var .hasMore => skipped v.str
  | .var .lang => skipped v.str
  | .var .threadId => skipped v.str
  | _ => none

/-- What the results of a frame enter. -/
def argRule (t : Tok) (v : Value) : Option (Unit → Outcome Unit) :=
  match t with
  | .var .name => skipped v.str
  | .var .value => skipped v.str
  | _ => none

/-- The arguments of a frame: tuples, or their results without braces. -/
def argsOf : Value → Outcome Unit
  | .list vs => enterAll (fun
      | .tuple fs => some fun a => enterFields argRule a fs
      | _ => none) () vs
  | .results fs => enterFields argRule () fs
  | _ => .rejected

/-- What the results of a frame enter. -/
def Frame.rule (t : Tok) (v : Value) : Option (Frame → Outcome Frame) :=
  match t with
  | .var .address => entered v.hex fun f n => { f with addr := n }
  | .var .line => entered v.num fun f n => { f with line := n }
  | .var .level => entered v.num fun f n => { f with level := n }
  | .var .function => entered v.str fun f s => { f with function := some s }
  | .var .file => entered v.str fun f s => { f with filename := some s }
  | .var .fullname => entered v.str fun f s => { f with fullname := some s }
  | .var .from_ => entered v.str fun f s => { f with «from» := some s }
  | .var .args => skipped (argsOf v)
  | .var .arch => skipped v.str
  | _ => none

def Frame.ofFields : List (CStr × Value) → Outcome Frame := enterFields Frame.rule {}

/-- The tuple in a list that has no other value. -/
def single {α : Type} (read : List (CStr × Value) → Outcome α) : List Value → Outcome α
  | [] => .rejected
  | [v] => v.tuple? read
  | v :: _ :: _ => (v.tuple? read).bind fun _ => .rejected

/-- What the results of a memory block enter. -/
def Memory.rule (t : Tok) (v : Value) : Option (Memory → Outcome Memory) :=
  match t with
  | .var .begin => entered v.str fun m s => { m with begin := some s }
  | .var .end_ => some fun m => v.hex.bind fun n =>
      ⟨m.begin.isNone, some { m with length := (n - strtollHex (m.begin.getD [])).truncate 32 }⟩
  | .var .contents => entered v.str fun m s => { m with content := some s }
  | .var .offset => skipped v.str
  | _ => none

/-- The one block of memory. -/
def Memory.ofValues : List Value → Outcome Memory := single (enterFields Memory.rule {})

/-- What the results of a stop enter. -/
def EventStop.rule (t : Tok) (v : Value) : Option (EventStop → Outcome EventStop) :=
  match t with
  | .var .frame => entered (v.tuple? Frame.ofFields) fun e f => { e with frame := some f }
  | .var .threadId => entered v.num fun e n => { e with threadId := n }
  | .var .threadsStopped => skipped v.str
  | .var .core => skipped v.str
  | .var .disposition => skipped v.str
  | .var .breakptNum => skipped v.str
  | .var .locationNum => skipped v.str
  | .var .sigName => entered v.str fun e s => { e with signal := some s }
  | .var .sigMeaning => skipped v.str
  | .var .gdbresVar => skipped v.str
  | .var .retval => skipped v.str
  | .var .exitcode => skipped v.str
  | _ => none

/-- A range of addresses. -/
def rangeRule (t : Tok) (v : Value) : Option (Unit → Outcome Unit) :=
  match t with
  | .var .from_ => skipped v.str
  | .var .to => skipped v.str
  | _ => none

/-- The one range of addresses. -/
def rangeOf : List Value → Outcome Unit := single (enterFields rangeRule ())

/-- What the results of other events enter: nothing, but they are checked. -/
def dummyRule (t : Tok) (v : Value) : Option (Unit → Outcome Unit) :=
  match t with
  | .var .threadId => skipped v.str
  | .var .threadGroup => skipped v.str
  | .var .id => skipped v.str
  | .var .param => skipped v.str
  | .var .value => skipped v.str
  | .var .procId => skipped v.str
  | .var .groupId => skipped v.str
  | .var .tgtName => skipped v.str
  | .var .hostName => skipped v.str
  | .var .symLoaded => skipped v.str
  | .var .ranges => skipped (v.list? rangeOf)
  | .var .exitcode => skipped v.str
  | .var .breakpt => skipped (v.tuple? Breakpoint.ofFields)
  | _ => none

/-- There is nothing else. -/
def onlyField {α : Type} (fs : List (CStr × Value)) (x : Outcome α) : Outcome α :=
  if fs.isEmpty then x else x.bind fun _ => .rejected

/-- There have to be results. -/
def someFields {α : Type} (fs : List (CStr × Value)) (x : Outcome α) : Outcome α :=
  if fs.isEmpty then .rejected else x

/-- A variable; one of those that are only counted is none. -/
def variableOf : List (CStr × Value) → Outcome (Option Variable)
  | [] => .rejected
  | (w, v) :: fs =>
      match wordTok w with
      | .var .name => v.str.bind fun name =>
          someFields fs ((enterFields Variable.rule {} fs).map fun x => some { x with name := some name })
      | .var .lang => v.str.bind fun _ => someFields fs ((enterFields Variable.rule {} fs).map some)
      | .var .format => v.str.bind fun _ => someFields fs ((enterFields Variable.rule {} fs).map some)
      | .var .ndeleted => v.str.bind fun _ => if fs.isEmpty then .accepted none else .rejected
      | _ => .rejected

/-- A variable at the end of a list, in which there can be none of those that are only counted. -/
def added (l : List Variable) (v : Option Variable) : Outcome (List Variable) :=
  ⟨v.isNone, some (l ++ v.toList)⟩

/-- The variables of a list. -/
def variablesOf (vs : List Value) : Outcome (List Variable) :=
  enterAll (fun
    | .tuple fs => some fun l => (variableOf fs).bind (added l)
    | _ => none) [] vs

/-- What the results behind the number of the children enter. -/
def childRule (t : Tok) (v : Value) : Option (List Variable → Outcome (List Variable)) :=
  match t with
  | .var .child => some fun l => (v.tuple? variableOf).bind (added l)
  | .var .hasMore => skipped v.str
  | _ => none

mutual

/-- The children in a list. -/
def Value.children : Value → Outcome (List Variable)
  | .results fs => childrenOf fs
  | .list [] => .accepted []
  | _ => .rejected

/-- Children, the first of which may be in a list. -/
def childrenOf : List (CStr × Value) → Outcome (List Variable)
  | [] => .accepted []
  | (w, v) :: fs =>
      if wordTok w = .var .childs then v.children.bind fun l => enterFields childRule l fs
      else enterFields childRule [] ((w, v) :: fs)

end

/-- The frames of a callstack, the last one first. -/
def callstackOf (fs : List (CStr × Value)) : Outcome (List Frame) :=
  enterFields (fun t v =>
    match t with
    | .var .frame => entered (v.tuple? Frame.ofFields) fun l f => f :: l
    | _ => none) [] fs

/-! ## Bodies -/

theorem locationsBody_reading :
    Reading (enclosed '{' '}' locationsBody) (Value.tuple? (enterFields Breakpoint.locationRule {})) := by
  unfold locationsBody
  refine tuple_reading (fun t v _ => ?_) ?_ _
  swap
  · rfl
  cases t with
  | var x =>
      cases x with
      | number | enabled | address | function | fullname => exact skip_matches stringDummy_skipping v
      | file => exact field_matches string_reading _ v
      | line => exact field_matches stringNum_reading _ v
      | threadGroups => exact skip_matches listDummy_skipping v
      | _ => exact trivial
  | _ => exact trivial

/-- Locations in brackets, the last one of which counts. -/
theorem locations_reading : Reading (enclosed '[' ']' locations) (Value.list? Breakpoint.ofLocations) := by
  unfold locations
  refine list_reading ?_ ?_ ?_ _
  · intro v
    cases v with
    | tuple fs =>
        intro b rest
        have h := locationsBody_reading (.tuple fs) rest
        rw [Value.tokens_eq] at h
        exact (enclosed_cons '{' '}' locationsBody _).symm.trans h
    | const s | list vs | results fs => exact trivial
  · rfl
  · intro w
    have hw := wordTok_ne_chr w
    cases h : wordTok w with
    | chr c => exact absurd h (hw c)
    | _ => rfl

theorem breakpointBody_reading :
    Reading (enclosed '{' '}' breakpointBody) (Value.tuple? Breakpoint.ofFields) := by
  unfold breakpointBody
  refine tuple_reading (fun t v _ => ?_) ?_ _
  swap
  · rfl
  cases t with
  | var x =>
      cases x with
      | number | line => exact field_matches stringNum_reading _ v
      | file | fullname | at_ | condition | ignore | disposition =>
          exact field_matches string_reading _ v
      | enabled => exact field_matches stringBool_reading _ v
      | type | address | function | origLocation | times => exact skip_matches stringDummy_skipping v
      | locations => exact field_matches locations_reading _ v
      | threadGroups => exact skip_matches listDummy_skipping v
      | _ => exact trivial
  | _ => exact trivial

theorem locationBody_settles (fs : List (CStr × Value)) :
    Settles (locationBody ((fieldsTokens fs).drop 1 ++ [])) (Location.ofFields fs) [] := by
  unfold locationBody
  refine settles_fields (fun t v _ => ?_) (ends_nil _) _ fs
  cases t with
  | var x =>
      cases x with
      | file | fullname => exact field_matches string_reading _ v
      | macroInfo => exact skip_matches stringDummy_skipping v
      | _ => exact trivial
  | _ => exact trivial

theorem variableBody_settles {rest : List Tok} (hrest : rest = [] ∨ ∃ ts, rest = .chr '}' :: ts)
    (fs : List (CStr × Value)) :
    Settles (variableBody ((fieldsTokens fs).drop 1 ++ rest)) (enterFields Variable.rule {} fs) rest := by
  unfold variableBody
  apply settles_fields
  · intro t v _
    cases t with
    | var x =>
        cases x with
        | type | value | exp | newType => exact field_matches string_reading _ v
        | numChild | newNumChild => exact field_matches stringNum_reading _ v
        | arg => exact mark_matches stringDummy_skipping _ v
        | inscope | typeChanged => exact field_matches stringBool_reading _ v
        | hasMore | lang | threadId => exact skip_matches stringDummy_skipping v
        | _ => exact trivial
    | _ => exact trivial
  · rcases hrest with rfl | ⟨ts, rfl⟩
    · exact ends_nil _
    · exact ends_brace rfl ts

/-- The results of an argument. -/
theorem argListFuel_settles (fuel : Nat) {rest : List Tok} {c : Char} (hc : c = '}' ∨ c = ']') (a : Unit)
    (fs : List (CStr × Value)) :
    Settles (argListFuel (fuel + 1) ((fieldsTokens fs).drop 1 ++ .chr c :: rest))
      (enterFields argRule a fs) (.chr c :: rest) := by
  unfold argListFuel
  apply settles_fields
  · intro t v ht
    cases t with
    | var x =>
        cases x with
        | name | value => exact skip_matches stringDummy_skipping v
        | _ => exact trivial
    | chr c => exact absurd rfl (ht c)
    | _ => exact trivial
  · rcases hc with rfl | rfl
    · exact ends_brace rfl rest
    · exact ends_bracket rfl rest

/-- The arguments of a frame. -/
theorem argListFuel_values (fuel : Nat) (rest : List Tok) (vs : List Value) :
    Settles (argListFuel (fuel + 2) ((valuesTokens vs).drop 1 ++ .chr ']' :: rest))
      (argsOf (.list vs)) (.chr ']' :: rest) := by
  unfold argListFuel
  refine settles_values (fun v => ?_) (ends_bracket rfl rest) () vs
  cases v with
  | tuple fs =>
      intro a rest
      have h := @enclosed_of_settles _ _ '{' '}' (.inl rfl) (argListFuel (fuel + 1)) _ _
        (@argListFuel_settles fuel rest '}' (.inl rfl) a fs)
      rw [List.cons_append, enclosed_cons] at h
      rw [Value.tokens]
      refine Eq.trans ?_ h
      show Outcome.bind (argListFuel (fuel + 1) ((fieldsTokens fs).drop 1 ++ [.chr '}'] ++ rest)) _ = _
      refine congrArg _ (funext fun p => ?_)
      show chr '}' p.2 = Outcome.bind (chr '}' p.2) fun u => .accepted (p.1, u.2)
      rw [Outcome.bind_accepted]
      exact (Outcome.map_id _).symm
  | const s | list vs | results fs => exact trivial

theorem argList_eq (toks : List Tok) : argList toks = argListFuel (toks.length + 1) toks := rfl

/-- The arguments of a frame are read, but not kept. -/
theorem argList_skipping : Skipping (enclosed '[' ']' argList) argsOf := by
  intro v rest
  have hread : ∀ {toks : List Tok} {x : Outcome Unit},
      Settles (argList (toks ++ .chr ']' :: rest)) x (.chr ']' :: rest) →
        enclosed '[' ']' argList (.chr '[' :: (toks ++ [.chr ']']) ++ rest) = x.map fun _ => ((), rest) := by
    intro toks x h
    rw [enclosed_of_settles (.inr rfl) h]
  have hfuel : ∀ toks : List Tok, ∃ fuel,
      argList (toks ++ .chr ']' :: rest) = argListFuel (fuel + 2) (toks ++ .chr ']' :: rest) := by
    intro toks
    refine ⟨(toks ++ rest).length, ?_⟩
    rw [argList_eq]
    congr 1
    simp only [List.length_append, List.length_cons]
    omega
  cases v with
  | list vs =>
      rw [Value.tokens]
      refine hread ?_
      obtain ⟨fuel, hargs⟩ := hfuel ((valuesTokens vs).drop 1)
      rw [hargs]
      exact argListFuel_values fuel rest vs
  | results fs =>
      rw [Value.tokens]
      refine hread ?_
      obtain ⟨fuel, hargs⟩ := hfuel ((fieldsTokens fs).drop 1)
      rw [hargs]
      exact argListFuel_settles (fuel + 1) (.inr rfl) () fs
  | tuple fs =>
      rw [Value.tokens]
      exact enclosed_eq_rejected (by decide)
  | const s =>
      rw [Value.tokens_eq]
      exact enclosed_eq_rejected (by simp [Value.first])

theorem frameBody_reading : Reading (enclosed '{' '}' frameBody) (Value.tuple? Frame.ofFields) := by
  unfold frameBody
  refine tuple_reading (fun t v _ => ?_) ?_ _
  swap
  · rfl
  cases t with
  | var x =>
      cases x with
      | address => exact field_matches stringLlnumHex_reading _ v
      | line | level => exact field_matches stringNum_reading _ v
      | function | file | fullname | from_ => exact field_matches string_reading _ v
      | args => exact skip_matches argList_skipping v
      | arch => exact field_matches string_reading _ v
      | _ => exact trivial
  | _ => exact trivial

theorem memoryBody_reading :
    Reading (enclosed '{' '}' memoryBody) (Value.tuple? (enterFields Memory.rule {})) := by
  unfold memoryBody
  refine tuple_reading (fun t v _ => ?_) ?_ _
  swap
  · rfl
  cases t with
  | var x =>
      cases x with
      | begin | contents => exact field_matches string_reading _ v
      | end_ =>
          intro m rest
          show (do chr '='; stringLlnumHex >>= fun n => do
            throughNull m.begin.isNone
            return { m with length := (n - strtollHex (m.begin.getD [])).truncate 32 } : P Memory) _ = _
          rw [List.cons_append, chr_bind, reading_bind stringLlnumHex_reading]
          simp only [throughNull_bind]
          exact (Outcome.bind_map v.hex (fun n => ⟨m.begin.isNone,
            some { m with length := (n - strtollHex (m.begin.getD [])).truncate 32 }⟩) (·, rest)).symm
      | offset => exact skip_matches stringDummy_skipping v
      | _ => exact trivial
  | _ => exact trivial

/-! ## Variables -/

/-- What may follow a variable. -/
def BehindVariable (rest : List Tok) : Prop := rest = [] ∨ ∃ ts, rest = .chr '}' :: ts

theorem BehindVariable.comma {rest : List Tok} (h : BehindVariable rest) : ∀ t ∈ rest.head?, t ≠ .chr ',' := by
  intro t ht
  rcases h with rfl | ⟨ts, rfl⟩
  · cases ht
  · rw [← Option.mem_some.mp ht]
    decide

/-- The body of a variable that has to be there. -/
theorem someVariable_settles {rest : List Tok} (hrest : BehindVariable rest) (fs : List (CStr × Value))
    (f : Variable → Option Variable) :
    Settles ((do chr ','; return f (← variableBody) : P (Option Variable)) (fieldsTokens fs ++ rest))
      (someFields fs ((enterFields Variable.rule {} fs).map f)) rest := by
  rw [comma_bind _ fs hrest.comma]
  unfold someFields
  split
  · exact settles_rejected
  · rw [map_eq]
    exact (variableBody_settles hrest fs).map f

theorem variable_settles {rest : List Tok} (hrest : BehindVariable rest) (fs : List (CStr × Value)) :
    Settles (variable_ ((fieldsTokens fs).drop 1 ++ rest)) (variableOf fs) rest := by
  rcases fs with _ | ⟨⟨w, v⟩, fs⟩
  · rw [fieldsTokens, variableOf]
    rcases hrest with rfl | ⟨ts, rfl⟩ <;> exact settles_rejected
  have htokens : (fieldsTokens ((w, v) :: fs)).drop 1 ++ rest =
      wordTok w :: .chr '=' :: (v.tokens ++ (fieldsTokens fs ++ rest)) := by
    rw [fieldsTokens]
    simp
  rw [htokens, variableOf]
  cases wordTok w with
  | var x =>
      cases x with
      | name =>
          show Settles ((do chr '='; string >>= fun name => do
            chr ','
            return some { ← variableBody with name := some name } : P (Option Variable)) _) _ _
          rw [chr_bind, reading_bind string_reading]
          cases v with
          | const name => exact someVariable_settles hrest fs fun x => some { x with name := some name }
          | tuple _ | list _ | results _ => exact settles_rejected
      | lang | format =>
          show Settles ((do chr '='; stringDummy; do
            chr ','
            return some (← variableBody) : P (Option Variable)) _) _ _
          rw [chr_bind, skipping_bind stringDummy_skipping]
          cases v with
          | const name => exact someVariable_settles hrest fs some
          | tuple _ | list _ | results _ => exact settles_rejected
      | ndeleted =>
          show Settles ((do chr '='; stringDummy; return none : P (Option Variable)) _) _ _
          rw [chr_bind, skipping_bind stringDummy_skipping]
          cases v with
          | const name =>
              rcases fs with _ | ⟨⟨w', v'⟩, fs⟩
              · rw [fieldsTokens]
                exact settles_of_eq rfl
              · rw [fieldsTokens]
                exact settles_stop none (by decide) _
          | tuple _ | list _ | results _ => exact settles_rejected
      | _ => exact settles_rejected
  | _ => exact settles_rejected

theorem variable_reading : Reading (enclosed '{' '}' variable_) (Value.tuple? variableOf) := by
  intro v rest
  cases v with
  | tuple fs =>
      rw [Value.tokens]
      exact enclosed_of_settles (.inl rfl) (variable_settles (.inr ⟨rest, rfl⟩) fs)
  | list vs | results fs =>
      rw [Value.tokens]
      exact enclosed_eq_rejected (by decide)
  | const s =>
      rw [Value.tokens_eq]
      exact enclosed_eq_rejected (by simp [Value.first])

/-- An entry in braces that has been opened. -/
theorem tuple_opened {α β : Type} {p : P β} {read : List (CStr × Value) → Outcome β}
    (h : Reading (enclosed '{' '}' p) (Value.tuple? read)) (k : β → P α) (fs : List (CStr × Value))
    (rest : List Tok) : (do
      let b ← p
      chr '}'
      k b : P α) ((Value.tuple fs).tokens.drop 1 ++ rest) = (read fs).bind fun b => k b rest := by
  have hfs := h (.tuple fs) rest
  rw [Value.tokens_eq, List.cons_append] at hfs
  have hopen := (enclosed_cons '{' '}' p ((Value.tuple fs).tokens.drop 1 ++ rest)).symm.trans hfs
  calc (do
        let b ← p
        chr '}'
        k b : P α) ((Value.tuple fs).tokens.drop 1 ++ rest)
      = (Outcome.bind (p ((Value.tuple fs).tokens.drop 1 ++ rest)) fun q =>
          Outcome.bind (chr '}' q.2) fun u => .accepted (q.1, u.2)).bind fun q => k q.1 q.2 := by
        rw [Outcome.bind_assoc]
        refine congrArg (Outcome.bind _) (funext fun q => ?_)
        obtain ⟨b, ts⟩ := q
        exact (Outcome.bind_assoc (chr '}' ts) (fun u => .accepted (b, u.2)) fun q => k q.1 q.2).symm
    _ = ((read fs).map (·, rest)).bind fun q => k q.1 q.2 := by
        rw [hopen]
        rfl
    _ = (read fs).bind fun b => k b rest := Outcome.map_bind _ _ _

theorem listAddTail_eq (l : List Variable) (v : Option Variable) (rest : List Tok) :
    listAddTail l v rest = (added l v).map (·, rest) := throughNull_bind _ _ _

theorem variableList_eq (v : Value) (rest : List Tok) :
    variableList (.chr '=' :: (v.tokens ++ rest)) = (v.list? variablesOf).map (·, rest) := by
  unfold variableList
  rw [chr_bind]
  refine list_reading (fun v => ?_) ?_ ?_ _ v rest
  · cases v with
    | tuple fs =>
        intro l rest
        refine (tuple_opened variable_reading (listAddTail l) fs rest).trans ?_
        simp only [listAddTail_eq]
        exact (Outcome.bind_map (variableOf fs) (added l) _).symm
    | const s | list vs | results fs => exact trivial
  · rfl
  · intro w
    have hw := wordTok_ne_chr w
    cases h : wordTok w with
    | chr c => exact absurd h (hw c)
    | _ => rfl

/-! ## Children -/

theorem childItem_matches (t : Tok) (v : Value) :
    Matches (childItem t) (.chr '=' :: v.tokens) (childRule t v) := by
  cases t with
  | var x =>
      cases x with
      | child =>
          intro l rest
          show (do chr '='; enclosed '{' '}' variable_ >>= listAddTail l : P (List Variable)) _ = _
          rw [List.cons_append, chr_bind, reading_bind variable_reading]
          simp only [listAddTail_eq]
          exact (Outcome.bind_map (v.tuple? variableOf) (added l) _).symm
      | hasMore => exact skip_matches stringDummy_skipping v
      | _ => exact trivial
  | _ => exact trivial

/-- What may follow children. -/
def BehindChildren (rest : List Tok) : Prop := rest = [] ∨ ∃ ts, rest = .chr ']' :: ts

theorem BehindChildren.ends {rest : List Tok} (h : BehindChildren rest) : EndsBody childItem rest := by
  rcases h with rfl | ⟨ts, rfl⟩
  · exact ends_nil _
  · exact ends_bracket rfl ts

mutual

theorem children_value : ∀ (v : Value) (fuel : Nat) (rest : List Tok), v.tokens.length ≤ fuel →
    enclosed '[' ']' (childrenBodyFuel fuel) (v.tokens ++ rest) = v.children.map (·, rest)
  | .results fs, fuel, rest, h => by
      rw [Value.tokens] at h ⊢
      rw [Value.children]
      refine enclosed_of_settles (.inr rfl) (children_fields fs fuel (.chr ']' :: rest) (.inr ⟨rest, rfl⟩) ?_)
      simp only [List.length_cons, List.length_append, List.length_nil] at h
      omega
  | .list vs, fuel, rest, h => by
      rw [Value.tokens] at h ⊢
      obtain ⟨fuel, rfl⟩ : ∃ fuel', fuel = fuel' + 1 := ⟨fuel - 1, by
        simp only [List.length_cons] at h
        omega⟩
      have hvs : Settles (childrenBodyFuel (fuel + 1) ((valuesTokens vs).drop 1 ++ .chr ']' :: rest))
          (Value.list vs).children (.chr ']' :: rest) := by
        cases vs with
        | nil =>
            rw [valuesTokens, Value.children]
            exact settles_of_eq rfl
        | cons v vs =>
            have hnone : (Value.list (v :: vs)).children = .rejected := by simp [Value.children]
            have htokens : (valuesTokens (v :: vs)).drop 1 ++ .chr ']' :: rest =
                v.first :: (v.tokens.drop 1 ++ valuesTokens vs ++ .chr ']' :: rest) := by
              rw [valuesTokens, v.tokens_eq]
              simp
            have hstop : ∀ ts, childrenBodyFuel (fuel + 1) (v.first :: ts) = .accepted ([], v.first :: ts) := by
              intro ts
              cases v <;> rfl
            rw [hnone, htokens, hstop]
            exact settles_stop [] v.first_ne.2 _
      exact enclosed_of_settles (.inr rfl) hvs
  | .tuple fs, fuel, rest, h => by
      rw [Value.tokens, Value.children]
      · exact enclosed_eq_rejected (by decide)
      · exact nofun
      · exact nofun
  | .const s, fuel, rest, h => by
      rw [Value.tokens_eq, Value.children]
      · exact enclosed_eq_rejected (by simp [Value.first])
      · exact nofun
      · exact nofun

theorem children_fields : ∀ (fs : List (CStr × Value)) (fuel : Nat) (rest : List Tok),
    BehindChildren rest → ((fieldsTokens fs).drop 1).length < fuel →
    Settles (childrenBodyFuel fuel ((fieldsTokens fs).drop 1 ++ rest)) (childrenOf fs) rest
  | [], fuel + 1, rest, hrest, h => by
      rw [fieldsTokens, childrenOf]
      rcases hrest with rfl | ⟨ts, rfl⟩ <;> exact settles_of_eq rfl
  | (w, v) :: fs, fuel + 1, rest, hrest, h => by
      have htokens : (fieldsTokens ((w, v) :: fs)).drop 1 =
          wordTok w :: .chr '=' :: (v.tokens ++ fieldsTokens fs) := by
        rw [fieldsTokens]
        rfl
      rw [childrenOf]
      by_cases hchilds : wordTok w = .var .childs
      · rw [if_pos hchilds, htokens, hchilds]
        rw [htokens] at h
        have hlength : v.tokens.length ≤ fuel := by
          simp only [List.length_cons, List.length_append] at h
          omega
        have happend : (.var .childs :: .chr '=' :: (v.tokens ++ fieldsTokens fs) ++ rest : List Tok) =
            .var .childs :: .chr '=' :: (v.tokens ++ (fieldsTokens fs ++ rest)) := by simp
        rw [happend]
        show Settles ((do chr '='; enclosed '[' ']' (childrenBodyFuel fuel) >>= fun l => items childItem l :
          P (List Variable)) _) _ _
        rw [chr_bind]
        show Settles (Outcome.bind (enclosed '[' ']' (childrenBodyFuel fuel) (v.tokens ++
          (fieldsTokens fs ++ rest))) fun q => items childItem q.1 q.2) _ _
        rw [children_value v fuel _ hlength]
        refine settles_of_eq ?_
        rw [Outcome.map_bind, Outcome.bind_map]
        refine congrArg _ (funext fun l => ?_)
        show itemsFuel childItem _ l (fieldsTokens fs ++ rest) = _
        have hlen := @length_le_moreTokens _ (fun e : CStr × Value => wordTok e.1)
          (fun e => .chr '=' :: e.2.tokens) fs
        rw [← (fieldsTokens_eq fs).1] at hlen
        rw [(fieldsTokens_eq fs).1] at hlen ⊢
        refine itemsFuel_more (fun e _ => childItem_matches _ _) hrest.ends l ?_
        simp only [List.length_append]
        omega
      · rw [if_neg hchilds]
        have hother : childrenBodyFuel (fuel + 1) ((fieldsTokens ((w, v) :: fs)).drop 1 ++ rest) =
            items childItem [] ((fieldsTokens ((w, v) :: fs)).drop 1 ++ rest) := by
          rw [htokens]
          have hw := wordTok_ne_chr w
          cases hword : wordTok w with
          | var x =>
              cases x with
              | childs => exact absurd hword hchilds
              | _ => rfl
          | _ => rfl
        rw [hother]
        exact settles_fields (fun t v _ => childItem_matches t v) hrest.ends [] ((w, v) :: fs)

end

/-! ## Other results -/

theorem single_reading {α : Type} {p : P α} {read : List (CStr × Value) → Outcome α}
    (h : Reading (enclosed '{' '}' p) (Value.tuple? read)) :
    Reading (enclosed '[' ']' (enclosed '{' '}' p)) (Value.list? (single read)) := by
  intro v rest
  cases v with
  | list vs =>
      rw [Value.tokens]
      refine enclosed_of_settles (.inr rfl) ?_
      rcases vs with _ | ⟨v, _ | ⟨v', vs⟩⟩
      · have hclose : enclosed '{' '}' p (.chr ']' :: rest) = .rejected := enclosed_eq_rejected (by decide)
        rw [valuesTokens]
        show Settles (enclosed '{' '}' p (.chr ']' :: rest)) .rejected _
        rw [hclose]
        exact settles_rejected
      · have htokens : (valuesTokens [v]).drop 1 ++ .chr ']' :: rest = v.tokens ++ .chr ']' :: rest := by
          simp [valuesTokens]
        rw [htokens]
        exact settles_of_eq (h v _)
      · have htokens : (valuesTokens (v :: v' :: vs)).drop 1 ++ .chr ']' :: rest =
            v.tokens ++ .chr ',' :: (v'.tokens ++ valuesTokens vs ++ .chr ']' :: rest) := by
          simp [valuesTokens]
        rw [htokens, h v]
        exact settles_incomplete _ (by decide) _
  | results fs =>
      rw [Value.tokens]
      rcases fs with _ | ⟨⟨w, v⟩, fs⟩
      · have hclose : enclosed '{' '}' p (.chr ']' :: rest) = .rejected := enclosed_eq_rejected (by decide)
        refine enclosed_of_settles (.inr rfl) ?_
        rw [fieldsTokens]
        show Settles (enclosed '{' '}' p (.chr ']' :: rest)) .rejected _
        rw [hclose]
        exact settles_rejected
      · have hword : ∀ ts, enclosed '{' '}' p (wordTok w :: ts) = .rejected := fun _ =>
          enclosed_eq_rejected (wordTok_ne_chr w '{')
        refine enclosed_of_settles (.inr rfl) ?_
        rw [fieldsTokens, List.drop_one, List.tail_cons, List.cons_append, hword]
        exact settles_rejected
  | tuple fs =>
      rw [Value.tokens]
      exact enclosed_eq_rejected (by decide)
  | const s =>
      rw [Value.tokens_eq]
      exact enclosed_eq_rejected (by simp [Value.first])

theorem frame_eq (v : Value) (rest : List Tok) :
    frame (.chr '=' :: (v.tokens ++ rest)) = (v.tuple? Frame.ofFields).map (·, rest) := by
  unfold frame
  rw [chr_bind]
  exact frameBody_reading v rest

theorem breakpoint_eq (v : Value) (rest : List Tok) :
    breakpoint (.chr '=' :: (v.tokens ++ rest)) = (v.tuple? Breakpoint.ofFields).map (·, rest) := by
  unfold breakpoint
  rw [chr_bind]
  exact breakpointBody_reading v rest

theorem memory_eq (v : Value) (rest : List Tok) :
    memory (.chr '=' :: (v.tokens ++ rest)) = (v.list? Memory.ofValues).map (·, rest) := by
  unfold memory
  rw [chr_bind]
  exact single_reading memoryBody_reading v rest

theorem regNames_eq (v : Value) (rest : List Tok) :
    regNames (.chr '=' :: (v.tokens ++ rest)) = (v.list? stringsOf).map (·, rest) := by
  unfold regNames
  rw [chr_bind]
  exact strlist_reading v rest

theorem callstack_eq (v : Value) (rest : List Tok) :
    callstack (.chr '=' :: (v.tokens ++ rest)) = (v.results? callstackOf).map (·, rest) := by
  unfold callstack
  rw [chr_bind]
  refine results_reading (fun t v _ => ?_) ?_ ?_ _ v rest
  · cases t with
    | var x =>
        cases x with
        | frame =>
            intro l rest
            show Outcome.bind (frame (.chr '=' :: (v.tokens ++ rest))) _ = _
            rw [frame_eq, Outcome.map_bind]
            refine (Outcome.bind_accepted _ fun f => (f :: l, rest)).trans ?_
            exact (Outcome.map_map (v.tuple? Frame.ofFields) (fun f => f :: l) (·, rest)).symm
        | _ => exact trivial
    | _ => exact trivial
  · rfl
  · intro v
    cases v <;> rfl

/-- The strings of a value: what is no string, or has other results behind it, is not read. -/
theorem strlist_const (v : Value) (fs : List (CStr × Value)) :
    Settles (strlist (v.tokens ++ fieldsTokens fs)) (onlyField fs (v.str.map fun s => [s])) [] := by
  rcases fs with _ | ⟨⟨w, x⟩, fs⟩
  · have h := strlist_settles (ends_nil _) [v]
    have htokens : (valuesTokens [v]).drop 1 ++ [] = v.tokens := by simp [valuesTokens]
    rw [htokens] at h
    rw [fieldsTokens, List.append_nil]
    cases v <;> exact h
  · unfold onlyField
    rw [if_neg (by simp), v.tokens_eq, fieldsTokens]
    cases v with
    | const s =>
        have hstuck : strlist ((Value.const s).first :: ((Value.const s).tokens.drop 1 ++
            .chr ',' :: wordTok w :: .chr '=' :: (x.tokens ++ fieldsTokens fs))) = .rejected := by
          refine items_stuck (strlist_matches (.const s)) (by simp [Value.first]) ?_ rfl _
          have hw := wordTok_ne_chr w
          cases h : wordTok w with
          | chr c => exact absurd h (hw c)
          | _ => rfl
        rw [List.cons_append, hstuck]
        exact settles_rejected
    | tuple _ => exact settles_stop [] (by decide) _
    | list _ | results _ => exact settles_stop [] (by decide) _

end Vimgdb.Gdb
