import Vimgdb.Gdb.Objects

/-!
# The meaning of gdb's lines

What a line says is read off its tree, and the parser finds the same in its text.

* `resultOf`, `responseOf`, `eventOf`: what the results of a record are.
* `Output.call`: the call that a line means.
* `record_tokens`: the parser makes that call.
* `gdbparse_outputs`: the calls for an output are those that its lines mean.
-/

namespace Vimgdb.Gdb

/-! ## Records -/

/-- The object that the results of a record describe. -/
def resultOf : List (CStr × Value) → Outcome Result
  | [] => .rejected
  | (w, v) :: fs =>
      match wordTok w with
      | .var .breakpt => onlyField fs ((v.tuple? Breakpoint.ofFields).map .breakpoint)
      | .var .line => v.num.bind fun n =>
          someFields fs ((Location.ofFields fs).map fun l => .location { l with line := some n })
      | .var .numChild => v.str.bind fun _ => someFields fs ((childrenOf fs).map .variables)
      | .var .changelist => onlyField fs ((v.list? variablesOf).map .variables)
      | .var .variables_ => onlyField fs ((v.list? variablesOf).map .variables)
      | .var .frame => onlyField fs ((v.tuple? Frame.ofFields).map .frame)
      | .var .stack => onlyField fs ((v.results? callstackOf).map .callstack)
      | .var .memory => onlyField fs ((v.list? Memory.ofValues).map .memory)
      | .var .regNames => onlyField fs ((v.list? stringsOf).map .strlist)
      | .var .value => onlyField fs (v.str.map fun s => .strlist [strdeescape s])
      | _ => (variableOf ((w, v) :: fs)).map .variable

/-- What a response says. -/
def responseOf (rclass : CStr) (fs : List (CStr × Value)) : Outcome (ResultClass × Option Result) :=
  match wordTok rclass with
  | .rc .done =>
      if fs.isEmpty then .accepted (.done, none) else (resultOf fs).map fun r => (.done, some r)
  | .rc .running =>
      if fs.isEmpty then .accepted (.running, none) else (resultOf fs).map fun r => (.running, some r)
  | .rc .error =>
      match fs with
      | [(w, v)] =>
          if wordTok w = .var .msg then v.str.map fun s => (.error, some (.strlist [s])) else .rejected
      | _ => .rejected
  | _ => .rejected

/-- The event for a program that runs. -/
def runningOf : List (CStr × Value) → Outcome Event
  | [(w, v)] => if wordTok w = .var .threadId then v.num.map fun n => { threadId := n } else .rejected
  | _ => .rejected

/-- The event for a program that stops. -/
def stoppedOf : List (CStr × Value) → Outcome EventStop
  | [] => .rejected
  | (w, v) :: fs =>
      if wordTok w = .var .reason then
        v.str.bind fun reason =>
          (enterFields EventStop.rule {} fs).map fun e => { e with reason := some reason }
      else enterFields EventStop.rule {} ((w, v) :: fs)

/-- What an event says. -/
def eventOf (rclass : CStr) (fs : List (CStr × Value)) : Outcome (ResultClass × Option Result) :=
  match wordTok rclass with
  | .rc .running => (runningOf fs).map fun e => (.running, some (.event e))
  | .rc .stopped => (stoppedOf fs).map fun e => (.stopped, some (.eventStop e))
  | .rc .threadGrpAdded => (enterFields dummyRule () fs).map fun _ => (.threadGrpAdded, none)
  | .rc rclass =>
      if rclass ∈ dummyEvents then
        someFields fs ((enterFields dummyRule () fs).map fun _ => (rclass, none))
      else .rejected
  | _ => .rejected

/-- The call for a line, if it is one that the program knows; and whether the process ends there, with
objects that are counted but not there, or memory with its end in front of its beginning. -/
def Output.call : Output → Outcome Call
  | result number rclass fs =>
      (responseOf rclass fs).map fun r => .procResult r.1 (number.getD 0) r.2
  | async _ number rclass fs =>
      (eventOf rclass fs).map fun r => .procAsync r.1 (number.getD 0) r.2
  | stream _ s => .accepted (.procStream .console s)

/-! ## Events -/

theorem eventStopBody_settles (fs : List (CStr × Value)) :
    Settles (eventStopBody ((fieldsTokens fs).drop 1 ++ [])) (enterFields EventStop.rule {} fs) [] := by
  unfold eventStopBody
  refine settles_fields (fun t v _ => ?_) (ends_nil _) _ fs
  cases t with
  | var x =>
      cases x with
      | frame =>
          intro e rest
          show Outcome.bind (frame (.chr '=' :: (v.tokens ++ rest))) _ = _
          rw [frame_eq, Outcome.map_bind]
          refine (Outcome.bind_accepted _ fun f => ({ e with frame := some f }, rest)).trans ?_
          exact (Outcome.map_map (v.tuple? Frame.ofFields) (fun f => { e with frame := some f }) (·, rest)).symm
      | threadId => exact field_matches stringNum_reading _ v
      | sigName => exact field_matches string_reading _ v
      | threadsStopped | core | disposition | breakptNum | locationNum | sigMeaning | gdbresVar | retval
        | exitcode => exact skip_matches stringDummy_skipping v
      | _ => exact trivial
  | _ => exact trivial

theorem rangeDummy_skipping : Skipping rangeDummy (Value.list? rangeOf) := by
  intro v rest
  refine @single_reading _ _ (enterFields rangeRule ()) (tuple_reading (fun t v _ => ?_) ?_ _) v rest
  swap
  · rfl
  cases t with
  | var x =>
      cases x with
      | from_ | «to» => exact skip_matches stringDummy_skipping v
      | _ => exact trivial
  | _ => exact trivial

/-- The rules of `event-dummy`. -/
theorem eventDummy_matches (t : Tok) (v : Value) : Matches ((fun
    | .var .threadId => skipField stringDummy
    | .var .threadGroup => skipField stringDummy
    | .var .id => skipField stringDummy
    | .var .param => skipField stringDummy
    | .var .value => skipField stringDummy
    | .var .procId => skipField stringDummy
    | .var .groupId => skipField stringDummy
    | .var .tgtName => skipField stringDummy
    | .var .hostName => skipField stringDummy
    | .var .symLoaded => skipField stringDummy
    | .var .ranges => skipField rangeDummy
    | .var .exitcode => skipField stringDummy
    | .var .breakpt => some fun _ => do let _ ← breakpoint
    | _ => none : Tok → Option (Unit → P Unit)) t) (.chr '=' :: v.tokens) (dummyRule t v) := by
  cases t with
  | var x =>
      cases x with
      | threadId | threadGroup | id | param | value | procId | groupId | tgtName | hostName | symLoaded
        | exitcode => exact skip_matches stringDummy_skipping v
      | ranges => exact skip_matches rangeDummy_skipping v
      | breakpt =>
          intro a rest
          show Outcome.bind (breakpoint (.chr '=' :: (v.tokens ++ rest))) _ = _
          rw [breakpoint_eq, Outcome.map_bind]
          refine (Outcome.bind_accepted _ fun _ => ((), rest)).trans ?_
          exact (Outcome.map_map (v.tuple? Breakpoint.ofFields) (fun _ => a) (·, rest)).symm
      | _ => exact trivial
  | _ => exact trivial

theorem eventDummy_settles (fs : List (CStr × Value)) :
    Settles (eventDummy ((fieldsTokens fs).drop 1 ++ [])) (enterFields dummyRule () fs) [] := by
  unfold eventDummy
  exact settles_fields (fun t v _ => eventDummy_matches t v) (ends_nil _) _ fs

/-- One class has no comma of its own. -/
theorem eventDummy_comma (fs : List (CStr × Value)) :
    eventDummy (fieldsTokens fs ++ []) = (enterFields dummyRule () fs).map (·, []) := by
  unfold eventDummy items
  have hlen := @length_le_moreTokens _ (fun e : CStr × Value => wordTok e.1)
    (fun e => .chr '=' :: e.2.tokens) fs
  rw [(fieldsTokens_eq fs).1]
  refine itemsFuel_more (fun e _ => eventDummy_matches _ _) (ends_nil _) () ?_
  rw [List.append_nil]
  omega

/-! ## Calls -/

/-- What is left behind the only result of a record. -/
theorem settles_only {α : Type} {r : Outcome (α × List Tok)} {x : Outcome α} {fs : List (CStr × Value)}
    (h : r = x.map (·, fieldsTokens fs)) : Settles r (onlyField fs x) [] := by
  subst h
  rcases fs with _ | ⟨⟨w, v⟩, fs⟩
  · rw [fieldsTokens]
    exact settles_of_eq rfl
  · rw [fieldsTokens]
    exact settles_incomplete x (by decide) _

theorem onlyField_map {α β : Type} (fs : List (CStr × Value)) (x : Outcome α) (f : α → β) :
    (onlyField fs x).map f = onlyField fs (x.map f) := by
  unfold onlyField
  split
  · rfl
  · rw [Outcome.bind_map, Outcome.map_bind]
    rfl

theorem Value.faults_str (v : Value) : v.str.faults = false := by
  cases v <;> rfl

/-- Something else is behind what is read without a fault. -/
theorem onlyField_cons {α : Type} (e : CStr × Value) (fs : List (CStr × Value)) {x : Outcome α}
    (hx : x.faults = false) : onlyField (e :: fs) x = .rejected := by
  obtain ⟨faults, value⟩ := x
  obtain rfl : faults = false := hx
  cases value <;> rfl

theorem only_settles {α β : Type} {r : Outcome (α × List Tok)} {x : Outcome α} {fs : List (CStr × Value)}
    (h : r = x.map (·, fieldsTokens fs)) (f : α → β) :
    Settles (r.map fun p => (f p.1, p.2)) (onlyField fs (x.map f)) [] := by
  rw [← onlyField_map]
  exact (settles_only h).map f

/-- The first string without its escapes. -/
def deescapeFirst : List CStr → List CStr
  | s :: ss => strdeescape s :: ss
  | [] => []

theorem value_eq (toks : List Tok) : value (.chr '=' :: toks) =
    Outcome.bind (strlist toks) fun p => match p.1 with
      | s :: ss => .accepted (strdeescape s :: ss, p.2)
      | [] => ⟨p.2.isEmpty, some ([], p.2)⟩ := by
  unfold value
  rw [chr_bind]
  refine congrArg (Outcome.bind (strlist toks)) (funext fun p => ?_)
  obtain ⟨_ | ⟨s, ss⟩, rest⟩ := p
  · exact throughNull_bind rest.isEmpty [] rest
  · rfl

/-- A value that is no string is not at the end of the line, so there is no string that is missing. -/
theorem value_settles {toks : List Tok} {x : Outcome (List CStr)} (h : Settles (strlist toks) x [])
    (hx : ∀ l, x.value = some l → l ≠ []) :
    Settles (value (.chr '=' :: toks)) (x.map deescapeFirst) [] := by
  have hvalue : value (.chr '=' :: toks) = (strlist toks).map fun p => (deescapeFirst p.1, p.2) := by
    rw [value_eq]
    refine Outcome.bind_eq_map fun p hp => ?_
    obtain ⟨_ | ⟨s, ss⟩, rest⟩ := p
    · cases hvalue : x.value with
      | none =>
          obtain ⟨t, ts, hts, -⟩ := h.stuck hvalue _ hp
          obtain rfl : rest = t :: ts := hts
          rfl
      | some l =>
          obtain ⟨rfl, -⟩ := Prod.mk.inj (Option.some.inj ((h.value l hvalue).symm.trans hp))
          exact absurd rfl (hx [] hvalue)
    · rfl
  rw [hvalue]
  exact h.map deescapeFirst

theorem someFields_map {α β : Type} (fs : List (CStr × Value)) (x : Outcome α) (f : α → β) :
    (someFields fs x).map f = someFields fs (x.map f) := by
  unfold someFields
  split <;> rfl

/-- A parser behind the comma in front of fields. -/
theorem comma_settles {α : Type} {k : P α} {fs : List (CStr × Value)} {x : Outcome α}
    (h : fs ≠ [] → Settles (k ((fieldsTokens fs).drop 1 ++ [])) x []) :
    Settles ((do chr ','; k : P α) (fieldsTokens fs)) (someFields fs x) [] := by
  have hcomma := @comma_bind _ k fs [] fun t ht => by cases ht
  rw [List.append_nil] at hcomma
  rw [hcomma]
  unfold someFields
  split
  · exact settles_rejected
  · next hne => exact h fun hnil => hne (List.isEmpty_iff.mpr hnil)

/-- The string of `value`, which is the only field. -/
theorem stringValue_settles (v : Value) (fs : List (CStr × Value)) :
    Settles ((do return .strlist (← value) : P Result) (.chr '=' :: (v.tokens ++ fieldsTokens fs)))
      (onlyField fs (v.str.map fun s => .strlist [strdeescape s])) [] := by
  have hstrings : ∀ l, (onlyField fs (v.str.map fun s => [s])).value = some l → l ≠ [] := by
    intro l hl
    unfold onlyField at hl
    split at hl
    · obtain ⟨s, -, rfl⟩ := Outcome.value_map_eq_some.mp hl
      exact List.cons_ne_nil _ _
    · obtain ⟨_, -, hl⟩ := Outcome.value_bind_eq_some.mp hl
      cases hl
  have hsettles := (value_settles (strlist_const v fs) hstrings).map Result.strlist
  rw [onlyField_map, onlyField_map] at hsettles
  rw [map_eq]
  cases v <;> exact hsettles

/-- A location, whose line comes first. -/
theorem location_settles (v : Value) (fs : List (CStr × Value)) :
    Settles ((do return .location (← location) : P Result) (.chr '=' :: (v.tokens ++ fieldsTokens fs)))
      (v.num.bind fun n =>
        someFields fs ((Location.ofFields fs).map fun l => .location { l with line := some n })) [] := by
  have hlocation : location (.chr '=' :: (v.tokens ++ fieldsTokens fs)) = v.num.bind fun n =>
      (do chr ','; return { ← locationBody with line := some n } : P Location) (fieldsTokens fs) := by
    unfold location
    rw [chr_bind]
    exact reading_bind stringNum_reading _ v _
  rw [map_eq, hlocation]
  cases v with
  | tuple _ | list _ | results _ => exact settles_rejected
  | const s =>
      let n := atoi s
      have hbody : Settles ((do return { ← locationBody with line := some n } : P Location)
          ((fieldsTokens fs).drop 1 ++ [])) ((Location.ofFields fs).map fun l => { l with line := some n })
          [] := by
        rw [map_eq]
        exact (locationBody_settles fs).map fun l => { l with line := some n }
      have hsettles := (comma_settles fun _ => hbody).map Result.location
      rw [someFields_map, Outcome.map_map] at hsettles
      exact hsettles

/-- Children, whose number comes first. -/
theorem children_settles (v : Value) (fs : List (CStr × Value)) :
    Settles ((do return .variables (← children) : P Result) (.chr '=' :: (v.tokens ++ fieldsTokens fs)))
      (v.str.bind fun _ => someFields fs ((childrenOf fs).map .variables)) [] := by
  have hchildren : children (.chr '=' :: (v.tokens ++ fieldsTokens fs)) = v.str.bind fun _ =>
      (do chr ','; childrenBodyFuel ((← get).length + 1) : P (List Variable)) (fieldsTokens fs) := by
    unfold children
    rw [chr_bind]
    exact skipping_bind stringDummy_skipping _ v _
  rw [map_eq, hchildren]
  cases v with
  | tuple _ | list _ | results _ => exact settles_rejected
  | const s =>
      have hbody : Settles ((do childrenBodyFuel ((← get).length + 1) : P (List Variable))
          ((fieldsTokens fs).drop 1 ++ [])) (childrenOf fs) [] := by
        have hfuel : ((fieldsTokens fs).drop 1).length < ((fieldsTokens fs).drop 1 ++ []).length + 1 := by
          rw [List.append_nil]
          exact Nat.lt_succ_self _
        have hfields := children_fields fs _ [] (.inl rfl) hfuel
        exact hfields
      have hsettles := (comma_settles fun _ => hbody).map Result.variables
      rw [someFields_map] at hsettles
      exact hsettles

/-- The results of a record, behind the comma in front of them. -/
theorem result_settles (fs : List (CStr × Value)) (hne : fs ≠ []) :
    Settles (result ((fieldsTokens fs).drop 1 ++ [])) (resultOf fs) [] := by
  obtain ⟨⟨w, v⟩, fs, rfl⟩ := List.exists_cons_of_ne_nil hne
  have hvariable : Settles ((do return .variable (← variable_) : P Result)
      ((fieldsTokens ((w, v) :: fs)).drop 1 ++ []))
      ((variableOf ((w, v) :: fs)).map .variable) [] := by
    rw [map_eq]
    exact (variable_settles (.inl rfl) _).map Result.variable
  have htokens : (fieldsTokens ((w, v) :: fs)).drop 1 ++ [] =
      wordTok w :: .chr '=' :: (v.tokens ++ fieldsTokens fs) := by
    rw [fieldsTokens]
    simp
  have hw := wordTok_ne_chr w
  rw [htokens] at hvariable ⊢
  rw [resultOf]
  cases hword : wordTok w with
  | var x =>
      rw [hword] at hvariable
      cases x with
      | breakpt =>
          show Settles ((do return .breakpoint (← breakpoint) : P Result) _) _ _
          rw [map_eq]
          exact only_settles (breakpoint_eq v _) Result.breakpoint
      | frame =>
          show Settles ((do return .frame (← frame) : P Result) _) _ _
          rw [map_eq]
          exact only_settles (frame_eq v _) Result.frame
      | stack =>
          show Settles ((do return .callstack (← callstack) : P Result) _) _ _
          rw [map_eq]
          exact only_settles (callstack_eq v _) Result.callstack
      | memory =>
          show Settles ((do return .memory (← memory) : P Result) _) _ _
          rw [map_eq]
          exact only_settles (memory_eq v _) Result.memory
      | regNames =>
          show Settles ((do return .strlist (← regNames) : P Result) _) _ _
          rw [map_eq]
          exact only_settles (regNames_eq v _) Result.strlist
      | changelist | variables_ =>
          show Settles ((do return .variables (← variableList) : P Result) _) _ _
          rw [map_eq]
          exact only_settles (variableList_eq v _) Result.variables
      | value => exact stringValue_settles v fs
      | line => exact location_settles v fs
      | numChild => exact children_settles v fs
      | _ => exact hvariable
  | chr c => exact absurd hword (hw c)
  | _ =>
      rw [hword] at hvariable
      exact hvariable

/-- A class with results behind it. -/
theorem classResult_settles (rclass : ResultClass) (fs : List (CStr × Value)) :
    Settles (classResult rclass (fieldsTokens fs)) (if fs.isEmpty then .accepted (rclass, none)
      else (resultOf fs).map fun r => (rclass, some r)) [] := by
  rcases fs with _ | ⟨⟨w, v⟩, fs⟩
  · rw [fieldsTokens]
    exact settles_of_eq rfl
  · have hresult := result_settles ((w, v) :: fs) (List.cons_ne_nil _ _)
    have hclass : classResult rclass (fieldsTokens ((w, v) :: fs)) =
        (do return (rclass, some (← result)) : P (ResultClass × Option Result))
          ((fieldsTokens ((w, v) :: fs)).drop 1) := by
      rw [fieldsTokens]
      rfl
    rw [List.append_nil] at hresult
    rw [hclass, map_eq, if_neg (by simp)]
    exact hresult.map fun r => (rclass, some r)

theorem response_settles (rclass : CStr) (fs : List (CStr × Value)) :
    Settles (response (wordTok rclass :: fieldsTokens fs)) (responseOf rclass fs) [] := by
  unfold responseOf
  cases wordTok rclass with
  | rc c =>
      cases c with
      | done => exact classResult_settles .done fs
      | running => exact classResult_settles .running fs
      | error =>
          rcases fs with _ | ⟨⟨w, v⟩, fs⟩
          · rw [fieldsTokens]
            exact settles_rejected
          show Settles ((do chr ','; do
            expect (.var .msg)
            chr '='
            return (.error, some (.strlist (← strlist))) : P (ResultClass × Option Result)) _) _ _
          rw [fieldsTokens, chr_bind]
          by_cases hw : wordTok w = .var .msg
          · have hmsg : (do expect (.var .msg); do
                chr '='
                return (.error, some (.strlist (← strlist))) : P (ResultClass × Option Result))
                (wordTok w :: .chr '=' :: (v.tokens ++ fieldsTokens fs)) =
                  (strlist (v.tokens ++ fieldsTokens fs)).map
                    fun q => ((.error, some (.strlist q.1)), q.2) := by
              rw [hw]
              show (do chr '='; return (.error, some (.strlist (← strlist))) :
                P (ResultClass × Option Result)) (.chr '=' :: (v.tokens ++ fieldsTokens fs)) = _
              rw [chr_bind, map_eq]
            rw [hmsg]
            have hstr := (strlist_const v fs).map fun ss => (ResultClass.error, some (Result.strlist ss))
            rw [onlyField_map] at hstr
            rcases fs with _ | ⟨e, fs⟩
            · show Settles _ (if wordTok w = .var .msg then _ else .rejected) []
              rw [if_pos hw]
              cases v <;> exact hstr
            · have hfaults : (v.str.map fun s => [s]).faults = false := v.faults_str
              rw [← onlyField_map, onlyField_cons e fs hfaults] at hstr
              exact hstr
          · have hexpect : expect (.var .msg) (wordTok w :: .chr '=' :: (v.tokens ++ fieldsTokens fs)) =
                .rejected := if_neg hw
            have hnone : (do expect (.var .msg); do
                chr '='
                return (.error, some (.strlist (← strlist))) : P (ResultClass × Option Result))
                (wordTok w :: .chr '=' :: (v.tokens ++ fieldsTokens fs)) = .rejected := by
              show Outcome.bind (expect (.var .msg) _) _ = _
              rw [hexpect]
              rfl
            rw [hnone]
            rcases fs with _ | ⟨e, fs⟩
            · show Settles .rejected (if wordTok w = .var .msg then _ else .rejected) []
              rw [if_neg hw]
              exact settles_rejected
            · exact settles_rejected
      | _ => exact settles_rejected
  | _ => exact settles_rejected

theorem eventRunning_settles (fs : List (CStr × Value)) :
    Settles (eventRunning ((fieldsTokens fs).drop 1 ++ [])) (runningOf fs) [] := by
  rcases fs with _ | ⟨⟨w, v⟩, fs⟩
  · rw [fieldsTokens]
    exact settles_rejected
  have htokens : (fieldsTokens ((w, v) :: fs)).drop 1 ++ [] =
      wordTok w :: .chr '=' :: (v.tokens ++ fieldsTokens fs) := by
    rw [fieldsTokens]
    simp
  rw [htokens]
  by_cases hw : wordTok w = .var .threadId
  · have hrunning : eventRunning (wordTok w :: .chr '=' :: (v.tokens ++ fieldsTokens fs)) =
        (v.num.map fun n => ({ threadId := n } : Event)).map (·, fieldsTokens fs) := by
      rw [hw]
      show (do chr '='; return { threadId := ← stringNum } : P Event)
        (.chr '=' :: (v.tokens ++ fieldsTokens fs)) = _
      rw [chr_bind, map_eq, stringNum_reading, Outcome.map_map, Outcome.map_map]
      rfl
    have hsettles := settles_only hrunning
    rcases fs with _ | ⟨e, fs⟩
    · show Settles _ (if wordTok w = .var .threadId then _ else .rejected) []
      rw [if_pos hw]
      exact hsettles
    · have hfaults : (v.num.map fun n => ({ threadId := n } : Event)).faults = false := v.faults_str
      rw [onlyField_cons e fs hfaults] at hsettles
      exact hsettles
  · have hexpect : expect (.var .threadId) (wordTok w :: .chr '=' :: (v.tokens ++ fieldsTokens fs)) =
        .rejected := if_neg hw
    have hnone : eventRunning (wordTok w :: .chr '=' :: (v.tokens ++ fieldsTokens fs)) = .rejected := by
      show Outcome.bind (expect (.var .threadId) _) _ = _
      rw [hexpect]
      rfl
    rw [hnone]
    rcases fs with _ | ⟨e, fs⟩
    · show Settles .rejected (if wordTok w = .var .threadId then _ else .rejected) []
      rw [if_neg hw]
      exact settles_rejected
    · exact settles_rejected

/-- `event-stop` behind its reason. -/
def behindReason (reason : CStr) : P EventStop :=
  choose (fun
    | .chr ',' => some do return { ← eventStopBody with reason := some reason }
    | _ => none) (return { reason := some reason })

theorem eventStop_settles (fs : List (CStr × Value)) (hne : fs ≠ []) :
    Settles (eventStop ((fieldsTokens fs).drop 1 ++ [])) (stoppedOf fs) [] := by
  obtain ⟨⟨w, v⟩, fs, rfl⟩ := List.exists_cons_of_ne_nil hne
  have htokens : (fieldsTokens ((w, v) :: fs)).drop 1 ++ [] =
      wordTok w :: .chr '=' :: (v.tokens ++ fieldsTokens fs) := by
    rw [fieldsTokens]
    simp
  rw [stoppedOf]
  by_cases hw : wordTok w = .var .reason
  · rw [if_pos hw, htokens, hw]
    show Settles ((do chr '='; string >>= behindReason : P EventStop)
      (.chr '=' :: (v.tokens ++ fieldsTokens fs))) _ _
    rw [chr_bind, reading_bind string_reading]
    cases v with
    | tuple _ | list _ | results _ => exact settles_rejected
    | const reason =>
        rcases fs with _ | ⟨⟨w', v'⟩, fs⟩
        · rw [fieldsTokens]
          exact settles_of_eq rfl
        · have hbody := (eventStopBody_settles ((w', v') :: fs)).map
            fun e => { e with reason := some reason }
          have hcomma : fieldsTokens ((w', v') :: fs) = .chr ',' :: (fieldsTokens ((w', v') :: fs)).drop 1 := by
            rw [fieldsTokens]
            rfl
          rw [List.append_nil] at hbody
          rw [hcomma]
          show Settles ((do return { ← eventStopBody with reason := some reason } : P EventStop)
            ((fieldsTokens ((w', v') :: fs)).drop 1)) _ _
          rw [map_eq]
          exact hbody
  · have hother : eventStop ((fieldsTokens ((w, v) :: fs)).drop 1 ++ []) =
        eventStopBody ((fieldsTokens ((w, v) :: fs)).drop 1 ++ []) := by
      rw [htokens]
      have hchr := wordTok_ne_chr w
      cases hword : wordTok w with
      | var x =>
          cases x with
          | reason => exact absurd hword hw
          | _ => rfl
      | _ => rfl
    rw [if_neg hw, hother]
    exact eventStopBody_settles ((w, v) :: fs)

/-- An event behind its class, and the comma if there is one. -/
theorem event_behind {α : Type} {p : P α} {x : Outcome α} (fs : List (CStr × Value))
    (h : fs ≠ [] → Settles (p ((fieldsTokens fs).drop 1 ++ [])) x []) (f : α → ResultClass × Option Result) :
    Settles ((do chr ','; return f (← p) : P (ResultClass × Option Result)) (fieldsTokens fs))
      (someFields fs (x.map f)) [] := by
  refine comma_settles fun hne => ?_
  rw [map_eq]
  exact (h hne).map f

theorem someFields_eq {α : Type} {fs : List (CStr × Value)} {x : Outcome α} (h : fs = [] → x = .rejected) :
    someFields fs x = x := by
  unfold someFields
  split
  · next hnil => rw [h (List.isEmpty_iff.mp hnil)]
  · rfl

theorem event_settles (rclass : CStr) (fs : List (CStr × Value)) :
    Settles (event (wordTok rclass :: fieldsTokens fs)) (eventOf rclass fs) [] := by
  unfold eventOf
  cases wordTok rclass with
  | rc c =>
      have hdummy : ∀ c, event (.rc c :: fieldsTokens fs) = (do chr ','; do
            eventDummy
            return (c, none) : P (ResultClass × Option Result)) (fieldsTokens fs) →
          Settles (event (.rc c :: fieldsTokens fs))
            (someFields fs ((enterFields dummyRule () fs).map fun _ => (c, none))) [] := by
        intro c hevent
        rw [hevent]
        exact event_behind fs (fun _ => eventDummy_settles fs) fun _ => (c, none)
      cases c with
      | running =>
          have h := event_behind fs (fun _ => eventRunning_settles fs) fun e =>
            (ResultClass.running, some (Result.event e))
          rw [someFields_eq (by rintro rfl; rfl)] at h
          exact h
      | stopped =>
          have h := event_behind fs (eventStop_settles fs) fun e =>
            (ResultClass.stopped, some (Result.eventStop e))
          rw [someFields_eq (by rintro rfl; rfl)] at h
          exact h
      | threadGrpAdded =>
          refine settles_of_eq ?_
          show (do eventDummy; return (.threadGrpAdded, none) : P (ResultClass × Option Result))
            (fieldsTokens fs) = _
          have hcomma := eventDummy_comma fs
          rw [List.append_nil] at hcomma
          show Outcome.bind (eventDummy (fieldsTokens fs)) _ = _
          rw [hcomma, Outcome.map_bind]
          refine (Outcome.bind_accepted _ fun _ => ((ResultClass.threadGrpAdded, none), [])).trans ?_
          exact (Outcome.map_map (enterFields dummyRule () fs) (fun _ => (ResultClass.threadGrpAdded, none))
            (·, [])).symm
      | done | error => exact settles_rejected
      | connected | exit | breakCreated | breakModified | breakDeleted | threadCreated | threadExited
        | threadSelected | threadGrpStarted | threadGrpExited | paramChanged | libLoaded | libUnloaded =>
          exact hdummy _ rfl
  | _ => exact settles_rejected

/-- The parser makes the call that a line means. -/
theorem record_tokens {l : Output} (h : l.readable = true) : record l.tokens = l.call := by
  have hrecord : ∀ {toks : List Tok} {x : Outcome Call}, Settles (recordCall toks) x [] → record toks = x :=
    fun h => (h.bind_eq (g := id) (fun _ => rfl) fun _ _ _ _ _ => rfl).trans (Outcome.map_id _)
  apply hrecord
  cases l with
  | result number rclass fs =>
      have hcall : recordCall (Output.result number rclass fs).tokens =
          (response (wordTok rclass :: fieldsTokens fs)).map
            fun r => (.procResult r.1.1 (number.getD 0) r.1.2, r.2) := by
        cases number <;>
          exact map_eq response (fun r => Call.procResult r.1 _ r.2) (wordTok rclass :: fieldsTokens fs)
      rw [hcall]
      exact (response_settles rclass fs).map fun r => Call.procResult r.1 (number.getD 0) r.2
  | async kind number rclass fs =>
      obtain ⟨hkind, -⟩ := Bool.and_eq_true_iff.mp h
      have hkind : kind ∈ ['*', '+', '='] := of_decide_eq_true hkind
      have hcall : recordCall (Output.async kind number rclass fs).tokens =
          (event (wordTok rclass :: fieldsTokens fs)).map
            fun r => (.procAsync r.1.1 (number.getD 0) r.1.2, r.2) := by
        simp only [List.mem_cons, List.not_mem_nil, or_false] at hkind
        rcases hkind with rfl | rfl | rfl <;> cases number <;>
          exact map_eq event (fun r => Call.procAsync r.1 _ r.2) (wordTok rclass :: fieldsTokens fs)
      rw [hcall]
      exact (event_settles rclass fs).map fun r => Call.procAsync r.1 (number.getD 0) r.2
  | stream kind s =>
      obtain ⟨hkind, -⟩ := Bool.and_eq_true_iff.mp h
      have hkind : kind ∈ ['~', '@', '&'] := of_decide_eq_true hkind
      have hstring := string_reading (.const s) []
      rw [Value.tokens, List.append_nil] at hstring
      have hcall : recordCall (Output.stream kind s).tokens =
          (string (quotedTokens s)).map fun r => (.procStream .console r.1, r.2) := by
        simp only [List.mem_cons, List.not_mem_nil, or_false] at hkind
        rcases hkind with rfl | rfl | rfl <;>
          exact map_eq string (Call.procStream .console) (quotedTokens s)
      rw [hcall, hstring]
      exact settles_of_eq rfl

end Vimgdb.Gdb
