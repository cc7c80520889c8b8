import Vimgdb.Gui.Parser

/-!
# Lines of messages

The messages of the grammar as relations, and what the parser makes of lines of them.

* `LineCall`, `ErrorReply`: the alternatives of `line`.
* `Closed`: a text the lexer leaves outside quoted strings.
* `vimparse_append`: behind a closed text without the end of the input the parser goes on as at the
  start, unless it has given up.
* `vimparse_lines_iff`: each line makes its call iff none of them is an error reply.
-/

namespace Vimgdb.Vim

open Flex Lexing

/-! ## The messages -/

/-- `string` -/
inductive Str : List Tok → CStr → Prop
  | unquoted (s : CStr) : Str [.string s] s
  | quoted (s : CStr) : Str [.chr '"', .string s, .chr '"'] s

/-- An entry of `list-dummy`, with its blank. -/
inductive EntryDummy : List Tok → Prop
  | bool (b : Bool) : EntryDummy [.chr ' ', .bool b]
  | negated (s : CStr) : EntryDummy [.chr ' ', .chr '!', .string s]
  | string {ts : List Tok} {s : CStr} : Str ts s → EntryDummy (.chr ' ' :: ts)
  | number (n : BitVec 32) : EntryDummy [.chr ' ', .number n]
  | position (n k : BitVec 32) : EntryDummy [.chr ' ', .number n, .chr '/', .number k]

/-- `list-dummy` -/
inductive ListDummy : List Tok → Prop
  | nil : ListDummy []
  | cons {e ts : List Tok} : EntryDummy e → ListDummy ts → ListDummy (e ++ ts)

/-- What follows the name of an event, and the string that becomes `data`. -/
inductive Item : EventId → List Tok → Option CStr → Prop
  | disconnect (n : BitVec 32) : Item .disconnect [.chr '=', .number n] none
  | startupDone (n : BitVec 32) : Item .startupDone [.chr '=', .number n] none
  | killed (n : BitVec 32) : Item .killed [.chr '=', .number n] none
  | fileOpened (n : BitVec 32) {ts : List Tok} {s : CStr} (b b' : Bool) : Str ts s →
      Item .fileOpened ([.chr '=', .number n, .chr ' '] ++ ts ++
        [.chr ' ', .bool b, .chr ' ', .bool b']) (some s)
  | insert (n k : BitVec 32) {ts : List Tok} {s : CStr} : Str ts s →
      Item .insert ([.chr '=', .number n, .chr ' ', .number k, .chr ' '] ++ ts) none
  | remove (n k l : BitVec 32) :
      Item .remove [.chr '=', .number n, .chr ' ', .number k, .chr ' ', .number l] none
  | keyCommand (n : BitVec 32) {ts : List Tok} {s : CStr} : Str ts s →
      Item .keyCommand ([.chr '=', .number n, .chr ' '] ++ ts) (some s)
  | keyAtPos (n k l m : BitVec 32) {ts : List Tok} {s : CStr} : Str ts s →
      Item .keyAtPos ([.chr '=', .number n, .chr ' '] ++ ts ++
        [.chr ' ', .number k, .chr ' ', .number l, .chr '/', .number m]) none
  | version (n : BitVec 32) {ts : List Tok} {s : CStr} : Str ts s →
      Item .version ([.chr '=', .number n, .chr ' ', .chr '"'] ++ ts ++ [.chr '"']) none
  | newDotAndMark (n k l : BitVec 32) :
      Item .newDotAndMark [.chr '=', .number n, .chr ' ', .number k, .chr ' ', .number l] none

/-- `event`: from the value read so far to the one at the end. -/
inductive Items : Event → List Tok → Event → Prop
  | nil (ev : Event) : Items ev [] ev
  | cons {ev ev' : Event} {e : EventId} {ts ts' : List Tok} {data : Option CStr} :
      Item e ts data → Items (ev.enter e data) ts' ev' → Items ev (.event e :: (ts ++ ts')) ev'

/-- The messages that end with a newline, and the call for each. -/
inductive LineCall : List Tok → Call → Prop
  | reply (n : BitVec 32) : LineCall [.number n] (.procReply n none)
  | cursor (n bufid line column offset : BitVec 32) :
      LineCall [.number n, .chr ' ', .number bufid, .chr ' ', .number line, .chr ' ',
        .number column, .chr ' ', .number offset] (.procReply n (some ⟨bufid, line, column⟩))
  | event (n : BitVec 32) {ts : List Tok} {ev : Event} : Items {} ts ev →
      LineCall (.number n :: .chr ':' :: ts) (.procEvent n ev)
  | special (eventId : EventId) {ts : List Tok} : ListDummy ts →
      LineCall (.special eventId :: ts) (.procEvent 0 { evtId := some eventId })

/-- An error reply, and the call for it. -/
inductive ErrorReply : List Tok → Call → Prop
  | mk (n : BitVec 32) {ts : List Tok} : ListDummy ts →
      ErrorReply (.number n :: .chr ' ' :: .chr '!' :: ts) (.procReply n none)

/-! ## The parser reads them -/

/-- An entry is read when no slash follows it. -/
theorem EntryDummy.parse {e rest : List Tok} (h : EntryDummy e) (hrest : rest.head? ≠ some (.chr '/')) :
    ∃ ts, e ++ rest = .chr ' ' :: ts ∧ entryDummy ts = some ((), rest) := by
  cases h with
  | bool b => exact ⟨_, rfl, rfl⟩
  | negated s => exact ⟨_, rfl, rfl⟩
  | string hs =>
      refine ⟨_, rfl, ?_⟩
      cases hs with
      | unquoted s => rfl
      | quoted s => rfl
  | number n =>
      refine ⟨_, rfl, ?_⟩
      rcases rest with _ | ⟨t, rest⟩
      · rfl
      · have ht : t ≠ .chr '/' := by simpa using hrest
        simp [entryDummy, ht]
  | position n k => exact ⟨_, rfl, rfl⟩

theorem ListDummy.head {ts : List Tok} (h : ListDummy ts) : ts.head? ≠ some (.chr '/') := by
  cases h with
  | nil => simp
  | cons he _ => cases he <;> simp

theorem ListDummy.parseFuel {ts : List Tok} (h : ListDummy ts) {fuel : Nat}
    (hfuel : ts.length < fuel) : listDummyFuel fuel ts = some ((), []) := by
  induction h generalizing fuel with
  | nil =>
      obtain ⟨fuel, rfl⟩ := Nat.exists_eq_succ_of_ne_zero (Nat.ne_of_gt hfuel)
      rfl
  | @cons e ts he hts ih =>
      obtain ⟨fuel, rfl⟩ := Nat.exists_eq_succ_of_ne_zero (Nat.ne_of_gt (Nat.zero_lt_of_lt hfuel))
      obtain ⟨us, heq, hentry⟩ := he.parse hts.head
      have hlt : ts.length < fuel := by
        have hpos : 0 < e.length := by cases he <;> simp
        rw [List.length_append] at hfuel
        omega
      rw [heq, listDummyFuel]
      show (entryDummy us).bind _ = _
      rw [hentry]
      exact ih hlt

theorem ListDummy.parse {ts : List Tok} (h : ListDummy ts) : listDummy ts = some ((), []) :=
  h.parseFuel (Nat.lt_succ_self _)

theorem Item.parse {e : EventId} {ts : List Tok} {data : Option CStr} (h : Item e ts data)
    (rest : List Tok) : eventItem e (ts ++ rest) = some (data, rest) := by
  cases h with
  | disconnect n | startupDone n | killed n | remove n k l | newDotAndMark n k l => rfl
  | fileOpened n b b' hs | insert n k hs | keyCommand n hs | keyAtPos n k l m hs | version n hs =>
      cases hs with
      | unquoted s => rfl
      | quoted s => rfl

theorem Items.parseFuel {ev ev' : Event} {ts : List Tok} (h : Items ev ts ev') {fuel : Nat}
    (hfuel : ts.length < fuel) : eventFuel fuel ev ts = some (ev', []) := by
  induction h generalizing fuel with
  | nil ev =>
      obtain ⟨fuel, rfl⟩ := Nat.exists_eq_succ_of_ne_zero (Nat.ne_of_gt hfuel)
      rfl
  | @cons ev ev' e ts ts' data hitem hitems ih =>
      obtain ⟨fuel, rfl⟩ := Nat.exists_eq_succ_of_ne_zero (Nat.ne_of_gt (Nat.zero_lt_of_lt hfuel))
      have hlt : ts'.length < fuel := by
        rw [List.length_cons, List.length_append] at hfuel
        omega
      rw [eventFuel]
      show (eventItem e (ts ++ ts')).bind _ = _
      rw [hitem.parse]
      exact ih hlt

theorem Items.parse {ts : List Tok} {ev : Event} (h : Items {} ts ev) : event ts = some (ev, []) :=
  h.parseFuel (Nat.lt_succ_self _)

/-- A message is read as such. -/
theorem LineCall.parse {ts : List Tok} {call : Call} (h : LineCall ts call) :
    message ts = some call := by
  unfold message
  cases h with
  | reply n => rfl
  | cursor n bufid line column offset => rfl
  | @event n ts ev hitems =>
      have hcall : messageCall (.number n :: .chr ':' :: ts) = some (.procEvent n ev, []) := by
        rw [messageCall]
        show (Vim.event _).bind _ = _
        rw [hitems.parse]
        rfl
      rw [hcall]
  | @special eventId ts hlist =>
      have hcall : messageCall (.special eventId :: ts) =
          some (.procEvent 0 { evtId := some eventId }, []) := by
        rw [messageCall]
        show (listDummy _).bind _ = _
        rw [hlist.parse]
        rfl
      rw [hcall]

/-- A message is no error reply. -/
theorem LineCall.errorReply_eq_none {ts : List Tok} {call : Call} (h : LineCall ts call) :
    errorReply ts = none := by
  cases h <;> rfl

/-- An error reply is read as such. -/
theorem ErrorReply.parse {ts : List Tok} {call : Call} (h : ErrorReply ts call) :
    errorReply ts = some (call, []) := by
  obtain ⟨n, hlist⟩ := h
  rw [errorReply]
  show (listDummy _).bind _ = _
  rw [hlist.parse]
  rfl

/-- An error reply is no message. -/
theorem ErrorReply.message_eq_none {ts : List Tok} {call : Call} (h : ErrorReply ts call) :
    message ts = none := by
  obtain ⟨n, hlist⟩ := h
  rfl

theorem errorReplies_of_none {toks : List Tok} (h : errorReply toks = none) (fuel : Nat) :
    errorReplies fuel toks = ([], toks) := by
  cases fuel with
  | zero => rfl
  | succ fuel => rw [errorReplies, h]

/-- A message in front of a newline makes its call. -/
theorem LineCall.lineCalls {ts : List Tok} {call : Call} (h : LineCall ts call) :
    lineCalls ts = ([call], true) := by
  rw [Vim.lineCalls, errorReplies_of_none h.errorReply_eq_none, h.parse]
  rfl

/-- An error reply in front of a newline makes none: the newline cannot follow. -/
theorem ErrorReply.lineCalls {ts : List Tok} {call : Call} (h : ErrorReply ts call) :
    lineCalls ts = ([], false) := by
  have hreplies : errorReplies ts.length ts = ([], ts) := by
    cases ts.length with
    | zero => rfl
    | succ fuel => rw [errorReplies, h.parse]
  rw [Vim.lineCalls, hreplies, h.message_eq_none]

/-! ## Closed texts -/

/-- The text ends with a newline, unless it is empty, and the lexer is outside quoted strings
there. -/
structure Closed (u : CStr) : Prop where
  ends : u = [] ∨ u.getLast? = some '\n'
  st : (lex rules (lexFrom u)).2.st = .initial

/-- Behind a closed text the lexer begins again. -/
theorem tokens_append {u : CStr} (h : Closed u) (v : CStr) :
    tokens (u ++ v) = tokens u ++ tokens v := by
  have hsteps := quotedScanner.steps_behind h.ends h.st v
  have hshift := (lex_steps rules (lexFrom v)).shift u.length
  have hfrom : (lexFrom v).shift u.length = ⟨u.length, .initial, true, v⟩ := by
    simp [lexFrom, Config.shift]
  rw [hfrom] at hshift
  have hend : next rules ((lex rules (lexFrom v)).2.shift u.length) = none := by
    by_contra hne
    obtain ⟨⟨tok, c⟩, hnext⟩ := Option.ne_none_iff_exists'.mp hne
    have hrest := quotedScanner.lex_rest (lexFrom v)
    have hlt := next_rest_lt hnext
    rw [Config.shift, hrest] at hlt
    simp at hlt
  have hall := (hsteps.trans hshift).lex
  rw [lex_of_none hend] at hall
  unfold tokens
  rw [show lexFrom (u ++ v) = ⟨0, .initial, true, u ++ v⟩ from rfl, hall]
  simp [shiftToks, lexFrom]

/-- Only one rule returns a newline. -/
theorem act_newline {r : Rule Start Tok} (h : r ∈ rules) {u : CStr}
    (hact : (r.act u).1 = some .newline) :
    r.re = .seq (.opt (.chr '\r')) (.chr '\n') ∧ (r.act u).2 = .initial := by
  have hchr : firstChr u ≠ some .newline := by
    cases u <;> simp [firstChr, charTok_ne_newline]
  simp only [rules, List.mem_append, List.mem_map] at h
  rcases h with ((h | ⟨p, -, rfl⟩) | ⟨p, -, rfl⟩) | h
  · simp only [generalRules, List.mem_cons, List.not_mem_nil, or_false] at h
    rcases h with rfl | rfl | rfl | rfl
    · exact ⟨rfl, rfl⟩
    all_goals cases hact
  · cases hact
  · cases hact
  · simp only [stringRules, List.mem_cons, List.not_mem_nil, or_false] at h
    rcases h with rfl | rfl | rfl | rfl | rfl | rfl
    · cases hact
    · exact absurd hact hchr
    · cases hact
    · exact absurd hact hchr
    · cases hact
    · exact absurd hact hchr

/-- A newline token ends a line, outside quoted strings. -/
theorem next_newline {c c' : Config Start} (h : next rules c = some (some .newline, c')) :
    c'.st = .initial ∧ c'.bol = true := by
  obtain ⟨r, n, hsel, -, -, htok, rfl⟩ := next_spec h
  obtain ⟨hmem, hlen, -⟩ := select_spec hsel
  rw [Rule.matchLen] at hlen
  split_ifs at hlen with hactive
  obtain ⟨hre, hst⟩ := act_newline hmem htok.symm
  rw [hre] at hlen
  obtain ⟨⟨u, v, huv, rfl, hu⟩, -⟩ := (Re.longest_eq_some_iff _ _ _).mp hlen
  refine ⟨hst, ?_⟩
  obtain ⟨x, -, y, hy, rfl⟩ := (Re.mem_lang_seq _ _ _).mp hu
  obtain rfl := (Re.mem_lang_chr _ _).mp hy
  rw [Config.advance, huv, List.take_left, List.getLast?_concat]
  rfl

/-- Every step of the scan returns a token. -/
theorem next_ne_none {c c' : Config Start} : next rules c ≠ some (none, c') := by
  intro h
  obtain ⟨r, n, hsel, hn, hle, htok, -⟩ := next_spec h
  have hmem := (select_spec hsel).1
  have hne : c.rest.take n ≠ [] := by
    intro hnil
    have := congrArg List.length hnil
    rw [List.length_take_of_le hle, List.length_nil] at this
    omega
  obtain ⟨a, u, hu⟩ := List.exists_cons_of_ne_nil hne
  have hchr : firstChr (c.rest.take n) ≠ none := by
    rw [hu]
    nofun
  simp only [rules, List.mem_append, List.mem_map] at hmem
  rcases hmem with ((h | ⟨p, -, rfl⟩) | ⟨p, -, rfl⟩) | h
  · simp only [generalRules, List.mem_cons, List.not_mem_nil, or_false] at h
    rcases h with rfl | rfl | rfl | rfl
    all_goals cases htok
  · cases htok
  · cases htok
  · simp only [stringRules, List.mem_cons, List.not_mem_nil, or_false] at h
    rcases h with rfl | rfl | rfl | rfl | rfl | rfl
    · cases htok
    · exact hchr htok.symm
    · cases htok
    · exact hchr htok.symm
    · cases htok
    · exact hchr htok.symm

/-- What the last token of a sequence leaves behind. -/
theorem steps_last {P : Config Start → Prop} {t : Tok}
    (hnext : ∀ c c', next rules c = some (some t, c') → P c') {c c' : Config Start}
    {toks : List (Nat × Tok)} (h : Steps rules c toks c')
    (hlast : toks.getLast?.map Prod.snd = some t) : P c' := by
  induction h with
  | refl => cases hlast
  | @head c c₁ c₂ tok toks hnext₁ hsteps ih =>
      rcases tok with _ | t'
      · exact absurd hnext₁ next_ne_none
      cases hsteps with
      | refl =>
          simp only [tokenAt, Option.toList_some, List.map_cons, List.map_nil, List.append_nil,
            List.getLast?_singleton, Option.map_some, Option.some.injEq] at hlast
          subst hlast
          exact hnext _ _ hnext₁
      | @head _ c₃ _ tok' toks hnext' hsteps' =>
          rcases tok' with _ | t'
          · exact absurd hnext' next_ne_none
          apply ih
          rw [← hlast]
          simp [tokenAt, List.getLast?_cons_cons]

/-- A text whose last token is a newline is closed. -/
theorem closed_of_newline {u : CStr} (h : (tokens u).getLast? = some .newline) : Closed u := by
  have hsteps := lex_steps rules (lexFrom u)
  have hlast : (lex rules (lexFrom u)).1.getLast?.map Prod.snd = some .newline := by
    rw [← List.getLast?_map]
    exact h
  obtain ⟨hst, hbol⟩ := steps_last (fun _ _ => next_newline) hsteps hlast
  obtain ⟨w, hw, -, -, hbol'⟩ := hsteps.bol
  rw [quotedScanner.lex_rest, List.append_nil] at hw
  refine ⟨?_, hst⟩
  by_cases hnil : u = []
  · exact Or.inl hnil
  · right
    have hu : u = w := hw
    rw [hbol' (hu ▸ hnil), ← hu] at hbol
    exact beq_iff_eq.mp hbol

/-- Two rules match newlines: that for a newline and that for the inside of a string. -/
theorem rules_newline : rules.filter (fun r => !r.re.avoids '\n') =
    [⟨.initial, false, .seq (.opt (.chr '\r')) (.chr '\n'), fun _ => (some .newline, .initial)⟩,
      stringBody] := rfl

/-- A token that ends a line outside quoted strings is a newline. -/
theorem next_of_bol {c c' : Config Start} {tok : Option Tok} (h : next rules c = some (tok, c'))
    (hst : c'.st = .initial) (hbol : c'.bol = true) : tok = some .newline := by
  obtain ⟨r, n, hsel, -, -, rfl, rfl⟩ := next_spec h
  obtain ⟨hmem, hlen, -⟩ := select_spec hsel
  rw [Rule.matchLen] at hlen
  split_ifs at hlen with hactive
  obtain ⟨⟨u, v, huv, rfl, hu⟩, -⟩ := (Re.longest_eq_some_iff _ _ _).mp hlen
  rw [Config.advance, huv, List.take_left] at hst hbol
  have hin : '\n' ∈ u := List.mem_of_getLast? (beq_iff_eq.mp hbol)
  have hfilter : r ∈ rules.filter (fun r => !r.re.avoids '\n') := by
    refine List.mem_filter.mpr ⟨hmem, ?_⟩
    by_contra hne
    have havoids : r.re.avoids '\n' = true := by simpa using hne
    exact Re.avoids_sound havoids u hu hin
  rw [rules_newline, List.mem_cons, List.mem_singleton] at hfilter
  rcases hfilter with rfl | rfl
  · rfl
  · cases hst

/-- The last token of a text that ends with a newline outside quoted strings is a newline. -/
theorem newline_of_steps {c c' : Config Start} {toks : List (Nat × Tok)} (h : Steps rules c toks c')
    (hst : c'.st = .initial) (hrest : c'.rest = []) (hlast : c.rest.getLast? = some '\n') :
    toks.getLast?.map Prod.snd = some .newline := by
  induction h with
  | refl =>
      rw [hrest] at hlast
      cases hlast
  | @head c c₁ c₂ tok toks hnext hsteps ih =>
      obtain ⟨r, n, -, hn, hle, -, hadv⟩ := next_spec hnext
      have htext : c.rest = c.rest.take n ++ c₁.rest := by
        rw [hadv]
        exact (List.take_append_drop n c.rest).symm
      by_cases hc₁ : c₁.rest = []
      · cases hsteps with
        | refl =>
            have hbol : c₁.bol = true := by
              rw [hc₁, List.append_nil] at htext
              rw [hadv, Config.advance, ← htext, hlast]
              rfl
            rw [next_of_bol hnext hst hbol]
            rfl
        | head hnext₁ _ =>
            rw [next_of_rest_nil rules hc₁] at hnext₁
            cases hnext₁
      · rw [htext, List.getLast?_append_of_ne_nil _ hc₁] at hlast
        have hih := ih hst hrest hlast
        have hne : toks ≠ [] := by
          rintro rfl
          cases hih
        rwa [List.getLast?_append_of_ne_nil _ hne]

/-- A text that ends with a newline is closed iff its last token is a newline. -/
theorem getLast?_tokens {u : CStr} (hu : u.getLast? = some '\n')
    (hst : (lex rules (lexFrom u)).2.st = .initial) : (tokens u).getLast? = some .newline := by
  have h := newline_of_steps (lex_steps rules (lexFrom u)) hst (quotedScanner.lex_rest _) hu
  rwa [← List.getLast?_map] at h

/-- The end of the input is read outside quoted strings. -/
theorem next_eof {c c' : Config Start} (h : next rules c = some (some .eof, c')) :
    c'.st = .initial := by
  obtain ⟨r, n, hsel, -, -, htok, rfl⟩ := next_spec h
  obtain ⟨hmem, hlen, -⟩ := select_spec hsel
  rw [Rule.matchLen] at hlen
  split_ifs at hlen with hactive
  obtain ⟨⟨u, v, huv, rfl, hu⟩, -⟩ := (Re.longest_eq_some_iff _ _ _).mp hlen
  rw [huv, List.take_left] at htok
  rw [Config.advance, huv, List.take_left]
  simp only [rules, List.mem_append, List.mem_map] at hmem
  rcases hmem with ((hmem | ⟨p, -, rfl⟩) | ⟨p, -, rfl⟩) | hmem
  · simp only [generalRules, List.mem_cons, List.not_mem_nil, or_false] at hmem
    rcases hmem with rfl | rfl | rfl | rfl <;> rfl
  · rfl
  · rfl
  · simp only [stringRules, List.mem_cons, List.not_mem_nil, or_false] at hmem
    rcases hmem with rfl | rfl | rfl | rfl | rfl | rfl
    · rfl
    · -- a quote is no such character
      obtain rfl := (Re.mem_lang_chr _ _).mp hu
      cases htok
    · rfl
    · rfl
    · cases htok
    · rfl

/-- A line with the end of the input is read up to there whatever follows it. -/
theorem tokens_eof {u : CStr} (hu : u.getLast? = some '\n') (heof : .eof ∈ tokens u) :
    ∃ ts, ∀ v, ∃ toks, tokens (u ++ v) = ts ++ .eof :: toks := by
  obtain ⟨⟨pos, tok⟩, hmem, rfl⟩ := List.mem_map.mp heof
  obtain ⟨toks, toks', htoks⟩ := List.append_of_mem hmem
  have hsteps := lex_steps rules (lexFrom u)
  rw [htoks, List.append_cons] at hsteps
  obtain ⟨c, hc, -⟩ := hsteps.split
  have hst : c.st = .initial := steps_last (fun _ _ => next_eof) hc (by rw [List.getLast?_concat]; rfl)
  refine ⟨toks.map Prod.snd, fun v => ?_⟩
  have hbehind := (quotedScanner.steps_append hc hst (Or.inr hu) v).lex
  have hfrom : lexFrom (u ++ v) = (lexFrom u).append v := rfl
  exact ⟨(lex rules (c.append v)).1.map Prod.snd, by simp [tokens, hfrom, hbehind]⟩

/-! ## Texts of lines -/

@[simp] theorem followedBy_true (calls : List Call) (r : List Call × Bool) :
    followedBy (calls, true) r = (calls ++ r.1, r.2) := rfl

@[simp] theorem followedBy_false (calls : List Call) (r : List Call × Bool) :
    followedBy (calls, false) r = (calls, false) := rfl

theorem followedBy_assoc (r r' r'' : List Call × Bool) :
    followedBy (followedBy r r') r'' = followedBy r (followedBy r' r'') := by
  obtain ⟨calls, b⟩ := r
  obtain ⟨calls', b'⟩ := r'
  cases b <;> cases b' <;> simp

theorem parseFrom_cons {t : Tok} (h : t ≠ .newline) (heof : t ≠ .eof) (line toks : List Tok) :
    parseFrom line (t :: toks) = parseFrom (line ++ [t]) toks := by
  cases t <;> first | rfl | exact absurd rfl h | exact absurd rfl heof

/-- The tokens in front of a newline. -/
theorem parseFrom_line {ts : List Tok} (h : .newline ∉ ts) (heof : .eof ∉ ts) (line toks : List Tok) :
    parseFrom line (ts ++ .newline :: toks) =
      followedBy (lineCalls (line ++ ts)) (parseFrom [] toks) := by
  induction ts generalizing line with
  | nil => rw [List.nil_append, List.append_nil, parseFrom]
  | cons t ts ih =>
      rw [List.mem_cons, not_or] at h heof
      rw [List.cons_append, parseFrom_cons (Ne.symm h.1) (Ne.symm heof.1), ih h.2 heof.2,
        List.append_assoc, List.singleton_append]

/-- Behind the end of the input nothing is parsed. -/
theorem parseFrom_eof (line ts toks : List Tok) :
    parseFrom line (ts ++ .eof :: toks) = parseFrom line (ts ++ [.eof]) := by
  induction ts generalizing line with
  | nil => rfl
  | cons t ts ih =>
      rw [List.cons_append, List.cons_append]
      by_cases heof : t = .eof
      · rw [heof]
        rfl
      by_cases hnl : t = .newline
      · rw [hnl, parseFrom, parseFrom, ih]
      · rw [parseFrom_cons hnl heof, parseFrom_cons hnl heof, ih]

/-- Behind a newline the parser goes on as at the start. -/
theorem parseFrom_append {line toks : List Tok} (toks' : List Tok) (heof : .eof ∉ toks)
    (hend : (toks = [] ∧ line = []) ∨ toks.getLast? = some .newline) :
    parseFrom line (toks ++ toks') = followedBy (parseFrom line toks) (parseFrom [] toks') := by
  induction toks generalizing line with
  | nil =>
      rcases hend with ⟨-, rfl⟩ | hend
      · rfl
      · cases hend
  | cons t toks ih =>
      rw [List.mem_cons, not_or] at heof
      have hend' : toks ≠ [] → toks.getLast? = some .newline := by
        intro hne
        rcases hend with ⟨hnil, -⟩ | hend
        · cases hnil
        · obtain ⟨t', toks, rfl⟩ := List.exists_cons_of_ne_nil hne
          rwa [List.getLast?_cons_cons] at hend
      by_cases ht : t = .newline
      · subst ht
        have hrest : (toks = [] ∧ ([] : List Tok) = []) ∨ toks.getLast? = some .newline := by
          by_cases hnil : toks = []
          · exact Or.inl ⟨hnil, rfl⟩
          · exact Or.inr (hend' hnil)
        rw [List.cons_append, parseFrom, parseFrom, ih heof.2 hrest, followedBy_assoc]
      · have hnil : toks ≠ [] := by
          rintro rfl
          rcases hend with ⟨hnil, -⟩ | hend
          · cases hnil
          · exact ht (Option.some.inj hend)
        rw [List.cons_append, parseFrom_cons ht (Ne.symm heof.1), parseFrom_cons ht (Ne.symm heof.1),
          ih heof.2 (Or.inr (hend' hnil))]

/-- Behind a text whose last token is a newline the parser goes on as at the start. -/
theorem vimparse_append {u : CStr} (hnul : '\x00' ∉ u) (heof : .eof ∉ tokens u)
    (hlast : (tokens u).getLast? = some .newline) (v : CStr) :
    vimparse (u ++ v) = followedBy (vimparse u) (vimparse v) := by
  unfold vimparse
  rw [scanned_append hnul, scanned_of_notMem hnul, tokens_append (closed_of_newline hlast),
    parseFrom_append _ heof (Or.inr hlast)]

/-- Behind a line with the end of the input nothing is parsed. -/
theorem vimparse_eof {u : CStr} (hu : u.getLast? = some '\n') (hnul : '\x00' ∉ u)
    (heof : .eof ∈ tokens u) (v : CStr) : vimparse (u ++ v) = vimparse u := by
  obtain ⟨ts, htoks⟩ := tokens_eof hu heof
  obtain ⟨toks, hv⟩ := htoks (scanned v)
  obtain ⟨toks', hnil⟩ := htoks []
  rw [List.append_nil] at hnil
  unfold vimparse
  rw [scanned_append hnul, scanned_of_notMem hnul, hv, hnil, parseFrom_eof, parseFrom_eof _ _ toks']

/-- A complete line of a message or of an error reply. -/
structure Line where
  text : CStr
  toks : List Tok
  call : Call
  cString : '\x00' ∉ text
  tokens_text : tokens text = toks ++ [.newline]
  form : LineCall toks call ∨ ErrorReply toks call

/-- The text of lines. -/
def text (lines : List Line) : CStr := lines.flatMap Line.text

/-- The line is an error reply. -/
def Line.IsError (l : Line) : Prop := ErrorReply l.toks l.call

section

variable {t : Tok} (ht : t = .newline ∨ t = .eof)
include ht

theorem Str.notMem {ts : List Tok} {s : CStr} (h : Str ts s) : t ∉ ts := by
  cases h <;> rcases ht with rfl | rfl <;> simp

theorem ListDummy.notMem {ts : List Tok} (h : ListDummy ts) : t ∉ ts := by
  induction h with
  | nil => simp
  | cons he _ ih =>
      rw [List.mem_append, not_or]
      refine ⟨?_, ih⟩
      cases he with
      | string hs =>
          have hs := hs.notMem ht
          rcases ht with rfl | rfl <;> simpa using hs
      | bool b | negated s | number n | position n k => rcases ht with rfl | rfl <;> simp

theorem Item.notMem {e : EventId} {ts : List Tok} {data : Option CStr} (h : Item e ts data) :
    t ∉ ts := by
  cases h with
  | disconnect n | startupDone n | killed n | remove n k l | newDotAndMark n k l =>
      rcases ht with rfl | rfl <;> simp
  | fileOpened n b b' hs | insert n k hs | keyCommand n hs | keyAtPos n k l m hs | version n hs =>
      have hs := hs.notMem ht
      rcases ht with rfl | rfl <;> simpa using hs

theorem Items.notMem {ev ev' : Event} {ts : List Tok} (h : Items ev ts ev') : t ∉ ts := by
  induction h with
  | nil => simp
  | cons hitem _ ih =>
      simp only [List.mem_cons, List.mem_append, not_or]
      refine ⟨?_, hitem.notMem ht, ih⟩
      rcases ht with rfl | rfl <;> nofun

theorem LineCall.notMem {ts : List Tok} {call : Call} (h : LineCall ts call) : t ∉ ts := by
  cases h with
  | reply n | cursor n bufid line column offset => rcases ht with rfl | rfl <;> simp
  | event n hitems =>
      have hitems := hitems.notMem ht
      rcases ht with rfl | rfl <;> simpa using hitems
  | special eventId hlist =>
      have hlist := hlist.notMem ht
      rcases ht with rfl | rfl <;> simpa using hlist

theorem ErrorReply.notMem {ts : List Tok} {call : Call} (h : ErrorReply ts call) : t ∉ ts := by
  obtain ⟨n, hlist⟩ := h
  have hlist := hlist.notMem ht
  rcases ht with rfl | rfl <;> simpa using hlist

/-- Neither a newline nor the end of the input is among the tokens of a line. -/
theorem Line.notMem (l : Line) : t ∉ l.toks := by
  rcases l.form with h | h
  · exact h.notMem ht
  · exact h.notMem ht

end

/-- What the parser makes of the text of a line. -/
theorem Line.vimparse_eq (l : Line) : vimparse l.text = lineCalls l.toks := by
  unfold vimparse
  rw [scanned_of_notMem l.cString, l.tokens_text,
    parseFrom_line (l.notMem (.inl rfl)) (l.notMem (.inr rfl)), List.nil_append]
  rcases l.form with h | h
  · rw [h.lineCalls]
    rfl
  · rw [h.lineCalls]
    rfl

/-- The first line makes its call unless it is an error reply, and then the others are parsed. -/
theorem vimparse_cons (l : Line) (lines : List Line) :
    (l.IsError ∧ (vimparse (text (l :: lines))).1 = []) ∨
      (¬ l.IsError ∧ (vimparse (text (l :: lines))).1 = l.call :: (vimparse (text lines)).1) := by
  have hlast : (tokens l.text).getLast? = some .newline := by
    rw [l.tokens_text, List.getLast?_concat]
  have heof : .eof ∉ tokens l.text := by
    simpa [l.tokens_text] using l.notMem (.inr rfl)
  have htext : text (l :: lines) = l.text ++ text lines := rfl
  rw [htext, vimparse_append l.cString heof hlast, l.vimparse_eq]
  rcases l.form with h | h
  · refine Or.inr ⟨fun herr => ?_, ?_⟩
    · have hsome := herr.parse
      rw [h.errorReply_eq_none] at hsome
      cases hsome
    · rw [h.lineCalls]
      rfl
  · refine Or.inl ⟨h, ?_⟩
    rw [h.lineCalls]
    rfl

/-- Each line makes its call, in order, iff none of them is an error reply. -/
theorem vimparse_lines_iff (lines : List Line) :
    (vimparse (text lines)).1 = lines.map Line.call ↔ ∀ l ∈ lines, ¬ l.IsError := by
  induction lines with
  | nil => simp [text, vimparse, scanned, tokens, lexFrom, lex, lexFuel, parseFrom, endCalls,
      errorReplies]
  | cons l lines ih =>
      rw [List.forall_mem_cons, List.map_cons, ← ih]
      rcases vimparse_cons l lines with ⟨herr, hcalls⟩ | ⟨herr, hcalls⟩
      · rw [hcalls]
        simp [herr]
      · rw [hcalls]
        simp [herr]

/-- The line `5 !` and the line `6`. -/
def errorThenReply : List Line :=
  [
    { text := "5 !\n".toList
      toks := [.number 5, .chr ' ', .chr '!']
      call := .procReply 5 none
      cString := by decide
      tokens_text := by decide +kernel
      form := Or.inr (.mk 5 .nil) },
    { text := "6\n".toList
      toks := [.number 6]
      call := .procReply 6 none
      cString := by decide
      tokens_text := by decide +kernel
      form := Or.inl (.reply 6) }
  ]

/-- Neither the error reply nor the reply behind it is handed over. -/
theorem error_reply_lost :
    (vimparse (text errorThenReply)).1 = [] ∧
      (vimparse (text errorThenReply)).1 ≠ errorThenReply.map Line.call := by
  have hcalls : (vimparse (text errorThenReply)).1 = [] := by decide +kernel
  refine ⟨hcalls, ?_⟩
  rw [hcalls]
  nofun

end Vimgdb.Vim
