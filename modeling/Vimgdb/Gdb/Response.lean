import Vimgdb.Gdb.Recovery

/-!
# The response to a command

`mi_proc_result` stores a result for the thread that waits in `mi_issue_cmd`, if the token of the
result is the one the thread waits for.

* `accepts`: the test on the token.
* `Gdbif.call`: what a call of the parser does to the stored response.
* `result_line_tokens`: how the line that answers a command begins for the parser.
* `answered_iff`: which lines answer the command.  The error rule reports token 0, so a line that is
  not a record answers only a command with that token.
-/

namespace Vimgdb.Gdb

open Flex Lexing

/-! ## The stored response -/

/-- `response_t` -/
structure Response where
  rclass : ResultClass
  result : Option Result
  deriving DecidableEq

/-- The part of `gdbif` that holds the response: the token of the command in flight, the stored
response, and how often `resp_avail` has been signalled. -/
structure Gdbif where
  token : BitVec 32 := 1
  resp : Option Response := none
  signals : Nat := 0

/-- Is a result meant for the command in flight? -/
def accepts (issued : BitVec 32) (rclass : ResultClass) (token : BitVec 32) : Bool :=
  !(issued != token && rclass != .exit)

/-- `gdbif::mi_proc_result` -/
def Gdbif.miProcResult (g : Gdbif) (rclass : ResultClass) (token : BitVec 32)
    (result : Option Result) : Gdbif :=
  if accepts g.token rclass token then
    { g with resp := some ⟨rclass, result⟩, signals := g.signals + 1 }
  else g

/-- A call of the parser; only results concern the response. -/
def Gdbif.call (g : Gdbif) : Call → Gdbif
  | .procResult rclass token result => g.miProcResult rclass token result
  | .procAsync .. => g
  | .procStream .. => g

/-- The calls made for an output, in order. -/
def Gdbif.process (g : Gdbif) (log : List (Nat × Call)) : Gdbif :=
  log.foldl (fun g e => g.call e.2) g

@[simp] theorem Gdbif.call_token (g : Gdbif) (call : Call) : (g.call call).token = g.token := by
  cases call with
  | procResult rclass token result => rw [call, miProcResult]; split_ifs <;> rfl
  | procAsync => rfl
  | procStream => rfl

@[simp] theorem Gdbif.process_token (g : Gdbif) (log : List (Nat × Call)) :
    (g.process log).token = g.token := by
  induction log generalizing g with
  | nil => rfl
  | cons e log ih => rw [process, List.foldl_cons, ← process, ih, call_token]

/-- The call made for the line at `pos` stores `resp` and signals it. -/
def Answered (g : Gdbif) (log : List (Nat × Call)) (pos : Nat) (resp : Response) : Prop :=
  ∃ before call after, log = before ++ (pos, call) :: after ∧
    ((g.process before).call call).resp = some resp ∧
      ((g.process before).call call).signals = (g.process before).signals + 1

/-- Only an accepted result answers. -/
theorem call_signals_iff (g : Gdbif) (call : Call) (resp : Response) :
    ((g.call call).resp = some resp ∧ (g.call call).signals = g.signals + 1) ↔
      ∃ token, call = .procResult resp.rclass token resp.result ∧
        accepts g.token resp.rclass token = true := by
  cases call with
  | procAsync => simp [Gdbif.call]
  | procStream => simp [Gdbif.call]
  | procResult rclass token result =>
      rw [Gdbif.call, Gdbif.miProcResult]
      split_ifs with h
      · constructor
        · rintro ⟨hresp, -⟩
          obtain rfl := Option.some.inj hresp
          exact ⟨token, rfl, h⟩
        · rintro ⟨token', hcall, -⟩
          obtain ⟨rfl, -, rfl⟩ := Call.procResult.inj hcall
          exact ⟨rfl, rfl⟩
      · constructor
        · rintro ⟨-, hsig⟩
          omega
        · rintro ⟨token', hcall, hacc⟩
          obtain ⟨rfl, rfl, rfl⟩ := Call.procResult.inj hcall
          exact absurd hacc h

/-- A line answers iff the call made for it is an accepted result. -/
theorem answered_iff_exists (g : Gdbif) (log : List (Nat × Call)) (pos : Nat) (resp : Response) :
    Answered g log pos resp ↔ ∃ call ∈ callsAt pos log, ∃ token,
      call = .procResult resp.rclass token resp.result ∧
        accepts g.token resp.rclass token = true := by
  have hmem : ∀ call, call ∈ callsAt pos log ↔ (pos, call) ∈ log := by
    intro call
    simp only [callsAt, List.mem_filterMap, Option.ite_none_right_eq_some, Option.some.injEq]
    constructor
    · rintro ⟨⟨p, c⟩, he, rfl, rfl⟩; exact he
    · intro he; exact ⟨_, he, rfl, rfl⟩
  constructor
  · rintro ⟨before, call, after, rfl, h⟩
    rw [call_signals_iff, Gdbif.process_token] at h
    exact ⟨call, (hmem call).mpr (by simp), h⟩
  · rintro ⟨call, hcall, h⟩
    obtain ⟨before, after, rfl⟩ := List.append_of_mem ((hmem call).mp hcall)
    refine ⟨before, call, after, rfl, ?_⟩
    rw [call_signals_iff, Gdbif.process_token]
    exact h

/-! ## The line that answers a command -/

/-- The digits gdb writes tokens with. -/
def digitChars : List Char := "0123456789".toList

/-- A result record for the command with the token `t`, well-formed or not: the token, `^`, and
anything. -/
def ResultLine (t : BitVec 32) (l : CStr) : Prop :=
  ∃ d r, l = d ++ '^' :: r ∧ d ≠ [] ∧ (∀ c ∈ d, c ∈ digitChars) ∧ atoi d = t

/-- The rules outside a string, cut at those that can match a digit. -/
private theorem rules_digits :
    ∃ l m, rules.filter (fun r => decide (r.start = .initial)) =
      l ++ numberRule :: (m ++ [commandRule, defaultRule]) ∧
      (∀ a ∈ digitChars, l.all (Rule.dead a) = true) ∧
      ∀ a ∈ digitChars, m.all (Rule.dead a) = true :=
  ⟨(rules.filter (fun r => decide (r.start = .initial))).take 101,
    ((rules.filter (fun r => decide (r.start = .initial))).drop 102).take 2, rfl,
    forall_mem_of_all (by decide +kernel), forall_mem_of_all (by decide +kernel)⟩

private theorem digit_inClass : ∀ c ∈ digitChars, Re.inClass false [('0', '9')] c = true :=
  forall_mem_of_all (by decide)

/-- A token in front of `^` is read as a number. -/
theorem next_number {d : CStr} (hne : d ≠ []) (hd : ∀ c ∈ d, c ∈ digitChars) (pos : Nat)
    (bol : Bool) (r : CStr) : next rules ⟨pos, .initial, bol, d ++ '^' :: r⟩ =
      some (some (.number (atoi d)), ⟨pos + d.length, .initial, false, '^' :: r⟩) := by
  obtain ⟨a, d', rfl⟩ := List.exists_cons_of_ne_nil hne
  have ha : a ∈ digitChars := hd a List.mem_cons_self
  -- the digits end at `^`
  have hword : ∀ x y, a :: d' ++ '^' :: r = x ++ y → x ∈ digits.lang → ∃ w, a :: d' = x ++ w := by
    intro x y hxy hx
    rcases List.append_eq_append_iff.mp hxy with ⟨w, rfl, hw⟩ | ⟨w, hw, -⟩
    · cases w with
      | nil => exact ⟨[], by simp⟩
      | cons b w =>
          obtain ⟨rfl, -⟩ := List.cons.inj hw
          have := (Re.mem_lang_star_cls _ _ _).mp hx '^' (by simp)
          exact absurd this (by decide)
    · exact ⟨w, hw⟩
  have hnumber : numberRule.matchLen ⟨pos, .initial, bol, a :: d' ++ '^' :: r⟩ =
      some (a :: d').length := by
    have hactive : numberRule.active ⟨pos, .initial, bol, a :: d' ++ '^' :: r⟩ = true := rfl
    rw [Rule.matchLen, if_pos hactive]
    refine (Re.longest_eq_some_iff _ _ _).mpr ⟨⟨a :: d', '^' :: r, rfl, rfl, ?_⟩, ?_⟩
    · exact (Re.mem_lang_star_cls _ _ _).mpr fun c hc => digit_inClass c (hd c hc)
    · intro x y hxy hx
      obtain ⟨w, hw⟩ := hword x y hxy hx
      rw [hw, List.length_append]
      omega
  have hcommand : commandRule.matchLen ⟨pos, .initial, bol, a :: d' ++ '^' :: r⟩ = none := by
    rw [Rule.matchLen]
    split_ifs with hactive
    · refine (Re.longest_eq_none_iff _ _).mpr fun u v huv hu => ?_
      obtain ⟨x, hx, y, hy, rfl⟩ := (Re.mem_lang_seq _ _ _).mp hu
      obtain ⟨e, he, z, -, rfl⟩ := (Re.mem_lang_seq _ _ _).mp hy
      obtain rfl := (Re.mem_lang_chr _ _).mp he
      have hsplit : a :: d' ++ '^' :: r = x ++ ('-' :: (z ++ v)) := by simpa using huv
      obtain ⟨w, hw⟩ := hword x _ hsplit hx
      rw [hw, List.append_assoc, List.append_cancel_left_eq] at hsplit
      cases w with
      | nil => cases hsplit
      | cons b w =>
          obtain ⟨rfl, -⟩ := List.cons.inj hsplit
          exact absurd (hd '-' (by simp [hw])) (by decide)
    · rfl
  obtain ⟨l, m, hrules, hl, hm⟩ := rules_digits
  have hsel : select ⟨pos, .initial, bol, a :: d' ++ '^' :: r⟩ rules =
      some (numberRule, (a :: d').length) := by
    rw [select_filter, hrules]
    refine select_of_best hnumber (fun r' hr' k hk => ?_) fun r' hr' k hk => ?_
    · have := matchLen_of_dead rfl (List.all_eq_true.mp (hl a ha) r' hr') hk
      rw [List.length_cons]
      omega
    · rcases List.mem_append.mp hr' with hr' | hr'
      · have := matchLen_of_dead rfl (List.all_eq_true.mp (hm a ha) r' hr') hk
        omega
      · rcases List.mem_cons.mp hr' with rfl | hr'
        · rw [hcommand] at hk
          cases hk
        · obtain rfl := List.mem_singleton.mp hr'
          have hsingle : ∀ a ∈ digitChars, defaultRule.single a = true :=
            forall_mem_of_all (by decide)
          have := matchLen_of_single rfl (hsingle a ha) hk
          rw [List.length_cons]
          omega
  have hbol : ((a :: d').getLast? == some '\n') = false := by
    rw [beq_eq_false_iff_ne]
    intro hlast
    exact absurd (hd _ (List.mem_of_getLast? hlast)) (by decide)
  have htake : (a :: d' ++ '^' :: r).take (a :: d').length = a :: d' := List.take_left
  have hdrop : (a :: d' ++ '^' :: r).drop (a :: d').length = '^' :: r := List.drop_left
  rw [next_of_select hsel (by simp), Config.advance]
  simp only [htake, hdrop, hbol, numberRule]

/-- The `^` behind it stands for itself. -/
theorem next_caret (pos : Nat) (r : CStr) : next rules ⟨pos, .initial, false, '^' :: r⟩ =
    some (some (.chr '^'), ⟨pos + 1, .initial, false, r⟩) := by
  have hrules : rules.filter (fun r => decide (r.start = .initial)) =
      (rules.filter (fun r => decide (r.start = .initial))).take 105 ++ defaultRule :: [] := rfl
  exact next_of_single hrules rfl (by decide) (by decide +kernel) rfl pos false r

/-- How the line that answers a command begins for the parser. -/
theorem result_line_tokens {t : BitVec 32} {l : CStr} (h : ResultLine t l) (pos : Nat) (bol : Bool) :
    ∃ p toks, (lex rules ⟨pos, .initial, bol, l⟩).1 = (pos, .number t) :: (p, .chr '^') :: toks := by
  obtain ⟨d, r, rfl, hne, hd, rfl⟩ := h
  rw [lex_of_some (next_number hne hd pos bol r), lex_of_some (next_caret _ r)]
  exact ⟨_, _, rfl⟩

/-- A 0 byte behind the line's beginning does not change that. -/
theorem ResultLine.scannedBefore {t : BitVec 32} {l : CStr} (h : ResultLine t l) (v : CStr) :
    ResultLine t (scanned (l ++ v)) := by
  obtain ⟨d, r, rfl, hne, hd, ht⟩ := h
  have hnul : '\x00' ∉ d ++ ['^'] := by
    intro hmem
    rcases List.mem_append.mp hmem with hmem | hmem
    · exact absurd (hd _ hmem) (by decide)
    · simp at hmem
  refine ⟨d, scanned (r ++ v), ?_, hne, hd, ht⟩
  have := scanned_append hnul (r ++ v)
  simpa using this

/-! ## The call for the line -/

/-- What follows a result class does not change it. -/
theorem classResult_rclass {rclass rclass' : ResultClass} {toks rest : List Tok}
    {res : Option Result} (h : (classResult rclass toks).value = some ((rclass', res), rest)) :
    rclass' = rclass := by
  rcases choose_eq_some h with ⟨t, ts, p, -, hp, h⟩ | h
  · split at hp
    · cases hp
      obtain ⟨⟨r, ts'⟩, -, hr⟩ := Outcome.value_bind_eq_some.mp h
      cases hr
      rfl
    · cases hp
  · cases h
    rfl

/-- An error record carries its message. -/
theorem response_error {toks rest : List Tok} {res : Option Result}
    (h : (response toks).value = some ((.error, res), rest)) : res ≠ none := by
  rcases choose_eq_some h with ⟨t, ts, p, -, hp, h⟩ | h
  · split at hp
    · cases hp
      exact absurd (classResult_rclass h) (by decide)
    · cases hp
      exact absurd (classResult_rclass h) (by decide)
    · cases hp
      obtain ⟨⟨_, ts₁⟩, -, h₁⟩ := Outcome.value_bind_eq_some.mp h
      obtain ⟨⟨_, ts₂⟩, -, h₂⟩ := Outcome.value_bind_eq_some.mp h₁
      obtain ⟨⟨_, ts₃⟩, -, h₃⟩ := Outcome.value_bind_eq_some.mp h₂
      obtain ⟨⟨ss, ts₄⟩, -, h₄⟩ := Outcome.value_bind_eq_some.mp h₃
      cases h₄
      simp
    · cases hp
  · cases h

/-- A record that begins like a result carries its token. -/
theorem record_result {num : BitVec 32} {toks : List Tok} {call : Call}
    (h : (record (.number num :: .chr '^' :: toks)).value = some call) :
    ∃ rclass res, call = .procResult rclass num res ∧ (rclass = .error → res ≠ none) := by
  have hcall : recordCall (.number num :: .chr '^' :: toks) =
      (response toks).map fun r => (.procResult r.1.1 num r.1.2, r.2) :=
    Outcome.bind_accepted (response toks) _
  obtain ⟨r, hr, hrest⟩ := Outcome.value_bind_eq_some.mp h
  rw [hcall] at hr
  obtain ⟨⟨⟨rclass, res⟩, rest⟩, hresp, rfl⟩ := Outcome.value_map_eq_some.mp hr
  dsimp only at hrest
  split_ifs at hrest
  cases hrest
  exact ⟨rclass, res, rfl, fun herr => response_error (herr ▸ hresp)⟩

/-! ## Which lines answer -/

/-- The response meant for the command: the parsed result, or that of the error rule. -/
def expected (l : CStr) : Response :=
  match (outcomeOf l).value with
  | some (.procResult rclass _ result) => ⟨rclass, result⟩
  | _ => ⟨.error, none⟩

/-- The error rule is applied to the line that begins the text at `pos`: its tokens up to the first
newline token form no record, and the parser gets there. -/
def Skipped (pos : Nat) (s : CStr) : Prop :=
  ∃ toks p toks', (lex rules ⟨pos, .initial, true, scanned s⟩).1 = toks ++ (p, .newline) :: toks' ∧
    (∀ e ∈ toks, e.2 ≠ .newline ∧ e.2 ≠ .eof) ∧ record (toks.map Prod.snd) = .rejected

/-- The one call for the line that begins at the start of a scan. -/
theorem callsAt_line {c : Config Start} {toks toks' : List (Nat × Tok)} {p : Nat}
    (hlex : (lex rules c).1 = toks ++ (p, .newline) :: toks')
    (hnl : ∀ e ∈ toks, e.2 ≠ .newline ∧ e.2 ≠ .eof)
    (hhead : toks.head?.map Prod.fst = some c.pos) (hprompt : toks.map Prod.snd ≠ [.gdbtk]) :
    callsAt c.pos (parseFrom [] (lex rules c).1) =
      if (record (toks.map Prod.snd)).faults then []
      else [(record (toks.map Prod.snd)).value.getD errorCall] := by
  obtain ⟨e, toks, rfl⟩ : ∃ e ts, toks = e :: ts := by
    cases toks with
    | nil => cases hhead
    | cons e toks => exact ⟨e, toks, rfl⟩
  have hpos : e.1 = c.pos := Option.some.inj hhead
  have hsteps := lex_steps rules c
  rw [hlex, List.append_cons] at hsteps
  obtain ⟨mid, hmid, -⟩ := hsteps.split
  have hat : AtLine mid :=
    (steps_atLine_iff hmid).mpr (Or.inr (by rw [List.getLast?_concat, Option.map_some]))
  have hrest : toks' = (lex rules mid).1 := by
    have h := hmid.lex
    rw [Prod.ext_iff] at h
    have h := hlex.symm.trans h.1
    rw [List.append_assoc, List.singleton_append] at h
    exact (List.cons.inj (List.append_cancel_left h)).2
  have hlt : c.pos < mid.pos := by
    have := hmid.mem_pos (List.mem_append_left _ List.mem_cons_self)
    omega
  have hlater : ∀ e ∈ parseFrom [] toks', e.1 ≠ c.pos := by
    intro e he
    have := le_of_mem_parseFrom hat (hrest ▸ he)
    omega
  rw [hlex, parseFrom_line _ _ hnl, List.nil_append, parseFrom, if_neg hprompt]
  split_ifs
  · rfl
  · rw [callsAt, List.filterMap_cons, ← callsAt, callsAt_eq_nil hlater]
    simp [hpos]

/-- The parser finds a line among the tokens, or makes no call. -/
theorem parseFrom_nil_or_line (toks : List (Nat × Tok)) : (∀ line, parseFrom line toks = []) ∨
    ∃ l p l', toks = l ++ (p, .newline) :: l' ∧ ∀ e ∈ l, e.2 ≠ .newline ∧ e.2 ≠ .eof := by
  induction toks with
  | nil => exact Or.inl fun _ => rfl
  | cons e toks ih =>
      obtain ⟨q, t⟩ := e
      by_cases ht : t = .newline
      · subst ht
        exact Or.inr ⟨[], q, toks, rfl, by simp⟩
      by_cases heof : t = .eof
      · subst heof
        exact Or.inl fun _ => rfl
      rcases ih with h | ⟨l, p, l', rfl, h⟩
      · exact Or.inl fun line => (parseFrom_token ht heof line q toks).trans (h _)
      · exact Or.inr ⟨(q, t) :: l, p, l', rfl, List.forall_mem_cons.mpr ⟨⟨ht, heof⟩, h⟩⟩

/-- Two elements in front of a list stay there in front of a third one. -/
theorem two_front {α : Type} {a b e : α} {more l l' : List α} (ha : e ≠ a) (hb : e ≠ b)
    (h : a :: b :: more = l ++ e :: l') : ∃ m, l = a :: b :: m := by
  rcases l with _ | ⟨x, _ | ⟨y, m⟩⟩
  · exact absurd (List.cons.inj h).1.symm ha
  · exact absurd (List.cons.inj (List.cons.inj h).2).1.symm hb
  · simp only [List.cons_append, List.cons.injEq] at h
    obtain ⟨rfl, rfl, -⟩ := h
    exact ⟨m, rfl⟩

/-- The call for a record that begins like a result. -/
theorem recordOf_result {t : BitVec 32} {l : CStr} (hl : ResultLine t l) (hnl : '\n' ∉ l)
    {call : Call} (h : (outcomeOf l).value = some call) :
    ∃ rclass res, call = .procResult rclass t res := by
  obtain ⟨-, hline⟩ := record_steps hnl h
  obtain ⟨toks, p, hsteps, -, -, hrec⟩ := hline 0 []
  have hline' : ResultLine t (l ++ ['\n']) := by
    obtain ⟨d, r, rfl, hd⟩ := hl
    exact ⟨d, r ++ ['\n'], by simp, hd⟩
  obtain ⟨q, more, hlex⟩ := result_line_tokens hline' 0 true
  rw [hsteps.lex, lex_of_none (next_of_rest_nil rules rfl), List.append_nil] at hlex
  obtain ⟨toks', rfl⟩ := two_front (by simp) (by simp) hlex.symm
  obtain ⟨rclass, res, rfl, -⟩ := record_result ((congrArg Outcome.value hrec).trans h)
  exact ⟨rclass, res, rfl⟩

theorem accepts_self (rclass : ResultClass) (t : BitVec 32) : accepts t rclass t = true := by
  simp [accepts]

/-- The calls that the parser makes for the line at the start of a text. -/
def callsFor (pos : Nat) (s : CStr) : List Call :=
  callsAt pos (parseFrom [] (lex rules ⟨pos, .initial, true, scanned s⟩).1)

/-- Behind lines that leave no string open, the calls for a line are those for the text from there on. -/
theorem callsAt_behind {pre : List CStr} (hpre : ∀ x ∈ pre, '\n' ∉ x ∧ x ∉ promptLines)
    (hclean : Clean (text pre)) (s : CStr) :
    callsAt (text pre).length (gdbparse (text pre ++ s)) = callsFor (text pre).length s := by
  obtain ⟨log, hlog, hparse⟩ := gdbparse_of_clean hpre hclean s
  rw [hparse, callsAt_append, callsAt_eq_nil fun e he => (hlog e he).ne, List.nil_append, callsFor]

section

variable {t : BitVec 32} {pos : Nat} {s : CStr} (hline : ResultLine t (scanned s))
include hline

/-- The tokens up to the newline decide what is called for a line that begins like a result. -/
theorem callsFor_eq {toks toks' : List (Nat × Tok)} {p : Nat}
    (h : (lex rules ⟨pos, .initial, true, scanned s⟩).1 = toks ++ (p, .newline) :: toks')
    (hne : ∀ e ∈ toks, e.2 ≠ .newline ∧ e.2 ≠ .eof) :
    (∃ m, toks.map Prod.snd = .number t :: .chr '^' :: m) ∧ callsFor pos s =
      if (record (toks.map Prod.snd)).faults then []
      else [(record (toks.map Prod.snd)).value.getD errorCall] := by
  obtain ⟨q, more, hlex⟩ := result_line_tokens hline pos true
  obtain ⟨m, rfl⟩ := two_front (by simp) (by simp) (hlex.symm.trans h)
  exact ⟨⟨m.map Prod.snd, rfl⟩, callsAt_line h hne rfl (by simp)⟩

/-- A line that is skipped is reported by the error rule. -/
theorem callsFor_of_skipped (h : Skipped pos s) : callsFor pos s = [errorCall] := by
  obtain ⟨toks, p, toks', h, hne, hrejected⟩ := h
  rw [(callsFor_eq hline h hne).2, hrejected]
  rfl

/-- An error without a result is called by the error rule only, for a line that is skipped. -/
theorem skipped_of_error {token : BitVec 32} (h : .procResult .error token none ∈ callsFor pos s) :
    token = 0 ∧ Skipped pos s := by
  rcases parseFrom_nil_or_line (lex rules ⟨pos, .initial, true, scanned s⟩).1 with
    hnil | ⟨toks, p, toks', hlex, hne⟩
  · rw [callsFor, hnil] at h
    cases h
  obtain ⟨⟨m, hm⟩, hcalls⟩ := callsFor_eq hline hlex hne
  rw [hcalls] at h
  split_ifs at h with hfaults
  · cases h
  rw [List.mem_singleton] at h
  cases hr : (record (toks.map Prod.snd)).value with
  | some call =>
      rw [hr, Option.getD_some] at h
      rw [hm] at hr
      obtain ⟨rclass, res, rfl, herr⟩ := record_result hr
      obtain ⟨rfl, -, rfl⟩ := Call.procResult.inj h
      exact absurd rfl (herr rfl)
  | none =>
      rw [hr, Option.getD_none, errorCall] at h
      obtain ⟨-, rfl, -⟩ := Call.procResult.inj h
      exact ⟨rfl, toks, p, toks', hlex, hne, Outcome.ext (Bool.not_eq_true _ ▸ hfaults) hr⟩

end

end Vimgdb.Gdb
