import Vimgdb.Lexing.Quoted

/-!
# Texts that are scanned alike whatever follows them

A lexer with quoted strings has one start condition outside of them and one inside.  Outside, no rule
matches beyond a newline; inside, newlines are read like other characters.

* `QuotedScanner`: what such a lexer has in common.
* `QuotedScanner.steps_append`: a scan that ends outside quoted strings, of a text that ends with a
  newline, does not depend on what follows.
* `QuotedScanner.steps_behind`: what follows is scanned like a text of its own.
-/

namespace Vimgdb.Lexing

open Flex

/-- More text behind a string that ends does not change where it ends. -/
theorem strLen_append_of_lt {s t : CStr} (h : strLen false s < s.length) :
    strLen false (s ++ t) = strLen false s := by
  have hgen : ∀ prev, strLen prev s < s.length → strLen prev (s ++ t) = strLen prev s := by
    clear h
    induction s with
    | nil => simp
    | cons c s ih =>
        intro prev h
        rw [strLen] at h
        rw [List.cons_append, strLen, strLen]
        split_ifs at h ⊢ with hq
        · rfl
        · rw [ih _ (by simpa using h)]
  exact hgen false h

variable {St Tok : Type} [DecidableEq St] {rules : List (Rule St Tok)} {quote body : Rule St Tok}
  {init qst : St}

/-- A lexer with quoted strings: `qst` is the start condition inside them, with a rule for the closing
quote and one for the content. -/
structure QuotedScanner (rules : List (Rule St Tok)) (quote body : Rule St Tok) (init qst : St) :
    Prop where
  cases : ∀ st, st = init ∨ st = qst
  ne : init ≠ qst
  inside : rules.filter (fun r => decide (r.start = qst)) = [quote, body]
  quoteRe : quote.re = .chr '"'
  quoteBol : quote.bol = false
  bodyRe : body.re = strBody
  bodyBol : body.bol = false
  bodyStart : ∀ u, (body.act u).2 = qst
  outside : ∀ r ∈ rules, r.start = init → r.re.endsAt '\n' = true
  total : ∀ c : Config St, c.rest ≠ [] → (next rules c).isSome = true

/-- A token of a scan that ends outside quoted strings does not depend on what follows. -/
theorem QuotedScanner.next_append (h : QuotedScanner rules quote body init qst) {c c₁ c' : Config St}
    {tok : Option Tok} {toks : List (Nat × Tok)} (hnext : next rules c = some (tok, c₁))
    (hsteps : Steps rules c₁ toks c') (hst : c'.st = init) (hlast : c.rest.getLast? = some '\n')
    (t : CStr) : next rules (c.append t) = some (tok, c₁.append t) := by
  rcases h.cases c.st with hc | hc
  · rw [Flex.next_append, hnext]
    · rfl
    · intro r hr hactive
      simp only [Rule.active, hc, Bool.and_eq_true, decide_eq_true_eq] at hactive
      exact Re.longest_append (Re.endsAt_sound (h.outside r hr hactive.1))
        (List.mem_of_getLast? hlast) t
  · obtain ⟨pos, st, bol, rest⟩ := c
    obtain rfl : st = qst := hc
    rcases rest with _ | ⟨a, s⟩
    · cases hlast
    by_cases ha : a = '"'
    · subst ha
      rw [next_quote h.inside h.quoteRe h.quoteBol h.bodyRe] at hnext
      obtain ⟨rfl, rfl⟩ := Prod.mk.inj (Option.some.inj hnext)
      exact next_quote h.inside h.quoteRe h.quoteBol h.bodyRe pos bol (s ++ t)
    · have hlen : 0 < strLen false (a :: s) := by simp [strLen, ha]
      rw [next_body h.inside h.quoteRe h.bodyRe h.bodyBol pos bol hlen] at hnext
      obtain ⟨rfl, rfl⟩ := Prod.mk.inj (Option.some.inj hnext)
      -- a content up to the end of the text would leave the string open
      have hlt : strLen false (a :: s) < (a :: s).length := by
        by_contra hge
        have hrest : ((Config.mk pos st bol (a :: s)).advance (strLen false (a :: s))
            (body.act ((a :: s).take (strLen false (a :: s)))).2).rest = [] :=
          List.drop_eq_nil_of_le (Nat.le_of_not_lt hge)
        cases hsteps with
        | refl => exact h.ne (hst.symm.trans (h.bodyStart _))
        | head hnext₁ _ =>
            rw [next_of_rest_nil rules hrest] at hnext₁
            cases hnext₁
      have hlen' := strLen_append_of_lt (t := t) hlt
      have hpos : 0 < strLen false (a :: s ++ t) := by rw [hlen']; exact hlen
      refine (next_body h.inside h.quoteRe h.bodyRe h.bodyBol pos bol hpos).trans ?_
      rw [hlen']
      simp only [Config.append, Config.advance, List.take_append_of_le_length hlt.le,
        List.drop_append_of_le_length hlt.le]

/-- A scan that ends outside quoted strings, of a text that ends with a newline, does not depend on
what follows the text. -/
theorem QuotedScanner.steps_append (h : QuotedScanner rules quote body init qst) {c c' : Config St}
    {toks : List (Nat × Tok)} (hsteps : Steps rules c toks c') (hst : c'.st = init)
    (hlast : c.rest = [] ∨ c.rest.getLast? = some '\n') (t : CStr) :
    Steps rules (c.append t) toks (c'.append t) := by
  induction hsteps with
  | refl => exact Steps.refl _
  | @head c c₁ c₂ tok toks hnext hsteps ih =>
      obtain ⟨r, n, -, hn, hle, -, hadv⟩ := next_spec hnext
      have hne : c.rest ≠ [] := by
        intro hnil
        rw [hnil, List.length_nil] at hle
        omega
      have hlast := hlast.resolve_left hne
      have hlast₁ : c₁.rest = [] ∨ c₁.rest.getLast? = some '\n' := by
        by_cases hc₁ : c₁.rest = []
        · exact Or.inl hc₁
        · have htext : c.rest = c.rest.take n ++ c₁.rest := by
            rw [hadv]
            exact (List.take_append_drop n c.rest).symm
          rw [htext, List.getLast?_append_of_ne_nil _ hc₁] at hlast
          exact Or.inr hlast
      exact Steps.head (h.next_append hnext hsteps hst hlast t) (ih hst hlast₁)

/-- The scan of a whole text ends at its end. -/
theorem QuotedScanner.lex_rest (h : QuotedScanner rules quote body init qst) (c : Config St) :
    (lex rules c).2.rest = [] := by
  by_contra hne
  have := h.total _ hne
  rw [next_lex] at this
  cases this

/-- Behind a text that ends with a newline outside quoted strings the scan begins again. -/
theorem QuotedScanner.steps_behind (h : QuotedScanner rules quote body init qst) {u : CStr}
    (hu : u = [] ∨ u.getLast? = some '\n') (hst : (lex rules ⟨0, init, true, u⟩).2.st = init)
    (v : CStr) :
    Steps rules ⟨0, init, true, u ++ v⟩ (lex rules ⟨0, init, true, u⟩).1
      ⟨u.length, init, true, v⟩ := by
  have hsteps := lex_steps rules ⟨0, init, true, u⟩
  have hrest := h.lex_rest ⟨0, init, true, u⟩
  generalize lex rules ⟨0, init, true, u⟩ = r at hsteps hst hrest
  obtain ⟨toks, pos, st, bol, rest⟩ := r
  simp only at hst hrest hsteps
  subst hst hrest
  obtain ⟨w, hw, hpos, hnil, hbol⟩ := hsteps.bol
  obtain rfl : u = w := by simpa using hw
  have hd : (⟨pos, st, bol, []⟩ : Config St) = ⟨u.length, st, true, []⟩ := by
    by_cases hne : u = []
    · rw [hnil hne, hne]
      rfl
    · have hpos : pos = 0 + u.length := hpos
      have hbol : bol = (u.getLast? == some '\n') := hbol hne
      rw [hpos, hbol, hu.resolve_left hne]
      simp
  rw [hd] at hsteps
  exact h.steps_append hsteps rfl hu v

end Vimgdb.Lexing
