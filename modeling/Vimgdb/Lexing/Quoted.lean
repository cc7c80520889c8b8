import Vimgdb.Common.Strings
import Vimgdb.Lib.Scanner

/-!
# The quoted-string pattern of the lexers

All three lexers read the inside of a quoted string with the pattern `([^\"]|(\\\"))*`.

* `strBody`: the pattern.  A backslash is an ordinary character of `[^\"]`, and in front of a quote it
  may also begin `\\\"`; the longest match decides.
* `strLen`: how far the longest match goes: to the first quote whose predecessor is not a backslash
  (`longest_strBody`), whatever stands before that backslash.
* `closeLen`: the same with the closing quote in the pattern, as the peripheral-file lexer has it
  (`longest_strBody_close`).
* `next_quote`, `next_body`: what the two rules for the inside of a string return.
* `strLen_strescape`, `closeLen_strescape`: where these matches stop when the text is an escaped
  string and a quote.
-/

namespace Vimgdb.Lexing

open Flex

/-! ## The pattern -/

/-- The inside of a quoted string: `([^\"]|(\\\"))*`. -/
def strBody : Re := .star (.alt (.cls true [('"', '"')]) (.lit ['\\', '"']))

/-- What `strBody` becomes behind a backslash. -/
def strBodyBackslash : Re := .seq (.alt .eps (.seq (.chr '"') .eps)) strBody

/-- The length of the longest match of `strBody`; `prev` says whether a backslash has just been
read. -/
def strLen (prev : Bool) : CStr → Nat
  | [] => 0
  | c :: s => if c = '"' && !prev then 0 else strLen (c == '\\') s + 1

/-- The length of the longest match of `strBody` and a closing quote. -/
def closeLen (prev : Bool) : CStr → Option Nat
  | [] => none
  | c :: s =>
      if c = '"' then
        if prev then some ((closeLen false s).getD 0 + 1) else some 1
      else (closeLen (c == '\\') s).map (· + 1)

/-- The derivative of the pattern: a quote is refused, a backslash is remembered. -/
theorem deriv_strBody (c : Char) : strBody.deriv c =
    if c = '"' then .zero else if c = '\\' then strBodyBackslash else strBody := by
  by_cases hq : c = '"'
  · subst hq; decide
  · by_cases hb : c = '\\'
    · subst hb; decide
    · simp [strBody, Re.deriv, Re.lit, Re.chr, Re.inClass_singleton, hq, hb, Re.nullable,
        Re.mkSeq, Re.mkAlt]

/-- Behind a backslash a quote is accepted. -/
theorem deriv_strBodyBackslash (c : Char) : strBodyBackslash.deriv c =
    if c = '"' then strBody else if c = '\\' then strBodyBackslash else strBody := by
  by_cases hq : c = '"'
  · subst hq; decide
  · have hne : ('"' == c) = false := by simpa using Ne.symm hq
    have hstar := deriv_strBody c
    rw [if_neg hq] at hstar
    simp only [strBodyBackslash, Re.deriv, Re.chr, Re.inClass_singleton, Re.nullable, hstar, if_neg hq]
    split_ifs <;> simp_all [Re.mkSeq, Re.mkAlt]

private theorem longest_strBody_both (s : CStr) :
    strBody.longest s = some (strLen false s) ∧ strBodyBackslash.longest s = some (strLen true s) := by
  induction s with
  | nil => exact ⟨by decide, by decide⟩
  | cons c s ih =>
      rw [Re.longest_cons, Re.longest_cons, deriv_strBody, deriv_strBodyBackslash]
      by_cases hq : c = '"'
      · subst hq
        refine ⟨?_, ?_⟩
        · cases s <;> simp [Re.longest, strLen, strBody, Re.nullable]
        · simp [strLen, ih.1]
      · by_cases hb : c = '\\'
        · subst hb; simp [strLen, ih.2]
        · have hb' : (c == '\\') = false := by simpa using hb
          simp [strLen, hq, hb, hb', ih.1]

/-- The longest match of the pattern ends before the first quote that does not follow a
backslash. -/
theorem longest_strBody (s : CStr) : strBody.longest s = some (strLen false s) :=
  (longest_strBody_both s).1

private theorem longest_optional (r : Re) (s : CStr) :
    (Re.alt r .eps).longest s = some ((r.longest s).getD 0) := by
  have hn : (Re.alt r .eps).nullable = true := by simp [Re.nullable]
  cases s with
  | nil =>
      rw [Re.longest_nil, Re.longest_nil, if_pos hn]
      cases r.nullable <;> rfl
  | cons c s =>
      have hd : (Re.alt r .eps).deriv c = r.deriv c := by
        rw [Re.deriv]
        cases r.deriv c <;> rfl
      rw [Re.longest_cons, Re.longest_cons, hd, hn]
      cases (r.deriv c).longest s <;> simp
      split_ifs <;> rfl

private theorem longest_close_both (s : CStr) :
    (Re.seq strBody (.chr '"')).longest s = closeLen false s ∧
      (Re.seq strBodyBackslash (.chr '"')).longest s = closeLen true s := by
  have hd : ∀ c, (Re.seq strBody (.chr '"')).deriv c =
      if c = '"' then .eps else if c = '\\' then .seq strBodyBackslash (.chr '"')
      else .seq strBody (.chr '"') := by
    intro c
    by_cases hq : c = '"'
    · subst hq; decide
    · have hq' : (c == '"') = false := by simpa using hq
      rw [Re.deriv, deriv_strBody, if_neg hq, if_neg hq, Re.chr, Re.deriv, Re.inClass_singleton, hq']
      split_ifs with hb <;> first | rfl | simp_all
  have hd' : ∀ c, (Re.seq strBodyBackslash (.chr '"')).deriv c =
      if c = '"' then .alt (.seq strBody (.chr '"')) .eps
      else if c = '\\' then .seq strBodyBackslash (.chr '"') else .seq strBody (.chr '"') := by
    intro c
    by_cases hq : c = '"'
    · subst hq; decide
    · have hq' : (c == '"') = false := by simpa using hq
      rw [Re.deriv, deriv_strBodyBackslash, if_neg hq, if_neg hq, Re.chr, Re.deriv, Re.inClass_singleton,
        hq']
      split_ifs with hb <;> first | rfl | simp_all
  induction s with
  | nil => exact ⟨by decide, by decide⟩
  | cons c s ih =>
      rw [Re.longest_cons, Re.longest_cons, hd, hd']
      by_cases hq : c = '"'
      · subst hq
        refine ⟨?_, ?_⟩
        · cases s <;> simp [Re.longest, Re.nullable, Re.deriv, closeLen]
        · simp [longest_optional, closeLen, ih.1]
      · have hn : (Re.seq strBody (.chr '"')).nullable = false := by decide
        have hn' : (Re.seq strBodyBackslash (.chr '"')).nullable = false := by decide
        by_cases hb : c = '\\'
        · subst hb
          simp only [if_neg hq, if_true, hn, hn', ih.2, closeLen, BEq.rfl]
          cases closeLen true s <;> simp
        · have hb' : (c == '\\') = false := by simpa using hb
          simp only [if_neg hq, if_neg hb, hn, hn', ih.1, closeLen, hb']
          cases closeLen false s <;> simp

/-- With the closing quote in the pattern, a quote behind a backslash closes the string only when
no later quote does. -/
theorem longest_strBody_close (s : CStr) :
    (Re.seq strBody (.chr '"')).longest s = closeLen false s :=
  (longest_close_both s).1

/-- Only a quote can close the string. -/
theorem closeLen_eq_none_iff (s : CStr) : closeLen false s = none ↔ '"' ∉ s := by
  have h : ∀ prev, closeLen prev s = none ↔ '"' ∉ s := by
    induction s with
    | nil => simp [closeLen]
    | cons c s ih =>
        intro prev
        rw [closeLen, List.mem_cons, not_or]
        by_cases hq : c = '"'
        · cases prev <;> simp [hq]
        · simp [hq, ih, Ne.symm hq]
  exact h false

theorem closeLen_pos {s : CStr} {n : Nat} (h : closeLen false s = some n) : 0 < n := by
  cases s with
  | nil => simp [closeLen] at h
  | cons c s =>
      rw [closeLen] at h
      by_cases hq : c = '"'
      · simp [hq] at h
        omega
      · rw [if_neg hq] at h
        obtain ⟨m, -, rfl⟩ := Option.map_eq_some_iff.mp h
        exact m.succ_pos

/-! ## Inside a quoted string -/

section Inside

variable {St Tok : Type} [DecidableEq St] {rules : List (Rule St Tok)} {st : St}
  {quote body : Rule St Tok}

/-- A quote ends the string. -/
theorem next_quote (hrules : rules.filter (fun r => decide (r.start = st)) = [quote, body])
    (hquote : quote.re = .chr '"') (hbol : quote.bol = false) (hbody : body.re = strBody)
    (pos : Nat) (bol : Bool) (s : CStr) :
    next rules ⟨pos, st, bol, '"' :: s⟩ =
      some ((quote.act ['"']).1, ⟨pos + 1, (quote.act ['"']).2, false, s⟩) := by
  have hderiv : quote.re.deriv '"' = .eps := by rw [hquote]; decide
  have hsingle : [body].all (Rule.single '"') = true := by
    simp [Rule.single, hbody, deriv_strBody]
  have hsplit : rules.filter (fun r => decide (r.start = st)) = [] ++ quote :: [body] := hrules
  exact next_of_single hsplit hbol hderiv rfl hsingle pos bol s

/-- Anything else is read up to the end of the longest match. -/
theorem next_body (hrules : rules.filter (fun r => decide (r.start = st)) = [quote, body])
    (hquote : quote.re = .chr '"') (hbody : body.re = strBody) (hbol : body.bol = false)
    (pos : Nat) (bol : Bool) {s : CStr} (hlen : 0 < strLen false s) :
    next rules ⟨pos, st, bol, s⟩ = some ((body.act (s.take (strLen false s))).1,
      (Config.mk pos st bol s).advance (strLen false s)
        (body.act (s.take (strLen false s))).2) := by
  have hmem : body ∈ rules.filter (fun r => decide (r.start = st)) := by simp [hrules]
  have hactive : body.active ⟨pos, st, bol, s⟩ = true := by
    simpa [Rule.active, hbol] using (List.mem_filter.mp hmem).2
  have hbest : body.matchLen ⟨pos, st, bol, s⟩ = some (strLen false s) := by
    rw [Rule.matchLen, if_pos hactive, hbody, longest_strBody]
  refine next_of_select ?_ hlen
  rw [select_filter, hrules, show [quote, body] = [quote] ++ body :: [] from rfl]
  refine select_of_best hbest (fun r hr m hm => ?_) (by simp)
  -- the first character is not a quote, or the body could not match it
  obtain rfl := List.mem_singleton.mp hr
  cases s with
  | nil => simp [strLen] at hlen
  | cons a s =>
      have hq : a ≠ '"' := by
        rintro rfl
        simp [strLen] at hlen
      have hdead : r.dead a = true := by
        rw [Rule.dead, hquote, decide_eq_true_eq, Re.chr, Re.deriv, Re.inClass_singleton]
        simp [hq]
      have := matchLen_of_dead rfl hdead hm
      omega

end Inside

/-! ## Escaped strings -/

/-- Does `s`, read behind a backslash if `prev` is set, end in a backslash? -/
def endsBackslash (prev : Bool) (s : CStr) : Bool :=
  match s.getLast? with
  | none => prev
  | some c => c == '\\'

theorem endsBackslash_cons (prev : Bool) (c : Char) (s : CStr) :
    endsBackslash prev (c :: s) = endsBackslash (c == '\\') s := by
  cases s with
  | nil => rfl
  | cons d s =>
      rw [endsBackslash, endsBackslash, List.getLast?_cons_cons]
      cases h : (d :: s).getLast? with
      | none => simp at h
      | some e => rfl

/-- The longest match stops at the quote behind an escaped string, unless the string ends in a
backslash: then it goes on behind that quote. -/
theorem strLen_strescape (prev : Bool) (s r : CStr) :
    strLen prev (strescape s ++ '"' :: r) =
      (strescape s).length + if endsBackslash prev s then strLen false r + 1 else 0 := by
  induction s generalizing prev with
  | nil => cases prev <;> simp [strescape, strLen, endsBackslash]
  | cons c s ih =>
      rw [endsBackslash_cons, strescape]
      cases he : escapeChar c with
      | some e =>
          have hb : strLen true (e :: (strescape s ++ '"' :: r)) =
              strLen (e == '\\') (strescape s ++ '"' :: r) + 1 := by simp [strLen]
          have ha : strLen prev ('\\' :: e :: (strescape s ++ '"' :: r)) =
              strLen true (e :: (strescape s ++ '"' :: r)) + 1 := by rw [strLen]; rfl
          simp only [List.cons_append, List.length_cons]
          rw [ha, hb, escapeChar_eq_some he, ih]
          omega
      | none =>
          obtain ⟨hq, -⟩ := escapeChar_eq_none he
          simp only [List.cons_append, strLen, hq, decide_false, Bool.false_and,
            Bool.false_eq_true, if_false, ih, List.length_cons]
          omega

/-- The same for the pattern that contains the closing quote. -/
theorem closeLen_strescape (prev : Bool) (s r : CStr) :
    closeLen prev (strescape s ++ '"' :: r) =
      some ((strescape s).length +
        if endsBackslash prev s then (closeLen false r).getD 0 + 1 else 1) := by
  induction s generalizing prev with
  | nil => cases prev <;> simp [strescape, closeLen, endsBackslash]
  | cons c s ih =>
      rw [endsBackslash_cons, strescape]
      cases he : escapeChar c with
      | some e =>
          have hb : closeLen true (e :: (strescape s ++ '"' :: r)) =
              (closeLen (e == '\\') (strescape s ++ '"' :: r)).map (· + 1) := by
            by_cases hq : e = '"'
            · subst hq
              rw [closeLen, if_pos rfl, if_pos rfl, show ('"' == '\\') = false from rfl, ih]
              rfl
            · rw [closeLen, if_neg hq]
          have ha : closeLen prev ('\\' :: e :: (strescape s ++ '"' :: r)) =
              (closeLen true (e :: (strescape s ++ '"' :: r))).map (· + 1) := by
            rw [closeLen]; rfl
          simp only [List.cons_append, List.length_cons]
          rw [ha, hb, escapeChar_eq_some he, ih]
          simp only [Option.map_some, Option.some.injEq]
          omega
      | none =>
          obtain ⟨hq, -⟩ := escapeChar_eq_none he
          simp only [List.cons_append, closeLen, if_neg hq, ih, List.length_cons, Option.map_some]
          congr 1
          omega

end Vimgdb.Lexing
