import Vimgdb.Lexing.Closed
import Vimgdb.Lexing.Gdb

/-!
# Lines in the scan of gdb's output

Where the scan of a text stands at the end of a line.

* `Lexed`, `next_lexed`: every way in which a token comes about, with the text it is made of.
* `AtLine`: the scan stands at the beginning of a line, outside a quoted string.
* `steps_atLine_iff`: the tokens read so far end with a newline then, and only then.
* `quotedScanner`: a text that ends with a newline outside quoted strings is scanned alike whatever
  follows it.
-/

namespace Vimgdb.Gdb

open Flex Lexing

/-! ## One token -/

/-- How a token comes about: the state before, the text, the token and the next start condition. -/
inductive Lexed (c : Config Start) (u : CStr) : Option Tok → Start → Prop
  | newline : c.st = .initial → u ∈ newlinePattern.lang → Lexed c u (some .newline) .initial
  | command : c.st = .initial → c.bol = true → u ∈ miCommand.lang → Lexed c u none .initial
  | prompt : c.st = .initial → u = "(gdb)".toList ∨ u = "(gdb) ".toList →
      Lexed c u (some .gdbtk) .initial
  | word {tok : Tok} : c.st = .initial → '\n' ∉ u → tok ≠ .newline → tok ≠ .gdbtk →
      Lexed c u (some tok) .initial
  | openQuote : c.st = .initial → u = ['"'] → Lexed c u (some (.chr '"')) .qstring
  | closeQuote : c.st = .qstring → u = ['"'] → Lexed c u (some (.chr '"')) .initial
  | content : c.st = .qstring → u.length = strLen false c.rest →
      Lexed c u (some (.string u)) .qstring

private theorem keyword_noNewline :
    (∀ p ∈ gdbResultClasses, '\n' ∉ p.1.toList) ∧ ∀ p ∈ gdbIdentifiers, '\n' ∉ p.1.toList := by
  decide +kernel

/-- A rule of the scanner is a keyword or one of the general rules. -/
private theorem mem_rules {r : Rule Start Tok} (h : r ∈ rules) :
    (∃ s tok, r = keyword s tok ∧ '\n' ∉ s.toList ∧ tok ≠ .newline ∧ tok ≠ .gdbtk) ∨
      r ∈ generalRules := by
  simp only [rules, List.mem_append, List.mem_map] at h
  rcases h with (⟨p, hp, rfl⟩ | ⟨p, hp, rfl⟩) | h
  · exact Or.inl ⟨p.1, .rc p.2, rfl, keyword_noNewline.1 p hp, by simp, by simp⟩
  · exact Or.inl ⟨p.1, .var p.2, rfl, keyword_noNewline.2 p hp, by simp, by simp⟩
  · exact Or.inr h

/-- Every token comes about in one of these ways. -/
theorem next_lexed {c c' : Config Start} {tok : Option Tok} (h : next rules c = some (tok, c')) :
    ∃ u, u ≠ [] ∧ c.rest = u ++ c'.rest ∧ c'.pos = c.pos + u.length ∧
      c'.bol = (u.getLast? == some '\n') ∧ Lexed c u tok c'.st := by
  obtain ⟨r, n, hsel, hn, hle, rfl, rfl⟩ := next_spec h
  obtain ⟨hmem, hlen, -⟩ := select_spec hsel
  rw [Rule.matchLen] at hlen
  split_ifs at hlen with hactive
  rw [Rule.active, Bool.and_eq_true, decide_eq_true_eq] at hactive
  obtain ⟨hst, hbol⟩ := hactive
  obtain ⟨⟨u, v, huv, rfl, hu⟩, -⟩ := (Re.longest_eq_some_iff _ _ _).mp hlen
  have htake : c.rest.take u.length = u := by rw [huv, List.take_left]
  refine ⟨u, List.length_pos_iff.mp hn, ?_, rfl, ?_, ?_⟩
  · rw [Config.advance, huv, List.drop_left]
  · rw [Config.advance, htake]
  rw [Config.advance, htake]
  rcases mem_rules hmem with ⟨s, tok, rfl, hs, hne, hne'⟩ | hmem
  · obtain rfl := (Re.mem_lang_lit _ _).mp hu
    exact Lexed.word hst.symm hs hne hne'
  · simp only [generalRules, List.mem_cons, List.not_mem_nil, or_false] at hmem
    rcases hmem with rfl | rfl | rfl | rfl | rfl | rfl | rfl | rfl | rfl
    · refine Lexed.prompt hst.symm ?_
      obtain ⟨x, hx, y, hy, rfl⟩ := (Re.mem_lang_seq _ _ _).mp hu
      obtain rfl := (Re.mem_lang_lit _ _).mp hx
      rcases (Re.mem_lang_alt _ _ _).mp hy with hy | hy
      · obtain rfl := (Re.mem_lang_chr _ _).mp hy
        exact Or.inr rfl
      · obtain rfl := (Re.mem_lang_eps _).mp hy
        exact Or.inl rfl
    · exact Lexed.newline hst.symm hu
    · exact Lexed.word hst.symm (Re.avoids_sound (by decide) u hu) (by simp) (by simp)
    · exact Lexed.word hst.symm (Re.avoids_sound (by decide) u hu) (by simp) (by simp)
    · obtain rfl := (Re.mem_lang_chr _ _).mp hu
      exact Lexed.openQuote hst.symm rfl
    · obtain rfl := (Re.mem_lang_chr _ _).mp hu
      exact Lexed.closeQuote hst.symm rfl
    · refine Lexed.content hst.symm ?_
      have hbody : strBody.longest c.rest = some u.length := hlen
      rw [longest_strBody] at hbody
      exact (Option.some.inj hbody).symm
    · exact Lexed.command hst.symm (by simpa [commandRule] using hbol) hu
    · have hnl := Re.avoids_sound (c := '\n') (r := .dot) (by decide) u hu
      obtain ⟨d, rfl, -⟩ := hu
      exact Lexed.word hst.symm hnl (charTok_ne (by simp) (by simp)) (charTok_ne (by simp) (by simp))

/-- Something is read unless the text is at its end. -/
theorem next_isSome {c : Config Start} (hrest : c.rest ≠ []) : (next rules c).isSome = true := by
  obtain ⟨pos, st, bol, rest⟩ := c
  cases rest with
  | nil => exact absurd rfl hrest
  | cons a s =>
      by_cases hq : st = .qstring
      · subst hq
        by_cases ha : a = '"'
        · subst ha
          rw [next_close]
          rfl
        · rw [next_string pos bol (by simp [strLen, ha])]
          rfl
      · have hst : st = .initial := by cases st <;> simp_all
        subst hst
        by_cases ha : a = '\n'
        · subst ha
          exact next_isSome_of_mem (r := newlineRule) (by simp [rules, generalRules])
            (matchLen_of_eps rfl rfl (by decide)) Nat.one_pos
        · refine next_isSome_of_mem (r := defaultRule) (by simp [rules, generalRules])
            (matchLen_of_eps rfl rfl ?_) Nat.one_pos
          simp [defaultRule, Re.dot, Re.deriv, Re.inClass_singleton, ha]

/-! ## The beginning of a line -/

/-- The scan stands at the beginning of a line, outside a quoted string. -/
def AtLine (c : Config Start) : Prop := c.st = .initial ∧ c.bol = true

theorem mem_newlinePattern {u : CStr} : u ∈ newlinePattern.lang ↔ u = ['\n'] ∨ u = ['\r', '\n'] := by
  simp only [newlinePattern, Re.opt, Re.mem_lang_seq, Re.mem_lang_alt, Re.mem_lang_chr,
    Re.mem_lang_eps]
  constructor
  · rintro ⟨x, rfl | rfl, y, rfl, rfl⟩
    · exact Or.inr rfl
    · exact Or.inl rfl
  · rintro (rfl | rfl)
    · exact ⟨[], Or.inr rfl, ['\n'], rfl, rfl⟩
    · exact ⟨['\r'], Or.inl rfl, ['\n'], rfl, rfl⟩

theorem getLast?_miCommand {u : CStr} (h : u ∈ miCommand.lang) : u.getLast? = some '\n' := by
  simp only [miCommand, Re.mem_lang_seq, Re.mem_lang_chr] at h
  obtain ⟨x, -, y, ⟨d, -, z, ⟨w, -, _, rfl, rfl⟩, rfl⟩, rfl⟩ := h
  rw [← List.append_assoc, ← List.append_assoc, List.getLast?_concat]

/-- A token leads to the beginning of a line iff it is a newline, or no token is returned; and that
happens at the beginning of a line only. -/
theorem next_atLine {c c' : Config Start} {tok : Option Tok} (h : next rules c = some (tok, c')) :
    (AtLine c' ↔ tok = some .newline ∨ tok = none) ∧ (tok = none → AtLine c) := by
  obtain ⟨u, -, -, -, hbol, hlex⟩ := next_lexed h
  generalize hst : c'.st = st at hlex
  simp only [AtLine, hst, hbol]
  cases hlex with
  | newline _ hu => rcases mem_newlinePattern.mp hu with rfl | rfl <;> simp
  | command hc hb hu => simp [getLast?_miCommand hu, hc, hb]
  | prompt _ hu => rcases hu with rfl | rfl <;> simp
  | word _ hnl hne _ =>
      have hlast : u.getLast? ≠ some '\n' := fun hl => hnl (List.mem_of_getLast? hl)
      simp [hlast, hne]
  | openQuote _ _ => simp
  | closeQuote _ hu => simp [hu]
  | content _ _ => simp

/-- The scan is at the beginning of a line after a newline, and where it was before if nothing has
been read. -/
theorem steps_atLine_iff {c c' : Config Start} {toks : List (Nat × Tok)}
    (h : Steps rules c toks c') :
    AtLine c' ↔ (toks = [] ∧ AtLine c) ∨ toks.getLast?.map Prod.snd = some .newline := by
  induction h with
  | refl => simp
  | @head c c₁ c₂ tok toks hnext _ ih =>
      obtain ⟨h₁, h₂⟩ := next_atLine hnext
      rw [ih, h₁]
      cases tok with
      | none => simp [tokenAt, h₂ rfl]
      | some t =>
          cases toks with
          | nil => simp [tokenAt]
          | cons e toks => simp [tokenAt]

/-! ## Texts scanned alike whatever follows -/

/-- Outside quoted strings no rule matches beyond a newline. -/
private theorem rules_endsAt : ∀ r ∈ rules, r.start = .initial → r.re.endsAt '\n' = true := by
  decide +kernel

/-- The lexer of gdb's output is one with quoted strings. -/
theorem quotedScanner : QuotedScanner rules closeQuote stringBody .initial .qstring where
  cases st := by cases st <;> simp
  ne := nofun
  inside := rules_qstring
  quoteRe := rfl
  quoteBol := rfl
  bodyRe := rfl
  bodyBol := rfl
  bodyStart _ := rfl
  outside := rules_endsAt
  total _ hrest := next_isSome hrest

end Vimgdb.Gdb
