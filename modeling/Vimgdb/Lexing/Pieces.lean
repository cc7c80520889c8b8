import Vimgdb.Lexing.Gdb

/-!
# Pieces of gdb's output

What the scanner makes of the pieces that a line of gdb's output consists of.

* `Lexes`: a text is read as tokens, whatever may follow it.
* `wordTok`, `lexes_word`: an unquoted word is a keyword or a string.
* `lexes_number`, `lexes_quoted`, `lexes_punct`: the other pieces.
-/

namespace Vimgdb.Gdb

open Flex Lexing

/-! ## Texts and tokens -/

/-- The text is read as these tokens, the first one at its beginning, when it is followed by something
that is allowed. -/
structure Lexes (text : CStr) (toks : List Tok) (follow : CStr → Prop) : Prop where
  empty : toks = [] → text = []
  steps : ∀ pos bol r, follow r → ∃ ptoks bol', ptoks.map Prod.snd = toks ∧
    (∀ e ∈ ptoks.head?, e.1 = pos) ∧
    Steps rules ⟨pos, .initial, bol, text ++ r⟩ ptoks ⟨pos + text.length, .initial, bol', r⟩

/-- Anything may follow. -/
def Anything (_ : CStr) : Prop := True

theorem lexes_nil {follow : CStr → Prop} : Lexes [] [] follow where
  empty _ := rfl
  steps pos bol r _ := by
    refine ⟨[], bol, rfl, fun e he => ?_, Steps.refl _⟩
    cases he

/-- Texts one after the other. -/
theorem Lexes.append {s t : CStr} {toks toks' : List Tok} {follow follow' : CStr → Prop}
    (h : Lexes s toks follow) (h' : Lexes t toks' follow')
    (hfollow : ∀ r, follow' r → follow (t ++ r)) : Lexes (s ++ t) (toks ++ toks') follow' where
  empty hnil := by
    obtain ⟨hs, ht⟩ := List.append_eq_nil_iff.mp hnil
    rw [h.empty hs, h'.empty ht]
    rfl
  steps pos bol r hr := by
    obtain ⟨ptoks, bol₁, htoks, hhead, hsteps⟩ := h.steps pos bol (t ++ r) (hfollow r hr)
    obtain ⟨ptoks', bol₂, htoks', hhead', hsteps'⟩ := h'.steps (pos + s.length) bol₁ r hr
    refine ⟨ptoks ++ ptoks', bol₂, ?_, fun e he => ?_, ?_⟩
    · rw [List.map_append, htoks, htoks']
    · rcases ptoks with _ | ⟨p, ptoks⟩
      · -- nothing has been read in front of the second text
        have hs : s = [] := h.empty htoks.symm
        rw [hhead' e he, hs]
        rfl
      · exact hhead e he
    · rw [List.append_assoc, List.length_append, ← Nat.add_assoc]
      exact hsteps.trans hsteps'

/-- Less may follow. -/
theorem Lexes.mono {s : CStr} {toks : List Tok} {follow follow' : CStr → Prop} (h : Lexes s toks follow)
    (hfollow : ∀ r, follow' r → follow r) : Lexes s toks follow' where
  empty := h.empty
  steps pos bol r hr := h.steps pos bol r (hfollow r hr)

/-- A single token that is not empty. -/
theorem lexes_of_next {text : CStr} {tok : Tok} {follow : CStr → Prop}
    (h : ∀ pos bol r, follow r → ∃ bol', next rules ⟨pos, .initial, bol, text ++ r⟩ =
      some (some tok, ⟨pos + text.length, .initial, bol', r⟩)) : Lexes text [tok] follow where
  empty hnil := by cases hnil
  steps pos bol r hr := by
    obtain ⟨bol', hnext⟩ := h pos bol r hr
    refine ⟨[(pos, tok)], bol', rfl, fun e he => ?_, Steps.head hnext (Steps.refl _)⟩
    rw [← Option.mem_some.mp he]

/-! ## The rules -/

/-- The characters of an unquoted string. -/
def wordChr (c : Char) : Bool :=
  Re.inClass false [('a', 'z'), ('A', 'Z'), ('0', '9'), ('_', '_'), ('-', '-'), ('.', '.')] c

/-- The characters at its front. -/
def letter (c : Char) : Bool := Re.inClass false [('a', 'z'), ('A', 'Z')] c

/-- An unquoted string. -/
def isWord (w : CStr) : Bool := w.head?.any letter && w.all wordChr

/-- The words that have tokens of their own. -/
def keywords : List (CStr × Tok) :=
  gdbResultClasses.map (fun p => (p.1.toList, .rc p.2)) ++
    gdbIdentifiers.map (fun p => (p.1.toList, .var p.2))

theorem rules_eq : rules = keywords.map (fun p => keyword (String.ofList p.1) p.2) ++ generalRules := by
  simp only [rules, keywords, List.map_append, List.map_map, Function.comp_def, String.ofList_toList]

/-- The rule for words. -/
def wordRule : Rule Start Tok :=
  { start := .initial, re := identifier, act := fun text => (some (.string text), .initial) }

/-- The rule for the prompt. -/
def promptRule : Rule Start Tok :=
  { start := .initial, re := .seq (.lit "(gdb)".toList) (.opt (.chr ' ')),
    act := fun _ => (some .gdbtk, .initial) }

theorem rules_initial : rules.filter (fun r => decide (r.start = .initial)) =
    keywords.map (fun p => keyword (String.ofList p.1) p.2) ++
      [promptRule, newlineRule, numberRule, wordRule, openQuote, commandRule, defaultRule] := by
  rw [rules_eq, List.filter_append, List.filter_eq_self.mpr]
  · rfl
  · intro r hr
    obtain ⟨p, -, rfl⟩ := List.mem_map.mp hr
    rfl

/-- The words with tokens of their own are words. -/
theorem isWord_of_mem_keywords : ∀ p ∈ keywords, isWord p.1 = true := by decide +kernel

/-- What is not a letter does not begin such a word. -/
theorem dead_keyword {a : Char} (h : letter a = false) :
    ∀ r ∈ keywords.map (fun p => keyword (String.ofList p.1) p.2), r.dead a = true := by
  intro r hr
  obtain ⟨p, hp, rfl⟩ := List.mem_map.mp hr
  have hword := isWord_of_mem_keywords p hp
  obtain ⟨w, tok⟩ := p
  cases w with
  | nil => cases hword
  | cons b w =>
      have hb : letter b = true := (Bool.and_eq_true_iff.mp hword).1
      have hne : a ≠ b := by
        rintro rfl
        rw [h] at hb
        cases hb
      simp [Rule.dead, keyword, String.toList_ofList, Re.lit, Re.chr, Re.deriv, Re.nullable, Re.mkSeq,
        Re.inClass_singleton, hne]

/-! ## Punctuation -/

/-- The characters between the parts of a line. -/
def punctuation : List Char := ['=', ',', '{', '}', '[', ']', '^', '*', '+', '~', '@', '&']

theorem lexes_punct {c : Char} (hc : c ∈ punctuation) : Lexes [c] [.chr c] Anything := by
  have hrules : rules.filter (fun r => decide (r.start = .initial)) =
      (keywords.map (fun p => keyword (String.ofList p.1) p.2) ++
        [promptRule, newlineRule, numberRule, wordRule, openQuote, commandRule]) ++ [defaultRule] := by
    rw [rules_initial, List.append_assoc]
    rfl
  have hdead : punctuation.all (fun c => !letter c &&
      ([promptRule, newlineRule, numberRule, wordRule, openQuote, commandRule].all (Rule.dead c) &&
        (decide (defaultRule.re.deriv c = .eps) && decide (c.toNat < 128)))) = true := by
    decide +kernel
  have hc := List.all_eq_true.mp hdead c hc
  simp only [Bool.and_eq_true, Bool.not_eq_true', decide_eq_true_eq] at hc
  obtain ⟨hletter, hpre, hdefault, hascii⟩ := hc
  have htok : charTok c = .chr c := if_pos hascii
  refine lexes_of_next fun pos bol r _ => ⟨c == '\n', ?_⟩
  rw [← htok]
  refine next_of_single hrules rfl hdefault ?_ rfl pos bol r
  rw [List.all_append, List.all_eq_true.mpr (dead_keyword hletter), hpre]
  rfl

/-- The end of a line. -/
theorem next_newline (pos : Nat) (bol : Bool) (r : CStr) :
    next rules ⟨pos, .initial, bol, '\n' :: r⟩ = some (some .newline, ⟨pos + 1, .initial, true, r⟩) := by
  have hrules : rules.filter (fun r => decide (r.start = .initial)) =
      (keywords.map (fun p => keyword (String.ofList p.1) p.2) ++ [promptRule]) ++ newlineRule ::
        [numberRule, wordRule, openQuote, commandRule, defaultRule] := by
    rw [rules_initial, List.append_assoc]
    rfl
  refine next_of_single hrules rfl (by decide) ?_ (by decide) pos bol r
  rw [List.all_append, List.all_eq_true.mpr (dead_keyword (by decide))]
  decide

/-! ## Words -/

/-- The token of a word. -/
def wordTok (w : CStr) : Tok :=
  match keywords.find? (fun p => p.1 = w) with
  | some p => p.2
  | none => .string w

/-- A text that does not go on with the word in front of it. -/
def Apart (r : CStr) : Prop := ∀ c ∈ r.head?, wordChr c = false

/-- What consists of characters that do not follow `w` does not go beyond `w`. -/
theorem length_le_of_apart {p : Char → Bool} {u v w r : CStr} (h : w ++ r = u ++ v)
    (hu : ∀ c ∈ u, p c = true) (hr : ∀ c ∈ r.head?, p c = false) : u.length ≤ w.length := by
  rcases List.append_eq_append_iff.mp h with ⟨x, rfl, hx⟩ | ⟨x, rfl, -⟩
  · rcases x with _ | ⟨c, x⟩
    · simp
    · have hc : p c = false := hr c (by rw [hx]; rfl)
      rw [hu c (by simp)] at hc
      cases hc
  · simp

theorem matchLen_keyword {c : Config Start} {s : String} {tok : Tok} {n : Nat}
    (h : (keyword s tok).matchLen c = some n) : n = s.toList.length ∧ ∃ v, c.rest = s.toList ++ v := by
  unfold Rule.matchLen at h
  split_ifs at h
  obtain ⟨⟨u, v, hrest, rfl, hu⟩, -⟩ := (Re.longest_eq_some_iff _ _ _).mp h
  obtain rfl := (Re.mem_lang_lit _ _).mp hu
  exact ⟨rfl, v, hrest⟩

/-- A keyword does not go beyond a word, and is the word if it does not end before. -/
theorem matchLen_keyword_word {w r : CStr} (hr : Apart r) {pos : Nat} {bol : Bool} {p : CStr × Tok}
    (hp : p ∈ keywords) {n : Nat}
    (h : (keyword (String.ofList p.1) p.2).matchLen ⟨pos, .initial, bol, w ++ r⟩ = some n) :
    n ≤ w.length ∧ (n = w.length → p.1 = w) := by
  have hchars : p.1.all wordChr = true := (Bool.and_eq_true_iff.mp (isWord_of_mem_keywords p hp)).2
  obtain ⟨rfl, v, hv⟩ := matchLen_keyword h
  rw [String.toList_ofList] at hv ⊢
  refine ⟨length_le_of_apart hv (List.all_eq_true.mp hchars) hr, fun hlen => ?_⟩
  exact (List.append_inj hv hlen.symm).1.symm

theorem identifier_word {w : CStr} (h : isWord w = true) : w ∈ identifier.lang := by
  unfold isWord at h
  rcases w with _ | ⟨a, t⟩
  · cases h
  rw [Bool.and_eq_true, List.all_cons, Bool.and_eq_true] at h
  refine (Re.mem_lang_seq _ _ _).mpr ⟨[a], ⟨a, rfl, h.1⟩, t, ?_, rfl⟩
  exact (Re.mem_lang_star_cls _ _ _).mpr (List.all_eq_true.mp h.2.2)

theorem wordChr_of_identifier {w : CStr} (h : w ∈ identifier.lang) : ∀ c ∈ w, wordChr c = true := by
  obtain ⟨u, ⟨a, rfl, ha⟩, t, ht, rfl⟩ := (Re.mem_lang_seq _ _ _).mp h
  intro c hc
  rcases List.mem_cons.mp hc with rfl | hc
  · unfold wordChr Re.inClass
    unfold Re.inClass at ha
    simp at ha ⊢
    rcases ha with ha | ha
    · exact .inl ha
    · exact .inr (.inl ha)
  · exact (Re.mem_lang_star_cls _ _ _).mp ht c hc

/-- The pattern for words takes the whole word. -/
theorem longest_identifier {w r : CStr} (h : isWord w = true) (hr : Apart r) :
    identifier.longest (w ++ r) = some w.length := by
  rw [Re.longest_eq_some_iff]
  refine ⟨⟨w, r, rfl, rfl, identifier_word h⟩, fun u v huv hu => ?_⟩
  exact length_le_of_apart huv (wordChr_of_identifier hu) hr

/-- A letter begins a word alone. -/
theorem dead_of_letter {a : Char} (h : letter a = true) :
    ∀ r ∈ [promptRule, newlineRule, numberRule, openQuote, commandRule], r.dead a = true := by
  have hne : ∀ c, letter c = false → Re.inClass false [(c, c)] a = false := by
    intro c hc
    rw [Re.inClass_singleton, Bool.bne_false, beq_eq_false_iff_ne]
    rintro rfl
    rw [h] at hc
    cases hc
  have hdigit : Re.inClass false [('0', '9')] a = false := by
    unfold letter Re.inClass at h
    unfold Re.inClass
    simp [Char.le_def, UInt32.le_iff_toNat_le] at h ⊢
    omega
  simp [Rule.dead, promptRule, newlineRule, newlinePattern, numberRule, openQuote, commandRule, miCommand,
    digits, Re.lit, Re.chr, Re.opt, Re.deriv, Re.nullable, Re.mkSeq, Re.mkAlt, hdigit,
    hne _ (show letter '(' = false from rfl), hne _ (show letter '\r' = false from rfl),
    hne _ (show letter '\n' = false from rfl), hne _ (show letter '"' = false from rfl),
    hne _ (show letter '-' = false from rfl)]

/-- The winner's action, for a text of which it takes the front. -/
theorem next_front {w r : CStr} {pos : Nat} {st : Start} {bol : Bool} {x : Rule Start Tok}
    (h : select ⟨pos, st, bol, w ++ r⟩ rules = some (x, w.length)) (hne : w ≠ []) :
    next rules ⟨pos, st, bol, w ++ r⟩ =
      some ((x.act w).1, ⟨pos + w.length, (x.act w).2, w.getLast? == some '\n', r⟩) := by
  rw [next_of_select h (List.length_pos_iff.mpr hne)]
  simp only [Config.advance, List.take_left, List.drop_left]

/-- What the rules behind the keywords make of a word. -/
theorem matchLen_word {w r : CStr} (h : isWord w = true) (hr : Apart r) (pos : Nat) (bol : Bool) :
    (∀ x ∈ [promptRule, newlineRule, numberRule], ∀ m,
      x.matchLen ⟨pos, .initial, bol, w ++ r⟩ = some m → m < w.length) ∧
    wordRule.matchLen ⟨pos, .initial, bol, w ++ r⟩ = some w.length ∧
    (∀ x ∈ [openQuote, commandRule, defaultRule], ∀ m,
      x.matchLen ⟨pos, .initial, bol, w ++ r⟩ = some m → m ≤ w.length) := by
  obtain ⟨a, t, hw⟩ : ∃ a t, w = a :: t := by
    cases w with
    | nil => cases h
    | cons a t => exact ⟨a, t, rfl⟩
  have hletter : letter a = true := by
    rw [hw] at h
    exact (Bool.and_eq_true_iff.mp h).1
  have hpos : 0 < w.length := by
    rw [hw]
    exact Nat.succ_pos _
  have hdead : ∀ x ∈ [promptRule, newlineRule, numberRule, openQuote, commandRule], ∀ m,
      x.matchLen ⟨pos, .initial, bol, w ++ r⟩ = some m → m < w.length := by
    intro x hx m hm
    have hrest : w ++ r = a :: (t ++ r) := by rw [hw]; rfl
    rw [matchLen_of_dead (c := ⟨pos, .initial, bol, w ++ r⟩) hrest (dead_of_letter hletter x hx) hm]
    exact hpos
  refine ⟨fun x hx m hm => hdead x ?_ m hm, (if_pos rfl).trans (longest_identifier h hr), fun x hx m hm => ?_⟩
  · simp only [List.mem_cons] at hx ⊢
    tauto
  · rcases List.mem_append.mp (show x ∈ [openQuote, commandRule] ++ [defaultRule] from hx) with hx | hx
    · refine (hdead x ?_ m hm).le
      simp only [List.mem_cons] at hx ⊢
      tauto
    · rw [List.mem_singleton.mp hx] at hm
      obtain ⟨⟨u, v, -, rfl, c, rfl, -⟩, -⟩ :=
        (Re.longest_eq_some_iff _ _ _).mp ((if_pos rfl).symm.trans hm)
      exact hpos

/-- A word is a keyword or an unquoted string. -/
theorem next_word {w r : CStr} (h : isWord w = true) (hr : Apart r) (pos : Nat) (bol : Bool) :
    ∃ bol', next rules ⟨pos, .initial, bol, w ++ r⟩ =
      some (some (wordTok w), ⟨pos + w.length, .initial, bol', r⟩) := by
  obtain ⟨hfront, hword, hback⟩ := matchLen_word h hr pos bol
  have hne : w ≠ [] := by
    rintro rfl
    cases h
  rcases hfind : keywords.find? (fun p => p.1 = w) with _ | p
  · -- no keyword is the word
    have hsel : select ⟨pos, .initial, bol, w ++ r⟩ rules = some (wordRule, w.length) := by
      have hrules : ∀ l : List (Rule Start Tok),
          l ++ [promptRule, newlineRule, numberRule, wordRule, openQuote, commandRule, defaultRule] =
            (l ++ [promptRule, newlineRule, numberRule]) ++ wordRule ::
              [openQuote, commandRule, defaultRule] := fun l => by simp
      rw [select_filter, rules_initial, hrules]
      refine select_of_best hword (fun x hx m hm => ?_) hback
      rcases List.mem_append.mp hx with hx | hx
      · obtain ⟨p, hp, rfl⟩ := List.mem_map.mp hx
        obtain ⟨hle, heq⟩ := matchLen_keyword_word hr hp hm
        refine lt_of_le_of_ne hle fun hm => ?_
        exact absurd (heq hm) (by simpa using List.find?_eq_none.mp hfind p hp)
      · exact hfront x hx m hm
    refine ⟨w.getLast? == some '\n', (next_front hsel hne).trans ?_⟩
    unfold wordTok
    rw [hfind]
    rfl
  · -- the first rule for the word wins
    obtain ⟨hp, pre, post, hkeywords, hpre⟩ := List.find?_eq_some_iff_append.mp hfind
    have hp : p.1 = w := by simpa using hp
    have hmem : ∀ q ∈ pre ++ p :: post, q ∈ keywords := fun q hq => hkeywords ▸ hq
    have hlen : (keyword (String.ofList p.1) p.2).matchLen ⟨pos, .initial, bol, w ++ r⟩ =
        some w.length := by
      refine (if_pos rfl).trans ?_
      rw [Re.longest_eq_some_iff]
      refine ⟨⟨w, r, rfl, rfl, ?_⟩, fun u v huv hu => ?_⟩
      · exact (Re.mem_lang_lit _ _).mpr (by rw [String.toList_ofList, hp])
      · have hu := (Re.mem_lang_lit _ _).mp hu
        rw [String.toList_ofList, hp] at hu
        rw [hu]
    have hsel : select ⟨pos, .initial, bol, w ++ r⟩ rules =
        some (keyword (String.ofList p.1) p.2, w.length) := by
      rw [select_filter, rules_initial, hkeywords, List.map_append, List.map_cons, List.append_assoc,
        List.cons_append]
      refine select_of_best hlen (fun x hx m hm => ?_) fun x hx m hm => ?_
      · obtain ⟨q, hq, rfl⟩ := List.mem_map.mp hx
        obtain ⟨hle, heq⟩ := matchLen_keyword_word hr (hmem q (List.mem_append_left _ hq)) hm
        refine lt_of_le_of_ne hle fun hm => ?_
        exact absurd (heq hm) (by simpa using hpre q hq)
      · rcases List.mem_append.mp hx with hx | hx
        · obtain ⟨q, hq, rfl⟩ := List.mem_map.mp hx
          exact (matchLen_keyword_word hr
            (hmem q (List.mem_append_right _ (List.mem_cons_of_mem _ hq))) hm).1
        · rcases List.mem_append.mp (show x ∈ [promptRule, newlineRule, numberRule] ++
            wordRule :: [openQuote, commandRule, defaultRule] from hx) with hx | hx
          · exact (hfront x hx m hm).le
          · rcases List.mem_cons.mp hx with rfl | hx
            · exact (Option.some.inj (hword.symm.trans hm)).ge
            · exact hback x hx m hm
    refine ⟨w.getLast? == some '\n', (next_front hsel hne).trans ?_⟩
    unfold wordTok
    rw [hfind]
    rfl

theorem lexes_word {w : CStr} (h : isWord w = true) : Lexes w [wordTok w] Apart :=
  lexes_of_next fun pos bol _ hr => next_word h hr pos bol

/-! ## Numbers -/

/-- What may follow the number in front of a line. -/
def BehindNumber (r : CStr) : Prop := ∃ c ∈ ['^', '*', '+', '='], r.head? = some c

/-- A digit begins a number, or a command. -/
theorem dead_of_digit {a : Char} (h : Re.inClass false [('0', '9')] a = true) :
    (∀ p ∈ keywords, (keyword (String.ofList p.1) p.2).dead a = true) ∧
      ∀ x ∈ [promptRule, newlineRule, wordRule, openQuote], x.dead a = true := by
  have hne : ∀ c, Re.inClass false [('0', '9')] c = false → Re.inClass false [(c, c)] a = false := by
    intro c hc
    rw [Re.inClass_singleton, Bool.bne_false, beq_eq_false_iff_ne]
    rintro rfl
    rw [h] at hc
    cases hc
  have hletter : Re.inClass false [('a', 'z'), ('A', 'Z')] a = false := by
    unfold Re.inClass at h
    unfold Re.inClass
    simp [Char.le_def, UInt32.le_iff_toNat_le] at h ⊢
    omega
  have hkeywords : ∀ p ∈ keywords, ∃ c s, p.1 = c :: s ∧ Re.inClass false [('0', '9')] c = false := by
    intro p hp
    have hall : ∀ p ∈ keywords, p.1.head?.any (fun c => !Re.inClass false [('0', '9')] c) = true := by
      decide +kernel
    obtain ⟨c, hc, hclass⟩ := (Option.any_eq_true _ _).mp (hall p hp)
    obtain ⟨s, hs⟩ := List.head?_eq_some_iff.mp hc
    exact ⟨c, s, hs, by simpa using hclass⟩
  refine ⟨fun p hp => ?_, ?_⟩
  · obtain ⟨c, s, hs, hc⟩ := hkeywords p hp
    simp [Rule.dead, keyword, hs, Re.lit, Re.chr, Re.deriv, Re.nullable, Re.mkSeq, hne c hc]
  · simp [Rule.dead, promptRule, newlineRule, newlinePattern, wordRule, identifier, openQuote,
      Re.lit, Re.chr, Re.opt, Re.deriv, Re.nullable, Re.mkSeq, Re.mkAlt, hletter,
      hne _ (show Re.inClass false [('0', '9')] '(' = false from rfl),
      hne _ (show Re.inClass false [('0', '9')] '\r' = false from rfl),
      hne _ (show Re.inClass false [('0', '9')] '\n' = false from rfl),
      hne _ (show Re.inClass false [('0', '9')] '"' = false from rfl)]

/-- The digits in front of a record are its number; they do not begin a command. -/
theorem next_digits {w r : CStr} (hne : w ≠ []) (h : ∀ c ∈ w, Re.inClass false [('0', '9')] c = true)
    (hr : BehindNumber r) (pos : Nat) (bol : Bool) :
    ∃ bol', next rules ⟨pos, .initial, bol, w ++ r⟩ =
      some (some (.number (atoi w)), ⟨pos + w.length, .initial, bol', r⟩) := by
  obtain ⟨d, hd, hhead⟩ := hr
  obtain ⟨r, rfl⟩ := List.head?_eq_some_iff.mp hhead
  have hdigit : Re.inClass false [('0', '9')] d = false := by
    simp only [List.mem_cons, List.not_mem_nil, or_false] at hd
    rcases hd with rfl | rfl | rfl | rfl <;> rfl
  have happart : ∀ c ∈ (d :: r).head?, Re.inClass false [('0', '9')] c = false := by
    intro c hc
    rw [← Option.mem_some.mp hc]
    exact hdigit
  obtain ⟨a, t, hw⟩ := List.exists_cons_of_ne_nil hne
  have ha : Re.inClass false [('0', '9')] a = true := h a (by rw [hw]; exact List.mem_cons_self)
  have hrest : w ++ d :: r = a :: (t ++ d :: r) := by rw [hw]; rfl
  have hpos : 0 < w.length := List.length_pos_iff.mpr hne
  obtain ⟨hkeywords, hgeneral⟩ := dead_of_digit ha
  have hnumber : numberRule.matchLen ⟨pos, .initial, bol, w ++ d :: r⟩ = some w.length := by
    refine (if_pos rfl).trans ?_
    rw [Re.longest_eq_some_iff]
    refine ⟨⟨w, d :: r, rfl, rfl, (Re.mem_lang_star_cls _ _ _).mpr h⟩, fun u v huv hu => ?_⟩
    exact length_le_of_apart huv ((Re.mem_lang_star_cls _ _ _).mp hu) happart
  have hcommand : ∀ m, commandRule.matchLen ⟨pos, .initial, bol, w ++ d :: r⟩ ≠ some m := by
    intro m hm
    unfold Rule.matchLen at hm
    split_ifs at hm
    obtain ⟨⟨u, v, huv, -, hu⟩, -⟩ := (Re.longest_eq_some_iff _ _ _).mp hm
    obtain ⟨ds, hds, x, hx, rfl⟩ := (Re.mem_lang_seq _ _ _).mp hu
    obtain ⟨dash, hdash, y, -, rfl⟩ := (Re.mem_lang_seq _ _ _).mp hx
    rw [(Re.mem_lang_chr _ _).mp hdash] at huv
    have hds := (Re.mem_lang_star_cls _ _ _).mp hds
    -- the digits end where the dash should be
    have heq : w ++ d :: r = ds ++ ('-' :: (y ++ v)) := by
      refine (show w ++ d :: r = _ from huv).trans ?_
      simp
    have hle := length_le_of_apart heq hds happart
    have hge := length_le_of_apart heq.symm h (by
      intro c hc
      rw [← Option.mem_some.mp hc]
      rfl)
    have hdash := (List.cons.inj (List.append_inj heq (le_antisymm hge hle)).2).1
    rw [hdash] at hd
    exact absurd hd (by decide)
  have hsel : select ⟨pos, .initial, bol, w ++ d :: r⟩ rules = some (numberRule, w.length) := by
    have hrules : ∀ l : List (Rule Start Tok),
        l ++ [promptRule, newlineRule, numberRule, wordRule, openQuote, commandRule, defaultRule] =
          (l ++ [promptRule, newlineRule]) ++ numberRule ::
            [wordRule, openQuote, commandRule, defaultRule] := fun l => by simp
    have hzero : ∀ x ∈ [promptRule, newlineRule, wordRule, openQuote], ∀ m,
        x.matchLen ⟨pos, .initial, bol, w ++ d :: r⟩ = some m → m < w.length := by
      intro x hx m hm
      rw [matchLen_of_dead (c := ⟨pos, .initial, bol, w ++ d :: r⟩) hrest (hgeneral x hx) hm]
      exact hpos
    rw [select_filter, rules_initial, hrules]
    refine select_of_best hnumber (fun x hx m hm => ?_) fun x hx m hm => ?_
    · rcases List.mem_append.mp hx with hx | hx
      · obtain ⟨p, hp, rfl⟩ := List.mem_map.mp hx
        rw [matchLen_of_dead (c := ⟨pos, .initial, bol, w ++ d :: r⟩) hrest (hkeywords p hp) hm]
        exact hpos
      · refine hzero x ?_ m hm
        simp only [List.mem_cons] at hx ⊢
        tauto
    · rcases List.mem_append.mp (show x ∈ [wordRule, openQuote] ++ [commandRule, defaultRule] from hx)
        with hx | hx
      · refine (hzero x ?_ m hm).le
        simp only [List.mem_cons] at hx ⊢
        tauto
      · rcases List.mem_cons.mp hx with rfl | hx
        · exact absurd hm (hcommand m)
        · rw [List.mem_singleton.mp hx] at hm
          obtain ⟨⟨u, v, -, rfl, c, rfl, -⟩, -⟩ :=
            (Re.longest_eq_some_iff _ _ _).mp ((if_pos rfl).symm.trans hm)
          exact hpos
  exact ⟨w.getLast? == some '\n', next_front hsel hne⟩

theorem lexes_number {w : CStr} (hne : w ≠ []) (h : ∀ c ∈ w, Re.inClass false [('0', '9')] c = true) :
    Lexes w [.number (atoi w)] BehindNumber :=
  lexes_of_next fun pos bol _ hr => next_digits hne h hr pos bol

/-! ## Quoted strings -/

/-- What stands between quotes and does not end them: the quotes in it are escaped, and the last
character does not escape the one behind it. -/
def isContent (prev : Bool) : CStr → Bool
  | [] => !prev
  | c :: s => (c != '"' || prev) && isContent (c == '\\') s

theorem strLen_of_isContent {prev : Bool} {s : CStr} (h : isContent prev s = true) (r : CStr) :
    strLen prev (s ++ '"' :: r) = s.length := by
  induction s generalizing prev with
  | nil =>
      unfold isContent at h
      simp [strLen, h]
  | cons c s ih =>
      unfold isContent at h
      rw [Bool.and_eq_true] at h
      have hc : (decide (c = '"') && !prev) = false := by
        have hor := h.1
        cases prev <;> simp_all
      rw [List.cons_append, strLen, hc, ih h.2]
      rfl

/-- The tokens of a quoted string. -/
def quotedTokens (s : CStr) : List Tok :=
  if s = [] then [.chr '"', .chr '"'] else [.chr '"', .string s, .chr '"']

theorem lexes_quoted {s : CStr} (h : isContent false s = true) :
    Lexes ('"' :: (s ++ ['"'])) (quotedTokens s) Anything where
  empty hnil := by
    unfold quotedTokens at hnil
    split at hnil <;> cases hnil
  steps pos bol r _ := by
    have htext : '"' :: (s ++ ['"']) ++ r = '"' :: (s ++ '"' :: r) := by simp
    have hlen : pos + ('"' :: (s ++ ['"'])).length = pos + 1 + s.length + 1 := by
      simp only [List.length_cons, List.length_append, List.length_nil]
      omega
    rw [htext, hlen]
    unfold quotedTokens
    by_cases hs : s = []
    · subst hs
      refine ⟨[(pos, .chr '"'), (pos + 1, .chr '"')], false, rfl, fun e he => ?_, ?_⟩
      · rw [← Option.mem_some.mp he]
      · exact Steps.head (next_open pos bol _) (Steps.head (next_close _ _ _) (Steps.refl _))
    · have hbody := strLen_of_isContent h r
      have hstring := next_string (pos + 1) false (s := s ++ '"' :: r)
        (by rw [hbody]; exact List.length_pos_iff.mpr hs)
      rw [hbody, List.take_left, Config.advance, List.drop_left] at hstring
      refine ⟨[(pos, .chr '"'), (pos + 1, .string s), (pos + 1 + s.length, .chr '"')], false, ?_,
        fun e he => ?_, ?_⟩
      · rw [if_neg hs]
        rfl
      · rw [← Option.mem_some.mp he]
      · exact Steps.head (next_open pos bol _)
          (Steps.head hstring (Steps.head (next_close _ _ r) (Steps.refl _)))

end Vimgdb.Gdb
