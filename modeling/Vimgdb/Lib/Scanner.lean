import Vimgdb.Lib.Regex

/-!
# Scanners: rules, longest match, start conditions

A scanner is a list of rules.  In a start condition the rules of that condition compete; the one with
the longest match wins, the first one among equals.

* `Rule`, `select`: the competition; `select_spec` and `select_of_best` state who wins.
* `Config`, `next`: one token.  `next` fails at the end of the text.
* `next_of_single`: who wins can be read off the first character.
* `Steps`, `lex`: the tokens of a text with their positions; `Steps.lex` and `lex_steps` tie the
  relation to the function.
* `Rule.relabel`, `lex_relabel`: the same scanner with other tokens.
* `next_append`: what follows the text does not matter for a token whose candidates cannot reach
  beyond the text.
-/

namespace Flex

variable {St Tok : Type}

/-! ## Rules -/

/-- A rule: the start condition it belongs to, whether it needs the beginning of a line, its
pattern, and the returned token (if any) and the next start condition, for a matched text. -/
structure Rule (St Tok : Type) where
  start : St
  bol : Bool := false
  re : Re
  act : List Char → Option Tok × St

/-- The state of a scan: the offset, the start condition, whether the scan stands at the beginning
of a line, and the text ahead. -/
structure Config (St : Type) where
  pos : Nat
  st : St
  bol : Bool
  rest : List Char

/-- The text ahead is followed by `t`. -/
def Config.append (c : Config St) (t : List Char) : Config St := { c with rest := c.rest ++ t }

/-- The scan after a match of `n` characters. -/
def Config.advance (c : Config St) (n : Nat) (st : St) : Config St where
  pos := c.pos + n
  st := st
  bol := (c.rest.take n).getLast? == some '\n'
  rest := c.rest.drop n

variable [DecidableEq St]

/-- Does the rule take part in the competition? -/
def Rule.active (c : Config St) (r : Rule St Tok) : Bool :=
  decide (r.start = c.st) && (!r.bol || c.bol)

/-- The length of the rule's match. -/
def Rule.matchLen (c : Config St) (r : Rule St Tok) : Option Nat :=
  if r.active c then r.re.longest c.rest else none

/-- The rule with the longest match, the first one among equals. -/
def select (c : Config St) : List (Rule St Tok) → Option (Rule St Tok × Nat)
  | [] => none
  | r :: rules =>
      match r.matchLen c, select c rules with
      | none, best => best
      | some n, none => some (r, n)
      | some n, some (r', n') => if n < n' then some (r', n') else some (r, n)

/-- One token: the winning rule is executed.  A match of length 0 cannot win against the default
rule, which these scanners never need. -/
def next (rules : List (Rule St Tok)) (c : Config St) : Option (Option Tok × Config St) :=
  match select c rules with
  | none => none
  | some (_, 0) => none
  | some (r, n + 1) =>
      let a := r.act (c.rest.take (n + 1))
      some (a.1, c.advance (n + 1) a.2)

/-! ## The winning rule -/

theorem select_eq_none_iff (c : Config St) (rules : List (Rule St Tok)) :
    select c rules = none ↔ ∀ r ∈ rules, r.matchLen c = none := by
  induction rules with
  | nil => simp [select]
  | cons r rules ih =>
      rw [List.forall_mem_cons, ← ih, select]
      cases hr : r.matchLen c with
      | none => simp
      | some n =>
          cases hsel : select c rules with
          | none => simp
          | some best => dsimp only; split_ifs <;> simp

/-- The winner is one of the rules, and nobody has a longer match. -/
theorem select_spec {c : Config St} {rules : List (Rule St Tok)} {r : Rule St Tok} {n : Nat}
    (h : select c rules = some (r, n)) :
    r ∈ rules ∧ r.matchLen c = some n ∧ ∀ r' ∈ rules, ∀ m, r'.matchLen c = some m → m ≤ n := by
  induction rules generalizing r n with
  | nil => simp [select] at h
  | cons x rules ih =>
      unfold select at h
      split at h
      · next best hx =>
          obtain ⟨hmem, hlen, hmax⟩ := ih h
          refine ⟨List.mem_cons_of_mem _ hmem, hlen, fun r' hr' m hm => ?_⟩
          rcases List.mem_cons.mp hr' with rfl | hr'
          · rw [hx] at hm; cases hm
          · exact hmax r' hr' m hm
      · next k hx hnone =>
          cases h
          refine ⟨List.mem_cons_self, hx, fun r' hr' m hm => ?_⟩
          rcases List.mem_cons.mp hr' with rfl | hr'
          · rw [hx] at hm; cases hm; exact le_rfl
          · rw [(select_eq_none_iff c rules).mp hnone r' hr'] at hm; cases hm
      · next k r₂ k₂ hx hsel =>
          obtain ⟨hmem, hlen, hmax⟩ := ih hsel
          split_ifs at h with hlt <;> cases h
          · refine ⟨List.mem_cons_of_mem _ hmem, hlen, fun r' hr' m hm => ?_⟩
            rcases List.mem_cons.mp hr' with rfl | hr'
            · rw [hx] at hm; cases hm; omega
            · exact hmax r' hr' m hm
          · refine ⟨List.mem_cons_self, hx, fun r' hr' m hm => ?_⟩
            rcases List.mem_cons.mp hr' with rfl | hr'
            · rw [hx] at hm; cases hm; exact le_rfl
            · exact (hmax r' hr' m hm).trans (Nat.not_lt.mp hlt)

/-- A rule that beats the rules before it and is not beaten by those behind it wins. -/
theorem select_of_best {c : Config St} {pre post : List (Rule St Tok)} {r : Rule St Tok} {n : Nat}
    (hr : r.matchLen c = some n) (hpre : ∀ r' ∈ pre, ∀ m, r'.matchLen c = some m → m < n)
    (hpost : ∀ r' ∈ post, ∀ m, r'.matchLen c = some m → m ≤ n) :
    select c (pre ++ r :: post) = some (r, n) := by
  induction pre with
  | nil =>
      rw [List.nil_append, select, hr]
      cases hsel : select c post with
      | none => rfl
      | some w =>
          obtain ⟨hmem, hlen, -⟩ := select_spec hsel
          simp only [if_neg (Nat.not_lt.mpr (hpost _ hmem _ hlen))]
  | cons x pre ih =>
      have ih := ih fun r' hr' => hpre r' (List.mem_cons_of_mem _ hr')
      rw [List.cons_append, select, ih]
      cases hx : x.matchLen c with
      | none => rfl
      | some m => simp only [if_pos (hpre x List.mem_cons_self m hx)]

/-- The competition depends on the match lengths only. -/
theorem select_congr {c c' : Config St} {rules : List (Rule St Tok)}
    (h : ∀ r ∈ rules, r.matchLen c = r.matchLen c') : select c rules = select c' rules := by
  induction rules with
  | nil => rfl
  | cons r rules ih =>
      rw [select, select, h r List.mem_cons_self,
        ih fun r' hr' => h r' (List.mem_cons_of_mem _ hr')]

theorem matchLen_le {c : Config St} {r : Rule St Tok} {n : Nat} (h : r.matchLen c = some n) :
    n ≤ c.rest.length := by
  unfold Rule.matchLen at h
  split_ifs at h
  exact Re.longest_le h

/-- The winner matches what is taken. -/
theorem select_mem_lang {c : Config St} {rules : List (Rule St Tok)} {r : Rule St Tok} {n : Nat}
    (h : select c rules = some (r, n)) : c.rest.take n ∈ r.re.lang := by
  have hlen := (select_spec h).2.1
  unfold Rule.matchLen at hlen
  split_ifs at hlen
  obtain ⟨⟨u, v, hrest, rfl, hu⟩, -⟩ := (Re.longest_eq_some_iff _ _ _).mp hlen
  rw [hrest, List.take_left]
  exact hu

/-! ## One token -/

/-- The winner's action is executed. -/
theorem next_of_select {rules : List (Rule St Tok)} {c : Config St} {r : Rule St Tok} {n : Nat}
    (h : select c rules = some (r, n)) (hn : 0 < n) :
    next rules c = some ((r.act (c.rest.take n)).1, c.advance n (r.act (c.rest.take n)).2) := by
  obtain ⟨n, rfl⟩ := Nat.exists_eq_succ_of_ne_zero hn.ne'
  rw [next, h]

/-- A token comes from the winning rule and consumes at least one character. -/
theorem next_spec {rules : List (Rule St Tok)} {c c' : Config St} {tok : Option Tok}
    (h : next rules c = some (tok, c')) :
    ∃ r n, select c rules = some (r, n) ∧ 0 < n ∧ n ≤ c.rest.length ∧
      tok = (r.act (c.rest.take n)).1 ∧ c' = c.advance n (r.act (c.rest.take n)).2 := by
  unfold next at h
  split at h
  · cases h
  · cases h
  · next r n hsel =>
      cases h
      exact ⟨r, n + 1, hsel, Nat.succ_pos n, matchLen_le (select_spec hsel).2.1, rfl, rfl⟩

theorem next_rest_lt {rules : List (Rule St Tok)} {c c' : Config St} {tok : Option Tok}
    (h : next rules c = some (tok, c')) : c'.rest.length < c.rest.length := by
  obtain ⟨r, n, -, hpos, hle, -, rfl⟩ := next_spec h
  simp only [Config.advance, List.length_drop]
  omega

/-- A token is read when some rule has a nonempty match. -/
theorem next_isSome_of_mem {rules : List (Rule St Tok)} {c : Config St} {r : Rule St Tok} {n : Nat}
    (hmem : r ∈ rules) (hr : r.matchLen c = some n) (hn : 0 < n) :
    (next rules c).isSome = true := by
  cases hsel : select c rules with
  | none =>
      rw [(select_eq_none_iff c rules).mp hsel r hmem] at hr
      cases hr
  | some w =>
      have hle := (select_spec hsel).2.2 r hmem n hr
      rw [next_of_select hsel (by omega)]
      rfl

/-- Nothing is read at the end of the text. -/
theorem next_of_rest_nil (rules : List (Rule St Tok)) {c : Config St} (h : c.rest = []) :
    next rules c = none := by
  cases hnext : next rules c with
  | none => rfl
  | some p =>
      have hlt : p.2.rest.length < c.rest.length := next_rest_lt hnext
      simp [h] at hlt

/-- A token does not see what follows the text, when no rule can match beyond the text. -/
theorem next_append {rules : List (Rule St Tok)} {c : Config St} {t : List Char}
    (h : ∀ r ∈ rules, r.active c = true → r.re.longest (c.rest ++ t) = r.re.longest c.rest) :
    next rules (c.append t) = (next rules c).map fun p => (p.1, p.2.append t) := by
  have hsel : select (c.append t) rules = select c rules := by
    apply select_congr
    intro r hr
    have hactive : r.active (c.append t) = r.active c := rfl
    unfold Rule.matchLen
    rw [hactive]
    split_ifs with ha
    · exact h r hr ha
    · rfl
  unfold next
  rw [hsel]
  cases hbest : select c rules with
  | none => rfl
  | some w =>
      obtain ⟨r, n⟩ := w
      have hle : n ≤ c.rest.length := matchLen_le (select_spec hbest).2.1
      cases n with
      | zero => rfl
      | succ n =>
          have htake : (c.rest ++ t).take (n + 1) = c.rest.take (n + 1) :=
            List.take_append_of_le_length hle
          simp only [Config.append, htake, Config.advance, Option.map_some,
            List.drop_append_of_le_length hle]

/-- A token that lies inside the text ahead is read whatever follows the text. -/
theorem next_of_append {rules : List (Rule St Tok)} {c c' : Config St} {t : List Char}
    {tok : Option Tok} (h : next rules (c.append t) = some (tok, c'))
    (hpos : c'.pos ≤ c.pos + c.rest.length) :
    ∃ c₁, c' = c₁.append t ∧ next rules c = some (tok, c₁) := by
  obtain ⟨r, n, hsel, hn, -, rfl, rfl⟩ := next_spec h
  have hle : n ≤ c.rest.length := by simpa [Config.advance, Config.append] using hpos
  have hmax := (select_spec hsel).2.2
  have hsel' : select c rules = some (r, n) := by
    rw [← hsel]
    refine select_congr fun r' hr' => ?_
    unfold Rule.matchLen
    rw [show r'.active (c.append t) = r'.active c from rfl]
    split_ifs with hactive
    · refine Re.longest_of_append fun m hm => (hmax r' hr' m ?_).trans hle
      rw [Rule.matchLen, show r'.active (c.append t) = r'.active c from rfl, if_pos hactive]
      exact hm
    · rfl
  have htake : (c.rest ++ t).take n = c.rest.take n := List.take_append_of_le_length hle
  have hrest : (c.append t).rest = c.rest ++ t := rfl
  rw [hrest, htake]
  refine ⟨_, ?_, next_of_select hsel' hn⟩
  simp only [Config.append, Config.advance, htake, List.drop_append_of_le_length hle]

/-! ## Candidates by the first character -/

/-- Rules of other start conditions do not compete. -/
theorem select_filter (c : Config St) (rules : List (Rule St Tok)) :
    select c rules = select c (rules.filter fun r => decide (r.start = c.st)) := by
  induction rules with
  | nil => rfl
  | cons r rules ih =>
      by_cases hst : r.start = c.st
      · rw [List.filter_cons_of_pos (by simpa using hst), select, select, ih]
      · have hnone : r.matchLen c = none := by simp [Rule.matchLen, Rule.active, hst]
        rw [List.filter_cons_of_neg (by simpa using hst), select, hnone, ← ih]

/-- No nonempty match begins with `a`. -/
def Rule.dead (a : Char) (r : Rule St Tok) : Bool := decide (r.re.deriv a = .zero)

/-- A nonempty match that begins with `a` is that character. -/
def Rule.single (a : Char) (r : Rule St Tok) : Bool :=
  decide (r.re.deriv a = .zero ∨ r.re.deriv a = .eps)

theorem matchLen_of_dead {c : Config St} {r : Rule St Tok} {a : Char} {s : List Char} {n : Nat}
    (hrest : c.rest = a :: s) (h : r.dead a = true) (hn : r.matchLen c = some n) : n = 0 := by
  rw [Rule.dead, decide_eq_true_eq] at h
  rw [Rule.matchLen, hrest, Re.longest_cons, h, Re.longest_zero] at hn
  simp only [Option.ite_none_right_eq_some, Option.some.injEq] at hn
  exact hn.2.2.symm

theorem matchLen_of_single {c : Config St} {r : Rule St Tok} {a : Char} {s : List Char} {n : Nat}
    (hrest : c.rest = a :: s) (h : r.single a = true) (hn : r.matchLen c = some n) : n ≤ 1 := by
  rw [Rule.single, decide_eq_true_eq] at h
  rcases h with h | h
  · have := matchLen_of_dead hrest (decide_eq_true h) hn
    omega
  · rw [Rule.matchLen, hrest, Re.longest_cons, h, Re.longest_eps] at hn
    simp only [Option.ite_none_right_eq_some, Option.some.injEq] at hn
    omega

theorem matchLen_of_eps {c : Config St} {r : Rule St Tok} {a : Char} {s : List Char}
    (hrest : c.rest = a :: s) (hactive : r.active c = true) (h : r.re.deriv a = .eps) :
    r.matchLen c = some 1 := by
  rw [Rule.matchLen, if_pos hactive, hrest, Re.longest_cons, h, Re.longest_eps]

/-- A rule for the single character `a` wins when no rule before it can start with `a`, and no rule
behind it can go on after `a`. -/
theorem next_of_single {rules pre post : List (Rule St Tok)} {r : Rule St Tok} {st : St}
    (hrules : rules.filter (fun r => decide (r.start = st)) = pre ++ r :: post) {a : Char}
    (hbol : r.bol = false) (hr : r.re.deriv a = .eps) (hpre : pre.all (Rule.dead a) = true)
    (hpost : post.all (Rule.single a) = true) (pos : Nat) (bol : Bool) (s : List Char) :
    next rules ⟨pos, st, bol, a :: s⟩ =
      some ((r.act [a]).1, ⟨pos + 1, (r.act [a]).2, a == '\n', s⟩) := by
  have hmem : r ∈ rules.filter (fun r => decide (r.start = st)) := by simp [hrules]
  have hactive : r.active ⟨pos, st, bol, a :: s⟩ = true := by
    simpa [Rule.active, hbol] using (List.mem_filter.mp hmem).2
  have hsel : select ⟨pos, st, bol, a :: s⟩ rules = some (r, 1) := by
    rw [select_filter, hrules]
    refine select_of_best (matchLen_of_eps rfl hactive hr) (fun r' hr' m hm => ?_)
      fun r' hr' m hm => ?_
    · have := matchLen_of_dead rfl (List.all_eq_true.mp hpre r' hr') hm
      omega
    · exact matchLen_of_single rfl (List.all_eq_true.mp hpost r' hr') hm
  rw [next_of_select hsel Nat.one_pos]
  simp [Config.advance]

/-! ## All tokens of a text -/

/-- The token returned at `pos`, if any. -/
def tokenAt (pos : Nat) (tok : Option Tok) : List (Nat × Tok) := tok.toList.map fun t => (pos, t)

/-- Some tokens of the text ahead, up to a later state of the scan. -/
inductive Steps (rules : List (Rule St Tok)) : Config St → List (Nat × Tok) → Config St → Prop
  | refl (c : Config St) : Steps rules c [] c
  | head {c c' c'' : Config St} {tok : Option Tok} {toks : List (Nat × Tok)} :
      next rules c = some (tok, c') → Steps rules c' toks c'' →
      Steps rules c (tokenAt c.pos tok ++ toks) c''

/-- The scan with a bound on the number of tokens. -/
def lexFuel (rules : List (Rule St Tok)) : Nat → Config St → List (Nat × Tok) × Config St
  | 0, c => ([], c)
  | fuel + 1, c =>
      match next rules c with
      | none => ([], c)
      | some (tok, c') =>
          let r := lexFuel rules fuel c'
          (tokenAt c.pos tok ++ r.1, r.2)

/-- The tokens of the text ahead, each with its offset, and the state at the end of the scan.
Every token takes a character, so the length of the text bounds their number. -/
def lex (rules : List (Rule St Tok)) (c : Config St) : List (Nat × Tok) × Config St :=
  lexFuel rules c.rest.length c

theorem lexFuel_eq {rules : List (Rule St Tok)} {fuel fuel' : Nat} {c : Config St}
    (h : c.rest.length ≤ fuel) (h' : c.rest.length ≤ fuel') :
    lexFuel rules fuel c = lexFuel rules fuel' c := by
  induction fuel generalizing fuel' c with
  | zero =>
      have hnone : next rules c = none := by
        cases hnext : next rules c with
        | none => rfl
        | some p =>
            have hlt : p.2.rest.length < c.rest.length := next_rest_lt hnext
            omega
      cases fuel' with
      | zero => rfl
      | succ fuel' => simp [lexFuel, hnone]
  | succ fuel ih =>
      cases fuel' with
      | zero =>
          have hnone : next rules c = none := by
            cases hnext : next rules c with
            | none => rfl
            | some p =>
                have hlt : p.2.rest.length < c.rest.length := next_rest_lt hnext
                omega
          simp [lexFuel, hnone]
      | succ fuel' =>
          unfold lexFuel
          cases hnext : next rules c with
          | none => rfl
          | some p =>
              obtain ⟨tok, c'⟩ := p
              have hlt := next_rest_lt hnext
              have hrest : lexFuel rules fuel c' = lexFuel rules fuel' c' := ih (by omega) (by omega)
              simp only [hrest]

theorem lex_of_none {rules : List (Rule St Tok)} {c : Config St} (h : next rules c = none) :
    lex rules c = ([], c) := by
  unfold lex
  cases c.rest.length with
  | zero => rfl
  | succ n => rw [lexFuel, h]

theorem lex_of_some {rules : List (Rule St Tok)} {c c' : Config St} {tok : Option Tok}
    (h : next rules c = some (tok, c')) :
    lex rules c = (tokenAt c.pos tok ++ (lex rules c').1, (lex rules c').2) := by
  have hlt := next_rest_lt h
  obtain ⟨n, hn⟩ := Nat.exists_eq_succ_of_ne_zero (n := c.rest.length) (by omega)
  rw [lex, hn, lexFuel, h]
  have hrest : lexFuel rules n c' = lexFuel rules c'.rest.length c' :=
    lexFuel_eq (by omega) le_rfl
  simp only [lex, hrest]

/-- What was scanned first comes first. -/
theorem Steps.lex {rules : List (Rule St Tok)} {c c' : Config St} {toks : List (Nat × Tok)}
    (h : Steps rules c toks c') :
    Flex.lex rules c = (toks ++ (Flex.lex rules c').1, (Flex.lex rules c').2) := by
  induction h with
  | refl => rfl
  | head hnext _ ih => rw [lex_of_some hnext, ih, List.append_assoc]

theorem Steps.trans {rules : List (Rule St Tok)} {c c' c'' : Config St}
    {toks toks' : List (Nat × Tok)} (h : Steps rules c toks c') (h' : Steps rules c' toks' c'') :
    Steps rules c (toks ++ toks') c'' := by
  induction h with
  | refl => exact h'
  | head hnext _ ih =>
      rw [List.append_assoc]
      exact Steps.head hnext (ih h')

/-- The whole scan is a sequence of tokens. -/
theorem lex_steps (rules : List (Rule St Tok)) (c : Config St) :
    Steps rules c (lex rules c).1 (lex rules c).2 := by
  cases hnext : next rules c with
  | none => rw [lex_of_none hnext]; exact Steps.refl c
  | some p =>
      obtain ⟨tok, c'⟩ := p
      have hlt := next_rest_lt hnext
      rw [lex_of_some hnext]
      exact Steps.head hnext (lex_steps rules c')
termination_by c.rest.length

/-- The text between two states of a scan. -/
theorem Steps.pos {rules : List (Rule St Tok)} {c c' : Config St} {toks : List (Nat × Tok)}
    (h : Steps rules c toks c') :
    ∃ u, c.rest = u ++ c'.rest ∧ c'.pos = c.pos + u.length := by
  induction h with
  | refl c => exact ⟨[], rfl, rfl⟩
  | @head c _ _ _ _ hnext _ ih =>
      obtain ⟨u, hu, hpos⟩ := ih
      obtain ⟨r, n, -, -, hle, -, rfl⟩ := next_spec hnext
      simp only [Config.advance] at hu hpos
      refine ⟨c.rest.take n ++ u, ?_, ?_⟩
      · rw [List.append_assoc, ← hu, List.take_append_drop]
      · rw [hpos, List.length_append, List.length_take]
        omega

/-- At the end of the scan nothing more is read. -/
theorem next_lex (rules : List (Rule St Tok)) (c : Config St) : next rules (lex rules c).2 = none := by
  cases hnext : next rules c with
  | none => rw [lex_of_none hnext, hnext]
  | some p =>
      obtain ⟨tok, c'⟩ := p
      have hlt := next_rest_lt hnext
      rw [lex_of_some hnext]
      exact next_lex rules c'
termination_by c.rest.length

/-- The scan stands at the beginning of a line iff the text read ends with a newline. -/
theorem Steps.bol {rules : List (Rule St Tok)} {c c' : Config St} {toks : List (Nat × Tok)}
    (h : Steps rules c toks c') :
    ∃ u, c.rest = u ++ c'.rest ∧ c'.pos = c.pos + u.length ∧
      (u = [] → c' = c) ∧ (u ≠ [] → c'.bol = (u.getLast? == some '\n')) := by
  induction h with
  | refl c => exact ⟨[], rfl, rfl, fun _ => rfl, fun h => absurd rfl h⟩
  | @head c c₁ c₂ _ _ hnext _ ih =>
      obtain ⟨w, hw, hpos, hnil, hbol⟩ := ih
      obtain ⟨r, n, -, hn, hle, -, hc₁⟩ := next_spec hnext
      have hlen : (c.rest.take n).length = n := List.length_take_of_le hle
      have hne : c.rest.take n ≠ [] := List.length_pos_iff.mp (by omega)
      refine ⟨c.rest.take n ++ w, ?_, ?_, fun h => absurd (List.append_eq_nil_iff.mp h).1 hne,
        fun _ => ?_⟩
      · rw [List.append_assoc, ← hw, hc₁, Config.advance, List.take_append_drop]
      · have hpos₁ : c₁.pos = c.pos + n := by rw [hc₁, Config.advance]
        rw [hpos, hpos₁, List.length_append, hlen, Nat.add_assoc]
      · by_cases hw' : w = []
        · rw [hnil hw', hc₁, hw', List.append_nil, Config.advance]
        · rw [hbol hw', List.getLast?_append_of_ne_nil _ hw']

/-- A scan can be cut between any two tokens. -/
theorem Steps.split {rules : List (Rule St Tok)} {c c' : Config St} {toks toks' : List (Nat × Tok)}
    (h : Steps rules c (toks ++ toks') c') :
    ∃ d, Steps rules c toks d ∧ Steps rules d toks' c' := by
  generalize hall : toks ++ toks' = all at h
  induction h generalizing toks with
  | refl c =>
      obtain ⟨rfl, rfl⟩ := List.append_eq_nil_iff.mp hall
      exact ⟨c, Steps.refl c, Steps.refl c⟩
  | @head c c₁ c₂ tok rest hnext hsteps ih =>
      cases toks with
      | nil =>
          rw [List.nil_append] at hall
          exact ⟨c, Steps.refl c, hall ▸ Steps.head hnext hsteps⟩
      | cons e toks =>
          cases tok with
          | none =>
              obtain ⟨d, hd, hd'⟩ := ih hall
              exact ⟨d, Steps.head hnext hd, hd'⟩
          | some t =>
              obtain ⟨rfl, htoks⟩ := List.cons.inj hall
              obtain ⟨d, hd, hd'⟩ := ih htoks
              exact ⟨d, Steps.head hnext hd, hd'⟩

/-- Tokens that lie inside the text ahead are read whatever follows the text. -/
theorem Steps.of_append {rules : List (Rule St Tok)} {c d : Config St} {t : List Char}
    {toks : List (Nat × Tok)} (h : Steps rules (c.append t) toks d)
    (hpos : d.pos ≤ c.pos + c.rest.length) :
    ∃ c₁, d = c₁.append t ∧ Steps rules c toks c₁ := by
  generalize hc : c.append t = b at h
  induction h generalizing c with
  | refl _ => exact ⟨c, hc.symm, Steps.refl c⟩
  | head hnext hsteps ih =>
      subst hc
      obtain ⟨u, -, hd⟩ := hsteps.pos
      obtain ⟨c₁, rfl, hnext'⟩ := next_of_append hnext (by omega)
      obtain ⟨r, n, -, -, hle, -, hadv⟩ := next_spec hnext'
      have hin : c₁.pos + c₁.rest.length = c.pos + c.rest.length := by
        rw [hadv]
        simp only [Config.advance, List.length_drop]
        omega
      obtain ⟨c₂, hd, hsteps'⟩ := ih (by omega) rfl
      exact ⟨c₂, hd, Steps.head hnext' hsteps'⟩

/-! ## Other tokens -/

variable {Tok' : Type}

/-- The rule with another token, which may depend on the matched text. -/
def Rule.relabel (f : List Char → Tok → Tok') (r : Rule St Tok) : Rule St Tok' where
  start := r.start
  bol := r.bol
  re := r.re
  act text := ((r.act text).1.map (f text), (r.act text).2)

/-- The competition does not see the tokens. -/
theorem select_relabel (f : List Char → Tok → Tok') (c : Config St) (rules : List (Rule St Tok)) :
    select c (rules.map (Rule.relabel f)) = (select c rules).map fun p => (p.1.relabel f, p.2) := by
  induction rules with
  | nil => rfl
  | cons r rules ih =>
      have hlen : (r.relabel f).matchLen c = r.matchLen c := rfl
      rw [List.map_cons, select, select, ih, hlen]
      cases r.matchLen c with
      | none => rfl
      | some n =>
          cases select c rules with
          | none => rfl
          | some best =>
              obtain ⟨r', n'⟩ := best
              dsimp only [Option.map_some]
              split <;> rfl

/-- Tokens that lead back to those of the scanner are the tokens of the other scanner. -/
theorem lex_relabel {rules : List (Rule St Tok)} {f : List Char → Tok → Tok'} {g : Tok' → Tok}
    (h : ∀ c r n t, select c rules = some (r, n) → (r.act (c.rest.take n)).1 = some t →
      g (f (c.rest.take n) t) = t) (c : Config St) :
    (lex (rules.map (Rule.relabel f)) c).1.map (fun p => (p.1, g p.2)) = (lex rules c).1 := by
  unfold lex
  generalize c.rest.length = fuel
  induction fuel generalizing c with
  | zero => rfl
  | succ fuel ih =>
      unfold lexFuel
      cases hsel : select c rules with
      | none =>
          have hnext : next rules c = none := by rw [next, hsel]
          have hnext' : next (rules.map (Rule.relabel f)) c = none := by
            rw [next, select_relabel, hsel]
            rfl
          rw [hnext, hnext']
          rfl
      | some best =>
          obtain ⟨r, n⟩ := best
          have hsel' : select c (rules.map (Rule.relabel f)) = some (r.relabel f, n) := by
            rw [select_relabel, hsel]
            rfl
          cases n with
          | zero =>
              have hnext : next rules c = none := by rw [next, hsel]
              have hnext' : next (rules.map (Rule.relabel f)) c = none := by rw [next, hsel']
              rw [hnext, hnext']
              rfl
          | succ n =>
              rw [next_of_select hsel n.succ_pos, next_of_select hsel' n.succ_pos]
              dsimp only
              rw [List.map_append, ih]
              congr 1
              have hact : ((r.relabel f).act (c.rest.take (n + 1))).1 =
                  (r.act (c.rest.take (n + 1))).1.map (f (c.rest.take (n + 1))) := rfl
              rw [hact]
              cases ht : (r.act (c.rest.take (n + 1))).1 with
              | none => rfl
              | some t =>
                  show [(c.pos, g (f (c.rest.take (n + 1)) t))] = [(c.pos, t)]
                  rw [h c r (n + 1) t hsel ht]

/-! ## Moving a scan -/

/-- The same text `k` characters further on. -/
def Config.shift (k : Nat) (c : Config St) : Config St := { c with pos := c.pos + k }

/-- The same tokens `k` characters further on. -/
def shiftToks (k : Nat) (toks : List (Nat × Tok)) : List (Nat × Tok) :=
  toks.map fun p => (p.1 + k, p.2)

theorem next_shift {rules : List (Rule St Tok)} {c c' : Config St} {tok : Option Tok}
    (h : next rules c = some (tok, c')) (k : Nat) :
    next rules (c.shift k) = some (tok, c'.shift k) := by
  obtain ⟨r, n, hsel, hn, -, rfl, rfl⟩ := next_spec h
  have hsel' : select (c.shift k) rules = some (r, n) := by
    rw [← hsel]
    exact select_congr fun _ _ => rfl
  rw [next_of_select hsel' hn]
  simp only [Config.shift, Config.advance, Nat.add_right_comm]

/-- A scan does not see its offset. -/
theorem Steps.shift {rules : List (Rule St Tok)} {c c' : Config St} {toks : List (Nat × Tok)}
    (h : Steps rules c toks c') (k : Nat) :
    Steps rules (c.shift k) (shiftToks k toks) (c'.shift k) := by
  induction h with
  | refl => exact Steps.refl _
  | @head c _ _ tok _ hnext _ ih =>
      have htok : shiftToks k (tokenAt c.pos tok) = tokenAt (c.shift k).pos tok := by
        cases tok <;> rfl
      rw [shiftToks, List.map_append, ← shiftToks, ← shiftToks, htok]
      exact Steps.head (next_shift hnext k) ih

/-- The tokens lie between the two states. -/
theorem Steps.mem_pos {rules : List (Rule St Tok)} {c c' : Config St} {toks : List (Nat × Tok)}
    (h : Steps rules c toks c') {p : Nat × Tok} (hp : p ∈ toks) : c.pos ≤ p.1 ∧ p.1 < c'.pos := by
  induction h with
  | refl => cases hp
  | @head c c₁ _ tok _ hnext hsteps ih =>
      obtain ⟨r, n, -, hn, -, -, rfl⟩ := next_spec hnext
      obtain ⟨u, -, hpos⟩ := hsteps.pos
      simp only [Config.advance] at hpos ih
      rcases List.mem_append.mp hp with hp | hp
      · cases tok with
        | none => cases hp
        | some t =>
            obtain rfl := List.mem_singleton.mp hp
            simp only
            omega
      · have := ih hp
        omega

end Flex
