import Vimgdb.Gdb.FrameFields
import Vimgdb.Gdb.Trees

/-!
# Entries

A tuple describes an object: each of its results enters a value, in the order in which they are printed.
The bodies of the grammar read them so from their tokens.

* `Value.str`, `Value.num`, …: what a value says.
* `enterAll`: entries are entered one after the other.
* `Matches`: a rule of the parser reads an entry as it should be entered.
* `Settles`: a body is read as it should be, or something is left that cannot follow it.
* `settles_fields`, `settles_values`: the bodies for results and for values.
-/

namespace Vimgdb.Gdb

open Flex Lexing

/-! ## Values -/

/-- The string a value is. -/
def Value.str : Value → Outcome CStr
  | .const s => .accepted s
  | _ => .rejected

def Value.num (v : Value) : Outcome (BitVec 32) := v.str.map atoi

def Value.hex (v : Value) : Outcome (BitVec 64) := v.str.map strtollHex

def Value.bool (v : Value) : Outcome Bool := v.str.map fun
  | 't' :: _ | 'y' :: _ => true
  | _ => false

/-- The value is a tuple. -/
def Value.tuple? {α : Type} (read : List (CStr × Value) → Outcome α) : Value → Outcome α
  | .tuple fs => read fs
  | _ => .rejected

/-- The value is a list of values; an empty list looks like an empty list of results. -/
def Value.list? {α : Type} (read : List Value → Outcome α) : Value → Outcome α
  | .list vs => read vs
  | .results [] => read []
  | _ => .rejected

/-- The value is a list of results. -/
def Value.results? {α : Type} (read : List (CStr × Value) → Outcome α) : Value → Outcome α
  | .results fs => read fs
  | .list [] => read []
  | _ => .rejected

/-! ## Entering -/

section
variable {α β E : Type}

/-- The entries change a value one after the other; `rule` says what each does, if there may be such an
entry. -/
def enterAll (rule : E → Option (α → Outcome α)) : α → List E → Outcome α
  | a, [] => .accepted a
  | a, e :: es =>
      match rule e with
      | some enter => (enter a).bind fun a => enterAll rule a es
      | none => .rejected

/-- What is read is entered. -/
def entered (read : Outcome β) (enter : α → β → α) : Option (α → Outcome α) :=
  some fun a => read.map (enter a)

/-- What is read is not needed. -/
def skipped (read : Outcome β) : Option (α → Outcome α) := entered read fun a _ => a

/-- A rule of the parser reads some tokens as they should be entered. -/
def Matches (item : Option (α → P α)) (toks : List Tok) (rule : Option (α → Outcome α)) : Prop :=
  match item, rule with
  | some f, some enter => ∀ a rest, f a (toks ++ rest) = (enter a).map (·, rest)
  | none, none => True
  | _, _ => False

/-- What is read agrees with what should be; what is not read as it should be is not followed by the end
of what surrounds it. -/
structure Settles (r : Outcome (α × List Tok)) (x : Outcome α) (rest : List Tok) : Prop where
  faults : r.faults = x.faults
  value : ∀ a, x.value = some a → r.value = some (a, rest)
  stuck : x.value = none → ∀ p, r.value = some p → ∃ t ts, p.2 = t :: ts ∧ t ≠ .chr '}' ∧ t ≠ .chr ']'

/-- A body ends here. -/
def EndsBody (item : Tok → Option (α → P α)) (rest : List Tok) : Prop :=
  ∀ t ∈ rest.head?, t ≠ .chr ',' ∧ item t = none

section
variable {r : Outcome (α × List Tok)} {x : Outcome α} {rest : List Tok}

/-- What is read exactly settles. -/
theorem settles_of_eq (h : r = x.map (·, rest)) : Settles r x rest := by
  subst h
  obtain ⟨faults, _ | a⟩ := x
  · exact ⟨rfl, fun a ha => (by cases ha), fun _ p hp => (by cases hp)⟩
  · exact ⟨rfl, fun b hb => (by cases hb; rfl), fun hnone => (by cases hnone)⟩

theorem settles_rejected : Settles (.rejected : Outcome (α × List Tok)) .rejected rest := settles_of_eq rfl

/-- Something else follows. -/
theorem settles_stop (a : α) {t : Tok} (ht : t ≠ .chr '}' ∧ t ≠ .chr ']') (ts : List Tok) :
    Settles (.accepted (a, t :: ts)) .rejected rest where
  faults := rfl
  value _ hb := by cases hb
  stuck _ p hp := by
    cases hp
    exact ⟨t, ts, rfl, ht⟩

/-- Something else follows what is read exactly. -/
theorem settles_incomplete (x : Outcome α) {t : Tok} (ht : t ≠ .chr '}' ∧ t ≠ .chr ']') (ts : List Tok) :
    Settles (x.map (·, t :: ts)) (x.bind fun _ => .rejected) rest := by
  obtain ⟨faults, _ | a⟩ := x
  · exact settles_of_eq rfl
  · refine ⟨(Bool.or_false _).symm, fun b hb => (by cases hb), fun _ p hp => ?_⟩
    cases hp
    exact ⟨t, ts, rfl, ht⟩

/-- What is made of what has been read. -/
theorem Settles.map (h : Settles r x rest) (f : α → β) :
    Settles (r.map fun p => (f p.1, p.2)) (x.map f) rest where
  faults := h.faults
  value b hb := by
    obtain ⟨a, ha, rfl⟩ := Outcome.value_map_eq_some.mp hb
    exact Outcome.value_map_eq_some.mpr ⟨_, h.value a ha, rfl⟩
  stuck hnone p hp := by
    obtain ⟨q, hq, rfl⟩ := Outcome.value_map_eq_some.mp hp
    exact h.stuck (Option.map_eq_none_iff.mp hnone) q hq

/-- What follows is looked at: it is as it should be, or the end of what surrounds it is missing. -/
theorem Settles.bind_eq (h : Settles r x rest) {k : α × List Tok → Outcome β} {g : α → β}
    (hk : ∀ a, k (a, rest) = .accepted (g a))
    (hstuck : ∀ a t ts, t ≠ .chr '}' → t ≠ .chr ']' → k (a, t :: ts) = .rejected) :
    r.bind k = x.map g := by
  obtain ⟨faults, value⟩ := r
  obtain ⟨faults', _ | a⟩ := x
  all_goals obtain rfl : faults = faults' := h.faults
  · rcases value with _ | ⟨a, ts⟩
    · rfl
    · obtain ⟨t, ts', hts, hbrace, hbracket⟩ := h.stuck rfl _ rfl
      obtain rfl : ts = t :: ts' := hts
      simp [Outcome.bind, Outcome.map, hstuck a t ts' hbrace hbracket]
  · obtain rfl : value = some (a, rest) := h.value a rfl
    simp [Outcome.bind, Outcome.map, hk]

end

variable {item : Tok → Option (α → P α)} {first : E → Tok} {body : E → List Tok}
  {rule : E → Option (α → Outcome α)} {rest : List Tok}

/-- The entries behind the first one. -/
theorem itemsFuel_more {es : List E} (h : ∀ e ∈ es, Matches (item (first e)) (body e) (rule e))
    (hrest : EndsBody item rest) (a : α) {fuel : Nat} (hfuel : es.length < fuel) :
    itemsFuel item fuel a (moreTokens first body es ++ rest) =
      (enterAll rule a es).map (·, rest) := by
  induction es generalizing a fuel with
  | nil =>
      obtain ⟨fuel, rfl⟩ := Nat.exists_eq_succ_of_ne_zero (Nat.ne_zero_of_lt hfuel)
      show itemsFuel item (fuel + 1) a rest = .accepted (a, rest)
      unfold itemsFuel
      split
      · exact absurd rfl (hrest _ rfl).1
      · rw [(hrest _ rfl).2]
      · rfl
  | cons e es ih =>
      obtain ⟨fuel, rfl⟩ := Nat.exists_eq_succ_of_ne_zero (Nat.ne_zero_of_lt hfuel)
      rw [List.forall_mem_cons] at h
      have htokens : moreTokens first body (e :: es) ++ rest =
          .chr ',' :: first e :: (body e ++ (moreTokens first body es ++ rest)) := by
        simp [moreTokens]
      rw [htokens]
      have he := h.1
      unfold Matches at he
      simp only [itemsFuel, enterAll]
      rcases hitem : item (first e) with _ | f <;> rcases hrule : rule e with _ | enter <;>
        rw [hitem, hrule] at he
      · rfl
      · cases he
      · cases he
      · show Outcome.bind (f a (body e ++ (moreTokens first body es ++ rest)))
          (fun q => itemsFuel item fuel q.1 q.2) = _
        rw [he, Outcome.map_bind, Outcome.bind_map]
        exact congrArg _ (funext fun a' => ih h.2 a' (Nat.lt_of_succ_lt_succ hfuel))

/-- A body reads entries as they should be entered. -/
theorem settles_items {es : List E} (h : ∀ e ∈ es, Matches (item (first e)) (body e) (rule e))
    (hfirst : ∀ e ∈ es, first e ≠ .chr ',' ∧ first e ≠ .chr '}' ∧ first e ≠ .chr ']')
    (hrest : EndsBody item rest) (a : α) :
    Settles (items item a (bodyTokens first body es ++ rest)) (enterAll rule a es) rest := by
  unfold items
  cases es with
  | nil => exact settles_of_eq (itemsFuel_more h hrest a (Nat.succ_pos _))
  | cons e es =>
      rw [List.forall_mem_cons] at h
      obtain ⟨hcomma, hbrace, hbracket⟩ := hfirst e List.mem_cons_self
      have htokens : bodyTokens first body (e :: es) ++ rest =
          first e :: (body e ++ (moreTokens first body es ++ rest)) := by
        simp [bodyTokens]
      have hlength : es.length < (body e ++ (moreTokens first body es ++ rest)).length + 1 := by
        have hmore := @length_le_moreTokens _ first body es
        rw [List.length_append, List.length_append]
        omega
      have he := h.1
      unfold Matches at he
      rw [htokens, List.length_cons]
      unfold itemsFuel
      split
      · next heq => exact absurd (List.head_eq_of_cons_eq heq) hcomma
      · next heq =>
          obtain ⟨rfl, rfl⟩ := List.cons_eq_cons.mp heq
          simp only [enterAll]
          rcases hitem : item (first e) with _ | f <;> rcases hrule : rule e with _ | enter <;>
            rw [hitem, hrule] at he
          · exact settles_stop a ⟨hbrace, hbracket⟩ _
          · cases he
          · cases he
          · refine settles_of_eq ?_
            show Outcome.bind (f a (body e ++ (moreTokens first body es ++ rest)))
              (fun q => itemsFuel item _ q.1 q.2) = _
            rw [he, Outcome.map_bind, Outcome.bind_map]
            exact congrArg _ (funext fun a' => itemsFuel_more h.2 hrest a' hlength)
      · next heq => cases heq

/-- A body does not end behind an entry and a comma. -/
theorem items_stuck {t₀ t : Tok} {toks : List Tok} {enter : α → Outcome α}
    (h : Matches (item t₀) toks (some enter)) (hfirst : t₀ ≠ .chr ',') (ht : item t = none) {a : α}
    (henter : (enter a).faults = false) (ts : List Tok) :
    items item a (t₀ :: (toks ++ .chr ',' :: t :: ts)) = .rejected := by
  unfold Matches at h
  unfold items
  rw [List.length_cons]
  unfold itemsFuel
  split
  · next heq => exact absurd (List.head_eq_of_cons_eq heq) hfirst
  · next heq =>
      obtain ⟨rfl, rfl⟩ := List.cons_eq_cons.mp heq
      rcases hitem : item t₀ with _ | f <;> rw [hitem] at h
      · cases h
      · show Outcome.bind (f a (toks ++ .chr ',' :: t :: ts)) (fun q => itemsFuel item _ q.1 q.2) = _
        rw [h, Outcome.map_bind]
        have hcomma : ∀ a' fuel, itemsFuel item (fuel + 1) a' (.chr ',' :: t :: ts) = .rejected := by
          intro a' fuel
          simp only [itemsFuel, ht]
        generalize enter a = x at henter
        obtain ⟨faults, value⟩ := x
        obtain rfl : faults = false := henter
        cases value with
        | none => rfl
        | some a' => exact hcomma a' _
  · next heq => cases heq

/-- Behind the bracket that opens a body. -/
theorem enclosed_cons (l r : Char) (p : P α) (toks : List Tok) :
    enclosed l r p (.chr l :: toks) =
      Outcome.bind (p toks) fun q => Outcome.bind (chr r q.2) fun u => .accepted (q.1, u.2) := by
  have hl : chr l (.chr l :: toks) = .accepted ((), toks) := if_pos rfl
  show Outcome.bind (chr l (.chr l :: toks)) _ = _
  rw [hl]
  rfl

/-- A body between brackets is read, or nothing is. -/
theorem enclosed_of_settles {l r : Char} (hr : r = '}' ∨ r = ']') {p : P α} {toks : List Tok}
    {x : Outcome α} (h : Settles (p (toks ++ .chr r :: rest)) x (.chr r :: rest)) :
    enclosed l r p (.chr l :: (toks ++ [.chr r]) ++ rest) = x.map (·, rest) := by
  have htokens : (.chr l :: (toks ++ [.chr r]) ++ rest : List Tok) = .chr l :: (toks ++ .chr r :: rest) := by
    simp
  rw [htokens, enclosed_cons]
  refine h.bind_eq (fun a => ?_) fun a t ts hbrace hbracket => ?_
  · have hchr : chr r (.chr r :: rest) = .accepted ((), rest) := if_pos rfl
    rw [hchr]
    rfl
  · have ht : t ≠ .chr r := by
      rcases hr with rfl | rfl
      · exact hbrace
      · exact hbracket
    have hchr : chr r (t :: ts) = .rejected := if_neg ht
    rw [hchr]
    rfl

/-- Something else is not enclosed. -/
theorem enclosed_eq_rejected {l r : Char} {p : P α} {t : Tok} {toks : List Tok} (ht : t ≠ .chr l) :
    enclosed l r p (t :: toks) = .rejected := by
  have hl : chr l (t :: toks) = .rejected := if_neg ht
  show Outcome.bind (chr l (t :: toks)) _ = _
  rw [hl]
  rfl

end

/-! ## Values and results -/

/-- How a value begins. -/
def Value.first : Value → Tok
  | .const _ => .chr '"'
  | .tuple _ => .chr '{'
  | .list _ => .chr '['
  | .results _ => .chr '['

theorem Value.tokens_eq (v : Value) : v.tokens = v.first :: v.tokens.drop 1 := by
  cases v with
  | const s =>
      rw [tokens]
      unfold quotedTokens
      split <;> rfl
  | tuple fs | list vs | results fs =>
      rw [tokens]
      rfl

theorem Value.first_ne (v : Value) : v.first ≠ .chr ',' ∧ v.first ≠ .chr '}' ∧ v.first ≠ .chr ']' := by
  cases v <;> simp [first]

theorem fieldsTokens_eq (fs : List (CStr × Value)) :
    fieldsTokens fs = moreTokens (fun e => wordTok e.1) (fun e => .chr '=' :: e.2.tokens) fs ∧
      (fieldsTokens fs).drop 1 = bodyTokens (fun e => wordTok e.1) (fun e => .chr '=' :: e.2.tokens) fs := by
  have hmore : fieldsTokens fs = moreTokens (fun e => wordTok e.1) (fun e => .chr '=' :: e.2.tokens) fs := by
    induction fs with
    | nil => rw [fieldsTokens]; rfl
    | cons e fs ih =>
        obtain ⟨w, v⟩ := e
        rw [fieldsTokens, ih]
        rfl
  refine ⟨hmore, ?_⟩
  rw [hmore]
  cases fs <;> rfl

theorem valuesTokens_eq (vs : List Value) :
    (valuesTokens vs).drop 1 = bodyTokens Value.first (fun v => v.tokens.drop 1) vs := by
  have hmore : valuesTokens vs = moreTokens Value.first (fun v => v.tokens.drop 1) vs := by
    induction vs with
    | nil => rw [valuesTokens]; rfl
    | cons v vs ih =>
        rw [valuesTokens, ih, v.tokens_eq]
        rfl
  rw [hmore]
  cases vs <;> rfl

theorem wordTok_ne_chr (w : CStr) (c : Char) : wordTok w ≠ .chr c :=
  wordTok_ne (by
    intro p hp h
    have hall : ∀ p ∈ keywords, ∀ c, p.2 ≠ .chr c := by
      intro p hp c
      rcases List.mem_append.mp hp with hp | hp <;> obtain ⟨q, -, rfl⟩ := List.mem_map.mp hp <;>
        exact Tok.noConfusion
    exact hall p hp c h) (fun _ => Tok.noConfusion) w

section
variable {α β : Type} {item : Tok → Option (α → P α)} {rest : List Tok}

/-- Results are entered by their words. -/
def enterFields (rule : Tok → Value → Option (α → Outcome α)) (a : α) (fs : List (CStr × Value)) :
    Outcome α :=
  enterAll (fun e => rule (wordTok e.1) e.2) a fs

theorem settles_fields {rule : Tok → Value → Option (α → Outcome α)}
    (h : ∀ t v, (∀ c, t ≠ .chr c) → Matches (item t) (.chr '=' :: v.tokens) (rule t v))
    (hrest : EndsBody item rest) (a : α) (fs : List (CStr × Value)) :
    Settles (items item a ((fieldsTokens fs).drop 1 ++ rest)) (enterFields rule a fs) rest := by
  rw [(fieldsTokens_eq fs).2]
  exact settles_items (fun e _ => h _ _ (wordTok_ne_chr e.1))
    (fun e _ => ⟨wordTok_ne_chr _ _, wordTok_ne_chr _ _, wordTok_ne_chr _ _⟩) hrest a

theorem settles_values {rule : Value → Option (α → Outcome α)}
    (h : ∀ v, Matches (item v.first) (v.tokens.drop 1) (rule v)) (hrest : EndsBody item rest) (a : α)
    (vs : List Value) :
    Settles (items item a ((valuesTokens vs).drop 1 ++ rest)) (enterAll rule a vs) rest := by
  rw [valuesTokens_eq vs]
  exact settles_items (fun v _ => h v) (fun v _ => v.first_ne) hrest a

/-- A nonterminal reads values as it should. -/
def Reading (p : P β) (read : Value → Outcome β) : Prop :=
  ∀ v rest, p (v.tokens ++ rest) = (read v).map (·, rest)

/-- A nonterminal skips values. -/
def Skipping (p : P Unit) (read : Value → Outcome β) : Prop :=
  ∀ v rest, p (v.tokens ++ rest) = (read v).map fun _ => ((), rest)

theorem field_matches {p : P β} {read : Value → Outcome β} (h : Reading p read) (enter : α → β → α)
    (v : Value) : Matches (field p enter) (.chr '=' :: v.tokens) (entered (read v) enter) := by
  intro a rest
  show Outcome.bind (p (v.tokens ++ rest)) _ = ((read v).map _).map _
  rw [h, Outcome.map_bind, Outcome.map_map]
  exact Outcome.bind_accepted _ _

theorem mark_matches {p : P Unit} {read : Value → Outcome β} (h : Skipping p read) (enter : α → α)
    (v : Value) : Matches (field p fun a _ => enter a) (.chr '=' :: v.tokens)
      (entered (read v) fun a _ => enter a) := by
  intro a rest
  show Outcome.bind (p (v.tokens ++ rest)) _ = ((read v).map _).map _
  rw [h, Outcome.map_bind, Outcome.map_map]
  exact Outcome.bind_accepted _ _

theorem skip_matches {p : P Unit} {read : Value → Outcome β} (h : Skipping p read) (v : Value) :
    Matches (skipField p) (.chr '=' :: v.tokens) (skipped (α := α) (read v)) :=
  mark_matches h id v

end

/-! ### Sequences -/

section
variable {α β : Type}

theorem chr_bind (c : Char) (k : P α) (toks : List Tok) :
    (do chr c; k : P α) (.chr c :: toks) = k toks := by
  have hc : chr c (.chr c :: toks) = .accepted ((), toks) := if_pos rfl
  show Outcome.bind (chr c (.chr c :: toks)) _ = _
  rw [hc]
  rfl

theorem reading_bind {p : P β} {read : Value → Outcome β} (h : Reading p read) (k : β → P α) (v : Value)
    (rest : List Tok) : (p >>= k) (v.tokens ++ rest) = (read v).bind fun b => k b rest := by
  show Outcome.bind (p (v.tokens ++ rest)) _ = _
  rw [h, Outcome.map_bind]

theorem skipping_bind {p : P Unit} {read : Value → Outcome β} (h : Skipping p read) (k : P α) (v : Value)
    (rest : List Tok) : (do p; k : P α) (v.tokens ++ rest) = (read v).bind fun _ => k rest := by
  show Outcome.bind (p (v.tokens ++ rest)) _ = _
  rw [h, Outcome.map_bind]

/-- A comma in front of results. -/
theorem comma_bind (k : P α) (fs : List (CStr × Value)) {rest : List Tok}
    (hrest : ∀ t ∈ rest.head?, t ≠ .chr ',') : (do chr ','; k : P α) (fieldsTokens fs ++ rest) =
      if fs.isEmpty then .rejected else k ((fieldsTokens fs).drop 1 ++ rest) := by
  cases fs with
  | nil =>
      rw [fieldsTokens, List.nil_append]
      rcases rest with _ | ⟨t, rest⟩
      · rfl
      · have hchr : chr ',' (t :: rest) = .rejected := if_neg (hrest t rfl)
        show Outcome.bind (chr ',' (t :: rest)) _ = _
        rw [hchr]
        rfl
  | cons e fs =>
      obtain ⟨w, v⟩ := e
      rw [fieldsTokens]
      exact chr_bind ',' k _

/-- Something is made of what has been read. -/
theorem map_eq (p : P β) (f : β → α) (toks : List Tok) :
    (do return f (← p) : P α) toks = (p toks).map fun q => (f q.1, q.2) :=
  Outcome.bind_accepted (p toks) _

end

/-- An action goes through a pointer, and a value is handed on. -/
theorem throughNull_bind {α : Type} (null : Bool) (a : α) (rest : List Tok) :
    (do throughNull null; return a : P α) rest = ⟨null, some (a, rest)⟩ :=
  Outcome.bind_accepted (throughNull null rest) fun q => (a, q.2)

/-! ### Strings -/

theorem string_reading : Reading string Value.str := by
  intro v rest
  cases v with
  | const s =>
      rw [Value.tokens]
      unfold quotedTokens
      split
      · next h => subst h; rfl
      · rfl
  | tuple fs | list vs | results fs =>
      rw [Value.tokens]
      rfl

/-- Something is made of a value. -/
theorem Reading.map {α β : Type} {p : P β} {read : Value → Outcome β} (h : Reading p read) (f : β → α) :
    Reading (do return f (← p)) fun v => (read v).map f := by
  intro v rest
  rw [map_eq, h, Outcome.map_map, Outcome.map_map]
  rfl

theorem stringNum_reading : Reading stringNum Value.num := string_reading.map atoi

theorem stringLlnumHex_reading : Reading stringLlnumHex Value.hex := string_reading.map strtollHex

theorem stringBool_reading : Reading stringBool Value.bool := by
  intro v rest
  have h := string_reading.map (fun s => decide (s.head? ∈ [some 't', some 'y'])) v rest
  unfold Value.bool
  refine h.trans (congrArg (fun f => (Outcome.map f v.str).map (·, rest)) (funext fun s => ?_))
  split
  · rfl
  · rfl
  · next ht hy =>
    rw [decide_eq_false_iff_not]
    intro hmem
    cases s with
    | nil => simp at hmem
    | cons c cs =>
        simp only [List.head?_cons, List.mem_cons, Option.some.injEq, List.not_mem_nil, or_false] at hmem
        rcases hmem with rfl | rfl
        · exact ht cs rfl
        · exact hy cs rfl

theorem stringDummy_skipping : Skipping stringDummy Value.str := by
  intro v rest
  have h := string_reading.map (fun _ => ()) v rest
  rw [Outcome.map_map] at h
  exact h

end Vimgdb.Gdb
