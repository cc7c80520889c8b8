import Vimgdb.Gdb.Issue
import Vimgdb.Gdb.Recovery
import Vimgdb.Lexing.Pieces

/-!
# Lines as gdb builds them

The output of gdb's machine interface consists of words, strings, tuples and lists.  A line is a tree of
them; the scanner gives its tokens back.

* `Value`: strings, tuples and lists.
* `Value.text`, `Value.tokens`: a value as gdb prints it, and its tokens.
* `Output`: a record or a stream, one line of gdb.
* `Output.steps`: the tokens of a line.
-/

namespace Vimgdb.Gdb

open Flex Lexing

/-! ## Values -/

/-- A string, a tuple, a list of values, and a list of results. -/
inductive Value
  | const (s : CStr)
  | tuple (fields : List (CStr × Value))
  | list (values : List Value)
  | results (fields : List (CStr × Value))

mutual

/-- The value as gdb prints it. -/
def Value.text : Value → CStr
  | .const s => '"' :: (s ++ ['"'])
  | .tuple fs => '{' :: ((fieldsText fs).drop 1 ++ ['}'])
  | .list vs => '[' :: ((valuesText vs).drop 1 ++ [']'])
  | .results fs => '[' :: ((fieldsText fs).drop 1 ++ [']'])

/-- Results, with a comma in front of each. -/
def fieldsText : List (CStr × Value) → CStr
  | [] => []
  | (w, v) :: fs => ',' :: (w ++ '=' :: (v.text ++ fieldsText fs))

/-- Values, with a comma in front of each. -/
def valuesText : List Value → CStr
  | [] => []
  | v :: vs => ',' :: (v.text ++ valuesText vs)

end

mutual

/-- The tokens of a value. -/
def Value.tokens : Value → List Tok
  | .const s => quotedTokens s
  | .tuple fs => .chr '{' :: ((fieldsTokens fs).drop 1 ++ [.chr '}'])
  | .list vs => .chr '[' :: ((valuesTokens vs).drop 1 ++ [.chr ']'])
  | .results fs => .chr '[' :: ((fieldsTokens fs).drop 1 ++ [.chr ']'])

/-- The tokens of results, with a comma in front of each. -/
def fieldsTokens : List (CStr × Value) → List Tok
  | [] => []
  | (w, v) :: fs => .chr ',' :: wordTok w :: .chr '=' :: (v.tokens ++ fieldsTokens fs)

/-- The tokens of values, with a comma in front of each. -/
def valuesTokens : List Value → List Tok
  | [] => []
  | v :: vs => .chr ',' :: (v.tokens ++ valuesTokens vs)

end

/-- What gdb writes between quotes: quotes are escaped, and there are no 0 bytes. -/
def isConst (s : CStr) : Bool := isContent false s && s.all fun c => c != '\x00'

mutual

/-- The words and strings of a value can be read. -/
def Value.readable : Value → Bool
  | .const s => isConst s
  | .tuple fs => fieldsReadable fs
  | .list vs => valuesReadable vs
  | .results fs => fieldsReadable fs

def fieldsReadable : List (CStr × Value) → Bool
  | [] => true
  | (w, v) :: fs => isWord w && v.readable && fieldsReadable fs

def valuesReadable : List Value → Bool
  | [] => true
  | v :: vs => v.readable && valuesReadable vs

end

/-! ## Reading values -/

theorem apart_cons {c : Char} (hc : wordChr c = false) (r : CStr) : Apart (c :: r) := by
  intro d hd
  rw [← Option.mem_some.mp hd]
  exact hc

/-- A text between two characters. -/
theorem lexes_between {l r : Char} (hl : l ∈ punctuation) (hr : r ∈ punctuation) {s : CStr}
    {toks : List Tok} (h : Lexes s toks Anything) :
    Lexes (l :: (s ++ [r])) (.chr l :: (toks ++ [.chr r])) Anything :=
  (lexes_punct hl).append (h.append (lexes_punct hr) fun _ _ => trivial) fun _ _ => trivial

/-- A word, an equals sign and a value. -/
theorem lexes_field {w s t : CStr} {toks toks' : List Tok} (hw : isWord w = true)
    (h : Lexes s toks Anything) (h' : Lexes t toks' Anything) :
    Lexes (w ++ '=' :: (s ++ t)) (wordTok w :: .chr '=' :: (toks ++ toks')) Anything :=
  (lexes_word hw).append ((lexes_punct (by decide : '=' ∈ punctuation)).append
    (h.append h' fun _ _ => trivial) fun _ _ => trivial) fun _ _ => apart_cons rfl _

mutual

/-- A value is read as its tokens. -/
theorem lexes_value : ∀ v : Value, v.readable = true → Lexes v.text v.tokens Anything
  | .const s, h => by
      rw [Value.readable, isConst, Bool.and_eq_true] at h
      rw [Value.text, Value.tokens]
      exact lexes_quoted h.1
  | .tuple fs, h => by
      rw [Value.readable] at h
      rw [Value.text, Value.tokens]
      exact lexes_between (by decide) (by decide) (lexes_fields fs h).2
  | .list vs, h => by
      rw [Value.readable] at h
      rw [Value.text, Value.tokens]
      exact lexes_between (by decide) (by decide) (lexes_values vs h).2
  | .results fs, h => by
      rw [Value.readable] at h
      rw [Value.text, Value.tokens]
      exact lexes_between (by decide) (by decide) (lexes_fields fs h).2

theorem lexes_fields : ∀ fs, fieldsReadable fs = true → Lexes (fieldsText fs) (fieldsTokens fs) Anything ∧
    Lexes ((fieldsText fs).drop 1) ((fieldsTokens fs).drop 1) Anything
  | [], _ => by
      rw [fieldsText, fieldsTokens]
      exact ⟨lexes_nil, lexes_nil⟩
  | (w, v) :: fs, h => by
      rw [fieldsReadable, Bool.and_eq_true, Bool.and_eq_true] at h
      have hfield := lexes_field h.1.1 (lexes_value v h.1.2) (lexes_fields fs h.2).1
      rw [fieldsText, fieldsTokens]
      exact ⟨(lexes_punct (by decide : ',' ∈ punctuation)).append hfield fun _ _ => trivial, hfield⟩

theorem lexes_values : ∀ vs, valuesReadable vs = true → Lexes (valuesText vs) (valuesTokens vs) Anything ∧
    Lexes ((valuesText vs).drop 1) ((valuesTokens vs).drop 1) Anything
  | [], _ => by
      rw [valuesText, valuesTokens]
      exact ⟨lexes_nil, lexes_nil⟩
  | v :: vs, h => by
      rw [valuesReadable, Bool.and_eq_true] at h
      have hvalue := (lexes_value v h.1).append (lexes_values vs h.2).1 fun _ _ => trivial
      rw [valuesText, valuesTokens]
      exact ⟨(lexes_punct (by decide : ',' ∈ punctuation)).append hvalue fun _ _ => trivial, hvalue⟩

end

/-! ## Lines -/

/-- The records, and the streams. -/
inductive Output
  | result (number : Option (BitVec 32)) (rclass : CStr) (fields : List (CStr × Value))
  | async (kind : Char) (number : Option (BitVec 32)) (rclass : CStr) (fields : List (CStr × Value))
  | stream (kind : Char) (s : CStr)

/-- The number in front of a record. -/
def numberText (number : Option (BitVec 32)) : CStr :=
  match number with
  | some n => itoa 10 n.toNat
  | none => []

def numberTokens (number : Option (BitVec 32)) : List Tok :=
  match number with
  | some n => [.number n]
  | none => []

/-- The line without its newline. -/
def Output.text : Output → CStr
  | result number rclass fs => numberText number ++ '^' :: (rclass ++ fieldsText fs)
  | async kind number rclass fs => numberText number ++ kind :: (rclass ++ fieldsText fs)
  | stream kind s => kind :: '"' :: (s ++ ['"'])

/-- The tokens of the line. -/
def Output.tokens : Output → List Tok
  | result number rclass fs => numberTokens number ++ .chr '^' :: wordTok rclass :: fieldsTokens fs
  | async kind number rclass fs =>
      numberTokens number ++ .chr kind :: wordTok rclass :: fieldsTokens fs
  | stream kind s => .chr kind :: quotedTokens s

/-- The kinds are those of gdb, and the words and strings can be read. -/
def Output.readable : Output → Bool
  | result _ rclass fs => isWord rclass && fieldsReadable fs
  | async kind _ rclass fs =>
      decide (kind ∈ ['*', '+', '=']) && (isWord rclass && fieldsReadable fs)
  | stream kind s => decide (kind ∈ ['~', '@', '&']) && isConst s

/-- The end of a line. -/
def EndOfLine (r : CStr) : Prop := ∃ v, r = '\n' :: v

/-- The results behind a word. -/
theorem lexes_rclass {rclass : CStr} {fs : List (CStr × Value)} (hclass : isWord rclass = true)
    (hfs : fieldsReadable fs = true) :
    Lexes (rclass ++ fieldsText fs) (wordTok rclass :: fieldsTokens fs) EndOfLine := by
  refine (lexes_word hclass).append ((lexes_fields fs hfs).1.mono fun _ _ => trivial) ?_
  rintro _ ⟨v, rfl⟩
  rcases fs with _ | ⟨⟨w, x⟩, fs⟩
  · rw [fieldsText]
    exact apart_cons rfl v
  · rw [fieldsText]
    exact apart_cons rfl _

theorem digits_itoa (n : Nat) : ∀ c ∈ itoa 10 n, Re.inClass false [('0', '9')] c = true := by
  intro c hc
  have hdigit := digits_of_itoa n c hc
  unfold Char.isDigit at hdigit
  unfold Re.inClass
  simpa [Char.le_def] using hdigit

theorem lexes_record {kind : Char} (hkind : kind ∈ ['^', '*', '+', '=']) {rclass : CStr}
    {fs : List (CStr × Value)} (hclass : isWord rclass = true) (hfs : fieldsReadable fs = true)
    (number : Option (BitVec 32)) : Lexes (numberText number ++ kind :: (rclass ++ fieldsText fs))
      (numberTokens number ++ .chr kind :: wordTok rclass :: fieldsTokens fs) EndOfLine := by
  have hpunct : kind ∈ punctuation := by
    simp only [punctuation, List.mem_cons] at hkind ⊢
    tauto
  have hrecord : Lexes (kind :: (rclass ++ fieldsText fs)) (.chr kind :: wordTok rclass :: fieldsTokens fs)
      EndOfLine := (lexes_punct hpunct).append (lexes_rclass hclass hfs) fun _ _ => trivial
  cases number with
  | none => exact hrecord
  | some n =>
      have hnumber : Lexes (itoa 10 n.toNat) [.number n] BehindNumber := by
        have h := lexes_number (w := itoa 10 n.toNat) (by simp [itoa]) (digits_itoa _)
        rwa [atoi_itoa] at h
      exact hnumber.append hrecord fun _ _ => ⟨kind, hkind, rfl⟩

/-- A line is read as its tokens. -/
theorem Output.lexes (l : Output) (h : l.readable = true) : Lexes l.text l.tokens EndOfLine := by
  cases l with
  | result number rclass fs =>
      obtain ⟨hclass, hfs⟩ := Bool.and_eq_true_iff.mp h
      exact lexes_record (by decide) hclass hfs number
  | async kind number rclass fs =>
      obtain ⟨hkind, hrest⟩ := Bool.and_eq_true_iff.mp h
      obtain ⟨hclass, hfs⟩ := Bool.and_eq_true_iff.mp hrest
      have hkind : kind ∈ ['*', '+', '='] := of_decide_eq_true hkind
      exact lexes_record (List.mem_cons_of_mem _ hkind) hclass hfs number
  | stream kind s =>
      obtain ⟨hkind, hs⟩ := Bool.and_eq_true_iff.mp h
      have hkind : kind ∈ ['~', '@', '&'] := of_decide_eq_true hkind
      have hpunct : kind ∈ punctuation := by
        simp only [punctuation, List.mem_cons] at hkind ⊢
        tauto
      exact (lexes_punct hpunct).append ((lexes_quoted (Bool.and_eq_true_iff.mp hs).1).mono fun _ _ => trivial)
        fun _ _ => trivial

/-! ## Outputs -/

theorem wordTok_ne {t : Tok} (h : ∀ p ∈ keywords, p.2 ≠ t) (hstring : ∀ s, t ≠ .string s) (w : CStr) :
    wordTok w ≠ t := by
  unfold wordTok
  split
  · next p hp => exact h p (List.mem_of_find?_eq_some hp)
  · exact (hstring w).symm

/-- What is not in a text is not in it without its front, between other things. -/
theorem between_notMem {α : Type} {a l r : α} {s : List α} (h : a ∉ s) (hl : a ≠ l) (hr : a ≠ r) :
    a ∉ l :: (s.drop 1 ++ [r]) := by
  rw [List.mem_cons, List.mem_append, List.mem_singleton]
  rintro (hmem | hmem | hmem)
  · exact hl hmem
  · exact h (List.mem_of_mem_drop hmem)
  · exact hr hmem

section
variable {t : Tok} (ht : t = .newline ∨ t = .eof)
include ht

theorem notMem_quotedTokens (s : CStr) : t ∉ quotedTokens s := by
  rcases ht with rfl | rfl <;> unfold quotedTokens <;> split <;> simp

theorem wordTok_ne_of (w : CStr) : t ≠ wordTok w := by
  rcases ht with rfl | rfl
  · exact (wordTok_ne (by decide +kernel) (fun _ => Tok.noConfusion) w).symm
  · exact (wordTok_ne (by decide +kernel) (fun _ => Tok.noConfusion) w).symm

mutual

/-- Neither a newline nor the end of the input is among the tokens of a value. -/
theorem notMem_tokens : ∀ v : Value, t ∉ v.tokens
  | .const s => by
      rw [Value.tokens]
      exact notMem_quotedTokens ht s
  | .tuple fs => by
      rw [Value.tokens]
      exact between_notMem (notMem_fieldsTokens fs) (by rcases ht with rfl | rfl <;> decide)
        (by rcases ht with rfl | rfl <;> decide)
  | .list vs => by
      rw [Value.tokens]
      exact between_notMem (notMem_valuesTokens vs) (by rcases ht with rfl | rfl <;> decide)
        (by rcases ht with rfl | rfl <;> decide)
  | .results fs => by
      rw [Value.tokens]
      exact between_notMem (notMem_fieldsTokens fs) (by rcases ht with rfl | rfl <;> decide)
        (by rcases ht with rfl | rfl <;> decide)

theorem notMem_fieldsTokens : ∀ fs, t ∉ fieldsTokens fs
  | [] => by simp [fieldsTokens]
  | (w, v) :: fs => by
      have hv := notMem_tokens v
      have hfs := notMem_fieldsTokens fs
      have hw := wordTok_ne_of ht w
      rcases ht with rfl | rfl <;> simp [fieldsTokens, hv, hfs, hw]

theorem notMem_valuesTokens : ∀ vs, t ∉ valuesTokens vs
  | [] => by simp [valuesTokens]
  | v :: vs => by
      have hv := notMem_tokens v
      have hvs := notMem_valuesTokens vs
      rcases ht with rfl | rfl <;> simp [valuesTokens, hv, hvs]

end

theorem Output.notMem (l : Output) : t ∉ l.tokens := by
  cases l with
  | result number rclass fs | async kind number rclass fs =>
      have hfs := notMem_fieldsTokens ht fs
      have hclass := wordTok_ne_of ht rclass
      rcases ht with rfl | rfl <;> cases number <;> simp [tokens, numberTokens, hfs, hclass]
  | stream kind s =>
      have hs := notMem_quotedTokens ht s
      rcases ht with rfl | rfl <;> simp [tokens, hs]

end

/-- A line is not a prompt. -/
theorem Output.tokens_ne (l : Output) : l.tokens ≠ [] ∧ l.tokens ≠ [.gdbtk] := by
  cases l with
  | result number rclass fs | async kind number rclass fs =>
      cases number <;> exact ⟨List.cons_ne_nil _ _, fun h => by cases h⟩
  | stream kind s => exact ⟨List.cons_ne_nil _ _, fun h => by cases h⟩

theorem nul_notMem_of_isWord {w : CStr} (h : isWord w = true) : '\x00' ∉ w := by
  intro hmem
  have hall := List.all_eq_true.mp (Bool.and_eq_true_iff.mp h).2 _ hmem
  cases hall

theorem nul_notMem_of_isConst {s : CStr} (h : isConst s = true) : '\x00' ∉ s := by
  intro hmem
  have hall := List.all_eq_true.mp (Bool.and_eq_true_iff.mp h).2 _ hmem
  cases hall

mutual

theorem nul_notMem_text : ∀ v : Value, v.readable = true → '\x00' ∉ v.text
  | .const s, h => by
      rw [Value.readable] at h
      have hs := nul_notMem_of_isConst h
      simp [Value.text, hs]
  | .tuple fs, h => by
      rw [Value.readable] at h
      rw [Value.text]
      exact between_notMem (nul_notMem_fieldsText fs h) (by decide) (by decide)
  | .list vs, h => by
      rw [Value.readable] at h
      rw [Value.text]
      exact between_notMem (nul_notMem_valuesText vs h) (by decide) (by decide)
  | .results fs, h => by
      rw [Value.readable] at h
      rw [Value.text]
      exact between_notMem (nul_notMem_fieldsText fs h) (by decide) (by decide)

theorem nul_notMem_fieldsText : ∀ fs, fieldsReadable fs = true → '\x00' ∉ fieldsText fs
  | [], _ => by simp [fieldsText]
  | (w, v) :: fs, h => by
      rw [fieldsReadable, Bool.and_eq_true, Bool.and_eq_true] at h
      have hw := nul_notMem_of_isWord h.1.1
      have hv := nul_notMem_text v h.1.2
      have hfs := nul_notMem_fieldsText fs h.2
      simp [fieldsText, hw, hv, hfs]

theorem nul_notMem_valuesText : ∀ vs, valuesReadable vs = true → '\x00' ∉ valuesText vs
  | [], _ => by simp [valuesText]
  | v :: vs, h => by
      rw [valuesReadable, Bool.and_eq_true] at h
      have hv := nul_notMem_text v h.1
      have hvs := nul_notMem_valuesText vs h.2
      simp [valuesText, hv, hvs]

end

theorem nul_notMem_numberText (number : Option (BitVec 32)) : '\x00' ∉ numberText number := by
  cases number with
  | none => exact List.not_mem_nil
  | some n => exact fun h => absurd (digits_of_itoa _ _ h) (by decide)

theorem Output.nul_notMem {l : Output} (h : l.readable = true) : '\x00' ∉ l.text := by
  cases l with
  | result number rclass fs =>
      obtain ⟨hclass, hfs⟩ := Bool.and_eq_true_iff.mp h
      have hclass := nul_notMem_of_isWord hclass
      have hfs := nul_notMem_fieldsText fs hfs
      have hnumber := nul_notMem_numberText number
      simp [text, hclass, hfs, hnumber]
  | async kind number rclass fs =>
      obtain ⟨hkind, hrest⟩ := Bool.and_eq_true_iff.mp h
      obtain ⟨hclass, hfs⟩ := Bool.and_eq_true_iff.mp hrest
      have hclass := nul_notMem_of_isWord hclass
      have hfs := nul_notMem_fieldsText fs hfs
      have hnumber := nul_notMem_numberText number
      have hkind : '\x00' ≠ kind := by
        rintro rfl
        exact absurd (of_decide_eq_true hkind) (by decide)
      simp [text, hclass, hfs, hnumber, hkind]
  | stream kind s =>
      obtain ⟨hkind, hs⟩ := Bool.and_eq_true_iff.mp h
      have hs := nul_notMem_of_isConst hs
      have hkind : '\x00' ≠ kind := by
        rintro rfl
        exact absurd (of_decide_eq_true hkind) (by decide)
      simp [text, hs, hkind]

/-- The calls for some lines, by what is made of each: the last line is one during which the process
ends, if there is one. -/
def callsOf (call : Output → Outcome Call) (pos : Nat) : List Output → List (Nat × Call)
  | [] => []
  | l :: ls =>
      if (call l).faults then []
      else (pos, (call l).value.getD errorCall) :: callsOf call (pos + l.text.length + 1) ls

/-- A line and its newline are read. -/
theorem Output.steps {l : Output} (h : l.readable = true) (pos : Nat) (v : CStr) :
    ∃ ptoks p, ptoks.map Prod.snd = l.tokens ∧ ptoks.head?.map Prod.fst = some pos ∧
      Steps rules ⟨pos, .initial, true, l.text ++ '\n' :: v⟩ (ptoks ++ [(p, .newline)])
        ⟨pos + l.text.length + 1, .initial, true, v⟩ := by
  obtain ⟨ptoks, bol, htoks, hhead, hsteps⟩ := (l.lexes h).steps pos true ('\n' :: v) ⟨v, rfl⟩
  refine ⟨ptoks, pos + l.text.length, htoks, ?_, hsteps.trans (Steps.head (next_newline _ bol v)
    (Steps.refl _))⟩
  rcases ptoks with _ | ⟨e, ptoks⟩
  · exact absurd htoks.symm l.tokens_ne.1
  · exact congrArg some (hhead e rfl)

/-- The prompt ends the output. -/
theorem parseFrom_prompt (pos : Nat) : parseFrom [] (lex rules ⟨pos, .initial, true, prompt⟩).1 = [] := by
  have hlex : (lex rules (lexFrom prompt)).1 = [(0, .gdbtk), (6, .newline)] := by decide +kernel
  have hsteps := (lex_steps rules (lexFrom prompt)).shift pos
  have hstart : (lexFrom prompt).shift pos = ⟨pos, .initial, true, prompt⟩ := by
    simp [lexFrom, Config.shift]
  rw [hstart, hlex] at hsteps
  rw [hsteps.lex]
  rfl

/-- The lines are parsed one after the other. -/
theorem parseFrom_outputs {ls : List Output} (h : ∀ l ∈ ls, l.readable = true) (pos : Nat) :
    parseFrom [] (lex rules ⟨pos, .initial, true, Gdb.text (ls.map Output.text) ++ prompt⟩).1 =
      callsOf (fun l => record l.tokens) pos ls := by
  induction ls generalizing pos with
  | nil => exact parseFrom_prompt pos
  | cons l ls ih =>
      rw [List.forall_mem_cons] at h
      obtain ⟨ptoks, p, htoks, hhead, hsteps⟩ := l.steps h.1 pos (Gdb.text (ls.map Output.text) ++ prompt)
      have hnl : ∀ e ∈ ptoks, e.2 ≠ .newline ∧ e.2 ≠ .eof := by
        intro e he
        have hmem : e.2 ∈ l.tokens := htoks ▸ List.mem_map_of_mem he
        exact ⟨fun h => l.notMem (.inl h) hmem, fun h => l.notMem (.inr h) hmem⟩
      have htext : Gdb.text ((l :: ls).map Output.text) ++ prompt =
          l.text ++ '\n' :: (Gdb.text (ls.map Output.text) ++ prompt) := by simp
      have hpos : (ptoks.map Prod.fst).headD pos = pos := by
        rw [List.headD_eq_head?_getD, List.head?_map, hhead]
        rfl
      rw [htext, hsteps.lex, List.append_assoc, List.singleton_append, parseFrom_line _ _ hnl,
        List.nil_append, parseFrom, if_neg (htoks ▸ l.tokens_ne.2), ih h.2, htoks]
      rw [callsOf]
      split_ifs
      · rfl
      · rw [List.cons.injEq, Prod.mk.injEq, List.headD_eq_head?_getD, List.head?_map, hhead]
        exact ⟨⟨rfl, rfl⟩, rfl⟩

theorem gdbparse_tokens {ls : List Output} (h : ∀ l ∈ ls, l.readable = true) :
    gdbparse (Gdb.text (ls.map Output.text) ++ prompt) = callsOf (fun l => record l.tokens) 0 ls := by
  have hnul : '\x00' ∉ Gdb.text (ls.map Output.text) := by
    induction ls with
    | nil => exact List.not_mem_nil
    | cons l ls ih =>
        rw [List.forall_mem_cons] at h
        have hl := Output.nul_notMem h.1
        have hls := ih h.2
        rw [List.map_cons, text_cons]
        simp only [List.mem_append, List.mem_cons, not_or]
        exact ⟨hl, by decide, hls⟩
  have hprompt : scanned prompt = prompt := by decide
  unfold gdbparse
  rw [scanned_append hnul, hprompt]
  exact parseFrom_outputs h 0

end Vimgdb.Gdb
