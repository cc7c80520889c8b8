import Vimgdb.Gdb.Parser
import Vimgdb.Lexing.Lines

/-!
# Lines that are not records

The parser calls the error rule for a line that is not a record and goes on behind its newline.  How
far that protects the other lines is decided by the lexer: an open quote takes the newlines behind
it into the string, a 0 byte ends the text, and a byte that is no ASCII character ends the input.  A line
during which an action goes through a null pointer ends the process.

* `outcomeOf`: a line read on its own; `recordOf`: the call for it.
* `Clean`: the parser gets through the text before a line, and ends outside quoted strings.
* `callsAt_of_clean`: behind a clean text a record is dispatched once, as if it stood alone.
* `callsAt_of_not_clean`: otherwise nothing is dispatched for the line.
* `records_isolated_iff`: when malformed lines affect themselves only.
-/

namespace Vimgdb.Gdb

open Flex Lexing

/-! ## Outputs -/

/-- Lines with their newlines. -/
def text (lines : List CStr) : CStr := lines.flatMap (· ++ ['\n'])

/-- The prompt as gdb writes it. -/
def prompt : CStr := "(gdb) \n".toList

/-- The lines the parser takes for a prompt. -/
def promptLines : List CStr :=
  ["(gdb)".toList, "(gdb) ".toList, "(gdb)\r".toList, "(gdb) \r".toList]

/-- A line read on its own. -/
def outcomeOf (line : CStr) : Outcome Call :=
  let toks := (lex rules (lexFrom (scanned (line ++ ['\n'])))).1.map Prod.snd
  if toks.getLast? = some .newline ∧ .eof ∉ toks then record toks.dropLast else .rejected

/-- The call for a line that is a record. -/
def recordOf (line : CStr) : Option Call :=
  if (outcomeOf line).faults then none else (outcomeOf line).value

/-- The parser gets through the tokens, when `line` holds those read since the last newline: the input
does not end among them, and the actions for each line go through. -/
def passes (line : List (Nat × Tok)) : List (Nat × Tok) → Bool
  | [] => true
  | (_, .eof) :: _ => false
  | (_, .newline) :: toks => !(record (line.map Prod.snd)).faults && passes [] toks
  | tok :: toks => passes (line ++ [tok]) toks

/-- The scan of `u` ends outside quoted strings and has not been cut by a 0 byte, and the parser gets
through it. -/
def Clean (u : CStr) : Prop :=
  '\x00' ∉ u ∧ (lex rules (lexFrom u)).2.st = .initial ∧ passes [] (lex rules (lexFrom u)).1 = true

instance (u : CStr) : Decidable (Clean u) := inferInstanceAs (Decidable (_ ∧ _ ∧ _))

/-- The calls made for the line at an offset. -/
def callsAt (pos : Nat) (log : List (Nat × Call)) : List Call :=
  log.filterMap fun e => if e.1 = pos then some e.2 else none

@[simp] theorem text_nil : text [] = [] := rfl

@[simp] theorem text_cons (l : CStr) (lines : List CStr) :
    text (l :: lines) = l ++ '\n' :: text lines := by simp [text]

@[simp] theorem text_append (lines lines' : List CStr) :
    text (lines ++ lines') = text lines ++ text lines' := by simp [text]

/-- A text of lines is empty or ends with a newline. -/
theorem text_ends (lines : List CStr) : text lines = [] ∨ (text lines).getLast? = some '\n' := by
  induction lines with
  | nil => exact Or.inl rfl
  | cons l lines ih =>
      right
      rw [text_cons]
      rcases ih with ih | ih
      · simp [ih]
      · rw [List.getLast?_append_of_ne_nil _ (by simp), List.getLast?_cons, ih]
        rfl

/-- What follows a newline in a text of lines begins with one of them. -/
theorem mem_of_text_eq {lines : List CStr} (hlines : ∀ l ∈ lines, '\n' ∉ l) {x l y : CStr}
    (hl : '\n' ∉ l) (hx : x = [] ∨ x.getLast? = some '\n') (h : text lines = x ++ l ++ '\n' :: y) :
    l ∈ lines := by
  induction lines generalizing x with
  | nil => simp at h
  | cons k lines ih =>
      have hk := hlines k List.mem_cons_self
      rw [text_cons] at h
      by_cases hnil : x = []
      · -- both begin with a text up to its first newline
        rw [hnil, List.nil_append] at h
        rcases List.append_eq_append_iff.mp h with ⟨w, rfl, hw⟩ | ⟨w, rfl, hw⟩
        · cases w with
          | nil => simp
          | cons a w =>
              obtain ⟨rfl, -⟩ := List.cons.inj hw
              exact absurd (by simp) hl
        · cases w with
          | nil => simp
          | cons a w =>
              obtain ⟨rfl, -⟩ := List.cons.inj hw
              exact absurd (by simp) hk
      · obtain ⟨x', rfl⟩ := List.getLast?_eq_some_iff.mp (hx.resolve_left hnil)
        have hsplit : k ++ '\n' :: text lines = x' ++ '\n' :: (l ++ '\n' :: y) := by
          rw [h]; simp
        refine List.mem_cons_of_mem _ ?_
        rcases List.append_eq_append_iff.mp hsplit with ⟨w, rfl, hw⟩ | ⟨w, rfl, hw⟩
        · cases w with
          | nil =>
              obtain ⟨-, hw⟩ := List.cons.inj hw
              exact ih (fun l hl => hlines l (List.mem_cons_of_mem _ hl)) (Or.inl rfl) hw
          | cons a w =>
              obtain ⟨rfl, htext⟩ := List.cons.inj hw
              refine ih (x := w ++ ['\n']) (fun l hl => hlines l (List.mem_cons_of_mem _ hl))
                (Or.inr List.getLast?_concat) ?_
              simpa using htext
        · cases w with
          | nil =>
              obtain ⟨-, hw⟩ := List.cons.inj hw
              exact ih (fun l hl => hlines l (List.mem_cons_of_mem _ hl)) (Or.inl rfl) hw.symm
          | cons a w =>
              obtain ⟨rfl, -⟩ := List.cons.inj hw
              exact absurd (by simp) hk

/-! ## Calls and the lines they are made for -/

/-- What the parser has read of a line agrees with the position of the scan. -/
def InLine (c : Config Start) (line : List (Nat × Tok)) : Prop := line = [] ↔ AtLine c

section
variable {t : Tok} (hnewline : t ≠ .newline) (heof : t ≠ .eof) (line : List (Nat × Tok)) (p : Nat)
  (toks : List (Nat × Tok))
include hnewline heof

theorem parseFrom_token : parseFrom line ((p, t) :: toks) = parseFrom (line ++ [(p, t)]) toks := by
  cases t <;> first | rfl | exact absurd rfl hnewline | exact absurd rfl heof

theorem passes_token : passes line ((p, t) :: toks) = passes (line ++ [(p, t)]) toks := by
  cases t <;> first | rfl | exact absurd rfl hnewline | exact absurd rfl heof

end

/-- Every call is made for the line read so far or for one that begins in the scan, when the parser has
got through what is before it. -/
theorem mem_parseFrom {c d : Config Start} {toks line : List (Nat × Tok)} {o : Nat} {call : Call}
    (h : Steps rules c toks d) (hline : InLine c line) (hmem : (o, call) ∈ parseFrom line toks) :
    line.head?.map Prod.fst = some o ∨ ∃ toks' mid, Steps rules c toks' mid ∧ AtLine mid ∧
      mid.pos = o ∧ o < d.pos ∧ passes line toks' = true := by
  induction h generalizing line with
  | refl => cases hmem
  | @head c c₁ d tok toks hnext hsteps ih =>
      obtain ⟨hat, hnone⟩ := next_atLine hnext
      have hlt : c.pos < d.pos := by
        obtain ⟨u, hu, -, hpos, -⟩ := next_lexed hnext
        obtain ⟨v, -, hpos'⟩ := hsteps.pos
        have := List.length_pos_iff.mpr hu
        omega
      cases tok with
      | none =>
          have hnil : line = [] := hline.mpr (hnone rfl)
          subst hnil
          rcases ih (iff_of_true rfl (hat.mpr (Or.inr rfl))) hmem with h | ⟨toks', mid, hmid, h⟩
          · cases h
          · exact Or.inr ⟨toks', mid, Steps.head hnext hmid, h⟩
      | some t =>
          rw [tokenAt, Option.toList_some, List.map_cons, List.map_nil, List.singleton_append] at hmem
          by_cases ht : t = .newline
          · subst ht
            have hat₁ : AtLine c₁ := hat.mpr (Or.inl rfl)
            rw [parseFrom] at hmem
            split_ifs at hmem with hprompt hfaults
            · cases hmem
            · cases hmem
            rcases List.mem_cons.mp hmem with heq | hmem
            · cases line with
              | nil =>
                  cases heq
                  exact Or.inr ⟨[], c, Steps.refl c, hline.mp rfl, rfl, hlt, rfl⟩
              | cons e line => cases heq; exact Or.inl rfl
            · rcases ih (iff_of_true rfl hat₁) hmem with h | ⟨toks', mid, hmid, h₁, h₂, h₃, h₄⟩
              · cases h
              · refine Or.inr ⟨_, mid, Steps.head hnext hmid, h₁, h₂, h₃, ?_⟩
                show (!_ && passes [] toks') = true
                rw [h₄, Bool.and_true]
                simpa using hfaults
          · by_cases heof : t = .eof
            · subst heof
              cases hmem
            have hat₁ : ¬ AtLine c₁ := by simpa [ht] using hat
            rw [parseFrom_token ht heof] at hmem
            rcases ih (iff_of_false (by simp) hat₁) hmem with h | ⟨toks', mid, hmid, h₁, h₂, h₃, h₄⟩
            · cases line with
              | nil =>
                  cases h
                  exact Or.inr ⟨[], c, Steps.refl c, hline.mp rfl, rfl, hlt, rfl⟩
              | cons e line => exact Or.inl h
            · refine Or.inr ⟨_, mid, Steps.head hnext hmid, h₁, h₂, h₃, ?_⟩
              exact (passes_token ht heof _ _ _).trans h₄

/-- The tokens hold the line of a prompt, when `line` holds those read since the last newline. -/
def HasPrompt (line : List (Nat × Tok)) : List (Nat × Tok) → Prop
  | [] => False
  | (_, .newline) :: toks => line.map Prod.snd = [.gdbtk] ∨ HasPrompt [] toks
  | tok :: toks => HasPrompt (line ++ [tok]) toks

/-- Without a prompt the parser goes on behind a newline as at the start, if it gets there. -/
theorem parseFrom_append {line toks : List (Nat × Tok)} (toks' : List (Nat × Tok))
    (hend : (toks = [] ∧ line = []) ∨ toks.getLast?.map Prod.snd = some .newline)
    (h : ¬ HasPrompt line toks) (hpasses : passes line toks = true) :
    parseFrom line (toks ++ toks') = parseFrom line toks ++ parseFrom [] toks' := by
  induction toks generalizing line with
  | nil =>
      rcases hend with ⟨-, rfl⟩ | hend
      · rfl
      · cases hend
  | cons e toks ih =>
      obtain ⟨p, t⟩ := e
      have hend' : toks ≠ [] → toks.getLast?.map Prod.snd = some .newline := by
        intro hne
        rcases hend with ⟨hnil, -⟩ | hend
        · cases hnil
        · obtain ⟨e, toks, rfl⟩ := List.exists_cons_of_ne_nil hne
          rwa [List.getLast?_cons_cons] at hend
      by_cases ht : t = .newline
      · subst ht
        rw [HasPrompt, not_or] at h
        rw [passes, Bool.and_eq_true, Bool.not_eq_true', ← Bool.not_eq_true] at hpasses
        rw [List.cons_append, parseFrom, parseFrom, if_neg h.1, if_neg h.1, if_neg hpasses.1,
          if_neg hpasses.1, List.cons_append, ih _ h.2 hpasses.2]
        by_cases hne : toks = []
        · exact Or.inl ⟨hne, rfl⟩
        · exact Or.inr (hend' hne)
      · have heof : t ≠ .eof := by
          rintro rfl
          cases hpasses
        have hhas : HasPrompt line ((p, t) :: toks) = HasPrompt (line ++ [(p, t)]) toks := by
          cases t <;> first | rfl | exact absurd rfl ht
        rw [hhas] at h
        rw [passes_token ht heof] at hpasses
        rw [List.cons_append, parseFrom_token ht heof, parseFrom_token ht heof, ih _ h hpasses]
        have hne : toks ≠ [] := by
          rintro rfl
          rcases hend with ⟨hnil, -⟩ | hend
          · cases hnil
          · exact ht (Option.some.inj hend)
        exact Or.inr (hend' hne)

/-- Some line of `s`, beginning at the start of `s` or behind a newline, is a prompt. -/
def PromptIn (s : CStr) : Prop :=
  ∃ x l y, s = x ++ l ++ '\n' :: y ∧ (x = [] ∨ x.getLast? = some '\n') ∧ l ∈ promptLines

theorem PromptIn.append {s : CStr} (h : PromptIn s) {u : CStr} (hu : u.getLast? = some '\n') :
    PromptIn (u ++ s) := by
  obtain ⟨x, l, y, rfl, hx, hl⟩ := h
  refine ⟨u ++ x, l, y, by simp, Or.inr ?_, hl⟩
  rcases hx with rfl | hx
  · simpa using hu
  · rw [List.getLast?_append_of_ne_nil _ (by rintro rfl; cases hx)]
    exact hx

/-- The text `g` of the current line, against the tokens the parser has of it. -/
def LineText (c : Config Start) (g : CStr) (line : List (Nat × Tok)) : Prop :=
  (line = [] ∧ g = [] ∧ AtLine c) ∨
    (¬ AtLine c ∧ line.map Prod.snd = [.gdbtk] ∧ (g = "(gdb)".toList ∨ g = "(gdb) ".toList)) ∨
      (¬ AtLine c ∧ line ≠ [] ∧ line.map Prod.snd ≠ [.gdbtk])

/-- The line of a prompt in the tokens is one in the text. -/
theorem promptIn_of_hasPrompt {c d : Config Start} {toks line : List (Nat × Tok)} {g : CStr}
    (h : Steps rules c toks d) (hg : LineText c g line) (hp : HasPrompt line toks) :
    PromptIn (g ++ c.rest) := by
  induction h generalizing line g with
  | refl => cases hp
  | @head c c₁ d tok toks hnext hsteps ih =>
      obtain ⟨hat, hnone⟩ := next_atLine hnext
      obtain ⟨u, hu, htext, -, hbol, hlex⟩ := next_lexed hnext
      cases tok with
      | none =>
          obtain ⟨rfl, rfl, -⟩ : line = [] ∧ g = [] ∧ AtLine c := by
            rcases hg with hg | hg | hg
            · exact hg
            · exact absurd (hnone rfl) hg.1
            · exact absurd (hnone rfl) hg.1
          have hat₁ : AtLine c₁ := hat.mpr (Or.inr rfl)
          have hlast : u.getLast? = some '\n' := by simpa [hat₁.2] using hbol.symm
          rw [List.nil_append, htext]
          exact (ih (Or.inl ⟨rfl, rfl, hat₁⟩) hp).append hlast
      | some t =>
          by_cases ht : t = .newline
          · subst ht
            have hat₁ : AtLine c₁ := hat.mpr (Or.inl rfl)
            have hlast : u.getLast? = some '\n' := by simpa [hat₁.2] using hbol.symm
            rcases hp with hp | hp
            · -- this newline ends the prompt
              have hgu : g = "(gdb)".toList ∨ g = "(gdb) ".toList := by
                rcases hg with hg | hg | hg
                · simp [hg.1] at hp
                · exact hg.2.2
                · exact absurd hp hg.2.2
              generalize c₁.st = st at hlex
              cases hlex with
              | newline _ hnl =>
                  rcases mem_newlinePattern.mp hnl with rfl | rfl
                  · refine ⟨[], g, c₁.rest, by simp [htext], Or.inl rfl, ?_⟩
                    rcases hgu with rfl | rfl <;> simp [promptLines]
                  · refine ⟨[], g ++ ['\r'], c₁.rest, by simp [htext], Or.inl rfl, ?_⟩
                    rcases hgu with rfl | rfl <;> simp [promptLines]
              | word _ _ hne _ => exact absurd rfl hne
            · rw [htext, ← List.append_assoc]
              refine (ih (g := []) (Or.inl ⟨rfl, rfl, hat₁⟩) hp).append ?_
              rw [List.getLast?_append_of_ne_nil _ hu, hlast]
          · have hat₁ : ¬ AtLine c₁ := by simpa [ht] using hat
            have hhas : HasPrompt (line ++ [(c.pos, t)]) toks := by
              cases t <;> first | exact hp | exact absurd rfl ht
            rw [htext, ← List.append_assoc]
            refine ih ?_ hhas
            right
            by_cases hprompt : line = [] ∧ t = .gdbtk
            · obtain ⟨rfl, rfl⟩ := hprompt
              have hgnil : g = [] := by
                rcases hg with hg | hg | hg
                · exact hg.2.1
                · simp at hg
                · exact absurd rfl hg.2.1
              generalize c₁.st = st at hlex
              cases hlex with
              | prompt _ hu => exact Or.inl ⟨hat₁, rfl, by simpa [hgnil] using hu⟩
              | word _ _ _ hne => exact absurd rfl hne
            · refine Or.inr ⟨hat₁, by simp, ?_⟩
              rw [List.map_append]
              cases line with
              | nil => simpa using hprompt
              | cons e line => simp

/-! ## Behind a clean text -/

/-- A clean text of lines is scanned as if nothing followed, and what follows begins a line. -/
theorem clean_steps {u : CStr} (hu : u = [] ∨ u.getLast? = some '\n') (h : Clean u) (v : CStr) :
    Steps rules (lexFrom (u ++ v)) (lex rules (lexFrom u)).1 ⟨u.length, .initial, true, v⟩ :=
  quotedScanner.steps_behind hu h.2.1 v

/-- Behind a newline token the text read ends with a newline. -/
theorem ends_of_newline {c d : Config Start} {toks : List (Nat × Tok)} (h : Steps rules c toks d)
    (hnl : toks.getLast?.map Prod.snd = some .newline) :
    AtLine d ∧ ∃ w, c.rest = w ++ '\n' :: d.rest ∧ d.pos = c.pos + w.length + 1 := by
  have hat : AtLine d := (steps_atLine_iff h).mpr (Or.inr hnl)
  obtain ⟨w, hw, hpos, hnil, hbol⟩ := h.bol
  have hne : w ≠ [] := by
    rintro rfl
    -- a token takes at least one character
    obtain ⟨e, he⟩ : ∃ e, e ∈ toks := by
      cases toks with
      | nil => cases hnl
      | cons e toks => exact ⟨e, List.mem_cons_self⟩
    have := h.mem_pos he
    simp only [List.length_nil] at hpos
    omega
  have hlast : w.getLast? = some '\n' := by
    have := hbol hne
    rw [hat.2] at this
    exact beq_iff_eq.mp this.symm
  obtain ⟨w, rfl⟩ := List.getLast?_eq_some_iff.mp hlast
  refine ⟨hat, w, by simpa using hw, ?_⟩
  rw [hpos, List.length_append, List.length_singleton, Nat.add_assoc]

theorem eq_of_append_newline {l w x : CStr} (hl : '\n' ∉ l) (h : l ++ ['\n'] = w ++ '\n' :: x) :
    l = w ∧ x = [] := by
  rcases List.append_eq_append_iff.mp h with ⟨y, rfl, hy⟩ | ⟨y, rfl, hy⟩
  · cases y with
    | nil => exact ⟨by simp, (List.cons.inj hy).2.symm⟩
    | cons a y =>
        have := congrArg List.length hy
        simp at this
  · cases y with
    | nil => exact ⟨by simp, (List.cons.inj hy).2⟩
    | cons a y =>
        obtain ⟨rfl, -⟩ := List.cons.inj hy
        exact absurd (by simp) hl

/-- A newline token ends the scan of a text with a newline at its end only. -/
theorem rest_of_newline {c d : Config Start} {toks : List (Nat × Tok)} {l : CStr} (hl : '\n' ∉ l)
    (hrest : c.rest = l ++ ['\n']) (h : Steps rules c toks d)
    (hnl : toks.getLast?.map Prod.snd = some .newline) :
    d = ⟨c.pos + l.length + 1, .initial, true, []⟩ := by
  obtain ⟨hat, w, hw, hpos⟩ := ends_of_newline h hnl
  obtain ⟨rfl, hd⟩ := eq_of_append_newline hl (hrest.symm.trans hw)
  obtain ⟨pos, st, bol, rest⟩ := d
  obtain ⟨rfl, rfl⟩ := hat
  simp only at hd hpos
  rw [hd, hpos]

theorem recordOf_eq_some {l : CStr} {call : Call} :
    recordOf l = some call ↔ outcomeOf l = .accepted call := by
  unfold recordOf
  obtain ⟨_ | _, value⟩ := outcomeOf l <;> simp

/-- The scan of a line has one newline, the last token. -/
theorem newline_notMem_line {l : CStr} (hl : '\n' ∉ l) {toks : List (Nat × Tok)} {p : Nat}
    {d : Config Start} (hsteps : Steps rules (lexFrom (l ++ ['\n'])) (toks ++ [(p, .newline)]) d) :
    ∀ e ∈ toks, e.2 ≠ .newline := by
  intro e he hnl
  obtain rfl := rest_of_newline hl rfl hsteps (by simp)
  -- the scan would have ended with this newline
  obtain ⟨toks₁, toks₂, rfl⟩ := List.append_of_mem he
  rw [show toks₁ ++ e :: toks₂ ++ [(p, Tok.newline)] =
    (toks₁ ++ [e]) ++ (toks₂ ++ [(p, Tok.newline)]) by simp] at hsteps
  obtain ⟨mid, h₁, h₂⟩ := hsteps.split
  obtain rfl := rest_of_newline hl rfl h₁ (by simpa using hnl)
  cases hs : toks₂ ++ [(p, Tok.newline)] with
  | nil => simp at hs
  | cons e toks =>
      rw [hs] at h₂
      have := h₂.mem_pos List.mem_cons_self
      omega

/-- The first token of a line is where the line begins. -/
theorem head_pos {l : CStr} (hl : '\n' ∉ l) {toks : List (Nat × Tok)} {p : Nat} {d : Config Start}
    (hsteps : Steps rules (lexFrom (l ++ ['\n'])) (toks ++ [(p, .newline)]) d) (hne : toks ≠ []) :
    toks.head?.map Prod.fst = some 0 := by
  obtain ⟨e, toks, rfl⟩ := List.exists_cons_of_ne_nil hne
  generalize hall : e :: toks ++ [(p, Tok.newline)] = all at hsteps
  cases hsteps with
  | refl => cases hall
  | @head _ c₁ _ tok rest hnext hsteps =>
      cases tok with
      | some t =>
          obtain ⟨rfl, -⟩ := List.cons.inj hall
          rfl
      | none =>
          -- without a token the whole line has been read
          obtain ⟨u, hu, htext, -, hbol, -⟩ := next_lexed hnext
          have hat : AtLine c₁ := (next_atLine hnext).1.mpr (Or.inr rfl)
          rw [hat.2] at hbol
          obtain ⟨u, rfl⟩ := List.getLast?_eq_some_iff.mp (beq_iff_eq.mp hbol.symm)
          rw [List.append_assoc] at htext
          obtain ⟨-, hnil⟩ := eq_of_append_newline hl htext
          have hall : e :: toks ++ [(p, Tok.newline)] = rest := hall
          cases hsteps with
          | refl => cases hall
          | head hnext _ => rw [next_of_rest_nil rules hnil] at hnext; cases hnext

/-- The tokens of a record, and the state behind it, whatever follows. -/
theorem record_steps {l : CStr} {call : Call} (hl : '\n' ∉ l) (h : (outcomeOf l).value = some call) :
    '\x00' ∉ l ∧ ∀ pos v, ∃ toks p, Steps rules ⟨pos, .initial, true, l ++ '\n' :: v⟩
      (toks ++ [(p, .newline)]) ⟨pos + l.length + 1, .initial, true, v⟩ ∧
        toks.head?.map Prod.fst = some pos ∧ (∀ e ∈ toks, e.2 ≠ .newline ∧ e.2 ≠ .eof) ∧
          record (toks.map Prod.snd) = outcomeOf l := by
  generalize hout : outcomeOf l = out at h ⊢
  rw [outcomeOf] at hout
  have hsteps := lex_steps rules (lexFrom (scanned (l ++ ['\n'])))
  generalize lex rules (lexFrom (scanned (l ++ ['\n']))) = r at hout hsteps
  obtain ⟨all, d⟩ := r
  simp only at hout hsteps
  split_ifs at hout with hends
  swap
  · rw [← hout] at h
    cases h
  obtain ⟨hlast, heof⟩ := hends
  rw [List.getLast?_map] at hlast
  have hnul : '\x00' ∉ l := by
    intro hmem
    obtain ⟨-, w, hw, -⟩ := ends_of_newline hsteps hlast
    rw [scanned_append_of_mem hmem] at hw
    have hin : '\n' ∈ scanned l := by
      have : '\n' ∈ w ++ '\n' :: d.rest := by simp
      rwa [← hw] at this
    exact hl (List.takeWhile_subset _ hin)
  refine ⟨hnul, fun pos v => ?_⟩
  rw [scanned_of_notMem (by simpa using hnul)] at hsteps
  obtain rfl := rest_of_newline hl rfl hsteps hlast
  obtain ⟨⟨p, t⟩, he, ht⟩ := Option.map_eq_some_iff.mp hlast
  obtain ⟨toks, rfl⟩ := List.getLast?_eq_some_iff.mp he
  simp only at ht
  subst ht
  rw [List.map_append, List.map_singleton, List.dropLast_concat] at hout
  have hnl := newline_notMem_line hl hsteps
  have hhead : toks.head?.map Prod.fst = some 0 := by
    refine head_pos hl hsteps ?_
    rintro rfl
    rw [← hout] at h
    cases h
  have hclosed := quotedScanner.steps_append hsteps rfl (Or.inr List.getLast?_concat) v
  have hshift := hclosed.shift pos
  refine ⟨shiftToks pos toks, p + pos, ?_, ?_, ?_, ?_⟩
  · have hstart : ((lexFrom (l ++ ['\n'])).append v).shift pos =
        ⟨pos, .initial, true, l ++ '\n' :: v⟩ := by simp [lexFrom, Config.append, Config.shift]
    have hend : ((Config.mk ((lexFrom (l ++ ['\n'])).pos + l.length + 1) Start.initial true []).append
        v).shift pos = ⟨pos + l.length + 1, .initial, true, v⟩ := by
      simp only [lexFrom, Config.append, Config.shift, List.nil_append, Config.mk.injEq, and_true]
      omega
    have htoks : shiftToks pos (toks ++ [(p, Tok.newline)]) =
        shiftToks pos toks ++ [(p + pos, .newline)] := by simp [shiftToks]
    rwa [hstart, hend, htoks] at hshift
  · obtain ⟨e, he, hpos⟩ := Option.map_eq_some_iff.mp hhead
    rw [shiftToks, List.head?_map, he]
    simp [hpos]
  · intro e he
    obtain ⟨e', he', rfl⟩ := List.mem_map.mp he
    refine ⟨hnl e' he', fun h => heof ?_⟩
    rw [List.map_append]
    exact List.mem_append_left _ (List.mem_map.mpr ⟨e', he', h⟩)
  · rw [shiftToks, List.map_map]
    exact hout

theorem callsAt_append (pos : Nat) (log log' : List (Nat × Call)) :
    callsAt pos (log ++ log') = callsAt pos log ++ callsAt pos log' := List.filterMap_append

theorem callsAt_eq_nil {pos : Nat} {log : List (Nat × Call)} (h : ∀ e ∈ log, e.1 ≠ pos) :
    callsAt pos log = [] := by
  rw [callsAt, List.filterMap_eq_nil_iff]
  intro e he
  rw [if_neg (h e he)]

/-- A line is read up to its newline. -/
theorem parseFrom_line {line toks : List (Nat × Tok)} (p : Nat) (rest : List (Nat × Tok))
    (h : ∀ e ∈ toks, e.2 ≠ .newline ∧ e.2 ≠ .eof) :
    parseFrom line (toks ++ (p, .newline) :: rest) =
      parseFrom (line ++ toks) ((p, .newline) :: rest) := by
  induction toks generalizing line with
  | nil => rw [List.append_nil, List.nil_append]
  | cons e toks ih =>
      obtain ⟨q, t⟩ := e
      obtain ⟨hnewline, heof⟩ := h (q, t) List.mem_cons_self
      rw [List.cons_append, parseFrom_token hnewline heof, ih fun e he => h e (List.mem_cons_of_mem _ he),
        List.append_assoc, List.singleton_append]

theorem passes_line {line toks : List (Nat × Tok)} (p : Nat) (rest : List (Nat × Tok))
    (h : ∀ e ∈ toks, e.2 ≠ .newline ∧ e.2 ≠ .eof) :
    passes line (toks ++ (p, .newline) :: rest) =
      (!(record ((line ++ toks).map Prod.snd)).faults && passes [] rest) := by
  induction toks generalizing line with
  | nil =>
      rw [List.append_nil, List.nil_append]
      rfl
  | cons e toks ih =>
      obtain ⟨q, t⟩ := e
      obtain ⟨hnewline, heof⟩ := h (q, t) List.mem_cons_self
      rw [List.cons_append, passes_token hnewline heof, ih fun e he => h e (List.mem_cons_of_mem _ he),
        List.append_assoc, List.singleton_append]

/-- The calls for a text of clean lines and what follows it: those for the lines, all of them made
for earlier offsets, and those for what follows. -/
theorem gdbparse_of_clean {pre : List CStr} (hpre : ∀ l ∈ pre, '\n' ∉ l ∧ l ∉ promptLines)
    (hclean : Clean (text pre)) (v : CStr) :
    ∃ log, (∀ e ∈ log, e.1 < (text pre).length) ∧ gdbparse (text pre ++ v) = log ++
      parseFrom [] (lex rules ⟨(text pre).length, .initial, true, scanned v⟩).1 := by
  have hsteps := clean_steps (text_ends pre) hclean (scanned v)
  have hown := clean_steps (text_ends pre) hclean []
  rw [List.append_nil] at hown
  refine ⟨parseFrom [] (lex rules (lexFrom (text pre))).1, fun e he => ?_, ?_⟩
  · rcases mem_parseFrom hown (iff_of_true rfl ⟨rfl, rfl⟩) he with h | ⟨_, _, _, _, _, h, -⟩
    · cases h
    · exact h
  · rw [gdbparse, scanned_append hclean.1, hsteps.lex]
    refine parseFrom_append _ ?_ (fun hp => ?_) hclean.2.2
    · rcases (steps_atLine_iff hown).mp ⟨rfl, rfl⟩ with h | h
      · exact Or.inl ⟨h.1, rfl⟩
      · exact Or.inr h
    · obtain ⟨x, l, y, htext, hx, hl⟩ :=
        promptIn_of_hasPrompt hown (Or.inl ⟨rfl, rfl, rfl, rfl⟩) hp
      have hnl : '\n' ∉ l := by
        simp only [promptLines, List.mem_cons, List.not_mem_nil, or_false] at hl
        rcases hl with rfl | rfl | rfl | rfl <;> decide
      have hmem := mem_of_text_eq (fun l hl => (hpre l hl).1) hnl hx htext
      exact (hpre l hmem).2 hl

/-- Every call for a line that begins at or behind `pos` has such an offset. -/
theorem le_of_mem_parseFrom {c : Config Start} (hc : AtLine c) {e : Nat × Call}
    (h : e ∈ parseFrom [] (lex rules c).1) : c.pos ≤ e.1 := by
  rcases mem_parseFrom (lex_steps rules c) (iff_of_true rfl hc) h with h | ⟨_, _, hsteps, _, hpos, _⟩
  · cases h
  · obtain ⟨u, -, hpos'⟩ := hsteps.pos
    omega

/-- Behind clean lines a record is dispatched exactly once, with the call it has on its own. -/
theorem callsAt_of_clean {pre : List CStr} (hpre : ∀ l ∈ pre, '\n' ∉ l ∧ l ∉ promptLines)
    (hclean : Clean (text pre)) {l : CStr} {call : Call} (hl : '\n' ∉ l)
    (hcall : recordOf l = some call) (v : CStr) :
    callsAt (text pre).length (gdbparse (text pre ++ (l ++ '\n' :: v))) = [call] := by
  obtain ⟨log, hlog, hparse⟩ := gdbparse_of_clean hpre hclean (l ++ '\n' :: v)
  have hout := recordOf_eq_some.mp hcall
  obtain ⟨hnul, hrecord⟩ := record_steps hl (congrArg Outcome.value hout)
  have hscan : scanned (l ++ '\n' :: v) = l ++ '\n' :: scanned v := by
    rw [scanned_append hnul, scanned_cons, if_neg (by decide)]
  obtain ⟨toks, p, hsteps, hhead, hnl, hrec⟩ := hrecord (text pre).length (scanned v)
  have hprompt : toks.map Prod.snd ≠ [.gdbtk] := by
    intro h
    rw [h, hout] at hrec
    cases hrec
  rw [hparse, hscan, hsteps.lex, callsAt_append, callsAt_eq_nil fun e he => (hlog e he).ne,
    List.nil_append]
  simp only [List.append_assoc, List.singleton_append]
  rw [parseFrom_line _ _ hnl, List.nil_append, parseFrom, if_neg hprompt, hrec, hout, if_neg Bool.false_ne_true]
  obtain ⟨e, toks, rfl⟩ : ∃ e ts, toks = e :: ts := by
    cases toks with
    | nil => cases hhead
    | cons e toks => exact ⟨e, toks, rfl⟩
  have hpos : e.1 = (text pre).length := Option.some.inj hhead
  have hrest : ∀ e ∈ parseFrom [] (lex rules
      ⟨(text pre).length + l.length + 1, .initial, true, scanned v⟩).1, e.1 ≠ (text pre).length := by
    intro e he
    have := le_of_mem_parseFrom (c := ⟨(text pre).length + l.length + 1, .initial, true, scanned v⟩)
      ⟨rfl, rfl⟩ he
    simp only at this
    omega
  rw [callsAt, List.filterMap_cons, ← callsAt, callsAt_eq_nil hrest]
  simp [hpos]

/-- Behind lines that are not clean nothing is dispatched for a line. -/
theorem callsAt_of_not_clean {u : CStr} (h : ¬ Clean u) (v : CStr) :
    callsAt u.length (gdbparse (u ++ v)) = [] := by
  refine callsAt_eq_nil fun e he hpos => h ?_
  obtain ⟨o, call⟩ := e
  simp only at hpos
  subst hpos
  have hsteps := lex_steps rules (lexFrom (scanned (u ++ v)))
  rcases mem_parseFrom hsteps (iff_of_true rfl ⟨rfl, rfl⟩) he with
    h | ⟨toks, mid, hmid, hat, hpos, hlt, hpasses⟩
  · cases h
  · obtain ⟨x, hx, hend⟩ := hsteps.pos
    have hlen : u.length < (scanned (u ++ v)).length := by
      have hlen := congrArg List.length hx
      rw [List.length_append] at hlen
      have hstart : (lexFrom (scanned (u ++ v))).rest = scanned (u ++ v) := rfl
      have hzero : (lexFrom (scanned (u ++ v))).pos = 0 := rfl
      rw [hstart] at hlen
      omega
    have hnul : '\x00' ∉ u := by
      intro hmem
      rw [scanned_append_of_mem hmem] at hlen
      have := (List.takeWhile_sublist (fun c : Char => decide (c ≠ '\x00')) (l := u)).length_le
      simp only [scanned] at hlen
      omega
    refine ⟨hnul, ?_⟩
    -- the scan reaches the end of `u`, and so does the scan of `u` alone
    rw [scanned_append hnul] at hmid
    obtain ⟨c₁, rfl, hown⟩ := hmid.of_append (c := lexFrom u) (by simp [lexFrom, hpos])
    obtain ⟨w, hw, hwpos⟩ := hown.pos
    have hrest : c₁.rest = [] := by
      have := congrArg List.length hw
      rw [List.length_append] at this
      simp only [lexFrom, Config.append] at this hwpos hpos
      exact List.length_eq_zero_iff.mp (by omega)
    rw [hown.lex, lex_of_none (next_of_rest_nil rules hrest)]
    exact ⟨hat.1, by rwa [List.append_nil]⟩

/-! ## Malformed lines -/

/-- The line is a record. -/
def isRecord (l : CStr) : Bool := (outcomeOf l).value.isSome

/-- The actions for each record among the lines go through. -/
def Survived (lines : List CStr) : Prop := ∀ l ∈ lines, isRecord l = true → (outcomeOf l).faults = false

/-- Every record among the lines is dispatched as it is when the other lines are removed. -/
def Isolated (lines : List CStr) : Prop :=
  ∀ pre l post, lines = pre ++ l :: post → isRecord l = true →
    callsAt (text pre).length (gdbparse (text lines ++ prompt)) =
      callsAt (text (pre.filter isRecord)).length
        (gdbparse (text (lines.filter isRecord) ++ prompt))

/-- Nothing is dispatched for a line during which the process ends. -/
theorem callsAt_of_faults {pre : List CStr} (hpre : ∀ l ∈ pre, '\n' ∉ l ∧ l ∉ promptLines)
    (hclean : Clean (text pre)) {l : CStr} (hl : '\n' ∉ l) (hrec : isRecord l = true)
    (hfaults : (outcomeOf l).faults = true) (v : CStr) :
    callsAt (text pre).length (gdbparse (text pre ++ (l ++ '\n' :: v))) = [] := by
  obtain ⟨log, hlog, hparse⟩ := gdbparse_of_clean hpre hclean (l ++ '\n' :: v)
  obtain ⟨call, hcall⟩ := Option.isSome_iff_exists.mp hrec
  obtain ⟨hnul, hline⟩ := record_steps hl hcall
  have hscan : scanned (l ++ '\n' :: v) = l ++ '\n' :: scanned v := by
    rw [scanned_append hnul, scanned_cons, if_neg (by decide)]
  obtain ⟨toks, p, hsteps, -, hnl, hrecord⟩ := hline (text pre).length (scanned v)
  rw [hparse, hscan, hsteps.lex, callsAt_append, callsAt_eq_nil fun e he => (hlog e he).ne,
    List.nil_append]
  simp only [List.append_assoc, List.singleton_append]
  rw [parseFrom_line _ _ hnl, List.nil_append, parseFrom, hrecord, if_pos hfaults, ite_self]
  rfl

/-- What is dispatched for a record behind other lines. -/
theorem callsAt_record {pre : List CStr} (hpre : ∀ l ∈ pre, '\n' ∉ l ∧ l ∉ promptLines) {l : CStr}
    (hl : '\n' ∉ l) (hrec : isRecord l = true) (v : CStr) :
    callsAt (text pre).length (gdbparse (text pre ++ (l ++ '\n' :: v))) =
      if Clean (text pre) then (recordOf l).toList else [] := by
  split
  · next hclean =>
      obtain ⟨call, hcall⟩ := Option.isSome_iff_exists.mp hrec
      unfold recordOf
      split
      · next hfaults => exact callsAt_of_faults hpre hclean hl hrec hfaults v
      · next hfaults =>
          have hsome : recordOf l = some call := by rw [recordOf, if_neg hfaults, hcall]
          rw [callsAt_of_clean hpre hclean hl hsome, hcall]
          rfl
  · next hclean => exact callsAt_of_not_clean hclean _

/-- The parser gets through records alone iff the actions for each go through. -/
theorem clean_records_iff {lines : List CStr} (hlines : ∀ l ∈ lines, '\n' ∉ l ∧ isRecord l = true) :
    Clean (text lines) ↔ ∀ l ∈ lines, (outcomeOf l).faults = false := by
  have hsteps : '\x00' ∉ text lines ∧ ∀ pos v, ∃ toks,
      Steps rules ⟨pos, .initial, true, text lines ++ v⟩ toks
        ⟨pos + (text lines).length, .initial, true, v⟩ ∧
      (passes [] toks = true ↔ ∀ l ∈ lines, (outcomeOf l).faults = false) := by
    induction lines with
    | nil => exact ⟨by simp, fun pos v => ⟨[], Steps.refl _, by simp [passes]⟩⟩
    | cons l lines ih =>
        obtain ⟨hl, hrec⟩ := hlines l List.mem_cons_self
        obtain ⟨call, hcall⟩ := Option.isSome_iff_exists.mp hrec
        obtain ⟨hnul, hline⟩ := record_steps hl hcall
        obtain ⟨hnul', hrest⟩ := ih fun l hl => hlines l (List.mem_cons_of_mem _ hl)
        refine ⟨by simp [hnul, hnul'], fun pos v => ?_⟩
        obtain ⟨toks, p, h, -, hnl, hrecord⟩ := hline pos (text lines ++ v)
        obtain ⟨toks', h', hpasses⟩ := hrest (pos + l.length + 1) v
        refine ⟨(toks ++ [(p, .newline)]) ++ toks', ?_, ?_⟩
        · have hlen : pos + (text (l :: lines)).length =
              pos + l.length + 1 + (text lines).length := by
            rw [text_cons, List.length_append, List.length_cons]
            omega
          rw [hlen, text_cons, List.append_assoc, List.cons_append]
          exact h.trans h'
        · rw [List.append_assoc, List.singleton_append, passes_line _ _ hnl, List.nil_append, hrecord,
            Bool.and_eq_true, Bool.not_eq_true', hpasses, List.forall_mem_cons]
  obtain ⟨toks, h, hpasses⟩ := hsteps.2 0 []
  rw [List.append_nil] at h
  have hlex : lex rules (lexFrom (text lines)) = (toks, ⟨0 + (text lines).length, .initial, true, []⟩) := by
    rw [show lexFrom (text lines) = ⟨0, .initial, true, text lines⟩ from rfl, h.lex,
      lex_of_none (next_of_rest_nil rules rfl), List.append_nil]
  unfold Clean
  rw [hlex]
  exact ⟨fun h => hpasses.mp h.2.2, fun h => ⟨hsteps.1, rfl, hpasses.mpr h⟩⟩

/-- The records among the lines are dispatched as if the other lines were not there, iff for each of
them that is dispatched on its own the parser gets through the text before it just in case it gets
through the records there. -/
theorem records_isolated_iff {lines : List CStr}
    (hlines : ∀ l ∈ lines, '\n' ∉ l ∧ l ∉ promptLines) :
    Isolated lines ↔ ∀ pre l post, lines = pre ++ l :: post → recordOf l ≠ none →
      (Clean (text pre) ↔ Survived pre) := by
  -- what is dispatched for a record, among all lines and among the records
  have hcalls : ∀ pre l post, lines = pre ++ l :: post → isRecord l = true →
      callsAt (text pre).length (gdbparse (text lines ++ prompt)) =
        (if Clean (text pre) then (recordOf l).toList else []) ∧
      callsAt (text (pre.filter isRecord)).length
        (gdbparse (text (lines.filter isRecord) ++ prompt)) =
          if Clean (text (pre.filter isRecord)) then (recordOf l).toList else [] := by
    rintro pre l post rfl hrec
    have hpre : ∀ l ∈ pre, '\n' ∉ l ∧ l ∉ promptLines := fun l hl =>
      hlines l (List.mem_append_left _ hl)
    have hl := (hlines l (by simp)).1
    constructor
    · rw [text_append, text_cons, List.append_assoc, List.append_assoc, List.cons_append]
      exact callsAt_record hpre hl hrec _
    · rw [List.filter_append, List.filter_cons_of_pos hrec, text_append, text_cons, List.append_assoc,
        List.append_assoc, List.cons_append]
      exact callsAt_record (fun l hl => hpre l (List.mem_of_mem_filter hl)) hl hrec _
  have hkept : ∀ pre l post, lines = pre ++ l :: post →
      (Clean (text (pre.filter isRecord)) ↔ Survived pre) := by
    rintro pre l post rfl
    rw [clean_records_iff fun k hk =>
      ⟨(hlines k (List.mem_append_left _ (List.mem_of_mem_filter hk))).1, (List.mem_filter.mp hk).2⟩]
    simp only [Survived, List.mem_filter, and_imp]
  constructor
  · intro hiso pre l post hsplit hdispatched
    obtain ⟨call, hcall⟩ := Option.ne_none_iff_exists'.mp hdispatched
    have hrec : isRecord l = true := by
      unfold isRecord
      rw [recordOf_eq_some.mp hcall]
      rfl
    have h := hiso pre l post hsplit hrec
    obtain ⟨hall, hrecords⟩ := hcalls pre l post hsplit hrec
    rw [hall, hrecords, hcall] at h
    rw [← hkept pre l post hsplit]
    split_ifs at h with h₁ h₂ h₂
    · exact iff_of_true h₁ h₂
    · cases h
    · cases h
    · exact iff_of_false h₁ h₂
  · intro hclean pre l post hsplit hrec
    obtain ⟨hall, hrecords⟩ := hcalls pre l post hsplit hrec
    rw [hall, hrecords]
    by_cases hdispatched : recordOf l = none
    · rw [hdispatched, Option.toList_none, ite_self, ite_self]
    · have hiff := (hclean pre l post hsplit hdispatched).trans (hkept pre l post hsplit).symm
      exact if_congr hiff rfl rfl

/-- Ordinary output of the program in front of a result leaves the result alone. -/
theorem records_isolated_behind_output : Isolated ["foo: 3".toList, "1^done".toList] := by
  refine (records_isolated_iff (by decide +kernel)).mpr ?_
  intro pre l post h _
  rcases pre with _ | ⟨a, _ | ⟨b, pre⟩⟩
  · exact iff_of_true (by decide +kernel) nofun
  · obtain ⟨rfl, -⟩ := List.cons.inj h
    refine iff_of_true (by decide +kernel) fun k hk hrec => ?_
    obtain rfl := List.mem_singleton.mp hk
    revert hrec
    decide +kernel
  · simp at h

/-- A quote in the output of the program swallows the result behind it. -/
theorem records_not_isolated_behind_quote : ¬ Isolated ["5\" long".toList, "1^done".toList] := by
  intro h
  have := h ["5\" long".toList] "1^done".toList [] rfl (by decide +kernel)
  revert this
  decide +kernel

end Vimgdb.Gdb
