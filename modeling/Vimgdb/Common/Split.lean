import Mathlib.Data.List.Infix
import Vimgdb.Common.Strings
import Vimgdb.Lib.Buffer

/-!
# Splitting a command line

`strsplit` scans a line twice: it counts the arguments, and then allocates and writes them.  The
passes differ in the escape sequences that they know.

Indices and counts are natural numbers.  The source has `unsigned int` and `int`, which do not wrap while
a line is shorter than 2^31 characters.

* `scanArg`: the end of an argument, for both passes.
* `strsplit`: the splitting pass writes what is allocated by the counting pass.
* `strsplit_eq`: what `strsplit` does, in terms of the arguments of a line.
* `Clear`: every quote behind backslashes stands behind an odd number of them.
* `agree_on_prefixes_iff`: the passes agree on a line and its beginnings iff it is clear.
-/

namespace Vimgdb.Strsplit

open Buffers

/-! ## The passes -/

/-- The characters that the counting pass takes together with a backslash in front of them. -/
def counting (c : Char) : Bool := c == '"'

/-- The characters that the splitting pass takes together with a backslash in front of them. -/
def splitting (c : Char) : Bool := (deescapeChar c).isSome

/-- `while(++i < len && line[i] == ' ')` -/
def skipBlanks (s : CStr) : CStr := s.dropWhile (· == ' ')

/-- The loops for the quoted text (`inside`) and the unquoted text of an argument: `arg_len`, and
the line from the end of the argument on.  Without a closing quote `i` goes beyond the end. -/
def scanArg (skips : Char → Bool) : Bool → CStr → Option (Nat × CStr)
  | false, [] => some (0, [])
  | true, [] => none
  | false, ' ' :: s => some (0, ' ' :: s)
  | inside, '"' :: s => scanArg skips (!inside) s
  | inside, '\\' :: c :: s =>
      if skips c then (scanArg skips inside s).map fun r => (r.1 + 1, r.2)
      else (scanArg skips inside (c :: s)).map fun r => (r.1 + 1, r.2)
  | inside, _ :: s => (scanArg skips inside s).map fun r => (r.1 + 1, r.2)

variable {skips : Char → Bool} {inside : Bool} {s r : CStr} {n : Nat}

theorem scanArg_quote : scanArg skips inside ('"' :: s) = scanArg skips (!inside) s := by
  cases inside <;> rfl

theorem scanArg_skip {c : Char} (h : skips c = true) : scanArg skips inside ('\\' :: c :: s) =
    (scanArg skips inside s).map fun r => (r.1 + 1, r.2) := by
  cases inside <;> simp [scanArg, h]

/-- The character `c` in front of `s` is one of the argument, and stands for itself. -/
structure Plain (skips : Char → Bool) (inside : Bool) (c : Char) (s : CStr) : Prop where
  quote : c ≠ '"'
  blank : inside = false → c ≠ ' '
  escape : c = '\\' → ∀ d t, s = d :: t → skips d = false

theorem scanArg_plain {c : Char} (h : Plain skips inside c s) : scanArg skips inside (c :: s) =
    (scanArg skips inside s).map fun r => (r.1 + 1, r.2) := by
  obtain ⟨hq, hb, he⟩ := h
  by_cases hc : c = '\\'
  · subst hc
    cases s with
    | nil => cases inside <;> rfl
    | cons d t =>
        have hskip := he rfl d t rfl
        cases inside <;> simp [scanArg, hskip]
  · rw [scanArg] <;> simp_all

/-- What the next character of an argument can be. -/
theorem scanArg_cases (skips : Char → Bool) (inside : Bool) (c : Char) (s : CStr) :
    c = '"' ∨ c = ' ' ∧ inside = false ∨ (∃ d t, c = '\\' ∧ s = d :: t ∧ skips d = true) ∨
      Plain skips inside c s := by
  by_cases hq : c = '"'
  · exact .inl hq
  by_cases hb : c = ' ' ∧ inside = false
  · exact .inr (.inl hb)
  by_cases he : ∃ d t, c = '\\' ∧ s = d :: t ∧ skips d = true
  · exact .inr (.inr (.inl he))
  · refine .inr (.inr (.inr ⟨hq, fun hi hc => hb ⟨hc, hi⟩, fun hc d t hs => ?_⟩))
    by_contra hskip
    exact he ⟨d, t, hc, hs, (Bool.not_eq_false _).mp hskip⟩

/-- Induction along the characters of an argument. -/
theorem scanArg_induction (skips : Char → Bool) {motive : Bool → CStr → Prop}
    (nil : ∀ inside, motive inside [])
    (quote : ∀ inside s, motive (!inside) s → motive inside ('"' :: s))
    (blank : ∀ s, motive false (' ' :: s))
    (skip : ∀ inside c s, skips c = true → motive inside s → motive inside ('\\' :: c :: s))
    (plain : ∀ inside c s, Plain skips inside c s → motive inside s → motive inside (c :: s))
    (inside : Bool) (s : CStr) : motive inside s := by
  induction hlen : s.length using Nat.strong_induction_on generalizing s inside with
  | _ k ih =>
      subst hlen
      cases s with
      | nil => exact nil inside
      | cons c s =>
          have hlt : s.length < (c :: s).length := Nat.lt_succ_self _
          rcases scanArg_cases skips inside c s with
            rfl | ⟨rfl, rfl⟩ | ⟨d, t, rfl, rfl, hskip⟩ | hplain
          · exact quote inside s (ih _ hlt _ s rfl)
          · exact blank s
          · exact skip inside d t hskip (ih _ (Nat.lt_succ_of_lt (Nat.lt_succ_self _)) _ t rfl)
          · exact plain inside c s hplain (ih _ hlt _ s rfl)

/-- What is left is the end of the line. -/
theorem suffix_of_scanArg (h : scanArg skips inside s = some (n, r)) : r <:+ s := by
  induction inside, s using scanArg_induction skips generalizing n with
  | nil inside =>
      cases inside <;> cases h
      exact List.suffix_rfl
  | quote inside s ih =>
      rw [scanArg_quote] at h
      exact (ih h).trans (List.suffix_cons _ _)
  | blank s =>
      cases h
      exact List.suffix_rfl
  | skip inside c s hskip ih =>
      rw [scanArg_skip hskip] at h
      obtain ⟨⟨m, r'⟩, hr, heq⟩ := Option.map_eq_some_iff.mp h
      cases heq
      exact (ih hr).trans ((List.suffix_cons _ _).trans (List.suffix_cons _ _))
  | plain inside c s hplain ih =>
      rw [scanArg_plain hplain] at h
      obtain ⟨⟨m, r'⟩, hr, heq⟩ := Option.map_eq_some_iff.mp h
      cases heq
      exact (ih hr).trans (List.suffix_cons _ _)

/-- An argument that does not begin with a blank has a character. -/
theorem length_scanArg_lt {c : Char} (hc : c ≠ ' ')
    (h : scanArg skips false (c :: s) = some (n, r)) : r.length < (c :: s).length := by
  have hrest : ∀ {inside t m}, scanArg skips inside t = some (m, r) → t.length ≤ s.length →
      r.length < (c :: s).length := fun ht hle =>
    Nat.lt_succ_of_le ((suffix_of_scanArg ht).length_le.trans hle)
  rcases scanArg_cases skips false c s with
    rfl | ⟨rfl, -⟩ | ⟨d, t, rfl, rfl, hskip⟩ | hplain
  · rw [scanArg_quote] at h
    exact hrest h (Nat.le_refl _)
  · exact absurd rfl hc
  · rw [scanArg_skip hskip] at h
    obtain ⟨⟨m, r'⟩, hr, heq⟩ := Option.map_eq_some_iff.mp h
    cases heq
    exact hrest hr (Nat.le_succ _)
  · rw [scanArg_plain hplain] at h
    obtain ⟨⟨m, r'⟩, hr, heq⟩ := Option.map_eq_some_iff.mp h
    cases heq
    exact hrest hr (Nat.le_refl _)

/-- What is left behind the blanks does not begin with a blank. -/
theorem skipBlanks_cons {c : Char} {t : CStr} (h : skipBlanks s = c :: t) :
    c ≠ ' ' ∧ (c :: t).length ≤ s.length := by
  unfold skipBlanks at h
  constructor
  · rintro rfl
    have hhead := List.head_dropWhile_not (· == ' ') (l := s)
      (by rw [h]; exact List.cons_ne_nil _ _)
    simp only [h, List.head_cons] at hhead
    exact absurd hhead (by decide)
  · rw [← h]
    exact (List.dropWhile_suffix _).length_le

theorem skipBlanks_of_ne {c : Char} (hc : c ≠ ' ') (s : CStr) : skipBlanks (c :: s) = c :: s := by
  unfold skipBlanks
  rw [List.dropWhile_cons_of_neg]
  rwa [beq_iff_eq]

/-- One round of the outer loop: the blanks are skipped; `arg_len`, the text from `start` to `i`,
and the line from `i` on.  Where there is none the loop is left. -/
def nextArg (skips : Char → Bool) (s : CStr) : Option (Nat × CStr × CStr) :=
  match skipBlanks s with
  | [] => none
  | c :: t => (scanArg skips false (c :: t)).map fun r =>
      (r.1, (c :: t).take ((c :: t).length - r.2.length), r.2)

/-- A round finds an argument behind some blanks. -/
theorem nextArg_spec {text : CStr} (h : nextArg skips s = some (n, text, r)) :
    ∃ c t, skipBlanks s = c :: t ∧ c ≠ ' ' ∧ scanArg skips false (c :: t) = some (n, r) ∧
      c :: t = text ++ r := by
  unfold nextArg at h
  split at h
  · cases h
  · rename_i c t hs
    obtain ⟨⟨m, r'⟩, hr, heq⟩ := Option.map_eq_some_iff.mp h
    cases heq
    refine ⟨c, t, hs, (skipBlanks_cons hs).1, hr, ?_⟩
    obtain ⟨text, htext⟩ := suffix_of_scanArg hr
    rw [← htext, List.length_append, Nat.add_sub_cancel, List.take_left]

theorem nextArg_of_scanArg_none {c : Char} (hc : c ≠ ' ') (h : scanArg skips false (c :: s) = none) :
    nextArg skips (c :: s) = none := by
  unfold nextArg
  rw [skipBlanks_of_ne hc]
  dsimp only
  rw [h]
  rfl

theorem length_nextArg_lt {text : CStr} (h : nextArg skips s = some (n, text, r)) :
    r.length < s.length := by
  obtain ⟨c, t, hs, hc, hscan, -⟩ := nextArg_spec h
  exact Nat.lt_of_lt_of_le (length_scanArg_lt hc hscan) (skipBlanks_cons hs).2

/-- The counting pass. -/
def countArgs (s : CStr) : Nat :=
  match h : nextArg counting s with
  | none => 0
  | some (_, _, r) => countArgs r + 1
termination_by s.length
decreasing_by exact length_nextArg_lt h

section

-- what allocated memory contains
variable (junk : Char)

/-- The loop that copies `line` from `start` to `i` to `argv[argc]`.  A backslash at the end is
followed by a blank or by 0. -/
def copyArg (mem : CStr) (j : Nat) : CStr → Option CStr
  | [] => write mem j '\x00'
  | '"' :: s => copyArg mem j s
  | ['\\'] => do copyArg (← write mem j '\\') (j + 1) []
  | '\\' :: c :: s =>
      match deescapeChar c with
      | some d => do copyArg (← write mem j d) (j + 1) s
      | none => do copyArg (← write mem j '\\') (j + 1) (c :: s)
  | c :: s => do copyArg (← write mem j c) (j + 1) s

/-- The splitting pass, from a state of `argv` on: `argv` and `argc` at the end. -/
def splitArgs (argv : List CStr) (argc : Nat) (s : CStr) : Option (List CStr × Nat) :=
  match h : nextArg splitting s with
  | none => some (argv, argc)
  | some (argLen, text, r) => do
      let arg ← copyArg (List.replicate (argLen + 1) junk) 0 text
      let argv ← write argv argc arg
      splitArgs argv (argc + 1) r
termination_by s.length
decreasing_by exact length_nextArg_lt h

/-- `strsplit`: `argv` and `argc`.  It fails when a write is outside of what is allocated. -/
def strsplit (line : CStr) : Option (List CStr × Nat) :=
  splitArgs junk (List.replicate (countArgs line) []) 0 line

end

/-! ## What is copied -/

/-- The characters that are copied for an argument. -/
def copied : CStr → CStr
  | [] => []
  | '"' :: s => copied s
  | ['\\'] => ['\\']
  | '\\' :: c :: s =>
      match deescapeChar c with
      | some d => d :: copied s
      | none => '\\' :: copied (c :: s)
  | c :: s => c :: copied s

theorem copied_skip {c d : Char} (h : deescapeChar c = some d) :
    copied ('\\' :: c :: s) = d :: copied s := by
  rw [copied, h]

theorem copied_plain {c : Char} (hq : c ≠ '"')
    (he : c = '\\' → ∀ d t, s = d :: t → splitting d = false) :
    copied (c :: s) = c :: copied s := by
  by_cases hc : c = '\\'
  · subst hc
    cases s with
    | nil => rfl
    | cons d t =>
        have hnone : deescapeChar d = none := by
          rw [← Option.not_isSome_iff_eq_none]
          exact Bool.eq_false_iff.mp (he rfl d t rfl)
        rw [copied, hnone]
  · rw [copied] <;> simp_all

/-- The copy loop stores them, and the terminating 0. -/
theorem copyArg_eq (mem : CStr) (j : Nat) (s : CStr) :
    copyArg mem j s = store mem j (copied s ++ ['\x00']) := by
  fun_induction copyArg mem j s with
  | case1 mem j => exact (Option.bind_fun_some _).symm
  | case2 mem j s ih => exact ih
  | case3 mem j ih => exact congrArg (Option.bind _) (funext ih)
  | case4 mem j c s d h ih =>
      rw [copied_skip h]
      exact congrArg (Option.bind _) (funext ih)
  | case5 mem j c s h ih =>
      have hcopied : copied ('\\' :: c :: s) = '\\' :: copied (c :: s) := by rw [copied, h]
      rw [hcopied]
      exact congrArg (Option.bind _) (funext ih)
  | case6 mem j c s hq hlast hnext ih =>
      rw [copied] <;> try assumption
      exact congrArg (Option.bind _) (funext ih)

/-- The splitting pass knows the text of an argument and how many characters are copied. -/
theorem copied_of_scanArg (h : scanArg splitting inside s = some (n, r)) :
    ∃ text, s = text ++ r ∧ (copied text).length = n := by
  induction inside, s using scanArg_induction splitting generalizing n with
  | nil inside =>
      cases inside <;> cases h
      exact ⟨[], rfl, rfl⟩
  | quote inside s ih =>
      rw [scanArg_quote] at h
      obtain ⟨text, rfl, hlen⟩ := ih h
      exact ⟨'"' :: text, rfl, hlen⟩
  | blank s =>
      cases h
      exact ⟨[], rfl, rfl⟩
  | skip inside c s hskip ih =>
      rw [scanArg_skip hskip] at h
      obtain ⟨⟨m, r'⟩, hr, heq⟩ := Option.map_eq_some_iff.mp h
      cases heq
      obtain ⟨text, rfl, hlen⟩ := ih hr
      obtain ⟨d, hd⟩ := Option.isSome_iff_exists.mp hskip
      refine ⟨'\\' :: c :: text, rfl, ?_⟩
      rw [copied_skip hd, List.length_cons, hlen]
  | plain inside c s hplain ih =>
      rw [scanArg_plain hplain] at h
      obtain ⟨⟨m, r'⟩, hr, heq⟩ := Option.map_eq_some_iff.mp h
      cases heq
      obtain ⟨text, rfl, hlen⟩ := ih hr
      refine ⟨c :: text, rfl, ?_⟩
      rw [copied_plain hplain.quote, List.length_cons, hlen]
      rintro hc d t rfl
      exact hplain.escape hc d _ rfl

/-! ## One argument after another -/

/-- The arguments of a line, as the splitting pass finds them. -/
def arguments (s : CStr) : List CStr :=
  match _ : nextArg splitting s with
  | none => []
  | some (_, text, r) => copied text :: arguments r
termination_by s.length
decreasing_by exact length_nextArg_lt ‹_›

theorem countArgs_none (h : nextArg counting s = none) : countArgs s = 0 := by
  rw [countArgs]
  split
  · rfl
  · simp_all

theorem countArgs_some {text : CStr} (h : nextArg counting s = some (n, text, r)) :
    countArgs s = countArgs r + 1 := by
  rw [countArgs]
  split <;> simp_all

theorem arguments_none (h : nextArg splitting s = none) : arguments s = [] := by
  rw [arguments]
  split
  · rfl
  · simp_all

theorem arguments_some {text : CStr} (h : nextArg splitting s = some (n, text, r)) :
    arguments s = copied text :: arguments r := by
  rw [arguments]
  split <;> simp_all

/-- The splitting pass stores the arguments, each with its terminating 0. -/
theorem splitArgs_eq (junk : Char) (argv : List CStr) (argc : Nat) (s : CStr) :
    splitArgs junk argv argc s =
      (store argv argc ((arguments s).map (· ++ ['\x00']))).map
        fun argv => (argv, argc + (arguments s).length) := by
  induction hlen : s.length using Nat.strong_induction_on generalizing s argv argc with
  | _ k ih =>
      subst hlen
      rw [splitArgs]
      split
      · rename_i h
        rw [arguments_none h]
        rfl
      · rename_i n text r h
        obtain ⟨c, t, hs, hc, hscan, htext⟩ := nextArg_spec h
        obtain ⟨text', htext', hn⟩ := copied_of_scanArg hscan
        obtain rfl : text = text' := List.append_cancel_right (htext.symm.trans htext')
        have hcopy : copyArg (List.replicate (n + 1) junk) 0 text =
            some (copied text ++ ['\x00']) := by
          have happend := @store_append _ [] (List.replicate (n + 1) junk) []
            (copied text ++ ['\x00']) 0 rfl (by simp [hn])
          rw [copyArg_eq]
          simpa using happend
        rw [hcopy, arguments_some h, List.map_cons, List.length_cons]
        show (write argv argc (copied text ++ ['\x00'])).bind _ =
          ((write argv argc (copied text ++ ['\x00'])).bind _).map _
        cases write argv argc (copied text ++ ['\x00']) with
        | none => rfl
        | some argv =>
            simp only [Option.bind_some]
            rw [ih _ (length_nextArg_lt h) argv (argc + 1) r rfl, Nat.add_assoc, Nat.add_comm 1]

/-- What `strsplit` leaves: the arguments, if the counting pass has allocated as many. -/
theorem strsplit_eq (junk : Char) (line : CStr) :
    strsplit junk line = if (arguments line).length ≤ countArgs line then
        some ((arguments line).map (· ++ ['\x00']) ++
          List.replicate (countArgs line - (arguments line).length) [], (arguments line).length)
      else none := by
  unfold strsplit
  rw [splitArgs_eq, Nat.zero_add]
  split
  · rename_i hle
    have happend := @store_append _ [] (List.replicate (arguments line).length [])
      (List.replicate (countArgs line - (arguments line).length) [])
      ((arguments line).map (· ++ ['\x00'])) 0 rfl (by simp)
    rw [List.nil_append, List.nil_append, List.replicate_append_replicate, Nat.add_sub_cancel' hle]
      at happend
    rw [happend]
    rfl
  · rename_i hlt
    have hpos : arguments line ≠ [] := by
      intro hnil
      rw [hnil] at hlt
      exact hlt (Nat.zero_le _)
    rw [store_eq_none]
    · rfl
    · simpa using hpos
    · simpa using hlt

/-! ## Lines that are read alike -/

/-- The backslashes at the end of a text. -/
def backslashes (u : CStr) : Nat := (u.reverse.takeWhile (· == '\\')).length

/-- Where a quote stands behind backslashes, their number is odd. -/
def Clear (line : CStr) : Prop :=
  ∀ u v, line = u ++ '"' :: v → backslashes u ≠ 0 → backslashes u % 2 = 1

theorem backslashes_append {c : Char} (hc : c ≠ '\\') (u v : CStr) :
    backslashes (u ++ c :: v) = backslashes v := by
  unfold backslashes
  rw [List.reverse_append, List.reverse_cons, List.append_assoc, List.takeWhile_append]
  split
  · rename_i hall
    have hcons : (([c] ++ u.reverse).takeWhile (· == '\\')) = [] := by simp [hc]
    rw [hcons, List.append_nil, hall]
  · rfl

theorem backslashes_cons {c : Char} (hc : c ≠ '\\') (u : CStr) :
    backslashes (c :: u) = backslashes u :=
  backslashes_append hc [] u

/-- Two more backslashes at the start of a text, of which there is something else, do not matter. -/
theorem backslashes_two (u : CStr) :
    backslashes ('\\' :: '\\' :: u) = backslashes u ∨
      backslashes ('\\' :: '\\' :: u) = backslashes u + 2 ∧ backslashes u = u.length := by
  unfold backslashes
  rw [List.reverse_cons, List.reverse_cons, List.append_assoc, List.takeWhile_append]
  split
  · rename_i hall
    right
    refine ⟨?_, by rw [hall, List.length_reverse]⟩
    rw [List.length_append, hall]
    rfl
  · exact .inl rfl

theorem clear_nil : Clear [] := by
  intro u v h
  exact absurd h.symm (by simp)

theorem clear_cons {c : Char} (hc : c ≠ '\\') : Clear (c :: s) ↔ Clear s := by
  constructor
  · rintro h u v rfl
    have hu := h (c :: u) v rfl
    rwa [backslashes_cons hc] at hu
  · intro h u v heq
    cases u with
    | nil => exact fun h0 => absurd rfl h0
    | cons d u =>
        obtain ⟨rfl, rfl⟩ := List.cons.inj heq
        rw [backslashes_cons hc]
        exact h u v rfl

theorem clear_escape {c : Char} (hc : c ≠ '\\') : Clear ('\\' :: c :: s) ↔ Clear s := by
  constructor
  · rintro h u v rfl
    have hu := h ('\\' :: c :: u) v rfl
    rwa [show '\\' :: c :: u = ['\\'] ++ c :: u from rfl, backslashes_append hc] at hu
  · intro h u v heq
    rcases u with _ | ⟨d, _ | ⟨e, u⟩⟩
    · exact fun h0 => absurd rfl h0
    · obtain ⟨rfl, -⟩ := List.cons.inj heq
      exact fun _ => rfl
    · rw [List.cons_append, List.cons_append, List.cons.injEq, List.cons.injEq] at heq
      obtain ⟨rfl, rfl, rfl⟩ := heq
      rw [show '\\' :: c :: u = ['\\'] ++ c :: u from rfl, backslashes_append hc]
      exact h u v rfl

theorem clear_backslashes :
    Clear ('\\' :: '\\' :: s) ↔ s.head? ≠ some '"' ∧ Clear s := by
  constructor
  · intro h
    constructor
    · intro hhead
      obtain ⟨v, rfl⟩ := List.head?_eq_some_iff.mp hhead
      exact absurd (h ['\\', '\\'] v rfl (by decide)) (by decide)
    · rintro u v rfl hu
      have hclear := h ('\\' :: '\\' :: u) v rfl
      rcases backslashes_two u with htwo | ⟨htwo, -⟩
      · rw [htwo] at hclear
        exact hclear hu
      · rw [htwo] at hclear
        have := hclear (by omega)
        omega
  · rintro ⟨hhead, h⟩ u v heq
    rcases u with _ | ⟨d, _ | ⟨e, u⟩⟩
    · exact fun h0 => absurd rfl h0
    · obtain ⟨rfl, heq⟩ := List.cons.inj heq
      exact fun _ => rfl
    · rw [List.cons_append, List.cons_append, List.cons.injEq, List.cons.injEq] at heq
      obtain ⟨rfl, rfl, rfl⟩ := heq
      have hu := h u v rfl
      intro hne
      rcases backslashes_two u with htwo | ⟨htwo, hlen⟩
      · rw [htwo] at hne ⊢
        exact hu hne
      · have hpos : backslashes u ≠ 0 := by
          rw [hlen]
          rintro hzero
          obtain rfl := List.eq_nil_of_length_eq_zero hzero
          exact hhead rfl
        have := hu hpos
        omega

/-- A line is clear from any of its characters on but a backslash. -/
theorem Clear.append {c : Char} {u v : CStr} (h : Clear (u ++ c :: v)) (hc : c ≠ '\\') :
    Clear (c :: v) := by
  rw [clear_cons hc]
  rintro w x rfl hw
  have hclear := h (u ++ c :: w) x (by simp)
  rw [backslashes_append hc] at hclear
  exact hclear hw

theorem Clear.beginning {u v : CStr} (h : Clear v) (hu : u <+: v) : Clear u := by
  obtain ⟨w, rfl⟩ := hu
  rintro a b rfl
  exact h a (b ++ w) (by simp)

/-- Only a line's own blanks are left behind an argument. -/
theorem blank_of_scanArg (h : scanArg skips inside s = some (n, r)) :
    r = [] ∨ ∃ t, r = ' ' :: t := by
  induction inside, s using scanArg_induction skips generalizing n with
  | nil inside =>
      cases inside <;> cases h
      exact .inl rfl
  | quote inside s ih =>
      rw [scanArg_quote] at h
      exact ih h
  | blank s =>
      cases h
      exact .inr ⟨s, rfl⟩
  | skip inside c s hskip ih =>
      rw [scanArg_skip hskip] at h
      obtain ⟨⟨m, r'⟩, hr, heq⟩ := Option.map_eq_some_iff.mp h
      cases heq
      exact ih hr
  | plain inside c s hplain ih =>
      rw [scanArg_plain hplain] at h
      obtain ⟨⟨m, r'⟩, hr, heq⟩ := Option.map_eq_some_iff.mp h
      cases heq
      exact ih hr

/-- Where an argument ends. -/
def argEnd (skips : Char → Bool) (inside : Bool) (s : CStr) : Option CStr :=
  (scanArg skips inside s).map Prod.snd

theorem argEnd_quote : argEnd skips inside ('"' :: s) = argEnd skips (!inside) s := by
  unfold argEnd
  rw [scanArg_quote]

theorem argEnd_skip {c : Char} (h : skips c = true) :
    argEnd skips inside ('\\' :: c :: s) = argEnd skips inside s := by
  unfold argEnd
  rw [scanArg_skip h, Option.map_map]
  rfl

theorem argEnd_plain {c : Char} (h : Plain skips inside c s) :
    argEnd skips inside (c :: s) = argEnd skips inside s := by
  unfold argEnd
  rw [scanArg_plain h, Option.map_map]
  rfl

/-- What the counting pass takes together, the splitting pass takes together, too. -/
theorem Plain.counting {c : Char} (h : Plain splitting inside c s) : Plain counting inside c s := by
  refine ⟨h.quote, h.blank, fun hc d t hs => ?_⟩
  have hskip := h.escape hc d t hs
  unfold Strsplit.counting
  rw [beq_eq_false_iff_ne]
  rintro rfl
  exact absurd hskip (by decide)

/-- Where the splitting pass takes two characters together, the counting pass comes behind them,
too, unless it takes the second one together with a quote. -/
theorem argEnd_counting {c : Char} (hc : splitting c = true)
    (hs : c = '\\' → s.head? ≠ some '"') :
    argEnd counting inside ('\\' :: c :: s) = argEnd counting inside s := by
  by_cases hq : c = '"'
  · subst hq
    exact argEnd_skip rfl
  · have hfirst : Plain counting inside '\\' (c :: s) := by
      refine ⟨by decide, fun _ => by decide, ?_⟩
      rintro - d t heq
      obtain ⟨rfl, -⟩ := List.cons.inj heq
      exact beq_eq_false_iff_ne.mpr hq
    have hsecond : Plain counting inside c s := by
      refine ⟨hq, ?_, ?_⟩
      · rintro - rfl
        exact absurd hc (by decide)
      · rintro rfl d t rfl
        exact beq_eq_false_iff_ne.mpr fun hd => hs rfl (by rw [hd]; rfl)
    rw [argEnd_plain hfirst, argEnd_plain hsecond]

/-- The passes find the same end of an argument of a clear line. -/
theorem argEnd_of_clear (h : Clear s) : argEnd counting inside s = argEnd splitting inside s := by
  induction inside, s using scanArg_induction splitting with
  | nil inside => cases inside <;> rfl
  | quote inside s ih =>
      rw [argEnd_quote, argEnd_quote]
      exact ih ((clear_cons (by decide)).mp h)
  | blank s => rfl
  | skip inside c s hskip ih =>
      rw [argEnd_skip hskip]
      by_cases hc : c = '\\'
      · subst hc
        obtain ⟨hhead, hs⟩ := clear_backslashes.mp h
        rw [argEnd_counting hskip fun _ => hhead]
        exact ih hs
      · rw [argEnd_counting hskip fun heq => absurd heq hc]
        exact ih ((clear_escape hc).mp h)
  | plain inside c s hplain ih =>
      rw [argEnd_plain hplain, argEnd_plain hplain.counting]
      apply ih
      by_cases hc : c = '\\'
      · subst hc
        cases s with
        | nil => exact clear_nil
        | cons d t =>
            have hd : d ≠ '\\' := by
              rintro rfl
              exact absurd (hplain.escape rfl _ _ rfl) (by decide)
            rw [clear_cons hd]
            exact (clear_escape hd).mp h
      · exact (clear_cons hc).mp h

/-- Dropping blanks leaves a line clear. -/
theorem Clear.skipBlanks (h : Clear s) : Clear (skipBlanks s) := by
  unfold Strsplit.skipBlanks
  induction s with
  | nil => exact h
  | cons c s ih =>
      rw [List.dropWhile_cons]
      split
      · rename_i hc
        obtain rfl := beq_iff_eq.mp hc
        exact ih ((clear_cons (by decide)).mp h)
      · exact h

/-- What a round of a pass leaves. -/
def rest (skips : Char → Bool) (s : CStr) : Option CStr := (nextArg skips s).map fun r => r.2.2

theorem rest_eq (skips : Char → Bool) (s : CStr) : rest skips s = match skipBlanks s with
    | [] => none
    | c :: t => argEnd skips false (c :: t) := by
  unfold rest nextArg argEnd
  split
  · rfl
  · rw [Option.map_map]
    rfl

/-- The number of arguments, by a pass. -/
theorem countArgs_rest (s : CStr) : countArgs s = match rest counting s with
    | none => 0
    | some r => countArgs r + 1 := by
  unfold rest
  rcases h : nextArg counting s with _ | ⟨n, text, r⟩
  · rw [countArgs_none h]
    rfl
  · rw [countArgs_some h]
    rfl

theorem length_arguments_rest (s : CStr) : (arguments s).length = match rest splitting s with
    | none => 0
    | some r => (arguments r).length + 1 := by
  unfold rest
  rcases h : nextArg splitting s with _ | ⟨n, text, r⟩
  · rw [arguments_none h]
    rfl
  · rw [arguments_some h]
    rfl

/-- What a round leaves is clear, too. -/
theorem Clear.rest (h : Clear s) (hr : rest skips s = some r) :
    Clear r ∧ r.length < s.length := by
  unfold Strsplit.rest at hr
  obtain ⟨⟨n, text, r'⟩, hnext, rfl⟩ := Option.map_eq_some_iff.mp hr
  refine ⟨?_, length_nextArg_lt hnext⟩
  obtain ⟨c, t, hs, -, hscan, htext⟩ := nextArg_spec hnext
  rcases blank_of_scanArg hscan with rfl | ⟨t', rfl⟩
  · exact clear_nil
  · have hclear := h.skipBlanks
    rw [hs, htext] at hclear
    exact hclear.append (by decide)

/-- The passes find the same number of arguments in a clear line. -/
theorem countArgs_of_clear (h : Clear s) : countArgs s = (arguments s).length := by
  induction hlen : s.length using Nat.strong_induction_on generalizing s with
  | _ k ih =>
      subst hlen
      have hrest : rest counting s = rest splitting s := by
        rw [rest_eq, rest_eq]
        have hclear := h.skipBlanks
        split
        · rfl
        · rename_i c t hs
          rw [hs] at hclear
          exact argEnd_of_clear hclear
      rw [countArgs_rest, length_arguments_rest, hrest]
      rcases hr : rest splitting s with _ | r
      · rfl
      · obtain ⟨hclear, hlt⟩ := h.rest hr
        exact congrArg (· + 1) (ih _ hlt hclear rfl)

/-! ## Lines that are read differently -/

/-- The text is clear, and a quote behind it is not: it stands behind an even number of
backslashes. -/
structure Disputes (u : CStr) : Prop where
  clear : Clear u
  pos : backslashes u ≠ 0
  even : backslashes u % 2 = 0

/-- A character that stands for itself does not matter. -/
theorem Disputes.tail {c : Char} {u : CStr} (h : Disputes (c :: u))
    (hplain : Plain splitting inside c u) : Disputes u := by
  obtain ⟨hclear, hpos, heven⟩ := h
  by_cases hc : c = '\\'
  · subst hc
    cases u with
    | nil => exact absurd heven (by decide)
    | cons d u =>
        have hd : d ≠ '\\' := by
          rintro rfl
          exact absurd (hplain.escape rfl _ _ rfl) (by decide)
        have happend : backslashes ('\\' :: d :: u) = backslashes (d :: u) :=
          (backslashes_append hd ['\\'] u).trans (backslashes_cons hd u).symm
        rw [happend] at hpos heven
        exact ⟨(clear_cons hd).mpr ((clear_escape hd).mp hclear), hpos, heven⟩
  · rw [backslashes_cons hc] at hpos heven
    exact ⟨(clear_cons hc).mp hclear, hpos, heven⟩

/-- Blanks in front do not matter. -/
theorem Disputes.skipBlanks {u : CStr} (h : Disputes u) :
    ∃ c t, Disputes (c :: t) ∧ Strsplit.skipBlanks (u ++ ['"']) = c :: t ++ ['"'] ∧
      (c :: t).length ≤ u.length := by
  induction u with
  | nil => exact absurd rfl h.pos
  | cons c u ih =>
      by_cases hc : c = ' '
      · subst hc
        have htail : Disputes u := by
          obtain ⟨hclear, hpos, heven⟩ := h
          rw [backslashes_cons (by decide)] at hpos heven
          exact ⟨(clear_cons (by decide)).mp hclear, hpos, heven⟩
        obtain ⟨d, t, hd, hskip, hle⟩ := ih htail
        exact ⟨d, t, hd, hskip, Nat.le_succ_of_le hle⟩
      · exact ⟨c, u, h, skipBlanks_of_ne hc _, Nat.le_refl _⟩

/-- The quote behind the text ends the line for one of the passes in quoted text, and for the other
one outside, unless there is a blank in front. -/
theorem argEnd_of_disputes {u : CStr} (h : Disputes u) (inside : Bool) :
    (∃ r, Disputes r ∧ argEnd counting inside (u ++ ['"']) = some (r ++ ['"']) ∧
        argEnd splitting inside (u ++ ['"']) = some (r ++ ['"'])) ∨
      argEnd counting inside (u ++ ['"']) = none ∧
        argEnd splitting inside (u ++ ['"']) = some [] ∨
      argEnd counting inside (u ++ ['"']) = some [] ∧
        argEnd splitting inside (u ++ ['"']) = none := by
  induction inside, u using scanArg_induction splitting with
  | nil inside => exact absurd rfl h.pos
  | quote inside u ih =>
      rw [List.cons_append, argEnd_quote, argEnd_quote]
      have hcons := backslashes_cons (c := '"') (by decide) u
      exact ih ⟨(clear_cons (by decide)).mp h.clear, hcons ▸ h.pos, hcons ▸ h.even⟩
  | blank u => exact .inl ⟨' ' :: u, h, rfl, rfl⟩
  | skip inside c u hskip ih =>
      rw [List.cons_append, List.cons_append, argEnd_skip hskip]
      by_cases hc : c = '\\'
      · subst hc
        obtain ⟨hhead, hclear⟩ := clear_backslashes.mp h.clear
        cases u with
        | nil =>
            cases inside
            · exact .inr (.inr ⟨by decide, by decide⟩)
            · exact .inr (.inl ⟨by decide, by decide⟩)
        | cons d u =>
            rw [argEnd_counting (s := d :: u ++ ['"']) hskip fun _ => hhead]
            apply ih
            have hpos := h.pos
            have heven := h.even
            rcases backslashes_two (d :: u) with htwo | ⟨htwo, hlen⟩
            · rw [htwo] at hpos heven
              exact ⟨hclear, hpos, heven⟩
            · refine ⟨hclear, ?_, by omega⟩
              rw [hlen]
              exact Nat.succ_ne_zero _
      · rw [argEnd_counting hskip fun heq => absurd heq hc]
        have happend : backslashes ('\\' :: c :: u) = backslashes u :=
          backslashes_append hc ['\\'] u
        exact ih ⟨(clear_escape hc).mp h.clear, happend ▸ h.pos, happend ▸ h.even⟩
  | plain inside c u hplain ih =>
      have happend : Plain splitting inside c (u ++ ['"']) := by
        refine ⟨hplain.quote, hplain.blank, ?_⟩
        rintro rfl d t heq
        cases u with
        | nil => exact absurd h.even (by decide)
        | cons e u =>
            obtain ⟨rfl, -⟩ := List.cons.inj heq
            exact hplain.escape rfl _ _ rfl
      rw [List.cons_append, argEnd_plain happend, argEnd_plain happend.counting]
      exact ih (h.tail hplain)

/-- The passes do not find the same number of arguments up to the quote behind the text. -/
theorem countArgs_of_disputes {u : CStr} (h : Disputes u) :
    countArgs (u ++ ['"']) ≠ (arguments (u ++ ['"'])).length := by
  induction hlen : u.length using Nat.strong_induction_on generalizing u with
  | _ k ih =>
      subst hlen
      obtain ⟨c, t, hct, hskip, hle⟩ := h.skipBlanks
      have hend : ∀ skips, rest skips (u ++ ['"']) = argEnd skips false (c :: t ++ ['"']) := by
        intro skips
        rw [rest_eq, hskip]
        rfl
      rw [countArgs_rest, length_arguments_rest, hend, hend]
      rcases argEnd_of_disputes hct false with ⟨r, hr, hcount, hsplit⟩ | ⟨hcount, hsplit⟩ |
        ⟨hcount, hsplit⟩
      · rw [hcount, hsplit]
        intro heq
        refine ih r.length ?_ hr rfl (Nat.succ.inj heq)
        have hrest := (hend counting).trans hcount
        unfold rest at hrest
        obtain ⟨⟨n, text, r'⟩, hnext, rfl⟩ := Option.map_eq_some_iff.mp hrest
        have hlt := length_nextArg_lt hnext
        rw [List.length_append, List.length_append] at hlt
        omega
      · rw [hcount, hsplit]
        exact (Nat.succ_ne_zero _).symm
      · rw [hcount, hsplit]
        exact Nat.succ_ne_zero _

/-- The passes of `strsplit` agree on a line: no write is outside of what is allocated, and as many
arguments are stored as have been counted. -/
def Agree (junk : Char) (line : CStr) : Prop :=
  ∃ argv, strsplit junk line = some (argv, countArgs line)

theorem agree_iff (junk : Char) (line : CStr) :
    Agree junk line ↔ countArgs line = (arguments line).length := by
  unfold Agree
  rw [strsplit_eq]
  constructor
  · rintro ⟨argv, h⟩
    split at h
    · exact (Prod.mk.inj (Option.some.inj h)).2.symm
    · cases h
  · intro h
    rw [if_pos (Nat.le_of_eq h.symm), h]
    exact ⟨_, rfl⟩

/-- A line that is not clear is clear up to its first disputed quote. -/
theorem disputes_of_not_clear {line : CStr} (h : ¬ Clear line) :
    ∃ u, Disputes u ∧ u ++ ['"'] <+: line := by
  induction hlen : line.length using Nat.strong_induction_on generalizing line with
  | _ k ih =>
      subst hlen
      unfold Clear at h
      push Not at h
      obtain ⟨u, v, rfl, hpos, hodd⟩ := h
      have hbegin : u ++ ['"'] <+: u ++ '"' :: v := ⟨v, by simp⟩
      by_cases hu : Clear u
      · exact ⟨u, ⟨hu, hpos, by omega⟩, hbegin⟩
      · have hlt : u.length < (u ++ '"' :: v).length := by
          rw [List.length_append, List.length_cons]
          omega
        obtain ⟨w, hw, hwu⟩ := ih _ hlt hu rfl
        exact ⟨w, hw, hwu.trans (List.prefix_append _ _)⟩

/-- The passes agree on a line and on all its beginnings iff every quote in it that stands behind
backslashes stands behind an odd number of them. -/
theorem agree_on_prefixes_iff (junk : Char) (line : CStr) :
    (∀ u, u <+: line → Agree junk u) ↔ Clear line := by
  constructor
  · intro h
    by_contra hnot
    obtain ⟨u, hu, hbegin⟩ := disputes_of_not_clear hnot
    exact countArgs_of_disputes hu ((agree_iff junk _).mp (h _ hbegin))
  · intro h u hu
    exact (agree_iff junk u).mpr (countArgs_of_clear (h.beginning hu))

/-- The counting pass takes the closing quote of `"a\\"` for an escaped one and counts no argument;
the splitting pass stores one. -/
theorem escaped_backslash_disagrees :
    strsplit 'x' "\"a\\\\\"".toList = none ∧ ¬ ∀ line, Agree 'x' line := by
  have hnone : strsplit 'x' "\"a\\\\\"".toList = none := by decide +kernel
  refine ⟨hnone, fun h => ?_⟩
  obtain ⟨argv, hargv⟩ := h "\"a\\\\\"".toList
  rw [hnone] at hargv
  exact absurd hargv nofun

end Vimgdb.Strsplit
