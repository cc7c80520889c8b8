import Vimgdb.Common.Split

/-!
# What comes back from a split line

A line that is put together from texts, and the arguments that `strsplit` finds in it.

* `arguments_words`: texts without blanks, quotes and escape sequences, with blanks between them.
* `arguments_quotes`: texts in quotes, without quotes and escape sequences.
* `total_arguments`: a line loses a character for each escape sequence.
* `fields_of_arguments`, `quoted_of_arguments`: texts that come back.
-/

namespace Vimgdb.Strsplit

variable {skips : Char → Bool} {inside : Bool} {s r text : CStr} {n : Nat}

/-! ## Texts without escape sequences -/

/-- No backslash stands in front of a character that it escapes. -/
def Unescaped (s : CStr) : Prop := ∀ u c v, s = u ++ '\\' :: c :: v → deescapeChar c = none

theorem unescaped_nil : Unescaped [] := by
  intro u c v h
  exact absurd h.symm (by simp)

theorem unescaped_cons {c : Char} : Unescaped (c :: s) ↔
    (c = '\\' → ∀ d t, s = d :: t → deescapeChar d = none) ∧ Unescaped s := by
  constructor
  · intro h
    refine ⟨?_, fun u d v heq => h (c :: u) d v (by rw [heq]; rfl)⟩
    rintro rfl d t rfl
    exact h [] d t rfl
  · rintro ⟨hc, hs⟩ u d v heq
    cases u with
    | nil =>
        obtain ⟨rfl, rfl⟩ := List.cons.inj heq
        exact hc rfl d v rfl
    | cons e u =>
        obtain ⟨rfl, rfl⟩ := List.cons.inj heq
        exact hs u d v rfl

theorem Unescaped.infix_of {a b c : CStr} (h : Unescaped (a ++ b ++ c)) : Unescaped b := by
  rintro u d v rfl
  exact h (a ++ u) d (v ++ c) (by simp)

/-- Texts with a character between them. -/
theorem Unescaped.append {c : Char} {a b : CStr} (ha : Unescaped a) (hb : Unescaped b)
    (hc : a.getLast? = some '\\' → deescapeChar c = none) (hbackslash : c ≠ '\\') :
    Unescaped (a ++ c :: b) := by
  induction a with
  | nil => exact unescaped_cons.mpr ⟨fun heq => absurd heq hbackslash, hb⟩
  | cons d a ih =>
      obtain ⟨hd, ha⟩ := unescaped_cons.mp ha
      rcases a with _ | ⟨f, a⟩
      · refine unescaped_cons.mpr ⟨?_, unescaped_cons.mpr ⟨fun h => absurd h hbackslash, hb⟩⟩
        rintro rfl e t heq
        obtain ⟨rfl, -⟩ := List.cons.inj heq
        exact hc rfl
      · refine unescaped_cons.mpr ⟨?_, ih ha fun hlast => hc ?_⟩
        · rintro rfl e t heq
          obtain ⟨rfl, -⟩ := List.cons.inj heq
          exact hd rfl _ _ rfl
        · rw [List.getLast?_cons_cons]
          exact hlast

/-- Without escape sequences, all is copied but the quotes. -/
theorem copied_of_unescaped (h : Unescaped s) : copied s = s.filter (· ≠ '"') := by
  induction s with
  | nil => rfl
  | cons c s ih =>
      obtain ⟨hc, hs⟩ := unescaped_cons.mp h
      by_cases hq : c = '"'
      · subst hq
        exact ih hs
      · have hskip : c = '\\' → ∀ d t, s = d :: t → splitting d = false := by
          intro heq d t hs
          unfold splitting
          rw [hc heq d t hs]
          rfl
        rw [copied_plain hq hskip, ih hs, List.filter_cons_of_pos (by simpa using hq)]

/-! ## Characters that are lost -/

/-- The characters of a text that are no quotes. -/
def nonQuotes (s : CStr) : Nat := s.countP (· ≠ '"')

/-- The same for several texts, with a blank behind each. -/
def total : List CStr → Nat
  | [] => 0
  | w :: ws => nonQuotes w + 1 + total ws

theorem total_append (ws ws' : List CStr) : total (ws ++ ws') = total ws + total ws' := by
  induction ws with
  | nil => exact (Nat.zero_add _).symm
  | cons w ws ih =>
      rw [List.cons_append, total, total, ih, ← Nat.add_assoc]

theorem nonQuotes_append (s t : CStr) : nonQuotes (s ++ t) = nonQuotes s + nonQuotes t :=
  List.countP_append

theorem nonQuotes_cons {c : Char} (hc : c ≠ '"') (s : CStr) :
    nonQuotes (c :: s) = nonQuotes s + 1 :=
  List.countP_cons_of_pos (by simpa using hc)

/-- Copying does not add characters, and it loses one for each escape sequence. -/
theorem nonQuotes_copied (s : CStr) :
    nonQuotes (copied s) ≤ nonQuotes s ∧ (nonQuotes (copied s) = nonQuotes s → Unescaped s) := by
  fun_induction copied s with
  | case1 => exact ⟨Nat.le_refl _, fun _ => unescaped_nil⟩
  | case2 s ih =>
      exact ⟨ih.1, fun heq => unescaped_cons.mpr ⟨fun h => absurd h (by decide), ih.2 heq⟩⟩
  | case3 =>
      refine ⟨Nat.le_refl _, fun _ => unescaped_cons.mpr ⟨?_, unescaped_nil⟩⟩
      rintro - d t heq
      exact absurd heq.symm (List.cons_ne_nil _ _)
  | case4 c s d hd ih =>
      have hlt : nonQuotes (d :: copied s) < nonQuotes ('\\' :: c :: s) := by
        rw [nonQuotes_cons (c := '\\') (by decide)]
        by_cases hc : c = '"'
        · subst hc
          cases hd
          exact Nat.lt_succ_of_le ih.1
        · have hdq : d ≠ '"' := by
            rintro rfl
            unfold deescapeChar at hd
            split at hd <;> simp_all
          rw [nonQuotes_cons hc, nonQuotes_cons hdq]
          omega
      exact ⟨Nat.le_of_lt hlt, fun heq => absurd heq (Nat.ne_of_lt hlt)⟩
  | case5 c s hc ih =>
      rw [nonQuotes_cons (by decide), nonQuotes_cons (c := '\\') (by decide)]
      refine ⟨Nat.succ_le_succ ih.1, fun heq => unescaped_cons.mpr ⟨?_, ih.2 (Nat.succ.inj heq)⟩⟩
      rintro - d t heq
      obtain ⟨rfl, -⟩ := List.cons.inj heq
      exact hc
  | case6 c s hq hlast hnext ih =>
      rw [nonQuotes_cons hq, nonQuotes_cons hq]
      refine ⟨Nat.succ_le_succ ih.1, fun heq => unescaped_cons.mpr ⟨?_, ih.2 (Nat.succ.inj heq)⟩⟩
      rintro rfl d t rfl
      exact absurd rfl (hnext d t rfl)

/-- A blank in front does not matter. -/
theorem nextArg_blank (t : CStr) : nextArg skips (' ' :: t) = nextArg skips t := rfl

theorem arguments_blank (t : CStr) : arguments (' ' :: t) = arguments t := by
  rw [arguments, arguments, nextArg_blank]

/-- The argument at the front of a line. -/
theorem nextArg_of_scanArg {c : Char} (hc : c ≠ ' ')
    (h : scanArg skips false (c :: s) = some (n, r)) (htext : c :: s = text ++ r) :
    nextArg skips (c :: s) = some (n, text, r) := by
  unfold nextArg
  rw [skipBlanks_of_ne hc]
  dsimp only
  rw [h, htext, Option.map_some, List.length_append, Nat.add_sub_cancel, List.take_left]

/-- The arguments of a line have at most as many characters as the line, and fewer if there is an
escape sequence; a blank in front is one that they do not have. -/
theorem total_arguments (s : CStr) :
    (total (arguments s) ≤ nonQuotes s + 1 ∧
        (total (arguments s) = nonQuotes s + 1 → Unescaped s)) ∧
      (s = [] ∨ (∃ t, s = ' ' :: t) → total (arguments s) ≤ nonQuotes s ∧
        (total (arguments s) = nonQuotes s → Unescaped s)) := by
  induction hlen : s.length using Nat.strong_induction_on generalizing s with
  | _ k ih =>
      subst hlen
      rcases s with _ | ⟨c, s⟩
      · rw [arguments_none rfl]
        exact ⟨⟨Nat.zero_le _, fun _ => unescaped_nil⟩,
          fun _ => ⟨Nat.le_refl _, fun _ => unescaped_nil⟩⟩
      by_cases hc : c = ' '
      · subst hc
        obtain ⟨hle, heq⟩ := (ih s.length (Nat.lt_succ_self _) s rfl).1
        rw [arguments_blank, nonQuotes_cons (by decide)]
        refine ⟨⟨by omega, by omega⟩, fun _ => ⟨hle, fun h => ?_⟩⟩
        exact unescaped_cons.mpr ⟨fun h => absurd h (by decide), heq h⟩
      · have hfront : ¬ (c :: s = [] ∨ ∃ t, c :: s = ' ' :: t) := by
          rintro (hnil | ⟨t, ht⟩)
          · cases hnil
          · exact hc (List.cons.inj ht).1
        refine ⟨?_, fun h => absurd h hfront⟩
        rcases hscan : scanArg splitting false (c :: s) with _ | ⟨n, r⟩
        · rw [arguments_none (nextArg_of_scanArg_none hc hscan)]
          exact ⟨Nat.zero_le _, fun h => absurd h.symm (Nat.succ_ne_zero _)⟩
        · obtain ⟨text, htext, -⟩ := copied_of_scanArg hscan
          have hnext := nextArg_of_scanArg hc hscan htext
          have hcopied := nonQuotes_copied text
          have hr := (ih r.length (length_nextArg_lt hnext) r rfl).2 (blank_of_scanArg hscan)
          have htotal : total (arguments (c :: s)) =
              nonQuotes (copied text) + 1 + total (arguments r) := by
            rw [arguments_some hnext]
            rfl
          rw [htotal, htext, nonQuotes_append]
          refine ⟨by omega, fun heq => ?_⟩
          have hut := hcopied.2 (by omega)
          have hur := hr.2 (by omega)
          rcases blank_of_scanArg hscan with rfl | ⟨t, rfl⟩
          · rwa [List.append_nil]
          · exact hut.append (unescaped_cons.mp hur).2 (fun _ => rfl) (by decide)

/-! ## Texts between blanks -/

/-- A text that is read as it is printed. -/
structure Field (w : CStr) : Prop where
  ne_nil : w ≠ []
  blank : ' ' ∉ w
  quote : '"' ∉ w
  unescaped : Unescaped w

/-- Texts with single blanks between them. -/
def words : List CStr → CStr
  | [] => []
  | [w] => w
  | w :: ws => w ++ ' ' :: words ws

theorem scanArg_field {w : CStr} (hblank : ' ' ∉ w) (hquote : '"' ∉ w) (hw : Unescaped w)
    (hr : r = [] ∨ ∃ t, r = ' ' :: t) :
    scanArg splitting false (w ++ r) = some (w.length, r) := by
  induction w with
  | nil => rcases hr with rfl | ⟨t, rfl⟩ <;> rfl
  | cons c w ih =>
      obtain ⟨hc, hw⟩ := unescaped_cons.mp hw
      rw [List.mem_cons, not_or] at hblank hquote
      have hplain : Plain splitting false c (w ++ r) := by
        refine ⟨Ne.symm hquote.1, fun _ => Ne.symm hblank.1, ?_⟩
        intro heq d t hd
        unfold splitting
        rcases w with _ | ⟨e, w⟩
        · rcases hr with rfl | ⟨t', rfl⟩
          · cases hd
          · obtain ⟨rfl, -⟩ := List.cons.inj hd
            rfl
        · obtain ⟨rfl, -⟩ := List.cons.inj hd
          rw [hc heq _ _ rfl]
          rfl
      rw [List.cons_append, scanArg_plain hplain, ih hblank.2 hquote.2 hw]
      rfl

theorem Field.copied {w : CStr} (h : Field w) : copied w = w := by
  rw [copied_of_unescaped h.unescaped, List.filter_eq_self]
  intro c hc
  rw [decide_eq_true_eq]
  rintro rfl
  exact h.quote hc

/-- A text at the front of a line is its first argument. -/
theorem arguments_field {w : CStr} (h : Field w) (hr : r = [] ∨ ∃ t, r = ' ' :: t) :
    arguments (w ++ r) = w :: arguments r := by
  obtain ⟨c, w, rfl⟩ := List.exists_cons_of_ne_nil h.ne_nil
  have hc : c ≠ ' ' := by
    rintro rfl
    exact h.blank List.mem_cons_self
  have hscan := scanArg_field h.blank h.quote h.unescaped hr
  have hnext := nextArg_of_scanArg hc hscan (show c :: (w ++ r) = (c :: w) ++ r from rfl)
  exact (arguments_some hnext).trans (by rw [h.copied])

theorem arguments_nil : arguments [] = [] := arguments_none rfl

theorem arguments_words {ws : List CStr} (h : ∀ w ∈ ws, Field w) : arguments (words ws) = ws := by
  induction ws with
  | nil => exact arguments_nil
  | cons w ws ih =>
      rw [List.forall_mem_cons] at h
      rcases ws with _ | ⟨x, ws⟩
      · have hlast := arguments_field h.1 (.inl rfl)
        rwa [List.append_nil, arguments_nil] at hlast
      · rw [words, arguments_field h.1 (.inr ⟨_, rfl⟩), arguments_blank, ih h.2]
        exact nofun

/-- All characters of the texts are in the line. -/
theorem total_words {ws : List CStr} (h : ws ≠ []) : total ws = nonQuotes (words ws) + 1 := by
  induction ws with
  | nil => exact absurd rfl h
  | cons w ws ih =>
      rcases ws with _ | ⟨x, ws⟩
      · rfl
      · have htail := ih (List.cons_ne_nil _ _)
        rw [words, nonQuotes_append, nonQuotes_cons (by decide), ← htail]
        · exact (Nat.add_right_comm _ _ _)
        · exact nofun

/-- A line without escape sequences is read alike by both passes. -/
theorem Unescaped.clear (h : Unescaped s) : Clear s := by
  rintro u v rfl hu
  rcases List.eq_nil_or_concat u with rfl | ⟨u, c, rfl⟩
  · exact absurd rfl hu
  · by_cases hc : c = '\\'
    · subst hc
      have hquote := h u '"' v (by simp)
      cases hquote
    · rw [List.concat_eq_append, backslashes_append hc] at hu
      exact absurd rfl hu

/-- What `strsplit` leaves in `argv`, up to `argc` and without the terminating 0s. -/
def split (junk : Char) (line : CStr) : Option (List CStr) :=
  (strsplit junk line).map fun r => (r.1.take r.2).map List.dropLast

theorem split_eq (junk : Char) (line : CStr) : split junk line =
    if (arguments line).length ≤ countArgs line then some (arguments line) else none := by
  unfold split
  rw [strsplit_eq]
  split
  · have hdrop : List.dropLast ∘ (· ++ ['\x00']) = (id : CStr → CStr) :=
      funext fun _ => List.dropLast_concat
    rw [Option.map_some, List.take_left' (by simp), List.map_map, hdrop, List.map_id]
  · rfl

theorem split_of_unescaped (junk : Char) {line : CStr} (h : Unescaped line) :
    split junk line = some (arguments line) := by
  rw [split_eq, if_pos (Nat.le_of_eq (countArgs_of_clear h.clear).symm)]

theorem arguments_of_split {junk : Char} {line : CStr} {args : List CStr}
    (h : split junk line = some args) : arguments line = args := by
  rw [split_eq] at h
  split at h
  · exact Option.some.inj h
  · cases h

/-! ## Texts that come back -/

/-- Without quotes there are no blanks in an argument. -/
theorem blank_notMem_of_scanArg (hquote : '"' ∉ s)
    (h : scanArg splitting false s = some (n, r)) : ∃ text, s = text ++ r ∧ ' ' ∉ text := by
  generalize hinside : false = inside at h
  induction inside, s using scanArg_induction splitting generalizing n with
  | nil inside =>
      subst hinside
      cases h
      exact ⟨[], rfl, List.not_mem_nil⟩
  | quote inside s ih => exact absurd List.mem_cons_self hquote
  | blank s =>
      cases h
      exact ⟨[], rfl, List.not_mem_nil⟩
  | skip inside c s hskip ih =>
      rw [scanArg_skip hskip] at h
      obtain ⟨⟨m, r'⟩, hr, heq⟩ := Option.map_eq_some_iff.mp h
      cases heq
      obtain ⟨text, rfl, htext⟩ := ih (fun hmem => hquote (by simp [hmem])) hinside hr
      have hc : c ≠ ' ' := by
        rintro rfl
        exact absurd hskip (by decide)
      refine ⟨'\\' :: c :: text, rfl, ?_⟩
      simp [htext, Ne.symm hc]
  | plain inside c s hplain ih =>
      subst hinside
      rw [scanArg_plain hplain] at h
      obtain ⟨⟨m, r'⟩, hr, heq⟩ := Option.map_eq_some_iff.mp h
      cases heq
      obtain ⟨text, rfl, htext⟩ := ih (fun hmem => hquote (List.mem_cons_of_mem _ hmem)) rfl hr
      refine ⟨c :: text, rfl, ?_⟩
      rw [List.mem_cons, not_or]
      exact ⟨Ne.symm (hplain.blank rfl), htext⟩

/-- The first argument of a line without escape sequences, and the rest of the line. -/
theorem arguments_unescaped (h : Unescaped s) : arguments s = [] ∨
    ∃ front text r, s = front ++ text ++ r ∧ Unescaped r ∧ r.length < s.length ∧
      arguments s = text.filter (· ≠ '"') :: arguments r ∧ text ≠ [] ∧ ('"' ∉ s → ' ' ∉ text) := by
  rcases hnext : nextArg splitting s with _ | ⟨n, text, r⟩
  · exact .inl (arguments_none hnext)
  obtain ⟨c, t, hskip, hc, hscan, htext⟩ := nextArg_spec hnext
  obtain ⟨front, hfront⟩ : skipBlanks s <:+ s := List.dropWhile_suffix _
  rw [hskip, htext, ← List.append_assoc] at hfront
  have hut : Unescaped text := Unescaped.infix_of (hfront ▸ h)
  have hur : Unescaped r := by
    rw [← hfront, ← List.append_nil (front ++ text ++ r)] at h
    exact h.infix_of
  have harguments := arguments_some hnext
  rw [copied_of_unescaped hut] at harguments
  refine .inr ⟨front, text, r, hfront.symm, hur, length_nextArg_lt hnext, harguments, ?_, fun hquote => ?_⟩
  · rintro rfl
    have hlt := length_scanArg_lt hc hscan
    rw [htext] at hlt
    exact Nat.lt_irrefl _ hlt
  · rw [htext] at hscan
    have hmem : '"' ∉ text ++ r := by
      intro hq
      rw [← hfront, List.append_assoc] at hquote
      exact hquote (List.mem_append_right front hq)
    obtain ⟨text', htext', hblank⟩ := blank_notMem_of_scanArg hmem hscan
    rwa [List.append_cancel_right htext']

/-- The arguments of a line without escape sequences have no quotes; without quotes they have a
character, and no blanks. -/
theorem of_mem_arguments {a : CStr} (h : Unescaped s) (ha : a ∈ arguments s) :
    '"' ∉ a ∧ ('"' ∉ s → a ≠ [] ∧ ' ' ∉ a) := by
  induction hlen : s.length using Nat.strong_induction_on generalizing s with
  | _ k ih =>
      subst hlen
      rcases arguments_unescaped h with hnil | ⟨front, text, r, hs, hr, hlt, harguments, hne, hblank⟩
      · rw [hnil] at ha
        exact absurd ha List.not_mem_nil
      rw [harguments, List.mem_cons] at ha
      rcases ha with rfl | ha
      · refine ⟨by simp, fun hquote => ?_⟩
        have hself : text.filter (· ≠ '"') = text := by
          rw [List.filter_eq_self]
          intro x hx
          rw [decide_eq_true_eq]
          rintro rfl
          exact hquote (hs ▸ List.mem_append_left r (List.mem_append_right front hx))
        rw [hself]
        exact ⟨hne, hblank hquote⟩
      · obtain ⟨hquote, hrest⟩ := ih r.length hlt hr ha rfl
        exact ⟨hquote, fun hnone => hrest fun hq => hnone (hs ▸ List.mem_append_right _ hq)⟩

/-- Their characters are in the line. -/
theorem mem_of_mem_arguments {c : Char} {a : CStr} (h : Unescaped s) (ha : a ∈ arguments s) (hc : c ∈ a) :
    c ∈ s := by
  induction hlen : s.length using Nat.strong_induction_on generalizing s with
  | _ k ih =>
      subst hlen
      rcases arguments_unescaped h with hnil | ⟨front, text, r, hs, hr, hlt, harguments, -, -⟩
      · rw [hnil] at ha
        exact absurd ha List.not_mem_nil
      rw [harguments, List.mem_cons] at ha
      rw [hs, List.mem_append, List.mem_append]
      rcases ha with rfl | ha
      · exact .inl (.inr (List.mem_of_mem_filter hc))
      · exact .inr (ih r.length hlt hr ha rfl)

/-- The line up to its end. -/
def firstLine (s : CStr) : CStr := s.takeWhile (· ≠ '\n')

theorem nonQuotes_firstLine_le (s : CStr) : nonQuotes (firstLine s) ≤ nonQuotes s :=
  List.Sublist.countP_le (List.takeWhile_sublist _)

/-- An end of line in the text is a character that the line does not have. -/
theorem firstLine_eq (h : nonQuotes s ≤ nonQuotes (firstLine s)) :
    firstLine s = s ∧ '\n' ∉ s := by
  induction s with
  | nil => exact ⟨rfl, List.not_mem_nil⟩
  | cons c s ih =>
      by_cases hc : c = '\n'
      · subst hc
        rw [nonQuotes_cons (by decide)] at h
        exact absurd h (Nat.not_succ_le_zero _)
      · have hcons : firstLine (c :: s) = c :: firstLine s := by
          unfold firstLine
          rw [List.takeWhile_cons_of_pos (by simpa using hc)]
        rw [hcons] at h ⊢
        have htail : nonQuotes s ≤ nonQuotes (firstLine s) := by
          by_cases hq : c = '"'
          · subst hq
            exact h
          · rw [nonQuotes_cons hq, nonQuotes_cons hq] at h
            exact Nat.le_of_succ_le_succ h
        obtain ⟨heq, hmem⟩ := ih htail
        rw [heq, List.mem_cons, not_or]
        exact ⟨rfl, Ne.symm hc, hmem⟩

theorem firstLine_self {text : CStr} (h : '\n' ∉ text) : firstLine text = text := by
  unfold firstLine
  rw [List.takeWhile_eq_self_iff]
  intro c hc
  rw [decide_eq_true_eq]
  rintro rfl
  exact h hc

/-- Each of the texts is in the line. -/
theorem exists_of_mem_words {w : CStr} {ws : List CStr} (hw : w ∈ ws) :
    ∃ a b, words ws = a ++ w ++ b := by
  induction ws with
  | nil => exact absurd hw List.not_mem_nil
  | cons x ws ih =>
      rcases ws with _ | ⟨y, ws⟩
      · obtain rfl := List.mem_singleton.mp hw
        exact ⟨[], [], (List.append_nil _).symm⟩
      · rcases List.mem_cons.mp hw with rfl | hw
        · exact ⟨[], ' ' :: words (y :: ws), rfl⟩
        · obtain ⟨a, b, hab⟩ := ih hw
          refine ⟨x ++ ' ' :: a, b, ?_⟩
          rw [words, hab]
          · simp
          · exact nofun

/-- The line has the characters of the texts, and blanks. -/
theorem mem_words {c : Char} {ws : List CStr} (hc : c ∈ words ws) : c = ' ' ∨ ∃ w ∈ ws, c ∈ w := by
  induction ws with
  | nil => exact absurd hc List.not_mem_nil
  | cons x ws ih =>
      rcases ws with _ | ⟨y, ws⟩
      · exact .inr ⟨x, List.mem_cons_self, hc⟩
      · rw [words, List.mem_append, List.mem_cons] at hc
        · rcases hc with hc | rfl | hc
          · exact .inr ⟨x, List.mem_cons_self, hc⟩
          · exact .inl rfl
          · exact (ih hc).imp id fun ⟨w, hw, hcw⟩ => ⟨w, List.mem_cons_of_mem _ hw, hcw⟩
        · exact nofun

/-- Texts that are read back from a line with single blanks between them. -/
theorem fields_of_arguments {ws extra : List CStr} (hws : ws ≠ [])
    (h : arguments (firstLine (words ws)) = ws ++ extra) :
    (∀ w ∈ ws, Field w) ∧ '\n' ∉ words ws := by
  have htotal := total_words hws
  have hle := nonQuotes_firstLine_le (words ws)
  have hargs := (total_arguments (firstLine (words ws))).1
  rw [h, total_append] at hargs
  obtain ⟨heq, hline⟩ := firstLine_eq (s := words ws) (by omega)
  have hunescaped := hargs.2 (by omega)
  rw [heq] at h hunescaped
  refine ⟨fun w hw => ?_, hline⟩
  have hmem : ∀ w ∈ ws, w ∈ arguments (words ws) := by
    intro w hw
    rw [h]
    exact List.mem_append_left _ hw
  have hquote : '"' ∉ words ws := by
    intro hq
    rcases mem_words hq with hq | ⟨x, hx, hq⟩
    · exact absurd hq (by decide)
    · exact (of_mem_arguments hunescaped (hmem x hx)).1 hq
  obtain ⟨a, b, hab⟩ := exists_of_mem_words hw
  obtain ⟨hwq, hwb⟩ := of_mem_arguments hunescaped (hmem w hw)
  exact ⟨(hwb hquote).1, (hwb hquote).2, hwq, Unescaped.infix_of (hab ▸ hunescaped)⟩

/-- The line of fields has no escape sequences. -/
theorem unescaped_words {ws : List CStr} (h : ∀ w ∈ ws, Unescaped w) : Unescaped (words ws) := by
  induction ws with
  | nil => exact unescaped_nil
  | cons w ws ih =>
      rw [List.forall_mem_cons] at h
      rcases ws with _ | ⟨x, ws⟩
      · exact h.1
      · rw [words]
        · exact h.1.append (ih h.2) (fun _ => rfl) (by decide)
        · exact nofun

/-! ## Texts in quotes -/

/-- A text that is read as it is printed between quotes. -/
structure Quoted (w : CStr) : Prop where
  quote : '"' ∉ w
  unescaped : Unescaped w
  last : w.getLast? ≠ some '\\'

/-- Texts in quotes, with a blank in front of each. -/
def quotes : List CStr → CStr
  | [] => []
  | w :: ws => ' ' :: '"' :: (w ++ '"' :: quotes ws)

/-- A blank is in front of the quotes. -/
theorem quotes_front (ws : List CStr) : quotes ws = [] ∨ ∃ t, quotes ws = ' ' :: t := by
  cases ws with
  | nil => exact .inl rfl
  | cons w ws => exact .inr ⟨_, rfl⟩

theorem scanArg_quoted {w : CStr} (h : Quoted w) (hr : r = [] ∨ ∃ t, r = ' ' :: t) :
    scanArg splitting true (w ++ '"' :: r) = some (w.length, r) := by
  obtain ⟨hquote, hw, hlast⟩ := h
  induction w with
  | nil => rcases hr with rfl | ⟨t, rfl⟩ <;> rfl
  | cons c w ih =>
      obtain ⟨hc, hw⟩ := unescaped_cons.mp hw
      rw [List.mem_cons, not_or] at hquote
      have hplain : Plain splitting true c (w ++ '"' :: r) := by
        refine ⟨Ne.symm hquote.1, nofun, ?_⟩
        rintro rfl d t hd
        unfold splitting
        rcases w with _ | ⟨e, w⟩
        · exact absurd rfl hlast
        · obtain ⟨rfl, -⟩ := List.cons.inj hd
          rw [hc rfl _ _ rfl]
          rfl
      have hrest : w.getLast? ≠ some '\\' := by
        rcases w with _ | ⟨e, w⟩
        · exact nofun
        · rwa [List.getLast?_cons_cons] at hlast
      rw [List.cons_append, scanArg_plain hplain, ih hquote.2 hw hrest]
      rfl

/-- Behind texts in quotes, the rest of the line is read as it would be without them. -/
theorem arguments_quotes_append {ws : List CStr} (h : ∀ w ∈ ws, Quoted w) (hr : r = [] ∨ ∃ t, r = ' ' :: t) :
    arguments (quotes ws ++ r) = ws ++ arguments r := by
  induction ws with
  | nil => rfl
  | cons w ws ih =>
      rw [List.forall_mem_cons] at h
      have hrest : quotes ws ++ r = [] ∨ ∃ t, quotes ws ++ r = ' ' :: t := by
        rcases quotes_front ws with hnil | ⟨t, ht⟩
        · rwa [hnil]
        · exact .inr ⟨t ++ r, by rw [ht]; rfl⟩
      have hscan := scanArg_quoted h.1 hrest
      rw [show true = !false from rfl, ← scanArg_quote] at hscan
      have hnext := nextArg_of_scanArg (c := '"') (s := w ++ '"' :: (quotes ws ++ r))
        (by decide) hscan (show _ = ('"' :: (w ++ ['"'])) ++ (quotes ws ++ r) by simp)
      have hcopied : copied ('"' :: (w ++ ['"'])) = w := by
        have hself : w.filter (· ≠ '"') = w := by
          rw [List.filter_eq_self]
          intro c hc
          rw [decide_eq_true_eq]
          rintro rfl
          exact h.1.quote hc
        rw [copied_of_unescaped, List.filter_cons_of_neg (by simp), List.filter_append, hself]
        · exact List.append_nil w
        · refine unescaped_cons.mpr ⟨fun heq => absurd heq (by decide), ?_⟩
          exact h.1.unescaped.append unescaped_nil (fun hlast => absurd hlast h.1.last) (by decide)
      have hline : quotes (w :: ws) ++ r = ' ' :: '"' :: (w ++ '"' :: (quotes ws ++ r)) := by simp [quotes]
      rw [hline, arguments_blank, arguments_some hnext, hcopied, ih h.2, List.cons_append]

theorem unescaped_quotes {ws : List CStr} (h : ∀ w ∈ ws, Quoted w) : Unescaped (quotes ws) := by
  induction ws with
  | nil => exact unescaped_nil
  | cons w ws ih =>
      rw [List.forall_mem_cons] at h
      have hw := h.1.unescaped.append (ih h.2) (c := '"') (fun hlast => absurd hlast h.1.last)
        (by decide)
      exact unescaped_cons.mpr ⟨fun heq => absurd heq (by decide),
        unescaped_cons.mpr ⟨fun heq => absurd heq (by decide), hw⟩⟩

theorem arguments_quotes {ws : List CStr} (h : ∀ w ∈ ws, Quoted w) :
    arguments (quotes ws) = ws ∧ Unescaped (quotes ws) := by
  have hargs := arguments_quotes_append h (.inl rfl)
  rw [List.append_nil, arguments_nil, List.append_nil] at hargs
  exact ⟨hargs, unescaped_quotes h⟩

theorem total_quotes (ws : List CStr) : total ws = nonQuotes (quotes ws) := by
  induction ws with
  | nil => rfl
  | cons w ws ih =>
      have hquote : ∀ s, nonQuotes ('"' :: s) = nonQuotes s := fun s => rfl
      rw [quotes, nonQuotes_cons (by decide), hquote, nonQuotes_append, hquote, ← ih]
      exact Nat.add_right_comm _ _ _

theorem firstLine_quotes_front (ws : List CStr) :
    firstLine (quotes ws) = [] ∨ ∃ t, firstLine (quotes ws) = ' ' :: t := by
  cases ws with
  | nil => exact .inl rfl
  | cons w ws => exact .inr ⟨_, rfl⟩

/-- The line has the characters of the texts, blanks and quotes. -/
theorem mem_quotes {c : Char} {ws : List CStr} (hc : c ∈ quotes ws) :
    c = ' ' ∨ c = '"' ∨ ∃ w ∈ ws, c ∈ w := by
  induction ws with
  | nil => exact absurd hc List.not_mem_nil
  | cons w ws ih =>
      rw [quotes, List.mem_cons, List.mem_cons, List.mem_append, List.mem_cons] at hc
      rcases hc with hc | hc | hc | hc | hc
      · exact .inl hc
      · exact .inr (.inl hc)
      · exact .inr (.inr ⟨w, List.mem_cons_self, hc⟩)
      · exact .inr (.inl hc)
      · exact (ih hc).imp id fun h =>
          h.imp id fun ⟨x, hx, hcx⟩ => ⟨x, List.mem_cons_of_mem _ hx, hcx⟩

/-- Each of the texts is in the line, with a quote behind it. -/
theorem exists_of_mem_quotes {w : CStr} {ws : List CStr} (hw : w ∈ ws) :
    ∃ a b, quotes ws = a ++ w ++ '"' :: b := by
  induction ws with
  | nil => exact absurd hw List.not_mem_nil
  | cons x ws ih =>
      rcases List.mem_cons.mp hw with rfl | hw
      · exact ⟨[' ', '"'], quotes ws, rfl⟩
      · obtain ⟨a, b, hab⟩ := ih hw
        refine ⟨' ' :: '"' :: (x ++ '"' :: a), b, ?_⟩
        rw [quotes, hab]
        simp

/-- Texts that are read back from a line where they are in quotes. -/
theorem quoted_of_arguments {ws : List CStr} (h : arguments (firstLine (quotes ws)) = ws) :
    (∀ w ∈ ws, Quoted w) ∧ '\n' ∉ quotes ws := by
  have htotal := total_quotes ws
  have hle := nonQuotes_firstLine_le (quotes ws)
  have hargs := (total_arguments (firstLine (quotes ws))).2 (firstLine_quotes_front ws)
  rw [h] at hargs
  obtain ⟨heq, hline⟩ := firstLine_eq (s := quotes ws) (by omega)
  have hunescaped := hargs.2 (by omega)
  rw [heq] at h hunescaped
  refine ⟨fun w hw => ?_, hline⟩
  obtain ⟨a, b, hab⟩ := exists_of_mem_quotes hw
  rw [hab] at hunescaped
  refine ⟨(of_mem_arguments (hab ▸ hunescaped) (h.symm ▸ hw)).1, hunescaped.infix_of, fun hlast => ?_⟩
  obtain ⟨w', rfl⟩ := List.getLast?_eq_some_iff.mp hlast
  have hquote := hunescaped (a ++ w') '"' b (by simp)
  cases hquote

end Vimgdb.Strsplit
