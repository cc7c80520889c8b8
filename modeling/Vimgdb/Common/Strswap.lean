import Vimgdb.Common.Strings
import Vimgdb.Lib.Buffer

/-!
# Swapping groups of two characters

`strswap2` of `string.cc`: it copies the groups in reverse order to an array of its own, and back.

* `swapLoop`, `strswap2`: the function, with the indices in 32 bits.
* `groups`: the groups of a text.
* `swapLoop_eq`: what the loop has copied, from the end of the text on.
* `strswap2_iff`: the accesses are inside, and the groups are reversed, if and only if the length is even.
-/

namespace Vimgdb.Strswap

open Buffers

/-- The loop over the groups, of which the one for `t[i]` is next; it ends before `fuel` is used up. -/
def swapLoop (s : CStr) (len : BitVec 32) : Nat → BitVec 32 → CStr → Option CStr
  | 0, _, _ => none
  | fuel + 1, i, t =>
      if i < len then do
        let t ← write t i.toNat (← read s (len - i - 2).toNat)
        let t ← write t (i + 1).toNat (← read s (len - i - 1).toNat)
        swapLoop s len fuel (i + 2) t
      else some t

/-- `strswap2`: what is left in `s`, of which `len` characters may be accessed.  An access elsewhere, or
outside of the array `t`, has no result; `junk` is what the array contains before. -/
def strswap2 (junk : Char) (s : CStr) (len : BitVec 32) : Option CStr := do
  let t ← swapLoop s len (len.toNat + 1) 0 (List.replicate len.toNat junk)
  store s 0 t

/-- The groups of two characters. -/
def groups : CStr → List CStr
  | a :: b :: s => [a, b] :: groups s
  | [a] => [[a]]
  | [] => []

/-- The groups in reverse order. -/
def reversed (s : CStr) : CStr := (groups s).reverse.flatten

example : reversed "123456".toList = "563412".toList := by decide

/-! ## The loop -/

variable {junk : Char} {s : CStr} {len : BitVec 32}

theorem reversed_cons (a b : Char) (s : CStr) : reversed (a :: b :: s) = reversed s ++ [a, b] := by
  unfold reversed
  rw [groups, List.reverse_cons, List.flatten_append]
  rfl

theorem length_reversed (s : CStr) : (reversed s).length = s.length := by
  fun_induction groups s with
  | case1 a b s ih =>
      rw [reversed_cons, List.length_append, ih]
      rfl
  | case2 a => rfl
  | case3 => rfl

/-- One round of the loop. -/
theorem swapLoop_succ {pre done rest : CStr} {a b x y : Char} (hs : s = pre ++ a :: b :: done)
    (hlen : len.toNat = s.length) (fuel : Nat) :
    swapLoop s len (fuel + 1) (BitVec.ofNat 32 done.length) (reversed done ++ x :: y :: rest) =
      swapLoop s len fuel (BitVec.ofNat 32 (done.length + 2)) (reversed (a :: b :: done) ++ rest) := by
  have hlt := len.isLt
  have hsplit : len.toNat = pre.length + (done.length + 2) := by
    rw [hlen, hs, List.length_append]
    rfl
  have hi : (BitVec.ofNat 32 done.length).toNat = done.length := by
    rw [BitVec.toNat_ofNat, Nat.mod_eq_of_lt (by omega)]
  have hi' : (BitVec.ofNat 32 done.length + 1).toNat = done.length + 1 := by
    rw [BitVec.toNat_add, hi]
    show (done.length + 1) % 2 ^ 32 = done.length + 1
    omega
  have hfirst : (len - BitVec.ofNat 32 done.length - 2).toNat = pre.length := by
    rw [BitVec.toNat_sub, BitVec.toNat_sub, hi]
    show (2 ^ 32 - 2 + (2 ^ 32 - done.length + len.toNat) % 2 ^ 32) % 2 ^ 32 = pre.length
    omega
  have hsecond : (len - BitVec.ofNat 32 done.length - 1).toNat = pre.length + 1 := by
    rw [BitVec.toNat_sub, BitVec.toNat_sub, hi]
    show (2 ^ 32 - 1 + (2 ^ 32 - done.length + len.toNat) % 2 ^ 32) % 2 ^ 32 = pre.length + 1
    omega
  have hreada : read s pre.length = some a := by
    rw [hs]
    exact read_append rfl
  have hreadb : read s (pre.length + 1) = some b := by
    rw [hs, List.append_cons]
    exact read_append (by rw [List.length_append]; rfl)
  have hwritea := @write_append Char (reversed done) (y :: rest) a x done.length (length_reversed done).symm
  have hwriteb := @write_append Char (reversed done ++ [a]) rest b y (done.length + 1) (by rw [List.length_append, length_reversed]; rfl)
  rw [List.append_assoc, List.append_assoc] at hwriteb
  have hnext : BitVec.ofNat 32 done.length + 2 = BitVec.ofNat 32 (done.length + 2) :=
    (BitVec.ofNat_add done.length 2).symm
  conv_lhs => unfold swapLoop
  rw [if_pos (by rw [BitVec.lt_def, hi]; omega), hi, hi', hfirst, hsecond, hreada, hreadb, hnext]
  simp only [Option.bind_eq_bind, Option.bind_some]
  rw [hwritea, Option.bind_some]
  have hwriteb' : write (reversed done ++ a :: y :: rest) (done.length + 1) b =
      some (reversed done ++ a :: b :: rest) := hwriteb
  rw [hwriteb', Option.bind_some, reversed_cons, List.append_assoc]
  rfl

/-- The last two characters of a text. -/
theorem exists_eq_append_pair {s : CStr} (h : 2 ≤ s.length) : ∃ t a b, s = t ++ [a, b] := by
  have hs : s ≠ [] := by
    rintro rfl
    cases h
  have hinit : s.dropLast ≠ [] := by
    intro hnil
    have hlength := congrArg List.length hnil
    rw [List.length_dropLast, List.length_nil] at hlength
    omega
  refine ⟨s.dropLast.dropLast, s.dropLast.getLast hinit, s.getLast hs, ?_⟩
  rw [List.append_cons, List.dropLast_append_getLast hinit, List.dropLast_append_getLast hs]

/-- From the characters that are done on, the loop copies the groups in front of them; a character that is
left alone is read together with the one in front of the text. -/
theorem swapLoop_eq {n fuel : Nat} {pre done rest : CStr} (hs : s = pre ++ done)
    (hlen : len.toNat = s.length) (hpre : pre.length = 2 * n ∨ pre.length = 2 * n + 1)
    (hrest : rest.length = pre.length) (hfuel : n < fuel) :
    swapLoop s len fuel (BitVec.ofNat 32 done.length) (reversed done ++ rest) =
      if pre.length = 2 * n then some (reversed s) else none := by
  obtain ⟨fuel, rfl⟩ := Nat.exists_eq_succ_of_ne_zero (Nat.ne_of_gt (Nat.zero_lt_of_lt hfuel))
  have hlt := len.isLt
  have hsplit : len.toNat = pre.length + done.length := by rw [hlen, hs, List.length_append]
  induction n generalizing pre done rest fuel with
  | zero =>
      have hi : (BitVec.ofNat 32 done.length).toNat = done.length := by
        rw [BitVec.toNat_ofNat, Nat.mod_eq_of_lt (by omega)]
      unfold swapLoop
      rcases hpre with hpre | hpre
      · obtain rfl := List.eq_nil_of_length_eq_zero hpre
        obtain rfl := List.eq_nil_of_length_eq_zero hrest
        have hend : ¬ BitVec.ofNat 32 done.length < len := by
          rw [BitVec.lt_def, hi, hsplit, List.length_nil, Nat.zero_add]
          exact Nat.lt_irrefl _
        rw [if_neg hend, if_pos hpre, List.append_nil, hs]
        rfl
      · have hbefore : (len - BitVec.ofNat 32 done.length - 2).toNat = 2 ^ 32 - 1 := by
          rw [BitVec.toNat_sub, BitVec.toNat_sub, hi]
          show (2 ^ 32 - 2 + (2 ^ 32 - done.length + len.toNat) % 2 ^ 32) % 2 ^ 32 = 2 ^ 32 - 1
          omega
        have hread : read s (2 ^ 32 - 1) = none := List.getElem?_eq_none (by omega)
        rw [if_pos (by rw [BitVec.lt_def, hi]; omega), if_neg (by omega), hbefore, hread]
        rfl
  | succ n ih =>
      obtain ⟨pre', a, b, rfl⟩ := exists_eq_append_pair (s := pre) (by omega)
      have hlength : (pre' ++ [a, b]).length = pre'.length + 2 := List.length_append
      rw [hlength] at hpre hrest hsplit
      match rest, hrest with
      | x :: y :: rest, hrest =>
          have hs' : s = pre' ++ a :: b :: done := by rw [hs, List.append_assoc]; rfl
          rw [swapLoop_succ hs' hlen, hlength]
          obtain ⟨fuel, rfl⟩ := Nat.exists_eq_succ_of_ne_zero (n := fuel) (by omega)
          have hih := @ih pre' (a :: b :: done) rest hs' (by omega)
            (Nat.succ.inj (Nat.succ.inj hrest)) fuel (by omega) (by
              rw [hsplit, List.length_cons, List.length_cons]
              omega)
          refine hih.trans ?_
          by_cases hpair : pre'.length = 2 * n
          · rw [if_pos hpair, if_pos (by omega)]
          · rw [if_neg hpair, if_neg (by omega)]

/-- A text of even length is reversed; with an odd length the text is left. -/
theorem strswap2_eq (junk : Char) (hlen : s.length = len.toNat) :
    strswap2 junk s len = if s.length % 2 = 0 then some (reversed s) else none := by
  have hdiv := Nat.div_add_mod s.length 2
  have hloop := @swapLoop_eq s len (s.length / 2) (len.toNat + 1) s []
    (List.replicate len.toNat junk) (List.append_nil s).symm hlen.symm (by omega)
    (by rw [List.length_replicate, hlen]) (by omega)
  have hstart : swapLoop s len (len.toNat + 1) 0 (List.replicate len.toNat junk) =
      if s.length = 2 * (s.length / 2) then some (reversed s) else none := hloop
  unfold strswap2
  rw [hstart]
  by_cases heven : s.length % 2 = 0
  · have hstore := @store_append Char [] s [] (reversed s) 0 rfl
      (length_reversed s).symm
    rw [List.nil_append, List.append_nil, List.nil_append, List.append_nil] at hstore
    rw [if_pos (by omega), if_pos heven, Option.bind_eq_bind, Option.bind_some, hstore]
  · rw [if_neg (by omega), if_neg heven]
    rfl

theorem groups_append {s : CStr} (h : s.length % 2 = 0) (t : CStr) :
    groups (s ++ t) = groups s ++ groups t := by
  fun_induction groups s with
  | case1 a b s ih =>
      rw [List.length_cons, List.length_cons] at h
      rw [List.cons_append, List.cons_append, groups, ih (by omega)]
      rfl
  | case2 a => cases h
  | case3 => rfl

theorem reversed_append {s : CStr} (h : s.length % 2 = 0) (t : CStr) :
    reversed (s ++ t) = reversed t ++ reversed s := by
  unfold reversed
  rw [groups_append h, List.reverse_append, List.flatten_append]

/-- The groups in reverse order twice are the text. -/
theorem reversed_reversed {s : CStr} (h : s.length % 2 = 0) : reversed (reversed s) = s := by
  fun_induction groups s with
  | case1 a b s ih =>
      rw [List.length_cons, List.length_cons] at h
      have heven : s.length % 2 = 0 := by omega
      rw [reversed_cons, reversed_append (by rw [length_reversed]; exact heven), ih heven]
      rfl
  | case2 a => cases h
  | case3 => rfl

/-- All accesses are inside, the groups are reversed and a second call brings the text back if and only if
the length is even. -/
theorem strswap2_iff (junk : Char) (hlen : s.length = len.toNat) :
    (∃ t, strswap2 junk s len = some t ∧ t = reversed s ∧ strswap2 junk t len = some s) ↔
      s.length % 2 = 0 := by
  rw [strswap2_eq junk hlen]
  constructor
  · rintro ⟨t, hswap, -⟩
    by_contra hodd
    rw [if_neg hodd] at hswap
    cases hswap
  · intro heven
    have hlength := length_reversed s
    refine ⟨reversed s, if_pos heven, rfl, ?_⟩
    rw [strswap2_eq junk (hlength.trans hlen), hlength, if_pos heven, reversed_reversed heven]

/-- Three bytes are swapped. -/
theorem even_text_reversed : ∃ t, strswap2 ' ' "123456".toList 6 = some t ∧
    t = reversed "123456".toList ∧ strswap2 ' ' t 6 = some "123456".toList :=
  (strswap2_iff ' ' (by decide)).mpr (by decide)

/-- With three digits, the last one is read together with what is in front of the text. -/
theorem odd_text_left : ¬ ∃ t, strswap2 ' ' "123".toList 3 = some t ∧
    t = reversed "123".toList ∧ strswap2 ' ' t 3 = some "123".toList := by
  have hnone : strswap2 ' ' "123".toList 3 = none := by decide +kernel
  rintro ⟨t, hswap, -⟩
  rw [hnone] at hswap
  cases hswap

end Vimgdb.Strswap
