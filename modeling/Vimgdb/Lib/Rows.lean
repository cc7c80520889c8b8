import Mathlib.Algebra.BigOperators.Group.List.Basic
import Mathlib.Tactic.Common

/-!
# Rows of bounded length

The elements of a list are put into rows, in order.  Some of them need a row of their own.

* `groups`: the elements between two that stand alone, and those.
* `rows`: a group, as rows of at most `c` elements.
* `arrange`: all rows.
* `flatten_arrange`, `bounded_arrange`, `uniform_arrange`: nothing is lost, and what a row is like.
* `length_arrange`: the number of rows; `length_arrange_remove`: there are no more without an element.
-/

namespace Rows

variable {A : Type*} {alone : A → Bool} {as cur g : List A} {c k : Nat}

/-! ## Groups -/

/-- A group that is complete, unless it is empty. -/
def closed (cur : List A) : List (List A) := if cur.isEmpty then [] else [cur]

/-- The groups of elements, behind those that are in a group already. -/
def groups (alone : A → Bool) : List A → List A → List (List A)
  | [], cur => closed cur
  | a :: as, cur =>
      if alone a then closed cur ++ [a] :: groups alone as [] else groups alone as (cur ++ [a])

/-- An element that stands alone, or elements that do not. -/
def Uniform (alone : A → Bool) (g : List A) : Prop := (∃ a, g = [a]) ∨ ∀ a ∈ g, alone a = false

theorem flatten_closed (cur : List A) : (closed cur).flatten = cur := by
  cases cur with
  | nil => rfl
  | cons a as => exact List.append_nil (a :: as)

theorem mem_closed : g ∈ closed cur ↔ g = cur ∧ g ≠ [] := by
  cases cur with
  | nil => simp [closed]
  | cons a as => simp +contextual [closed]

theorem flatten_groups (as cur : List A) : (groups alone as cur).flatten = cur ++ as := by
  induction as generalizing cur with
  | nil =>
      rw [List.append_nil]
      exact flatten_closed cur
  | cons a as ih =>
      unfold groups
      split
      · rw [List.flatten_append, flatten_closed, List.flatten_cons, ih]
        rfl
      · rw [ih, List.append_assoc]
        rfl

theorem groups_spec (hcur : ∀ a ∈ cur, alone a = false) :
    ∀ g ∈ groups alone as cur, g ≠ [] ∧ Uniform alone g := by
  induction as generalizing cur with
  | nil =>
      intro g hg
      obtain ⟨rfl, hne⟩ := mem_closed.mp hg
      exact ⟨hne, Or.inr hcur⟩
  | cons a as ih =>
      unfold groups
      intro g hg
      split at hg
      · rcases List.mem_append.mp hg with hg | hg
        · obtain ⟨rfl, hne⟩ := mem_closed.mp hg
          exact ⟨hne, Or.inr hcur⟩
        · rcases List.mem_cons.mp hg with rfl | hg
          · exact ⟨List.cons_ne_nil a [], Or.inl ⟨a, rfl⟩⟩
          · exact ih (by simp) g hg
      · next ha =>
        refine ih (fun b hb => ?_) g hg
        rcases List.mem_append.mp hb with hb | hb
        · exact hcur b hb
        · rw [List.mem_singleton.mp hb]
          simpa using ha

/-! ## Rows -/

/-- The first `k` rows of a group, with `c` elements each. -/
def fullRows (c : Nat) : Nat → List A → List (List A)
  | 0, _ => []
  | k + 1, g => g.take c :: fullRows c k (g.drop c)

/-- The rows of a group. -/
def rows (c : Nat) (g : List A) : List (List A) :=
  if g.length ≤ c then [g]
  else fullRows c (g.length / c) g ++ closed (g.drop (g.length / c * c))

theorem flatten_fullRows (k : Nat) (g : List A) : (fullRows c k g).flatten = g.take (k * c) := by
  induction k generalizing g with
  | zero => rw [Nat.zero_mul, List.take_zero]; rfl
  | succ k ih =>
      show g.take c ++ (fullRows c k (g.drop c)).flatten = _
      rw [ih, Nat.succ_mul, Nat.add_comm, List.take_add]

theorem map_length_fullRows (hk : k * c ≤ g.length) :
    (fullRows c k g).map List.length = List.replicate k c := by
  induction k generalizing g with
  | zero => rfl
  | succ k ih =>
      rw [Nat.succ_mul] at hk
      show (g.take c).length :: (fullRows c k (g.drop c)).map List.length = _
      rw [ih (by rw [List.length_drop]; omega), List.length_take_of_le (by omega), List.replicate_succ]

theorem flatten_rows (c : Nat) (g : List A) : (rows c g).flatten = g := by
  unfold rows
  split
  · exact List.append_nil g
  · rw [List.flatten_append, flatten_fullRows, flatten_closed, List.take_append_drop]

theorem length_mem_rows (hc : 0 < c) (hg : g ≠ []) : ∀ r ∈ rows c g, 0 < r.length ∧ r.length ≤ c := by
  unfold rows
  split
  · next hle =>
    intro r hr
    obtain rfl := List.mem_singleton.mp hr
    exact ⟨List.length_pos_of_ne_nil hg, hle⟩
  · intro r hr
    rcases List.mem_append.mp hr with hr | hr
    · have hlen := List.mem_map_of_mem (f := List.length) hr
      rw [map_length_fullRows (Nat.div_mul_le_self _ _)] at hlen
      rw [List.eq_of_mem_replicate hlen]
      exact ⟨hc, Nat.le_refl c⟩
    · obtain ⟨rfl, hne⟩ := mem_closed.mp hr
      refine ⟨List.length_pos_of_ne_nil hne, ?_⟩
      have hmod := Nat.mod_lt g.length hc
      have hdiv := Nat.div_add_mod' g.length c
      rw [List.length_drop]
      omega

/-! ## All rows -/

/-- The elements in rows. -/
def arrange (alone : A → Bool) (c : Nat) (as : List A) : List (List A) :=
  (groups alone as []).flatMap (rows c)

theorem flatten_flatMap_rows (c : Nat) (gs : List (List A)) : (gs.flatMap (rows c)).flatten = gs.flatten := by
  induction gs with
  | nil => rfl
  | cons g gs ih => rw [List.flatMap_cons, List.flatten_append, flatten_rows, ih, List.flatten_cons]

theorem flatten_arrange (c : Nat) (as : List A) : (arrange alone c as).flatten = as :=
  (flatten_flatMap_rows c _).trans (flatten_groups as [])

/-- Each row has an element, and no more than `c`. -/
theorem bounded_arrange (hc : 0 < c) : ∀ r ∈ arrange alone c as, 0 < r.length ∧ r.length ≤ c := by
  intro r hr
  obtain ⟨g, hg, hr⟩ := List.mem_flatMap.mp hr
  exact length_mem_rows hc (groups_spec nofun g hg).1 r hr

theorem length_arrange_le (hc : 0 < c) : (arrange alone c as).length ≤ as.length := by
  have hle := List.length_le_sum_of_one_le ((arrange alone c as).map List.length) (by
    intro n hn
    obtain ⟨r, hr, rfl⟩ := List.mem_map.mp hn
    exact (bounded_arrange hc r hr).1)
  rwa [List.length_map, ← List.length_flatten, flatten_arrange] at hle

/-- An element that stands alone is the only one of its row. -/
theorem uniform_arrange (hc : 0 < c) : ∀ r ∈ arrange alone c as, Uniform alone r := by
  intro r hr
  obtain ⟨g, hg, hrg⟩ := List.mem_flatMap.mp hr
  rcases (groups_spec nofun g hg).2 with ⟨a, rfl⟩ | hnone
  · left
    unfold rows at hrg
    rw [if_pos (show [a].length ≤ c from hc)] at hrg
    exact ⟨a, List.mem_singleton.mp hrg⟩
  · right
    intro a ha
    apply hnone
    rw [← flatten_rows c g]
    exact List.mem_flatten.mpr ⟨r, hrg, ha⟩

/-! ## How many rows there are -/

/-- The number of rows for `n` elements. -/
def rowCount (c n : Nat) : Nat := (n + (c - 1)) / c

/-- The number of rows, with `n` elements in a group already. -/
def countRows (alone : A → Bool) (c : Nat) : List A → Nat → Nat
  | [], n => rowCount c n
  | a :: as, n => if alone a then rowCount c n + (1 + countRows alone c as 0) else countRows alone c as (n + 1)

theorem rowCount_mul_add (hc : 0 < c) (q r : Nat) : rowCount c (c * q + r) = q + rowCount c r := by
  unfold rowCount
  rw [Nat.add_assoc, Nat.mul_add_div hc]

theorem rowCount_le (hc : 0 < c) {n : Nat} (hpos : 0 < n) (hle : n ≤ c) : rowCount c n = 1 := by
  unfold rowCount
  rw [Nat.div_eq_iff hc]
  omega

theorem rowCount_zero (hc : 0 < c) : rowCount c 0 = 0 := by
  unfold rowCount
  rw [Nat.div_eq_zero_iff]
  omega

theorem rowCount_add_le (hc : 0 < c) (m n : Nat) : rowCount c (m + n) ≤ rowCount c m + rowCount c n := by
  unfold rowCount
  have hm := Nat.div_add_mod (m + (c - 1)) c
  have hn := Nat.div_add_mod (n + (c - 1)) c
  have hmod := Nat.mod_lt (m + (c - 1)) hc
  have hmod' := Nat.mod_lt (n + (c - 1)) hc
  apply Nat.le_of_lt_succ
  rw [Nat.div_lt_iff_lt_mul hc, Nat.succ_mul, Nat.add_mul]
  rw [Nat.mul_comm _ c, Nat.mul_comm _ c]
  omega

theorem rowCount_mono {m n : Nat} (h : m ≤ n) : rowCount c m ≤ rowCount c n :=
  Nat.div_le_div_right (by omega)

theorem length_closed_rows (hc : 0 < c) (g : List A) :
    ((closed g).flatMap (rows c)).length = rowCount c g.length := by
  cases g with
  | nil => exact (rowCount_zero hc).symm
  | cons a as =>
      have hclosed : closed (a :: as) = [a :: as] := rfl
      rw [hclosed, List.flatMap_singleton]
      unfold rows
      split
      · next hle => exact (rowCount_le hc (Nat.succ_pos _) hle).symm
      · have hfull : (fullRows c ((a :: as).length / c) (a :: as)).length = (a :: as).length / c := by
          simpa using congrArg List.length (map_length_fullRows (Nat.div_mul_le_self (a :: as).length c))
        have hdiv := Nat.div_add_mod (a :: as).length c
        have hmod := Nat.mod_lt (a :: as).length hc
        have hrest : ((a :: as).drop ((a :: as).length / c * c)).length = (a :: as).length % c := by
          rw [List.length_drop, Nat.mul_comm]
          omega
        have hcount := rowCount_mul_add hc ((a :: as).length / c) ((a :: as).length % c)
        rw [hdiv] at hcount
        rw [List.length_append, hfull, hcount, ← hrest]
        generalize (a :: as).drop ((a :: as).length / c * c) = rest at hrest
        cases rest with
        | nil => rw [List.length_nil, rowCount_zero hc]; rfl
        | cons b bs =>
            have hle : (b :: bs).length ≤ c := by omega
            have hone : rowCount c (b :: bs).length = 1 := rowCount_le hc (Nat.succ_pos _) hle
            rw [hone]
            rfl

theorem length_groups_rows (hc : 0 < c) (as cur : List A) :
    ((groups alone as cur).flatMap (rows c)).length = countRows alone c as cur.length := by
  induction as generalizing cur with
  | nil => exact length_closed_rows hc cur
  | cons a as ih =>
      unfold groups countRows
      split
      · have hone : rows c [a] = [[a]] := if_pos hc
        have ih := ih []
        rw [List.flatMap_append, List.length_append, length_closed_rows hc, List.flatMap_cons, hone,
          List.length_append, ih]
        rfl
      · rw [ih, List.length_append]
        rfl

theorem length_arrange (hc : 0 < c) (as : List A) : (arrange alone c as).length = countRows alone c as 0 :=
  length_groups_rows hc as []

/-- Elements in front need no more rows than they do on their own. -/
theorem countRows_add_le (hc : 0 < c) (as : List A) (m n : Nat) :
    countRows alone c as (m + n) ≤ rowCount c m + countRows alone c as n := by
  induction as generalizing n with
  | nil => exact rowCount_add_le hc m n
  | cons a as ih =>
      unfold countRows
      split
      · have hle := rowCount_add_le hc m n
        omega
      · exact ih (n + 1)

theorem countRows_mono (as : List A) {m n : Nat} (h : m ≤ n) :
    countRows alone c as m ≤ countRows alone c as n := by
  induction as generalizing m n with
  | nil => exact rowCount_mono h
  | cons a as ih =>
      unfold countRows
      split
      · exact Nat.add_le_add_right (rowCount_mono h) _
      · exact ih (Nat.succ_le_succ h)

theorem countRows_remove (hc : 0 < c) (as bs : List A) (a : A) (n : Nat) :
    countRows alone c (as ++ bs) n + (if alone a then 1 else 0) ≤ countRows alone c (as ++ a :: bs) n := by
  induction as generalizing n with
  | nil =>
      rw [List.nil_append, List.nil_append, countRows]
      split
      · have hle := @countRows_add_le A alone c hc bs n 0
        rw [Nat.add_zero] at hle
        omega
      · exact countRows_mono bs (Nat.le_succ n)
  | cons b as ih =>
      rw [List.cons_append, List.cons_append, countRows, countRows]
      split
      · have hle := ih 0
        omega
      · exact ih (n + 1)

/-- Without an element there are no more rows, and fewer if it had one of its own. -/
theorem length_arrange_remove (hc : 0 < c) (as bs : List A) (a : A) :
    (arrange alone c (as ++ bs)).length + (if alone a then 1 else 0)
      ≤ (arrange alone c (as ++ a :: bs)).length := by
  rw [length_arrange hc, length_arrange hc]
  exact countRows_remove hc as bs a 0

end Rows
