import Mathlib.Data.List.TakeWhile
import Mathlib.Tactic.Common

/-!
# Buffers

A buffer is the list of the cells that are allocated; reading or writing elsewhere fails.

* `write`, `read`, `store`: one cell, several cells.
* `realloc`: more cells, or fewer.
* `text`: the cells in front of the first one that holds the terminator.
* `write_append`, `store_append`, `text_append`: what they do behind the first cells.
* `write_eq_none_iff`, `store_eq_none`: the writes that fail; `eq_of_store`: what is there when they do not.
-/

namespace Buffers

variable {A : Type*}

/-- A cell is written. -/
def write (mem : List A) (i : Nat) (a : A) : Option (List A) :=
  if i < mem.length then some (mem.set i a) else none

/-- A cell is read. -/
def read (mem : List A) (i : Nat) : Option A := mem[i]?

/-- Cells from `i` on are written. -/
def store (mem : List A) (i : Nat) : List A → Option (List A)
  | [] => some mem
  | a :: as => (write mem i a).bind fun mem => store mem (i + 1) as

/-- The cells are moved to `n` new ones, which hold `junk` otherwise. -/
def realloc (junk : A) (mem : List A) (n : Nat) : List A :=
  mem.take n ++ List.replicate (n - mem.length) junk

/-- The cells in front of the terminator `z`, which has to be there. -/
def text [DecidableEq A] (z : A) (mem : List A) : Option (List A) :=
  if z ∈ mem then some (mem.takeWhile (· ≠ z)) else none

theorem write_eq_none_iff {mem : List A} {i : Nat} {a : A} :
    write mem i a = none ↔ mem.length ≤ i := by
  unfold write
  split <;> simp <;> omega

/-- A cell behind the first cells is written. -/
theorem write_append {pre suf : List A} {a b : A} {i : Nat} (hi : i = pre.length) :
    write (pre ++ b :: suf) i a = some (pre ++ a :: suf) := by
  subst hi
  unfold write
  rw [if_pos (by simp), List.set_append_right _ _ (Nat.le_refl _), Nat.sub_self]
  rfl

/-- A cell behind the first cells is read. -/
theorem read_append {pre suf : List A} {a : A} {i : Nat} (hi : i = pre.length) :
    read (pre ++ a :: suf) i = some a := by
  subst hi
  unfold read
  rw [List.getElem?_append_right (Nat.le_refl _), Nat.sub_self]
  rfl

/-- Cells behind the first ones are written. -/
theorem store_append {pre old suf as : List A} {i : Nat} (hi : i = pre.length)
    (hold : old.length = as.length) :
    store (pre ++ old ++ suf) i as = some (pre ++ as ++ suf) := by
  induction as generalizing pre old i with
  | nil =>
      obtain rfl := List.eq_nil_of_length_eq_zero hold
      rfl
  | cons a as ih =>
      obtain ⟨b, old, rfl⟩ := List.exists_cons_of_length_eq_add_one hold
      have hrest := @ih (pre ++ [a]) old (i + 1) (by simp [hi]) (Nat.succ.inj hold)
      unfold store
      rw [List.append_assoc, List.cons_append, write_append hi]
      simpa using hrest

/-- Cells are written where there is room for them. -/
theorem store_of_le {pre suf as : List A} {i : Nat} (hi : i = pre.length)
    (hle : as.length ≤ suf.length) :
    store (pre ++ suf) i as = some (pre ++ as ++ suf.drop as.length) := by
  have hstore := @store_append A pre (suf.take as.length) (suf.drop as.length) as i hi
    (List.length_take_of_le hle)
  rwa [List.append_assoc pre, List.take_append_drop] at hstore

/-- Writing across the end fails. -/
theorem store_eq_none {mem as : List A} {i : Nat} (has : as ≠ [])
    (hi : mem.length < i + as.length) : store mem i as = none := by
  induction as generalizing mem i with
  | nil => exact absurd rfl has
  | cons a as ih =>
      unfold store
      cases hwrite : write mem i a with
      | none => rfl
      | some mem' =>
          have hlt : i < mem.length := by
            by_contra hle
            rw [write_eq_none_iff.mpr (Nat.not_lt.mp hle)] at hwrite
            exact absurd hwrite nofun
          have hlen : mem'.length = mem.length := by
            unfold write at hwrite
            rw [if_pos hlt, Option.some_inj] at hwrite
            rw [← hwrite, List.length_set]
          rw [List.length_cons] at hi
          rw [Option.bind_some]
          apply ih
          · rintro rfl
            rw [List.length_nil] at hi
            omega
          · rw [hlen]
            omega

/-- What has been stored from the first cell on stands in front of the others. -/
theorem eq_of_store {mem mem' as : List A} (has : as ≠ []) (h : store mem 0 as = some mem') :
    ∃ rest, mem' = as ++ rest ∧ mem'.length = mem.length := by
  have hle : as.length ≤ mem.length := by
    by_contra hlt
    rw [store_eq_none has (by omega)] at h
    cases h
  have hstore := @store_append A [] (mem.take as.length) (mem.drop as.length) as 0 rfl
    (List.length_take_of_le hle)
  rw [List.nil_append, List.take_append_drop, h] at hstore
  cases hstore
  refine ⟨mem.drop as.length, rfl, ?_⟩
  rw [List.nil_append, List.length_append, List.length_drop]
  omega

theorem length_realloc (junk : A) (mem : List A) (n : Nat) : (realloc junk mem n).length = n := by
  unfold realloc
  rw [List.length_append, List.length_take, List.length_replicate]
  omega

/-- Longer memory has the cells of the memory it replaces. -/
theorem realloc_append {junk : A} {mem : List A} {n : Nat} (h : mem.length ≤ n) :
    realloc junk mem n = mem ++ List.replicate (n - mem.length) junk := by
  unfold realloc
  rw [List.take_of_length_le h]

/-- The text ends at its terminator. -/
theorem text_append [DecidableEq A] {z : A} {pre suf : List A} :
    text z (pre ++ z :: suf) = some (pre.takeWhile (· ≠ z)) := by
  unfold text
  rw [if_pos (List.mem_append_right pre List.mem_cons_self)]
  congr 1
  induction pre with
  | nil => simp
  | cons a pre ih =>
      by_cases ha : a = z
      · simp [ha]
      · rw [List.cons_append, List.takeWhile_cons, List.takeWhile_cons, ih]

end Buffers
