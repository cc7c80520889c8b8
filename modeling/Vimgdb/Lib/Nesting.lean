import Mathlib.Data.List.Infix
import Mathlib.Tactic.Common

/-!
# Nesting depth

A sequence in which some elements open and some close.

* `depth`: how many more are opened than closed.
* `NotBelow low`: no prefix is less deep than `low`.
* `NotBelow.concat`: an element is added at the end.
* `notBelow_zero_iff`: no prefix is less deep than 0 iff none closes more than it opens.
-/

namespace Nesting

variable {α : Type*} (opens closes : α → Bool)

/-- How many more elements open than close. -/
def depth (ms : List α) : Int := (ms.countP opens : Int) - ms.countP closes

/-- No prefix is less deep than `low`. -/
def NotBelow (low : Int) (ms : List α) : Prop :=
  ∀ p : List α, p <+: ms → low ≤ depth opens closes p

/-- What an element adds to the depth. -/
def weight (m : α) : Int := (if opens m then 1 else 0) - (if closes m then 1 else 0)

variable {opens closes}

theorem depth_nil : depth opens closes [] = 0 := rfl

theorem depth_concat (ms : List α) (m : α) :
    depth opens closes (ms ++ [m]) = depth opens closes ms + weight opens closes m := by
  unfold depth weight
  rw [List.countP_append, List.countP_append, List.countP_singleton, List.countP_singleton]
  split_ifs <;> omega

theorem notBelow_nil {low : Int} (h : low ≤ 0) : NotBelow opens closes low [] := by
  intro p hp
  rw [List.prefix_nil.mp hp, depth_nil]
  exact h

theorem NotBelow.mono {low low' : Int} {ms : List α} (h : NotBelow opens closes low ms)
    (hle : low' ≤ low) : NotBelow opens closes low' ms :=
  fun p hp => Int.le_trans hle (h p hp)

theorem NotBelow.le {low : Int} {ms : List α} (h : NotBelow opens closes low ms) :
    low ≤ depth opens closes ms :=
  h ms (List.prefix_refl ms)

/-- A sequence with one more element. -/
theorem NotBelow.concat {low : Int} {ms : List α} (h : NotBelow opens closes low ms) (m : α)
    (hm : low ≤ depth opens closes ms + weight opens closes m) :
    NotBelow opens closes low (ms ++ [m]) := by
  intro p hp
  rcases List.prefix_concat_iff.mp hp with rfl | hp
  · rwa [depth_concat]
  · exact h p hp

theorem notBelow_zero_iff {ms : List α} :
    NotBelow opens closes 0 ms ↔ ∀ p : List α, p <+: ms → p.countP closes ≤ p.countP opens := by
  unfold NotBelow depth
  refine forall_congr' fun p => imp_congr_right fun _ => ?_
  omega

end Nesting
