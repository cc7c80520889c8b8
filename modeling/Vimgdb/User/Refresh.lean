import Vimgdb.Common.Dynarray
import Vimgdb.Lib.Program
import Vimgdb.Lib.Runs

/-!
# Windows that are refreshed

A refresh clears the line maps of a view before it reads what it shows.  Its window is printed once all
of it has been read, so the text that was printed last stays if the refresh fails.  The text is the one
that `win_print` is called with, which takes it for a format.

* `Window`: the variables of a view, and the text last printed to its window.
* `Act`, `Step`: commands, refreshes, and windows that come and go.
* `vars_run`: the variables take the steps of a view without its window.
* `text_run`: what holds of every text that is printed holds of the one printed last.
* `readFirst`: what is read in front of the first read that fails.
-/

namespace Vimgdb.Refresh

open Programs Runs

variable {σ T κ R : Type}

/-- The variables of a view, and the text last printed to its window; a new window is empty. -/
structure Window (σ T : Type) where
  vars : σ
  text : Option (Option T) := none

/-- What happens to a view. -/
inductive Act (κ R : Type)
  | edit (e : κ)
  | update (replies : R)
  | create
  | destroy

/-- The text last printed to the window behind an update that has ended with `r`. -/
def printed (r : Except Unit (Option T)) (text : Option (Option T)) : Option (Option T) :=
  match r with
  | .ok (some t) => some (some t)
  | _ => text

/-- The update knows whether there is a window. -/
def Step (edit : σ → κ → σ → Prop) (update : Bool → R → Program σ Unit (Option T)) (w : Window σ T)
    (a : Act κ R) (w' : Window σ T) : Prop :=
  match a with
  | .edit e => edit w.vars e w'.vars ∧ w'.text = w.text
  | .update replies => ∃ r, exec (update w.text.isSome replies) w.vars = some (r, w'.vars) ∧
      w'.text = printed r w.text
  | .create => w' = { w with text := some w.text.join }
  | .destroy => w' = { w with text := none }

/-- The variables take the steps of a view without its window. -/
theorem vars_run {ε : Type} {S : σ → ε → σ → Prop} {edit : σ → κ → σ → Prop}
    {update : Bool → R → Program σ Unit (Option T)} (hedit : ∀ s e t, edit s e t → ∃ ev, S s ev t)
    (hupdate : ∀ b replies s r t, exec (update b replies) s = some (r, t) → ∃ ev, S s ev t)
    {w w' : Window σ T} {as : List (Act κ R)} (h : Run (Step edit update) w as w') :
    ∃ evs, Run S w.vars evs w'.vars := by
  induction h with
  | nil => exact ⟨[], Run.nil⟩
  | @snoc w₁ w₂ as a _ hstep ih =>
      obtain ⟨evs, hrun⟩ := ih
      cases a with
      | edit e =>
          obtain ⟨ev, hev⟩ := hedit _ _ _ hstep.1
          exact ⟨_, hrun.snoc hev⟩
      | update replies =>
          obtain ⟨r, hexec, -⟩ := hstep
          obtain ⟨ev, hev⟩ := hupdate _ _ _ _ _ hexec
          exact ⟨_, hrun.snoc hev⟩
      | create | destroy =>
          obtain rfl := hstep
          exact ⟨evs, hrun⟩

/-- What holds of every text that is printed holds of the one printed last. -/
theorem text_run {edit : σ → κ → σ → Prop} {update : Bool → R → Program σ Unit (Option T)}
    {Q : T → Prop} (hupdate : ∀ b replies s t x, exec (update b replies) s = some (.ok (some x), t) → Q x)
    {s : σ} {as : List (Act κ R)} {w : Window σ T} (h : Run (Step edit update) ⟨s, none⟩ as w) :
    ∀ x, w.text = some (some x) → Q x := by
  refine h.invariant (I := fun w => ∀ x, w.text = some (some x) → Q x) (fun x hx => by cases hx)
    fun w a w' hw hstep x hx => ?_
  cases a with
  | edit e => exact hw x (hstep.2.symm.trans hx)
  | update replies =>
      obtain ⟨r, hexec, htext⟩ := hstep
      rw [hx] at htext
      unfold printed at htext
      split at htext
      · cases htext
        exact hupdate _ _ _ _ _ hexec
      · exact hw x htext.symm
  | create =>
      subst hstep
      have hjoin : w.text.join = some x := Option.some.inj hx
      exact hw x (Option.join_eq_some_iff.mp hjoin)
  | destroy =>
      subst hstep
      cases hx

/-! ## Reads that fail -/

variable {α : Type} {replies : Nat → Bool} {i : Nat} {xs : List α}

/-- What is read in front of the first read that fails. -/
def readFirst (replies : Nat → Bool) : Nat → List α → List α
  | _, [] => []
  | i, x :: xs => if replies i then x :: readFirst replies (i + 1) xs else []

/-- One read after the other. -/
theorem forall_lt_succ_iff {n : Nat} (h : replies i = true) :
    (∀ k < n, replies (i + 1 + k) = true) ↔ ∀ k < n + 1, replies (i + k) = true := by
  constructor
  · intro hall k hk
    cases k with
    | zero => exact h
    | succ k =>
        rw [Nat.add_comm k, ← Nat.add_assoc]
        exact hall k (Nat.lt_of_succ_lt_succ hk)
  · intro hall k hk
    rw [Nat.add_assoc, Nat.add_comm 1]
    exact hall (k + 1) (Nat.succ_lt_succ hk)

/-- All has been read if as much has been. -/
theorem forall_of_length_le (h : xs.length ≤ (readFirst replies i xs).length) :
    ∀ k < xs.length, replies (i + k) = true := by
  induction xs generalizing i with
  | nil => exact nofun
  | cons x xs ih =>
      unfold readFirst at h
      split at h
      · next hreply => exact (forall_lt_succ_iff hreply).mp (ih (Nat.le_of_succ_le_succ h))
      · cases h

end Vimgdb.Refresh
