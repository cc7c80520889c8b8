import Vimgdb.Gui.Screen
import Vimgdb.Lib.Runs

/-!
# The windows of the terminal over time

`cursesui` keeps its windows in a table that is doubled when it is full.  The title of a window is a pointer
to a text of the caller.

* `State`, `resize`, `winCreate`, `winDestroy`: the user interface and its functions.
* `Shown`: titles are what they were and are not shared, and each window has a frame of its own.
* `Call.Meets`: what a call must be like.
* `fit_remove`: the windows that are left still fit.
* `Settles`: what a step does; `settles`: each step does so.
* `run_windows_iff`: the runs in which the windows are shown behind every call.
-/

namespace Vimgdb.Curses

open Runs

/-! ## The functions -/

/-- The slots, the number of windows, for each slot the pointer to the title, the texts of the callers, and the
frames on the screen.  The title of a `Window` is the text at its creation. -/
structure State where
  windows : List (Option Window) := [none, none]
  nwin : Nat := 0
  titles : Nat → Nat := fun _ => 0
  texts : Nat → Option CStr
  frames : List Frame := []

/-- The slot is in use. -/
def State.windowAt (s : State) (i : Nat) : Option Window := (s.windows[i]?).join

section Calls

variable (lines cols : Nat)

/-- `win_resize`, and whether it returns 0.  It returns -1 before the screen is erased, see `winResize_eq`;
without windows the screen stays as it is, and the titles are read when the frames are drawn. -/
def State.resize (s : State) : Option (Bool × State) :=
  if h : (existing 0 s.windows).length = s.nwin ∧ s.windows.length < 2 ^ 31 then
    (winResize lines cols ⟨s.windows, s.nwin, h.1, h.2⟩).bind fun
      | none => some (false, s)
      | some fs =>
          if s.nwin = 0 then some (true, s)
          else if (existing 0 s.windows).all fun p => (s.texts (s.titles p.1)).isSome then
            some (true, { s with frames := fs })
          else none
  else none

/-- The table is doubled if it is full. -/
def State.grow (s : State) : State :=
  { s with
    windows :=
      if s.windows.length < s.nwin + 1 then s.windows ++ List.replicate s.windows.length none
      else s.windows }

/-- The loop over the slots, from the slot `i` on: the window with the title, or the last free slot. -/
def search (title : Nat → Option CStr) (name : CStr) :
    List (Option Window) → Nat → Option Nat → Option (Nat ⊕ Option Nat)
  | [], _, id => some (.inr id)
  | none :: ws, i, _ => search title name ws (i + 1) (some i)
  | some _ :: ws, i, id => (title i).bind fun t =>
      if t = name then some (.inl i) else search title name ws (i + 1) id

/-- The window is removed. -/
def State.remove (s : State) (id : Nat) : State :=
  { s with windows := s.windows.set id none, nwin := s.nwin - 1 }

/-- `win_destroy`, and whether it returns 0; the result of `win_resize` is not used. -/
def State.winDestroy (s : State) (id : Int) : Option (Bool × State) :=
  if s.windows.length ≤ id then some (false, s)
  else if id < 0 then none
  else
    match s.windowAt id.toNat with
    | none => some (false, s)
    | some _ => ((s.remove id.toNat).resize lines cols).map fun r => (true, r.2)

/-- The window is allocated in a slot. -/
def State.allocate (s : State) (id p : Nat) (name : CStr) (oneline : Bool) (height : BitVec 32) : State :=
  { s with
    windows := s.windows.set id (some (newWindow name oneline height))
    nwin := s.nwin + 1
    titles := Function.update s.titles id p }

/-- The new window is placed, and removed again if there is no room. -/
def State.place (s : State) (id : Nat) : Option (Option Nat × State) := do
  let r ← s.resize lines cols
  let r ← if r.1 then r.2.resize lines cols else some r
  if r.1 then some (some id, r.2) else (r.2.winDestroy lines cols id).map fun r => (none, r.2)

/-- `win_create`, and the window or none for -1. -/
def State.winCreate (s : State) (p : Nat) (oneline : Bool) (height : BitVec 32) :
    Option (Option Nat × State) :=
  match s.texts p with
  | none => none
  | some name =>
      match search (s.texts ∘ s.titles) name s.grow.windows 0 none with
      | none => none
      | some (.inl i) => some (some i, s.grow)
      | some (.inr none) => some (none, s.grow)
      | some (.inr (some id)) => (s.grow.allocate id p name oneline height).place lines cols id

/-- What is done: windows are created, looked up, destroyed and written to, and the callers change their
texts. -/
inductive Call
  | winCreate (p : Nat) (oneline : Bool) (height : BitVec 32)
  | winGetid (p : Nat)
  | winDestroy (id : Int)
  | winPrint (id : Int)
  | text (p : Nat) (t : Option CStr)

/-- The state behind a call; none when it is not defined. -/
def Call.run (s : State) : Call → Option State
  | winCreate p oneline height => (s.winCreate lines cols p oneline height).map Prod.snd
  | winGetid p => (s.winCreate lines cols p false 0).map Prod.snd
  | winDestroy id => (s.winDestroy lines cols id).map Prod.snd
  | winPrint id => if 0 ≤ id then (s.windowAt id.toNat).map fun _ => s else none
  | text p t => some { s with texts := Function.update s.texts p t }

end Calls

/-- The name of a call is a text that is there. -/
def Call.Named (s : State) : Call → Prop
  | winCreate p .. | winGetid p => s.texts p ≠ none
  | _ => True

/-- A call, while the table can be doubled. -/
def Step (lines cols : Nat) (s : Option State) (c : Call) (t : Option State) : Prop :=
  ∃ u, s = some u ∧ u.windows.length < 2 ^ 29 ∧ c.Named u ∧ t = c.run lines cols u

/-! ## What there should be -/

/-- Each window has a frame on the screen, which overlaps no other one. -/
structure State.Framed (lines cols : Nat) (s : State) : Prop where
  placed : ∀ i, (s.frames.map Frame.slot).count i = if (s.windowAt i).isSome then 1 else 0
  inside : ∀ f ∈ s.frames, f.Inside lines cols
  apart : s.frames.Pairwise Frame.Apart

/-- Titles are what they were at the creation of their windows, and no two of them are the same. -/
structure State.Titled (s : State) : Prop where
  kept : ∀ i w, s.windowAt i = some w → s.texts (s.titles i) = some w.title
  distinct : ∀ i j w v, s.windowAt i = some w → s.windowAt j = some v → w.title = v.title → i = j

def State.Shown (lines cols : Nat) (s : State) : Prop := s.Titled ∧ s.Framed lines cols

/-- The last free slot. -/
def lastFree : List (Option Window) → Nat → Option Nat → Option Nat
  | [], _, id => id
  | none :: ws, i, _ => lastFree ws (i + 1) (some i)
  | some _ :: ws, i, id => lastFree ws (i + 1) id

/-- The check of `Rejected`, for windows with their slots. -/
def Refused (lines cols : Nat) (ps : List (Nat × Window)) : Prop :=
  (2 ^ 32 + lines - fixedSum ps % 2 ^ 32) % 2 ^ 32 <
    3 * ((Rows.arrange wide (cols / 30) ps).length - fixedCount ps)

/-- The windows with a new one, in its slot. -/
def State.extended (s : State) (w : Window) : List (Nat × Window) :=
  match lastFree s.grow.windows 0 none with
  | none => existing 0 s.windows
  | some id => existing 0 (s.grow.windows.set id (some w))

/-- There is a window of the name, or the screen has 30 columns and room for the heights that windows have of
their own, unless a new window is refused for lack of lines. -/
def CreateMeets (lines cols : Nat) (s : State) (p : Nat) (oneline : Bool) (height : BitVec 32) : Prop :=
  ∀ name, s.texts p = some name → (∃ i w, s.windowAt i = some w ∧ w.title = name) ∨ 30 ≤ cols ∧
    (fixedSum (s.extended (newWindow name oneline height)) ≤ lines ∨
      Refused lines cols (s.extended (newWindow name oneline height)))

/-- What a call must be like: windows are there to be written to, the last one is not destroyed, and a text is
kept while a window has it for a title. -/
def Call.Meets (lines cols : Nat) (s : State) : Call → Prop
  | .winCreate p oneline height => CreateMeets lines cols s p oneline height
  | .winGetid p => CreateMeets lines cols s p false 0
  | .winDestroy id => 0 ≤ id ∧ (s.nwin = 1 → s.windowAt id.toNat = none)
  | .winPrint id => 0 ≤ id ∧ (s.windowAt id.toNat).isSome
  | .text p t => ∀ i w, s.windowAt i = some w → s.titles i = p → t = some w.title

/-! ## Slots -/

variable {lines cols : Nat} {s t : State} {ws vs : List (Option Window)} {i j k id : Nat} {w : Window}
  {title : Nat → Option CStr} {name : CStr} {o : Option Nat}

theorem existing_append (ws vs : List (Option Window)) (k : Nat) :
    existing k (ws ++ vs) = existing k ws ++ existing (k + ws.length) vs := by
  induction ws generalizing k with
  | nil => rfl
  | cons v ws ih =>
      have hrest := ih (k + 1)
      rw [Nat.add_assoc, Nat.add_comm 1] at hrest
      cases v with
      | none => exact hrest
      | some w => exact congrArg ((k, w) :: ·) hrest

theorem existing_free (n k : Nat) : existing k (List.replicate n none) = [] := by
  induction n generalizing k with
  | zero => rfl
  | succ n ih => exact ih (k + 1)

/-- What a slot holds is among the windows. -/
theorem existing_set (hi : i < ws.length) (k : Nat) : ∃ as bs, existing k (ws.set i none) = as ++ bs ∧
    ∀ w, existing k (ws.set i (some w)) = as ++ (k + i, w) :: bs := by
  induction ws generalizing i k with
  | nil => cases hi
  | cons v ws ih =>
      cases i with
      | zero => exact ⟨[], existing (k + 1) ws, rfl, fun w => rfl⟩
      | succ i =>
          obtain ⟨as, bs, hnone, hsome⟩ := ih (Nat.lt_of_succ_lt_succ hi) (k + 1)
          rw [Nat.add_assoc, Nat.add_comm 1] at hsome
          cases v with
          | none => exact ⟨as, bs, hnone, hsome⟩
          | some u =>
              refine ⟨(k, u) :: as, bs, congrArg ((k, u) :: ·) hnone, fun w => ?_⟩
              exact congrArg ((k, u) :: ·) (hsome w)

/-- The loop finds the window with the title, or the last free slot. -/
theorem search_spec (h : ∀ (i : Nat) (w : Window), (ws[i]?).join = some w → title (k + i) = some w.title) :
    (∃ (i : Nat) (w : Window), (ws[i]?).join = some w ∧ w.title = name ∧
        search title name ws k o = some (.inl (k + i))) ∨
      (∀ (i : Nat) (w : Window), (ws[i]?).join = some w → w.title ≠ name) ∧
        search title name ws k o = some (.inr (lastFree ws k o)) := by
  induction ws generalizing k o with
  | nil => exact .inr ⟨fun i w hw => by simp at hw, rfl⟩
  | cons v ws ih =>
      have hrest : ∀ (i : Nat) (w : Window), (ws[i]?).join = some w → title (k + 1 + i) = some w.title := by
        intro i w hw
        rw [Nat.add_assoc, Nat.add_comm 1]
        exact h (i + 1) w hw
      cases v with
      | none =>
          rcases @ih (k + 1) (some k) hrest with ⟨i, w, hw, hname, hfound⟩ | ⟨hnone, hfree⟩
          · rw [Nat.add_assoc, Nat.add_comm 1] at hfound
            exact .inl ⟨i + 1, w, hw, hname, hfound⟩
          · refine .inr ⟨fun i w hw => ?_, hfree⟩
            cases i with
            | zero => simp at hw
            | succ i => exact hnone i w hw
      | some u =>
          have hu := h 0 u rfl
          rw [Nat.add_zero] at hu
          rw [search, hu, Option.bind_some]
          by_cases hname : u.title = name
          · rw [if_pos hname]
            exact .inl ⟨0, u, rfl, hname, rfl⟩
          · rw [if_neg hname]
            rcases @ih (k + 1) o hrest with ⟨i, w, hw, hname', hfound⟩ | ⟨hnone, hfree⟩
            · rw [Nat.add_assoc, Nat.add_comm 1] at hfound
              exact .inl ⟨i + 1, w, hw, hname', hfound⟩
            · refine .inr ⟨fun i w hw => ?_, hfree⟩
              cases i with
              | zero =>
                  obtain rfl : u = w := by simpa using hw
                  exact hname
              | succ i => exact hnone i w hw

theorem lastFree_spec (ws : List (Option Window)) (k : Nat) (o : Option Nat) :
    (∃ i, ws[i]? = some none ∧ lastFree ws k o = some (k + i)) ∨
      (existing k ws).length = ws.length ∧ lastFree ws k o = o := by
  induction ws generalizing k o with
  | nil => exact .inr ⟨rfl, rfl⟩
  | cons v ws ih =>
      cases v with
      | none =>
          rcases ih (k + 1) (some k) with ⟨i, hi, hlast⟩ | ⟨-, hlast⟩
          · rw [Nat.add_assoc, Nat.add_comm 1] at hlast
            exact .inl ⟨i + 1, hi, hlast⟩
          · exact .inl ⟨0, rfl, hlast⟩
      | some u =>
          rcases ih (k + 1) o with ⟨i, hi, hlast⟩ | ⟨hfull, hlast⟩
          · rw [Nat.add_assoc, Nat.add_comm 1] at hlast
            exact .inl ⟨i + 1, hi, hlast⟩
          · exact .inr ⟨congrArg Nat.succ hfull, hlast⟩

theorem mem_existing {p : Nat × Window} (h : p ∈ existing k ws) :
    ∃ i, p.1 = k + i ∧ (ws[i]?).join = some p.2 := by
  induction ws generalizing k with
  | nil => cases h
  | cons o ws ih =>
      cases o with
      | none =>
          obtain ⟨i, hi, hget⟩ := ih h
          exact ⟨i + 1, by omega, hget⟩
      | some w =>
          rcases List.mem_cons.mp h with rfl | h
          · exact ⟨0, rfl, rfl⟩
          · obtain ⟨i, hi, hget⟩ := ih h
            exact ⟨i + 1, by omega, hget⟩

theorem windowAt_of_mem {p : Nat × Window} (h : p ∈ existing 0 s.windows) :
    s.windowAt p.1 = some p.2 := by
  obtain ⟨i, hi, hget⟩ := mem_existing h
  rw [hi, Nat.zero_add]
  exact hget

/-! ## Windows that fit -/

/-- The heights of the windows fit, and the lines that are left are enough. -/
def Fit (lines cols : Nat) (ps : List (Nat × Window)) : Prop :=
  fixedSum ps ≤ lines ∧ ¬ Refused lines cols ps

/-- The windows still fit without one of them. -/
theorem fit_remove (hcols : 30 ≤ cols) {as bs : List (Nat × Window)} {p : Nat × Window}
    (h : Fit lines cols (as ++ p :: bs)) (hlines : lines < 2 ^ 31) : Fit lines cols (as ++ bs) := by
  have hrows := @Rows.length_arrange_remove _ wide (cols / 30) (Nat.div_pos hcols (by decide)) as bs p
  obtain ⟨hsum, hres⟩ := h
  unfold Refused at hres
  have hsum' : fixedSum (as ++ p :: bs) = fixedSum (as ++ bs) + p.2.height.toNat := by
    rw [fixedSum_append, fixedSum_append, fixedSum, fixedSum, fixedSum, List.map_cons, List.sum_cons]
    omega
  have hcount : fixedCount (as ++ p :: bs) = fixedCount (as ++ bs) + (if 0 < p.2.height then 1 else 0) := by
    rw [fixedCount_append, fixedCount_append, fixedCount, fixedCount, fixedCount, List.countP_cons]
    simp only [decide_eq_true_eq]
    omega
  have hwide : 0 < p.2.height → wide p = true := p.2.fixed
  rw [hsum'] at hsum hres
  rw [hcount] at hres
  refine ⟨by omega, ?_⟩
  unfold Refused
  rw [Nat.mod_eq_of_lt (show fixedSum (as ++ bs) < 2 ^ 32 by omega)]
  rw [Nat.mod_eq_of_lt (show fixedSum (as ++ bs) + p.2.height.toNat < 2 ^ 32 by omega)] at hres
  by_cases hpos : 0 < p.2.height
  · rw [if_pos (hwide hpos)] at hrows
    rw [if_pos hpos] at hres
    omega
  · rw [if_neg hpos] at hres
    omega

/-! ## Placing the windows -/

/-- What the table is like. -/
structure State.Inv (lines cols : Nat) (s : State) : Prop where
  count : (existing 0 s.windows).length = s.nwin
  some : 0 < s.windows.length
  fit : s.nwin ≠ 0 → 30 ≤ cols ∧ Fit lines cols (existing 0 s.windows)

theorem resize_empty (hcount : (existing 0 s.windows).length = s.nwin) (hshort : s.windows.length < 2 ^ 31)
    (hn : s.nwin = 0) : s.resize lines cols = some (true, s) := by
  unfold State.resize
  rw [dif_pos ⟨hcount, hshort⟩, winResize, if_pos hn]
  show (if s.nwin = 0 then some (true, s) else _) = _
  rw [if_pos hn]

theorem resize_narrow (hcount : (existing 0 s.windows).length = s.nwin) (hshort : s.windows.length < 2 ^ 31)
    (hn : s.nwin ≠ 0) (hcols : cols < 30) : s.resize lines cols = none := by
  unfold State.resize
  rw [dif_pos ⟨hcount, hshort⟩, winResize_zero hn hcols]
  rfl

section Wide

variable (hcount : (existing 0 s.windows).length = s.nwin) (hshort : s.windows.length < 2 ^ 31)
  (hn : s.nwin ≠ 0) (hlines : lines < 2 ^ 31) (hcols : 30 ≤ cols) (hmax : cols < 2 ^ 31)

include hcount hshort hn hlines hcols hmax

theorem resize_refused (hres : Refused lines cols (existing 0 s.windows)) :
    s.resize lines cols = some (false, s) := by
  unfold State.resize
  rw [dif_pos ⟨hcount, hshort⟩, winResize_eq hn hcols hmax,
    if_pos ((@rejected_iff lines cols ⟨s.windows, s.nwin, hcount, hshort⟩ hlines hcols).mpr hres)]
  rfl

theorem resize_placed (hres : ¬ Refused lines cols (existing 0 s.windows))
    (htitles : ∀ i w, s.windowAt i = some w → (s.texts (s.titles i)).isSome) :
    ∃ fs, (∀ gs, ({ s with frames := gs } : State).resize lines cols =
        some (true, { s with frames := fs })) ∧
      (({ s with frames := fs } : State).Framed lines cols ↔ fixedSum (existing 0 s.windows) ≤ lines) := by
  have hnot := (@rejected_iff lines cols ⟨s.windows, s.nwin, hcount, hshort⟩ hlines hcols).not.mpr hres
  have hgood := good_layout hlines hcols hmax hnot
  refine ⟨layout cols (Table.share ⟨s.windows, s.nwin, hcount, hshort⟩ lines cols) 0
    (Table.rows ⟨s.windows, s.nwin, hcount, hshort⟩ cols), fun gs => ?_,
    Iff.trans ⟨fun h => ?_, fun h => ?_⟩ hgood⟩
  · unfold State.resize
    rw [dif_pos ⟨hcount, hshort⟩, winResize_eq hn hcols hmax, if_neg hnot, Option.bind_some]
    dsimp only
    rw [if_neg hn, if_pos]
    exact List.all_eq_true.mpr fun p hp => htitles p.1 p.2 (windowAt_of_mem hp)
  · exact ⟨h.placed, h.inside, h.apart⟩
  · exact ⟨h.placed, h.inside, h.apart⟩

end Wide

/-! ## The table -/

theorem join_set (hi : i < ws.length) (v : Option Window) (j : Nat) :
    ((ws.set i v)[j]?).join = if i = j then v else (ws[j]?).join := by
  rw [List.getElem?_set, if_pos hi]
  split <;> rfl

theorem set_of_getElem? {v : Option Window} (h : ws[i]? = some v) : ws.set i v = ws := by
  obtain ⟨hi, rfl⟩ := List.getElem?_eq_some_iff.mp h
  exact List.set_getElem_self hi

theorem windowAt_lt (h : s.windowAt i = some w) : i < s.windows.length ∧ s.windows[i]? = some (some w) := by
  have hget := Option.join_eq_some_iff.mp h
  exact ⟨(List.getElem?_eq_some_iff.mp hget).1, hget⟩

theorem windowAt_grow (s : State) (i : Nat) : s.grow.windowAt i = s.windowAt i := by
  unfold State.grow State.windowAt
  dsimp only
  split
  · rw [List.getElem?_append]
    split
    · rfl
    · next hi =>
      rw [List.getElem?_eq_none (Nat.not_lt.mp hi), List.getElem?_replicate]
      split <;> rfl
  · rfl

theorem existing_grow (s : State) : existing 0 s.grow.windows = existing 0 s.windows := by
  unfold State.grow
  dsimp only
  split
  · rw [existing_append, existing_free, List.append_nil]
  · rfl

theorem State.Inv.nwin_le (h : s.Inv lines cols) : s.nwin ≤ s.windows.length := by
  rw [← h.count]
  exact length_existing_le s.windows 0

/-- There is a free slot in the table that has been doubled. -/
theorem State.Inv.length_grow (h : s.Inv lines cols) :
    s.nwin < s.grow.windows.length ∧ s.grow.windows.length ≤ 2 * s.windows.length := by
  have hle := h.nwin_le
  have hsome := h.some
  unfold State.grow
  dsimp only
  split
  · rw [List.length_append, List.length_replicate]
    omega
  · omega

theorem State.Inv.grow (h : s.Inv lines cols) : s.grow.Inv lines cols where
  count := by rw [existing_grow]; exact h.count
  some := Nat.zero_lt_of_lt h.length_grow.1
  fit := by rw [existing_grow]; exact h.fit

theorem State.Titled.sub (h : s.Titled)
    (hat : ∀ i w, t.windowAt i = some w → s.windowAt i = some w ∧ t.titles i = s.titles i)
    (htexts : t.texts = s.texts) : t.Titled := by
  constructor
  · intro i w hw
    rw [htexts, (hat i w hw).2]
    exact h.kept i w (hat i w hw).1
  · intro i j w v hw hv
    exact h.distinct i j w v (hat i w hw).1 (hat j v hv).1

theorem State.Framed.congr (h : s.Framed lines cols) (hat : ∀ i, t.windowAt i = s.windowAt i)
    (hframes : t.frames = s.frames) : t.Framed lines cols := by
  constructor
  · intro i
    rw [hframes, hat]
    exact h.placed i
  · rw [hframes]
    exact h.inside
  · rw [hframes]
    exact h.apart

theorem State.Titled.isSome (h : s.Titled) (i : Nat) (w : Window) (hw : s.windowAt i = some w) :
    (s.texts (s.titles i)).isSome := by
  rw [h.kept i w hw]
  rfl

/-- Windows that fit are placed. -/
theorem resize_fit (hcount : (existing 0 s.windows).length = s.nwin) (hshort : s.windows.length < 2 ^ 31)
    (hn : s.nwin ≠ 0) (hlines : lines < 2 ^ 31) (hmax : cols < 2 ^ 31)
    (hfit : 30 ≤ cols ∧ Fit lines cols (existing 0 s.windows)) (htitled : s.Titled) :
    ∃ fs, s.resize lines cols = some (true, { s with frames := fs }) ∧
      ({ s with frames := fs } : State).Shown lines cols := by
  obtain ⟨hcols, hsum, hres⟩ := hfit
  obtain ⟨fs, hresize, hframed⟩ := resize_placed hcount hshort hn hlines hcols hmax hres htitled.isSome
  exact ⟨fs, hresize s.frames, ⟨htitled.kept, htitled.distinct⟩, hframed.mpr hsum⟩

theorem windowAt_remove (h : s.windowAt id = some w) (i : Nat) :
    (s.remove id).windowAt i = if id = i then none else s.windowAt i :=
  join_set (windowAt_lt h).1 none i

theorem existing_remove (h : s.windowAt id = some w) : ∃ as bs,
    existing 0 s.windows = as ++ (id, w) :: bs ∧ existing 0 (s.remove id).windows = as ++ bs := by
  obtain ⟨hlt, hget⟩ := windowAt_lt h
  obtain ⟨as, bs, hnone, hsome⟩ := existing_set hlt 0
  have hself := hsome w
  rw [set_of_getElem? hget, Nat.zero_add] at hself
  exact ⟨as, bs, hself, hnone⟩

/-- A window that is removed is counted no longer, and the other titles stay. -/
theorem remove_spec (hinv : s.Inv lines cols) (htitled : s.Titled) (hw : s.windowAt id = some w) :
    s.nwin ≠ 0 ∧ (existing 0 (s.remove id).windows).length = (s.remove id).nwin ∧
      (s.remove id).Titled := by
  obtain ⟨as, bs, hwith, hwithout⟩ := existing_remove hw
  have hlen := hinv.count
  rw [hwith, List.length_append, List.length_cons] at hlen
  refine ⟨by omega, ?_, htitled.sub (fun i v hv => ⟨?_, rfl⟩) rfl⟩
  · show _ = s.nwin - 1
    rw [hwithout, List.length_append]
    omega
  · rw [windowAt_remove hw] at hv
    split at hv
    · cases hv
    · exact hv

theorem remove_fit (hinv : s.Inv lines cols) (hlines : lines < 2 ^ 31) (hw : s.windowAt id = some w) :
    30 ≤ cols ∧ Fit lines cols (existing 0 (s.remove id).windows) := by
  obtain ⟨as, bs, hwith, hwithout⟩ := existing_remove hw
  have hn : s.nwin ≠ 0 := by
    rw [← hinv.count, hwith]
    simp
  obtain ⟨hcols, hfit⟩ := hinv.fit hn
  rw [hwith] at hfit
  rw [hwithout]
  exact ⟨hcols, fit_remove hcols hfit hlines⟩

theorem winDestroy_none {id : Int} (hid : 0 ≤ id) (h : s.windowAt id.toNat = none) :
    s.winDestroy lines cols id = some (false, s) := by
  unfold State.winDestroy
  split
  · rfl
  · rw [if_neg (Int.not_lt.mpr hid), h]

theorem winDestroy_some {id : Int} (hid : 0 ≤ id) (h : s.windowAt id.toNat = some w) :
    s.winDestroy lines cols id = ((s.remove id.toNat).resize lines cols).map fun r => (true, r.2) := by
  have hlt := (windowAt_lt h).1
  unfold State.winDestroy
  rw [if_neg (by omega), if_neg (Int.not_lt.mpr hid), h]

/-! ## Steps -/

/-- Behind a call the windows are shown if and only if it is as it must be, and then the table is well. -/
def Settles (lines cols : Nat) (t : Option State) (M : Prop) : Prop :=
  ((∃ u, t = some u ∧ u.Shown lines cols) ↔ M) ∧
    ∀ u, t = some u → u.Shown lines cols → u.Inv lines cols

variable {M : Prop} {r : Option State}

theorem settles_some (h : r = some t) (hiff : t.Shown lines cols ↔ M)
    (hinv : t.Shown lines cols → t.Inv lines cols) : Settles lines cols r M := by
  subst h
  refine ⟨Iff.trans ⟨?_, fun hshown => ⟨t, rfl, hshown⟩⟩ hiff, ?_⟩
  · rintro ⟨u, hu, hshown⟩
    obtain rfl := Option.some.inj hu
    exact hshown
  · intro u hu hshown
    obtain rfl := Option.some.inj hu
    exact hinv hshown

theorem settles_none (h : r = none) (hM : ¬ M) : Settles lines cols r M := by
  subst h
  refine ⟨iff_of_false ?_ hM, fun u hu => by cases hu⟩
  rintro ⟨u, hu, -⟩
  cases hu

/-- A window that is written to. -/
theorem settles_winPrint (hinv : s.Inv lines cols) (hshown : s.Shown lines cols) (id : Int) :
    Settles lines cols (Call.run lines cols s (.winPrint id)) (Call.Meets lines cols s (.winPrint id)) := by
  unfold Call.run
  dsimp only
  by_cases hid : 0 ≤ id
  · rw [if_pos hid]
    cases hw : s.windowAt id.toNat with
    | none =>
        refine settles_none rfl fun hm => ?_
        have hsome := hm.2
        rw [hw] at hsome
        cases hsome
    | some w => exact settles_some rfl (iff_of_true hshown ⟨hid, by rw [hw]; rfl⟩) fun _ => hinv
  · rw [if_neg hid]
    exact settles_none rfl fun hm => hid hm.1

/-- A text that is the title of a window stays. -/
theorem settles_text (hinv : s.Inv lines cols) (hshown : s.Shown lines cols) (p : Nat) (x : Option CStr) :
    Settles lines cols (Call.run lines cols s (.text p x)) (Call.Meets lines cols s (.text p x)) := by
  refine settles_some rfl ⟨fun h i w hw hp => ?_,
    fun hm => ⟨⟨fun i w hw => ?_, hshown.1.distinct⟩, ?_⟩⟩ fun _ => ?_
  · have hkept : Function.update s.texts p x (s.titles i) = some w.title := h.1.kept i w hw
    rwa [hp, Function.update_self] at hkept
  · show Function.update s.texts p x (s.titles i) = some w.title
    rw [Function.update_apply]
    split
    · next hp => exact hm i w hw hp
    · exact hshown.1.kept i w hw
  · exact ⟨hshown.2.placed, hshown.2.inside, hshown.2.apart⟩
  · exact ⟨hinv.count, hinv.some, hinv.fit⟩

/-- The window that is created is in its slot, and no two windows have one title. -/
theorem allocate_spec (hinv : s.Inv lines cols) (htitled : s.Titled) {p : Nat} (hname : s.texts p = some name)
    (hnew : ∀ i w, s.windowAt i = some w → w.title ≠ name) (hid : s.grow.windows[id]? = some none)
    (oneline : Bool) (height : BitVec 32) :
    (s.grow.allocate id p name oneline height).Titled ∧
      (existing 0 (s.grow.allocate id p name oneline height).windows).length = s.nwin + 1 ∧
      (s.grow.allocate id p name oneline height).windowAt id = some (newWindow name oneline height) ∧
      (s.grow.allocate id p name oneline height).windows.set id none = s.grow.windows := by
  have hlt := (List.getElem?_eq_some_iff.mp hid).1
  have hat : ∀ i, (s.grow.allocate id p name oneline height).windowAt i =
      if id = i then some (newWindow name oneline height) else s.windowAt i := by
    intro i
    rw [← windowAt_grow s i]
    exact join_set hlt _ i
  have hold : ∀ {i w}, (s.grow.allocate id p name oneline height).windowAt i = some w →
      i = id ∧ w.title = name ∨ i ≠ id ∧ s.windowAt i = some w := by
    intro i w hw
    rw [hat] at hw
    split at hw
    · next heq =>
      obtain rfl := Option.some.inj hw
      exact .inl ⟨heq.symm, rfl⟩
    · next hne => exact .inr ⟨fun heq => hne heq.symm, hw⟩
  refine ⟨⟨fun i w hw => ?_, fun i j w v hw hv heq => ?_⟩, ?_, ?_, ?_⟩
  · show s.texts (Function.update s.titles id p i) = some w.title
    rcases hold hw with ⟨rfl, htitle⟩ | ⟨hne, hw⟩
    · rw [Function.update_self, hname, htitle]
    · rw [Function.update_of_ne hne]
      exact htitled.kept i w hw
  · rcases hold hw with ⟨hi, hwt⟩ | ⟨-, hw'⟩ <;> rcases hold hv with ⟨hj, hvt⟩ | ⟨-, hv'⟩
    · exact hi.trans hj.symm
    · exact absurd (heq.symm.trans hwt) (hnew j v hv')
    · exact absurd (heq.trans hvt) (hnew i w hw')
    · exact htitled.distinct i j w v hw' hv' heq
  · obtain ⟨as, bs, hnone, hsome⟩ := existing_set hlt 0
    rw [set_of_getElem? hid] at hnone
    have hcount := hinv.grow.count
    rw [hnone, List.length_append] at hcount
    have hlen := congrArg List.length (hsome (newWindow name oneline height))
    rw [List.length_append, List.length_cons] at hlen
    have hcount : as.length + bs.length = s.nwin := hcount
    refine hlen.trans ?_
    omega
  · rw [hat, if_pos rfl]
  · show (s.grow.windows.set id (some _)).set id none = s.grow.windows
    rw [List.set_set, set_of_getElem? hid]

/-- A window that is placed, or removed again. -/
theorem settles_place (hlines : lines < 2 ^ 31) (hmax : cols < 2 ^ 31) (htitled : s.Titled)
    (hcount : (existing 0 s.windows).length = s.nwin) (hn : s.nwin ≠ 0) (hshort : s.windows.length < 2 ^ 31)
    (hw : s.windowAt id = some w) (hback : (s.remove id).Shown lines cols)
    (hinv : (s.remove id).Inv lines cols) :
    Settles lines cols ((s.place lines cols id).map Prod.snd)
      (30 ≤ cols ∧
        (fixedSum (existing 0 s.windows) ≤ lines ∨ Refused lines cols (existing 0 s.windows))) := by
  by_cases hcols : 30 ≤ cols
  swap
  · refine settles_none ?_ fun h => hcols h.1
    unfold State.place
    rw [resize_narrow hcount hshort hn (by omega)]
    rfl
  rw [and_iff_right hcols]
  by_cases hres : Refused lines cols (existing 0 s.windows)
  · have hsize : (s.remove id).windows.length = s.windows.length := List.length_set
    have hplace : s.place lines cols id = ((s.remove id).resize lines cols).map fun r => (none, r.2) := by
      have hdestroy := @winDestroy_some lines cols s w id (Int.natCast_nonneg id) hw
      unfold State.place
      rw [resize_refused hcount hshort hn hlines hcols hmax hres]
      show (s.winDestroy lines cols id).map _ = _
      rw [hdestroy, Option.map_map]
      rfl
    by_cases hnone : (s.remove id).nwin = 0
    · refine settles_some ?_ (iff_of_true hback (.inr hres)) fun _ => hinv
      rw [hplace, resize_empty hinv.count (by omega) hnone]
      rfl
    · obtain ⟨fs, hresize, hshown⟩ := resize_fit hinv.count (by omega) hnone hlines hmax (hinv.fit hnone)
        hback.1
      refine settles_some (by rw [hplace, hresize]; rfl) (iff_of_true hshown (.inr hres)) fun _ => ?_
      exact ⟨hinv.count, hinv.some, hinv.fit⟩
  · obtain ⟨fs, hresize, hframed⟩ := resize_placed hcount hshort hn hlines hcols hmax hres htitled.isSome
    have hplace : s.place lines cols id = some (some id, { s with frames := fs }) := by
      unfold State.place
      rw [hresize s.frames]
      show (({ s with frames := fs } : State).resize lines cols).bind _ = _
      rw [hresize fs]
      rfl
    rw [or_iff_left hres, ← hframed]
    refine settles_some (by rw [hplace]; rfl) (and_iff_right ⟨htitled.kept, htitled.distinct⟩)
      fun hshown => ?_
    exact ⟨hcount, Nat.zero_lt_of_lt (windowAt_lt hw).1, fun _ => ⟨hcols, hframed.mp hshown.2, hres⟩⟩

section Steps

variable (hlines : lines < 2 ^ 31) (hmax : cols < 2 ^ 31) (hinv : s.Inv lines cols)
  (hshown : s.Shown lines cols) (hshort : s.windows.length < 2 ^ 29)

include hlines hmax hinv hshown hshort

/-- The frame of the last window stays on the screen. -/
theorem settles_winDestroy (id : Int) :
    Settles lines cols ((s.winDestroy lines cols id).map Prod.snd)
      (Call.Meets lines cols s (.winDestroy id)) := by
  by_cases hid : 0 ≤ id
  · cases hw : s.windowAt id.toNat with
    | none =>
        refine settles_some (t := s) (by rw [winDestroy_none hid hw]; rfl) ?_ fun _ => hinv
        exact iff_of_true hshown ⟨hid, fun _ => hw⟩
    | some w =>
        obtain ⟨hn, hcount, htitled⟩ := remove_spec hinv hshown.1 hw
        have hsize : (s.remove id.toNat).windows.length = s.windows.length := List.length_set
        by_cases hone : s.nwin = 1
        · have hresize := @resize_empty lines cols (s.remove id.toNat) hcount (by omega)
            (show s.nwin - 1 = 0 by omega)
          have hgone : ¬ (s.remove id.toNat).Shown lines cols := by
            intro h
            have hold := hshown.2.placed id.toNat
            have hnew := h.2.placed id.toNat
            rw [windowAt_remove hw, if_pos rfl] at hnew
            rw [hw] at hold
            exact Nat.zero_ne_one (hnew.symm.trans hold)
          refine settles_some (t := s.remove id.toNat) (by rw [winDestroy_some hid hw, hresize]; rfl)
            (iff_of_false hgone fun hm => ?_) fun h => absurd h hgone
          cases hw.symm.trans (hm.2 hone)
        · have hfit := remove_fit hinv hlines hw
          obtain ⟨fs, hresize, hshown'⟩ := resize_fit hcount (by omega) (show s.nwin - 1 ≠ 0 by omega)
            hlines hmax hfit htitled
          refine settles_some (by rw [winDestroy_some hid hw, hresize]; rfl)
            (iff_of_true hshown' ⟨hid, fun h => absurd h hone⟩) fun _ => ?_
          exact ⟨hcount, hsize ▸ hinv.some, fun _ => hfit⟩
  · refine settles_none ?_ fun hm => hid hm.1
    unfold State.winDestroy
    rw [if_neg (by omega), if_pos (Int.not_le.mp hid)]
    rfl

/-- A window that is created, or the one of the name. -/
theorem settles_winCreate {p : Nat} (hname : s.texts p ≠ none) (oneline : Bool) (height : BitVec 32) :
    Settles lines cols ((s.winCreate lines cols p oneline height).map Prod.snd)
      (CreateMeets lines cols s p oneline height) := by
  obtain ⟨name, hname⟩ := Option.ne_none_iff_exists'.mp hname
  have hM : CreateMeets lines cols s p oneline height ↔
      (∃ i w, s.windowAt i = some w ∧ w.title = name) ∨ 30 ≤ cols ∧
        (fixedSum (s.extended (newWindow name oneline height)) ≤ lines ∨
          Refused lines cols (s.extended (newWindow name oneline height))) := by
    refine ⟨fun h => h name hname, fun h name' hname' => ?_⟩
    obtain rfl := Option.some.inj (hname.symm.trans hname')
    exact h
  obtain ⟨hlength, hdouble⟩ := hinv.length_grow
  have hgrown : s.grow.Shown lines cols :=
    ⟨hshown.1.sub (fun i w hw => ⟨windowAt_grow s i ▸ hw, rfl⟩) rfl,
      hshown.2.congr (windowAt_grow s) rfl⟩
  rw [hM]
  unfold State.winCreate
  rw [hname]
  dsimp only
  rcases @search_spec s.grow.windows 0 (s.texts ∘ s.titles) name none fun i w hw => by
    rw [Nat.zero_add]
    exact hgrown.1.kept i w hw with ⟨i, w, hw, htitle, hfound⟩ | ⟨hnew, hfound⟩
  · rw [hfound]
    exact settles_some rfl (iff_of_true hgrown (.inl ⟨i, w, windowAt_grow s i ▸ hw, htitle⟩))
      fun _ => hinv.grow
  have hnew : ∀ i w, s.windowAt i = some w → w.title ≠ name := fun i w hw =>
    hnew i w ((windowAt_grow s i).trans hw)
  rw [or_iff_right (by
    rintro ⟨i, w, hw, htitle⟩
    exact hnew i w hw htitle), hfound]
  obtain ⟨id, hid, hlast⟩ | ⟨hfull, -⟩ := lastFree_spec s.grow.windows 0 none
  swap
  · have hcount := hinv.grow.count
    exact absurd (hcount.symm.trans hfull) (Nat.ne_of_lt hlength)
  rw [Nat.zero_add] at hlast
  obtain ⟨htitled, hcount, hat, hset⟩ := allocate_spec hinv hshown.1 hname hnew hid oneline height
  have hext : s.extended (newWindow name oneline height) =
      existing 0 (s.grow.allocate id p name oneline height).windows := by
    unfold State.extended
    rw [hlast]
    rfl
  have hsize : (s.grow.allocate id p name oneline height).windows.length = s.grow.windows.length :=
    List.length_set
  have hnwin : (s.grow.allocate id p name oneline height).nwin = s.nwin + 1 := rfl
  rw [hlast, hext]
  have hsame : ∀ i, ((s.grow.allocate id p name oneline height).remove id).windowAt i = s.windowAt i := by
    intro i
    rw [← windowAt_grow s i]
    exact congrArg (fun ws : List (Option Window) => (ws[i]?).join) hset
  refine settles_place hlines hmax htitled hcount (Nat.succ_ne_zero _) (by omega) hat ⟨?_, ?_⟩ ?_
  · refine hshown.1.sub (fun i v hv => ?_) rfl
    rw [hsame] at hv
    refine ⟨hv, Function.update_of_ne ?_ _ _⟩
    rintro rfl
    have hgone := windowAt_grow s i
    rw [hv] at hgone
    have hnone : s.grow.windowAt i = none := congrArg Option.join hid
    cases hgone.symm.trans hnone
  · exact hshown.2.congr hsame rfl
  · have hgrow := hinv.grow
    have hwindows : ((s.grow.allocate id p name oneline height).remove id).windows = s.grow.windows := hset
    constructor
    · rw [hwindows]
      exact hgrow.count
    · rw [hwindows]
      exact hgrow.some
    · rw [hwindows]
      exact hgrow.fit

end Steps

/-- One step. -/
theorem settles (hlines : lines < 2 ^ 31) (hmax : cols < 2 ^ 31) (hinv : s.Inv lines cols)
    (hshown : s.Shown lines cols) {c : Call} (hshort : s.windows.length < 2 ^ 29) (hnamed : c.Named s) :
    Settles lines cols (c.run lines cols s) (c.Meets lines cols s) := by
  cases c with
  | winCreate p oneline height => exact settles_winCreate hlines hmax hinv hshown hshort hnamed oneline height
  | winGetid p => exact settles_winCreate hlines hmax hinv hshown hshort hnamed false 0
  | winDestroy id => exact settles_winDestroy hlines hmax hinv hshown hshort id
  | winPrint id => exact settles_winPrint hinv hshown id
  | text p x => exact settles_text hinv hshown p x

/-! ## Runs -/

theorem inv_init (texts : Nat → Option CStr) : ({ texts } : State).Inv lines cols where
  count := rfl
  some := Nat.succ_pos 1
  fit h := absurd rfl h

theorem windowAt_init (texts : Nat → Option CStr) (i : Nat) : ({ texts } : State).windowAt i = none := by
  rcases i with _ | _ | i <;> rfl

theorem shown_init (texts : Nat → Option CStr) : ({ texts } : State).Shown lines cols := by
  refine ⟨⟨fun i w hw => ?_, fun i j w v hw => ?_⟩, fun i => ?_, fun f hf => ?_, List.Pairwise.nil⟩
  · cases (windowAt_init texts i).symm.trans hw
  · cases (windowAt_init texts i).symm.trans hw
  · rw [windowAt_init]
    rfl
  · cases hf

/-- The windows are always shown in the runs whose calls are as they must be. -/
theorem run_windows_iff (hlines : lines < 2 ^ 31) (hcols : cols < 2 ^ 31) (texts : Nat → Option CStr)
    (cs : List Call) (t : Option State) :
    Run (fun s c t => Step lines cols s c t ∧ ∃ u, t = some u ∧ u.Shown lines cols)
        (some { texts }) cs t ↔
      Run (fun s c t => Step lines cols s c t ∧ ∃ u, s = some u ∧ c.Meets lines cols u)
        (some { texts }) cs t := by
  have hone : ∀ s c t, (∀ u, s = some u → u.Inv lines cols ∧ u.Shown lines cols) →
      Step lines cols s c t → Settles lines cols t (∃ u, s = some u ∧ c.Meets lines cols u) := by
    rintro s c t hs ⟨u, rfl, hshort, hnamed, rfl⟩
    obtain ⟨hinv, hshown⟩ := hs u rfl
    obtain ⟨hiff, hkeep⟩ := settles hlines hcols hinv hshown hshort hnamed
    refine ⟨hiff.trans ⟨fun hm => ⟨u, rfl, hm⟩, ?_⟩, hkeep⟩
    rintro ⟨u', heq, hm⟩
    obtain rfl := Option.some.inj heq
    exact hm
  apply @Run.guarded_iff _ _ (Step lines cols)
    (fun s => ∀ u, s = some u → u.Inv lines cols ∧ u.Shown lines cols)
    (fun _ _ t => ∃ u, t = some u ∧ u.Shown lines cols)
    (fun s c _ => ∃ u, s = some u ∧ c.Meets lines cols u)
  · intro u hu
    obtain rfl := Option.some.inj hu
    exact ⟨inv_init texts, shown_init texts⟩
  · intro s c t hs hstep hmeets u hu
    obtain ⟨hiff, hkeep⟩ := hone s c t hs hstep
    obtain ⟨v, hv, hshown⟩ := hiff.mpr hmeets
    obtain rfl := Option.some.inj (hu.symm.trans hv)
    exact ⟨hkeep u hu hshown, hshown⟩
  · intro s c t hs hstep
    exact (hone s c t hs hstep).1

/-- `init`: the window of the command line is shown on a terminal of usual size. -/
theorem init_windows_shown : (24 < 2 ^ 31 ∧ 80 < 2 ^ 31) ∧
    Run (fun s c t => Step 24 80 s c t ∧ ∃ u, t = some u ∧ u.Shown 24 80)
      (some { texts := fun _ => some "command-line".toList }) [.winCreate 0 true 3]
      (Call.run 24 80 { texts := fun _ => some "command-line".toList } (.winCreate 0 true 3)) := by
  refine ⟨by decide, (run_windows_iff (by decide) (by decide) _ _ _).mpr ?_⟩
  refine @Run.snoc _ _ _ _ _ _ [] _ Run.nil
    ⟨⟨_, rfl, by decide, Option.some_ne_none _, rfl⟩, _, rfl, ?_⟩
  intro name hname
  refine .inr ⟨by decide, .inl ?_⟩
  show 3 ≤ 24
  decide

end Vimgdb.Curses
