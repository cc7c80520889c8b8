import Mathlib.Algebra.Ring.Nat
import Vimgdb.Common.Strings
import Vimgdb.Lib.Buffer
import Vimgdb.Lib.Rows

/-!
# The windows of the terminal

`cursesui::win_resize` arranges the windows in lines, with every access to its arrays and every division.

* `Window`, `Table`: the windows in their slots.
* `splitLoop`, `lineLoop`, `placeRows`, `winResize`: the function.
* `splitLoop_eq`, `lineLoop_eq`: the two arrays are the groups and the rows of `Rows`.
* `layout`: the frames of rows of windows.
* `winResize_eq`: the function lays out the rows; `winResize_zero`: a division by zero.
-/

namespace Vimgdb.Curses

open Buffers Rows

/-! ## The windows -/

/-- `window_t`.  A height is only given to windows of the full width. -/
structure Window where
  title : CStr
  oneline : Bool
  height : BitVec 32
  fixed : 0 < height → oneline = true

/-- The window that `win_create` allocates. -/
def newWindow (title : CStr) (oneline : Bool) (height : BitVec 32) : Window where
  title := title
  oneline := if 0 < height then true else oneline
  height := height
  fixed h := if_pos h

/-- The windows that exist, with their slots. -/
def existing : Nat → List (Option Window) → List (Nat × Window)
  | _, [] => []
  | i, none :: ws => existing (i + 1) ws
  | i, some w :: ws => (i, w) :: existing (i + 1) ws

/-- The slots, `max_win` in number, and how many windows there are. -/
structure Table where
  windows : List (Option Window)
  nwin : Nat
  count : (existing 0 windows).length = nwin
  short : windows.length < 2 ^ 31

/-! ## The function -/

/-- `split`, with the heights that have been added up. -/
structure Split where
  split : List Nat
  nsplit : Nat := 0
  fixedHeight : BitVec 32 := 0
  nfixedHeight : BitVec 32 := 0

/-- A window is counted; one of the full width is an entry of its own. -/
def Split.enter (st : Split) (w : Window) : Option Split := do
  let n ← read st.split st.nsplit
  if w.oneline then
    let i := if n ≠ 0 then st.nsplit + 1 else st.nsplit
    let split ← write st.split i 1
    return { st with split, nsplit := i + 1 }
  else
    let split ← write st.split st.nsplit (n + 1)
    return { st with split }

def Split.addHeight (st : Split) (w : Window) : Split :=
  if 0 < w.height then
    { st with fixedHeight := st.fixedHeight + w.height, nfixedHeight := st.nfixedHeight + 1 }
  else st

/-- The loop over the slots. -/
def splitLoop : List (Option Window) → Split → Option Split
  | [], st => some st
  | none :: ws, st => splitLoop ws st
  | some w :: ws, st => do
      let st ← st.enter w
      splitLoop ws (st.addHeight w)

/-- `ncols`, with the entries that are used. -/
structure Cols where
  ncols : List Nat
  nlines : Nat := 0

def Cols.push (st : Cols) (n : Nat) : Option Cols :=
  (write st.ncols st.nlines n).map fun ncols => ⟨ncols, st.nlines + 1⟩

/-- Several lines with `n` windows. -/
def Cols.pushAll (n : Nat) : Nat → Cols → Option Cols
  | 0, st => some st
  | k + 1, st => do
      let st ← st.push n
      Cols.pushAll n k st

/-- The lines of an entry of `split`. -/
def Cols.enter (maxCols n : Nat) (st : Cols) : Option Cols := do
  if n ≤ maxCols then st.push n
  -- a division by zero
  else if maxCols = 0 then none
  else
    let st ← Cols.pushAll maxCols (n / maxCols) st
    if n % maxCols ≠ 0 then st.push (n % maxCols) else return st

/-- The loop over `split`, from the entry `i` on. -/
def lineLoop (maxCols : Nat) (split : List Nat) : Nat → Nat → Cols → Option Cols
  | 0, _, st => some st
  | k + 1, i, st => do
      let n ← read split i
      let st ← st.enter maxCols n
      lineLoop maxCols split k (i + 1) st

/-- The frame of a window: its first line and column, and its size. -/
structure Frame where
  slot : Nat
  y : BitVec 32
  x : BitVec 32
  height : BitVec 32
  width : BitVec 32

/-- The height of a window, or that of the lines. -/
def Window.heightOr (w : Window) (height : BitVec 32) : BitVec 32 :=
  if 0 < w.height then w.height else height

/-- The next slot with a window. -/
def nextWindow : List (Option Window) → Nat → Option (Nat × Window)
  | [], _ => none
  | none :: ws, i => nextWindow ws (i + 1)
  | some w :: _, i => some (i, w)

/-- The windows of a line, from the column `j` on. -/
def placeRow (windows : List (Option Window)) (height width line : BitVec 32) :
    Nat → Nat → Nat → List Frame → Option (Nat × List Frame)
  | 0, _, win, ps => some (win, ps)
  | n + 1, j, win, ps => do
      let (i, w) ← nextWindow (windows.drop win) win
      placeRow windows height width line n (j + 1) (i + 1)
        (ps ++ [⟨i, line, BitVec.ofNat 32 j * width, w.heightOr height, width⟩])

/-- The loop over the lines, from the line `i` on: the frames, or none for -1. -/
def placeRows (windows : List (Option Window)) (cols : Nat) (height : BitVec 32) (ncols : List Nat) :
    Nat → Nat → Nat → BitVec 32 → List Frame → Option (Option (List Frame))
  | 0, _, _, _, ps => some (some ps)
  | k + 1, i, win, line, ps => do
      let n ← read ncols i
      -- a division by zero
      if n = 0 then none
      else
        let width := BitVec.ofNat 32 (cols / n)
        if width < 30 then return none
        else
          let (win, ps) ← placeRow windows height width line n 0 win ps
          let last ← (windows[win - 1]?).join
          placeRows windows cols height ncols k (i + 1) win (line + last.heightOr height) ps

/-- `win_resize` on a screen: the frames, or none for -1. -/
def winResize (lines cols : Nat) (t : Table) : Option (Option (List Frame)) := do
  if t.nwin = 0 then return some []
  else
    let zeros := List.replicate (t.nwin + 1) 0
    let st ← splitLoop t.windows { split := zeros }
    let n ← read st.split st.nsplit
    let nsplit := if 0 < n then st.nsplit + 1 else st.nsplit
    let cs ← lineLoop (cols / 30) st.split nsplit 0 { ncols := zeros }
    let n ← read cs.ncols cs.nlines
    let nlines := if 0 < n then cs.nlines + 1 else cs.nlines
    let rest := BitVec.ofNat 32 nlines - st.nfixedHeight
    let free := BitVec.ofNat 32 lines - st.fixedHeight
    let height := if 0 < rest then free / rest else 0
    if 0 < rest ∧ height < 3 then return none
    -- the difference is not signed
    else if free < 0 then return none
    else placeRows t.windows cols height cs.ncols nlines 0 0 0 []

/-! ## The entries of `split` -/

/-- The windows of the full width. -/
def wide (p : Nat × Window) : Bool := p.2.oneline

/-- The windows of a height of their own. -/
def fixedCount (ps : List (Nat × Window)) : Nat := ps.countP fun p => decide (0 < p.2.height)

/-- The heights of these windows, as numbers. -/
def fixedSum (ps : List (Nat × Window)) : Nat := (ps.map fun p => p.2.height.toNat).sum

variable {ws : List (Option Window)} {ps : List (Nat × Window)} {gs rs : List (List (Nat × Window))}
variable {cur g r : List (Nat × Window)} {p : Nat × Window} {m n i win c cols : Nat}
variable {height width line : BitVec 32}

/-- The state with the groups `gs` behind it, and `cur` in the entry that is being counted. -/
def atGroups (gs : List (List (Nat × Window))) (cur : List (Nat × Window)) (m : Nat) (ps : List (Nat × Window)) :
    Split where
  split := gs.map List.length ++ cur.length :: List.replicate m 0
  nsplit := gs.length
  fixedHeight := BitVec.ofNat 32 (fixedSum ps)
  nfixedHeight := BitVec.ofNat 32 (fixedCount ps)

theorem read_atGroups : read (atGroups gs cur m ps).split (atGroups gs cur m ps).nsplit = some cur.length :=
  read_append (List.length_map _).symm

theorem enter_narrow (hp : p.2.oneline = false) :
    (atGroups gs cur m ps).enter p.2 = some (atGroups gs (cur ++ [p]) m ps) := by
  have hwrite : write (atGroups gs cur m ps).split (atGroups gs cur m ps).nsplit (cur.length + 1)
      = some (gs.map List.length ++ (cur.length + 1) :: List.replicate m 0) :=
    write_append (List.length_map _).symm
  unfold Split.enter
  rw [read_atGroups, Option.bind_eq_bind, Option.bind_some, if_neg (by rw [hp]; decide), hwrite]
  simp [atGroups]

theorem enter_wide (hp : p.2.oneline = true) :
    (atGroups gs cur (m + (closed cur).length + 1) ps).enter p.2
      = some (atGroups (gs ++ closed cur ++ [[p]]) [] m ps) := by
  unfold Split.enter
  rw [read_atGroups, Option.bind_eq_bind, Option.bind_some, if_pos hp]
  cases cur with
  | nil =>
      have hwrite : write (atGroups gs [] (m + 1) ps).split gs.length 1
          = some (gs.map List.length ++ 1 :: List.replicate (m + 1) 0) :=
        write_append (List.length_map _).symm
      show (write (atGroups gs [] (m + 1) ps).split gs.length 1).bind _ = _
      rw [hwrite]
      simp [atGroups, closed, List.replicate_succ]
  | cons a cur =>
      have hwrite : write (atGroups gs (a :: cur) (m + 2) ps).split (gs.length + 1) 1
          = some (gs.map List.length ++ [(a :: cur).length] ++ 1 :: List.replicate (m + 1) 0) := by
        rw [← @write_append Nat _ _ 1 0 _ (show gs.length + 1 = _ by simp)]
        simp [atGroups, List.replicate_succ]
      show (write (atGroups gs (a :: cur) (m + 2) ps).split (gs.length + 1) 1).bind _ = _
      rw [hwrite]
      simp [atGroups, closed, List.replicate_succ]

theorem addHeight_atGroups (w : Window) (h : p.2 = w) :
    (atGroups gs cur m ps).addHeight w = atGroups gs cur m (ps ++ [p]) := by
  subst h
  unfold Split.addHeight
  split
  · next hpos =>
    have hone : fixedCount [p] = 1 := by rw [fixedCount, List.countP_singleton, if_pos (decide_eq_true hpos)]
    simp only [atGroups, fixedSum, fixedCount, List.map_append, List.sum_append, List.countP_append,
      BitVec.ofNat_add] at hone ⊢
    rw [hone]
    simp
  · next hpos =>
    have hzero : p.2.height = 0 := BitVec.le_zero_iff.mp (BitVec.not_lt.mp hpos)
    simp [atGroups, fixedSum, fixedCount, hzero]

/-- The loop counts the groups that `Rows.groups` makes. -/
theorem splitLoop_eq (hm : (existing i ws).length + (closed cur).length ≤ m) :
    ∃ gs' cur' m', splitLoop ws (atGroups gs cur m ps)
      = some (atGroups gs' cur' m' (ps ++ existing i ws))
      ∧ gs' ++ closed cur' = gs ++ groups wide (existing i ws) cur := by
  induction ws generalizing i gs cur m ps with
  | nil => exact ⟨gs, cur, m, by rw [existing, List.append_nil]; rfl, rfl⟩
  | cons o ws ih =>
      cases o with
      | none => exact @ih ps gs cur m (i + 1) hm
      | some w =>
          rw [existing, List.length_cons] at hm
          have happ : ps ++ existing i (some w :: ws) = ps ++ [(i, w)] ++ existing (i + 1) ws := by
            rw [existing, List.append_assoc, List.singleton_append]
          rw [happ]
          cases hw : w.oneline with
          | false =>
              obtain ⟨gs', cur', m', hloop, hgs⟩ := @ih (ps ++ [(i, w)]) gs (cur ++ [(i, w)]) m
                (i + 1) (by rw [closed, if_neg (by simp)]; simp only [List.length_singleton]; omega)
              refine ⟨gs', cur', m', ?_, ?_⟩
              · rw [splitLoop, enter_narrow (p := (i, w)) hw, Option.bind_eq_bind, Option.bind_some,
                  addHeight_atGroups (p := (i, w)) w rfl, hloop]
              · rw [hgs, existing, groups, if_neg (by rw [wide, hw]; decide)]
          | true =>
              obtain ⟨k, rfl⟩ := Nat.exists_eq_add_of_le (show (closed cur).length + 1 ≤ m by omega)
              obtain ⟨gs', cur', m', hloop, hgs⟩ := @ih (ps ++ [(i, w)])
                (gs ++ closed cur ++ [[(i, w)]]) [] k (i + 1) (by simp [closed]; omega)
              refine ⟨gs', cur', m', ?_, ?_⟩
              · rw [splitLoop, show (closed cur).length + 1 + k = k + (closed cur).length + 1 by omega,
                  enter_wide (p := (i, w)) hw, Option.bind_eq_bind, Option.bind_some,
                  addHeight_atGroups (p := (i, w)) w rfl, hloop]
              · rw [hgs, existing, groups, if_pos (show wide (i, w) = true from hw)]
                simp

/-- The entry that is being counted is an entry unless it is empty. -/
theorem closed_entries : ∃ k, (atGroups gs cur m ps).split
      = (gs ++ closed cur).map List.length ++ List.replicate k 0
    ∧ (if 0 < cur.length then gs.length + 1 else gs.length) = (gs ++ closed cur).length := by
  cases cur with
  | nil => exact ⟨m + 1, by simp [atGroups, closed, List.replicate_succ], by simp [closed]⟩
  | cons a cur => exact ⟨m, by simp [atGroups, closed], by simp [closed]⟩

/-! ## The entries of `ncols` -/

/-- The state with the rows `rs` behind it. -/
def atRows (rs : List (List (Nat × Window))) (m : Nat) : Cols where
  ncols := rs.map List.length ++ List.replicate m 0
  nlines := rs.length

theorem push_atRows (hn : r.length = n) : (atRows rs (m + 1)).push n = some (atRows (rs ++ [r]) m) := by
  have hwrite : write (atRows rs (m + 1)).ncols (atRows rs (m + 1)).nlines n
      = some (rs.map List.length ++ n :: List.replicate m 0) :=
    write_append (List.length_map _).symm
  rw [Cols.push, hwrite]
  simp [atRows, hn]

theorem pushAll_atRows (hk : n * c ≤ g.length) :
    Cols.pushAll c n (atRows rs (m + n)) = some (atRows (rs ++ fullRows c n g) m) := by
  induction n generalizing rs g with
  | zero => rw [fullRows, List.append_nil]; rfl
  | succ n ih =>
      rw [Nat.succ_mul] at hk
      rw [Cols.pushAll, ← Nat.add_assoc, push_atRows (r := g.take c) (List.length_take_of_le (by omega)),
        Option.bind_eq_bind, Option.bind_some, ih (g := g.drop c) (by rw [List.length_drop]; omega), fullRows,
        List.append_assoc, List.singleton_append]

/-- The lines of an entry are the rows of its group. -/
theorem enter_atRows (hc : 0 < c) :
    (atRows rs (m + (rows c g).length)).enter c g.length = some (atRows (rs ++ rows c g) m) := by
  unfold Cols.enter
  by_cases hle : g.length ≤ c
  · rw [if_pos hle, rows, if_pos hle]
    exact push_atRows rfl
  · have hfull : (fullRows c (g.length / c) g).length = g.length / c := by
      simpa using congrArg List.length (map_length_fullRows (Nat.div_mul_le_self g.length c))
    have hrest : (g.drop (g.length / c * c)).length = g.length % c := by
      have hdiv := Nat.div_add_mod' g.length c
      rw [List.length_drop]
      omega
    rw [if_neg hle, if_neg hc.ne', rows, if_neg hle, List.length_append, hfull, Nat.add_comm (g.length / c),
      ← Nat.add_assoc, pushAll_atRows (Nat.div_mul_le_self g.length c), Option.bind_eq_bind, Option.bind_some,
      ← List.append_assoc]
    by_cases hmod : g.length % c = 0
    · rw [if_neg (by simpa using hmod), List.eq_nil_of_length_eq_zero (hrest.trans hmod)]
      simp [closed]
    · have hne : g.drop (g.length / c * c) ≠ [] := fun h => hmod (by rw [← hrest, h]; rfl)
      rw [if_pos hmod, closed, if_neg (by simpa using hne)]
      exact push_atRows hrest

/-- The loop makes the rows of all groups. -/
theorem lineLoop_eq {pre : List (List (Nat × Window))} {suf : List Nat} (hc : 0 < c) (hi : i = pre.length) :
    lineLoop c ((pre ++ gs).map List.length ++ suf) gs.length i (atRows rs (m + (gs.flatMap (rows c)).length))
      = some (atRows (rs ++ gs.flatMap (rows c)) m) := by
  induction gs generalizing pre rs i with
  | nil => rw [List.flatMap_nil, List.append_nil rs]; rfl
  | cons g gs ih =>
      have hread : read ((pre ++ g :: gs).map List.length ++ suf) i = some g.length := by
        rw [List.map_append, List.map_cons, List.append_assoc]
        exact read_append (by rw [hi, List.length_map])
      have hrest := @ih (rs ++ rows c g) (i + 1) (pre ++ [g]) (by simp [hi])
      rw [List.length_cons, lineLoop, hread, Option.bind_eq_bind, Option.bind_some, List.flatMap_cons,
        List.length_append, Nat.add_comm (rows c g).length, ← Nat.add_assoc, enter_atRows hc, Option.bind_eq_bind,
        Option.bind_some, ← List.append_assoc, ← hrest, List.append_assoc pre, List.singleton_append]

theorem lineLoop_zero {st : Cols} {suf : List Nat} (hg : g ≠ []) :
    lineLoop 0 ((g :: gs).map List.length ++ suf) (gs.length + 1) 0 st = none := by
  have hpos := List.length_pos_of_ne_nil hg
  show ((st.enter 0 g.length).bind fun st => lineLoop 0 _ gs.length 1 st) = none
  rw [Cols.enter, if_neg (by omega), if_pos rfl]
  rfl

/-! ## The frames -/

/-- The frames of a row, from the column `j` on. -/
def layoutRow (height width line : BitVec 32) : Nat → List (Nat × Window) → List Frame
  | _, [] => []
  | j, p :: ps =>
      ⟨p.1, line, BitVec.ofNat 32 j * width, p.2.heightOr height, width⟩ :: layoutRow height width line (j + 1) ps

/-- The height of a row is that of its last window. -/
def rowHeight (height : BitVec 32) (r : List (Nat × Window)) : BitVec 32 :=
  match r.getLast? with
  | some p => p.2.heightOr height
  | none => 0

/-- The frames of rows, from `line` on. -/
def layout (cols : Nat) (height : BitVec 32) : BitVec 32 → List (List (Nat × Window)) → List Frame
  | _, [] => []
  | line, r :: rs =>
      layoutRow height (BitVec.ofNat 32 (cols / r.length)) line 0 r ++ layout cols height (line + rowHeight height r) rs

/-- The next window is the first of those that exist; the others are behind it. -/
theorem nextWindow_eq (h : existing i ws = p :: ps) :
    ∃ k, nextWindow ws i = some p ∧ p.1 = i + k ∧ ws[k]? = some (some p.2)
      ∧ existing (p.1 + 1) (ws.drop (k + 1)) = ps := by
  induction ws generalizing i with
  | nil => cases h
  | cons o ws ih =>
      cases o with
      | none =>
          obtain ⟨k, hnext, hslot, hget, hrest⟩ := @ih (i + 1) h
          exact ⟨k + 1, hnext, by rw [hslot]; omega, hget, hrest⟩
      | some w =>
          cases h
          exact ⟨0, rfl, rfl, rfl, rfl⟩

/-- A line shows the next windows; the cursor stands behind the last one. -/
theorem placeRow_eq {j : Nat} {fs : List Frame} (hr : r ≠ []) (h : existing win (ws.drop win) = r ++ ps) :
    ∃ win', placeRow ws height width line r.length j win fs = some (win', fs ++ layoutRow height width line j r)
      ∧ existing win' (ws.drop win') = ps
      ∧ (ws[win' - 1]?).join.map (Window.heightOr · height) = some (rowHeight height r) := by
  induction r generalizing j win fs with
  | nil => exact absurd rfl hr
  | cons p r ih =>
      obtain ⟨k, hnext, hslot, hget, hrest⟩ := nextWindow_eq h
      rw [List.getElem?_drop, ← hslot] at hget
      rw [List.drop_drop, show win + (k + 1) = p.1 + 1 by omega] at hrest
      rw [List.length_cons, placeRow, hnext, Option.bind_eq_bind, Option.bind_some]
      cases r with
      | nil => exact ⟨p.1 + 1, rfl, hrest, by rw [Nat.add_sub_cancel, hget]; rfl⟩
      | cons q r =>
          obtain ⟨win', hrow, hwin, hlast⟩ := @ih (p.1 + 1) (j + 1)
            (fs ++ [⟨p.1, line, BitVec.ofNat 32 j * width, p.2.heightOr height, width⟩])
            (List.cons_ne_nil q r) hrest
          refine ⟨win', hrow.trans ?_, hwin, ?_⟩
          · rw [List.append_assoc]
            rfl
          · rw [hlast, rowHeight, rowHeight, List.getLast?_cons_cons]

/-- The lines show the rows. -/
theorem placeRows_eq {done : List (List (Nat × Window))} {suf : List Nat} {fs : List Frame} (hi : i = done.length)
    (hcols : cols < 2 ^ 31) (hrs : ∀ r ∈ rs, 0 < r.length ∧ r.length ≤ cols / 30)
    (h : existing win (ws.drop win) = rs.flatten) :
    placeRows ws cols height ((done ++ rs).map List.length ++ suf) rs.length i win line fs
      = some (some (fs ++ layout cols height line rs)) := by
  induction rs generalizing done i win line fs with
  | nil => rw [layout, List.append_nil fs]; rfl
  | cons r rs ih =>
      obtain ⟨⟨hpos, hle⟩, hrs⟩ := List.forall_mem_cons.mp hrs
      have hread : read ((done ++ r :: rs).map List.length ++ suf) i = some r.length := by
        rw [List.map_append, List.map_cons, List.append_assoc]
        exact read_append (by rw [hi, List.length_map])
      have hwidth : ¬ BitVec.ofNat 32 (cols / r.length) < 30 := by
        have hge : 30 ≤ cols / r.length := by
          rw [Nat.le_div_iff_mul_le hpos, Nat.mul_comm]
          exact (Nat.le_div_iff_mul_le (by omega)).mp hle
        have hdiv := Nat.div_le_self cols r.length
        rw [BitVec.lt_def, BitVec.toNat_ofNat, Nat.mod_eq_of_lt (by omega)]
        exact Nat.not_lt.mpr hge
      obtain ⟨win', hrow, hwin, hlast⟩ := @placeRow_eq ws rs.flatten r win height
        (BitVec.ofNat 32 (cols / r.length)) line 0 fs (List.ne_nil_of_length_pos hpos) h
      obtain ⟨last, hget, hheight⟩ := Option.map_eq_some_iff.mp hlast
      have hrest := @ih (i + 1) win' (line + rowHeight height r) (done ++ [r])
        (fs ++ layoutRow height (BitVec.ofNat 32 (cols / r.length)) line 0 r) (by simp [hi]) hrs hwin
      rw [List.append_assoc done, List.singleton_append, List.append_assoc fs] at hrest
      rw [List.length_cons, placeRows, hread, Option.bind_eq_bind, Option.bind_some, if_neg hpos.ne',
        if_neg hwidth, hrow, Option.bind_eq_bind, Option.bind_some]
      show ((ws[win' - 1]?).join.bind fun last => placeRows ws cols height _ rs.length (i + 1) win'
        (line + last.heightOr height) _) = _
      rw [hget, Option.bind_some, hheight, hrest, layout]

/-! ## The function as a whole -/

/-- The rows of the windows of a table. -/
def Table.rows (t : Table) (cols : Nat) : List (List (Nat × Window)) :=
  arrange wide (cols / 30) (existing 0 t.windows)

/-- The number of rows without a height of their own. -/
def Table.flexible (t : Table) (cols : Nat) : BitVec 32 :=
  BitVec.ofNat 32 (t.rows cols).length - BitVec.ofNat 32 (fixedCount (existing 0 t.windows))

/-- The height of these rows. -/
def Table.share (t : Table) (lines cols : Nat) : BitVec 32 :=
  if 0 < t.flexible cols then
    (BitVec.ofNat 32 lines - BitVec.ofNat 32 (fixedSum (existing 0 t.windows))) / t.flexible cols
  else 0

variable {lines : Nat} {t : Table}

/-- The first loop ends with the groups of the windows. -/
theorem split_table (t : Table) : ∃ gs cur m,
    splitLoop t.windows { split := List.replicate (t.nwin + 1) 0 } = some (atGroups gs cur m (existing 0 t.windows))
      ∧ gs ++ closed cur = groups wide (existing 0 t.windows) [] := by
  obtain ⟨gs, cur, m, hsplit, hgs⟩ := @splitLoop_eq t.windows [] [] [] t.nwin 0 (by rw [t.count]; rfl)
  exact ⟨gs, cur, m, hsplit, hgs⟩

theorem existing_ne_nil (hn : t.nwin ≠ 0) : existing 0 t.windows ≠ [] :=
  fun h => hn (by rw [← t.count, h]; rfl)

theorem winResize_zero (hn : t.nwin ≠ 0) (hcols : cols < 30) : winResize lines cols t = none := by
  obtain ⟨gs, cur, m, hsplit, hgs⟩ := split_table t
  obtain ⟨k, hentries, hnsplit⟩ := @closed_entries (existing 0 t.windows) gs cur m
  have hflat := @flatten_groups _ wide (existing 0 t.windows) []
  have hspec := @groups_spec _ wide (existing 0 t.windows) [] nofun
  rw [winResize, if_neg hn]
  show ((splitLoop t.windows { split := List.replicate (t.nwin + 1) 0 }).bind _) = none
  rw [hsplit, Option.bind_some, read_atGroups, Option.bind_eq_bind, Option.bind_some]
  show ((lineLoop (cols / 30) _ (if 0 < cur.length then gs.length + 1 else gs.length) 0 _).bind _) = none
  rw [hnsplit, hentries, hgs, Nat.div_eq_of_lt hcols]
  cases hG : groups wide (existing 0 t.windows) [] with
  | nil =>
      rw [hG] at hflat
      exact absurd hflat.symm (existing_ne_nil hn)
  | cons g gs =>
      rw [hG] at hspec
      rw [List.length_cons, lineLoop_zero (hspec g List.mem_cons_self).1]
      rfl

theorem length_rows_le (hcols : 30 ≤ cols) : (t.rows cols).length ≤ t.nwin := by
  rw [← t.count]
  exact length_arrange_le (Nat.div_pos hcols (by decide))

/-- The two loops end with the rows. -/
theorem line_table (t : Table) (hcols : 30 ≤ cols) : ∃ gs cur m,
    splitLoop t.windows { split := List.replicate (t.nwin + 1) 0 } = some (atGroups gs cur m (existing 0 t.windows))
      ∧ ∃ m', lineLoop (cols / 30) (atGroups gs cur m (existing 0 t.windows)).split
        (if 0 < cur.length then gs.length + 1 else gs.length) 0 { ncols := List.replicate (t.nwin + 1) 0 }
          = some (atRows (t.rows cols) (m' + 1)) := by
  obtain ⟨gs, cur, m, hsplit, hgs⟩ := split_table t
  obtain ⟨k, hentries, hnsplit⟩ := @closed_entries (existing 0 t.windows) gs cur m
  obtain ⟨m', hm⟩ := Nat.exists_eq_add_of_le' (@length_rows_le cols t hcols)
  have hloop := @lineLoop_eq (groups wide (existing 0 t.windows) []) [] (m' + 1) 0 (cols / 30) []
    (List.replicate k 0) (Nat.div_pos hcols (by decide)) rfl
  refine ⟨gs, cur, m, hsplit, m', ?_⟩
  rw [hnsplit, hentries, hgs, hm, Nat.add_right_comm]
  exact hloop

/-- The function lays out the rows, unless they are too low. -/
theorem winResize_eq (hn : t.nwin ≠ 0) (hcols : 30 ≤ cols) (hmax : cols < 2 ^ 31) :
    winResize lines cols t = some (if 0 < t.flexible cols ∧ t.share lines cols < 3 then none
      else some (layout cols (t.share lines cols) 0 (t.rows cols))) := by
  obtain ⟨gs, cur, m, hsplit, m', hline⟩ := @line_table cols t hcols
  have hread : read (atRows (t.rows cols) (m' + 1)).ncols (atRows (t.rows cols) (m' + 1)).nlines = some 0 :=
    read_append (List.length_map _).symm
  have hplace := @placeRows_eq t.windows (t.rows cols) 0 0 cols (t.share lines cols) 0 []
    (List.replicate (m' + 1) 0) [] rfl hmax
    (@bounded_arrange _ wide _ _ (Nat.div_pos hcols (by decide))) (flatten_arrange (cols / 30) _).symm
  rw [winResize, if_neg hn]
  show ((splitLoop t.windows { split := List.replicate (t.nwin + 1) 0 }).bind _) = _
  rw [hsplit, Option.bind_some, read_atGroups, Option.bind_eq_bind, Option.bind_some]
  show ((lineLoop (cols / 30) _ (if 0 < cur.length then gs.length + 1 else gs.length) 0 _).bind _) = _
  rw [hline, Option.bind_some, hread]
  show (if 0 < t.flexible cols ∧ t.share lines cols < 3 then some none
    else if BitVec.ofNat 32 lines - BitVec.ofNat 32 (fixedSum (existing 0 t.windows)) < 0 then some none
    else placeRows t.windows cols (t.share lines cols) _ (t.rows cols).length 0 0 0 []) = _
  split
  · rfl
  · rw [if_neg (show ¬ BitVec.ofNat 32 lines - BitVec.ofNat 32 (fixedSum (existing 0 t.windows)) < 0 from
      BitVec.not_lt_zero)]
    exact hplace

end Vimgdb.Curses
