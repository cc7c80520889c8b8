import Vimgdb.Gui.Resize

/-!
# The frames on the screen

What `win_resize` should do with every table of windows, and when it does.

* `Good`: each window has one frame, inside the screen, and no two frames overlap.
* `Meets`: the function has a result, and its frames are `Good`.
* `inside_layout_iff`: the frames are inside the screen if the heights of the rows add up to no more.
* `total_eq`: these heights are those that windows have of their own, and the share of the others.
* `frames_good_iff`: the screens and tables that `Meets`.
-/

namespace Vimgdb.Curses

open Rows

variable {ps r : List (Nat × Window)} {rs : List (List (Nat × Window))} {p : Nat × Window} {f : Frame} {w : Window}
variable {lines cols n i j : Nat} {height width line : BitVec 32} {t : Table}

/-! ## What the frames should be like -/

/-- The cells of a frame. -/
def Frame.Covers (f : Frame) (y x : Nat) : Prop :=
  f.y.toNat ≤ y ∧ y < f.y.toNat + f.height.toNat ∧ f.x.toNat ≤ x ∧ x < f.x.toNat + f.width.toNat

structure Frame.Inside (lines cols : Nat) (f : Frame) : Prop where
  high : 0 < f.height.toNat
  wide : 0 < f.width.toNat
  bottom : f.y.toNat + f.height.toNat ≤ lines
  right : f.x.toNat + f.width.toNat ≤ cols

/-- No cell is in both frames. -/
def Frame.Apart (f g : Frame) : Prop := ∀ y x, ¬ (f.Covers y x ∧ g.Covers y x)

structure Good (lines cols : Nat) (t : Table) (fs : List Frame) : Prop where
  placed : ∀ i, (fs.map Frame.slot).count i = if (t.windows[i]?).join.isSome then 1 else 0
  inside : ∀ f ∈ fs, f.Inside lines cols
  apart : fs.Pairwise Frame.Apart

/-- No division by zero and no access behind the end of an array; 0 is only returned with good frames. -/
def Meets (lines cols : Nat) (t : Table) : Prop :=
  ∃ res, winResize lines cols t = some res ∧ ∀ fs, res = some fs → Good lines cols t fs

/-! ## A row -/

theorem height_of_narrow (hw : w.oneline = false) : ¬ 0 < w.height := by
  intro hpos
  rw [w.fixed hpos] at hw
  cases hw

theorem heightOr_of_narrow (hw : w.oneline = false) : w.heightOr height = height :=
  if_neg (height_of_narrow hw)

/-- All windows of a row are of its height. -/
theorem heightOr_of_mem (hr : Uniform wide r) (hp : p ∈ r) : p.2.heightOr height = rowHeight height r := by
  rcases hr with ⟨q, rfl⟩ | hnone
  · rw [List.mem_singleton.mp hp]
    rfl
  · have hlast := List.getLast_mem (List.ne_nil_of_mem hp)
    rw [rowHeight, List.getLast?_eq_getLast_of_ne_nil (List.ne_nil_of_mem hp), heightOr_of_narrow (hnone p hp)]
    exact (heightOr_of_narrow (hnone _ hlast)).symm

theorem mem_layoutRow (hf : f ∈ layoutRow height width line j r) : f.y = line ∧ f.width = width
    ∧ (∃ i < r.length, f.x = BitVec.ofNat 32 (j + i) * width) ∧ ∃ p ∈ r, f.height = p.2.heightOr height := by
  induction r generalizing j with
  | nil => cases hf
  | cons p r ih =>
      rcases List.mem_cons.mp hf with rfl | hf
      · exact ⟨rfl, rfl, ⟨0, Nat.succ_pos _, rfl⟩, p, List.mem_cons_self, rfl⟩
      · obtain ⟨hy, hwidth, ⟨i, hi, hx⟩, q, hq, hheight⟩ := ih hf
        exact ⟨hy, hwidth, ⟨i + 1, Nat.succ_lt_succ hi, by rw [hx, Nat.add_assoc, Nat.add_comm 1]⟩, q,
          List.mem_cons_of_mem p hq, hheight⟩

theorem toNat_column (hi : i * width.toNat < 2 ^ 32) : (BitVec.ofNat 32 i * width).toNat = i * width.toNat := by
  rw [BitVec.toNat_mul, BitVec.toNat_ofNat, Nat.mod_mul_mod, Nat.mod_eq_of_lt hi]

/-- A row is as high as its window says, or as high as the others that do not. -/
theorem toNat_rowHeight (hne : r ≠ []) (hr : Uniform wide r) : fixedCount r ≤ 1
    ∧ (rowHeight height r).toNat = fixedSum r + (1 - fixedCount r) * height.toNat := by
  rcases hr with ⟨p, rfl⟩ | hnone
  · rw [fixedCount, fixedSum, List.countP_singleton, List.map_singleton, List.sum_singleton]
    show _ ∧ (p.2.heightOr height).toNat = _
    unfold Window.heightOr
    by_cases hpos : 0 < p.2.height
    · rw [if_pos hpos, if_pos (decide_eq_true hpos)]
      exact ⟨Nat.le_refl 1, by omega⟩
    · rw [if_neg hpos, if_neg (by simpa using hpos), BitVec.le_zero_iff.mp (BitVec.not_lt.mp hpos)]
      exact ⟨Nat.zero_le 1, by simp⟩
  · have hcount : fixedCount r = 0 :=
      List.countP_eq_zero.mpr fun p hp => by simpa using height_of_narrow (hnone p hp)
    have hsum : fixedSum r = 0 := by
      refine List.sum_eq_zero fun n hn => ?_
      obtain ⟨p, hp, rfl⟩ := List.mem_map.mp hn
      rw [BitVec.le_zero_iff.mp (BitVec.not_lt.mp (height_of_narrow (hnone p hp)))]
      rfl
    obtain ⟨p, hp⟩ := List.exists_mem_of_ne_nil r hne
    rw [hcount, hsum, ← heightOr_of_mem (Or.inr hnone) hp, heightOr_of_narrow (hnone p hp)]
    exact ⟨Nat.zero_le 1, by omega⟩

/-! ## The rows -/

/-- Rows as `Rows.arrange` makes them. -/
def Arranged (rs : List (List (Nat × Window))) : Prop := ∀ r ∈ rs, r ≠ [] ∧ Uniform wide r

/-- The height of all rows. -/
def total (height : BitVec 32) (rs : List (List (Nat × Window))) : Nat :=
  (rs.map fun r => (rowHeight height r).toNat).sum

theorem fixedCount_append (ps qs : List (Nat × Window)) : fixedCount (ps ++ qs) = fixedCount ps + fixedCount qs :=
  List.countP_append

theorem fixedSum_append (ps qs : List (Nat × Window)) : fixedSum (ps ++ qs) = fixedSum ps + fixedSum qs := by
  rw [fixedSum, List.map_append, List.sum_append]
  rfl

/-- The heights that windows have of their own, and the share of the other rows. -/
theorem total_eq (hrs : Arranged rs) : fixedCount rs.flatten ≤ rs.length
    ∧ total height rs = fixedSum rs.flatten + (rs.length - fixedCount rs.flatten) * height.toNat := by
  induction rs with
  | nil => exact ⟨Nat.le_refl 0, by simp [total, fixedSum, fixedCount]⟩
  | cons r rs ih =>
      obtain ⟨⟨hne, hr⟩, hrs⟩ := List.forall_mem_cons.mp hrs
      obtain ⟨hone, hheight⟩ := @toNat_rowHeight r height hne hr
      obtain ⟨hcount, htotal⟩ := ih hrs
      rw [List.flatten_cons, fixedCount_append, fixedSum_append, List.length_cons]
      refine ⟨by omega, ?_⟩
      have hsplit : rs.length + 1 - (fixedCount r + fixedCount rs.flatten)
          = (1 - fixedCount r) + (rs.length - fixedCount rs.flatten) := by omega
      show (rowHeight height r).toNat + total height rs = _
      rw [hheight, htotal, hsplit, Nat.add_mul]
      omega

/-- The frames end on the screen if the rows do. -/
theorem bottom_layout_iff (hrs : Arranged rs) (hlines : lines < 2 ^ 31) (hline : line.toNat ≤ lines) :
    (∀ f ∈ layout cols height line rs, f.y.toNat + f.height.toNat ≤ lines)
      ↔ line.toNat + total height rs ≤ lines := by
  induction rs generalizing line with
  | nil => exact ⟨fun _ => hline, fun _ => nofun⟩
  | cons r rs ih =>
      obtain ⟨⟨hne, hr⟩, hrs⟩ := List.forall_mem_cons.mp hrs
      have hrow : (∀ f ∈ layoutRow height (BitVec.ofNat 32 (cols / r.length)) line 0 r,
          f.y.toNat + f.height.toNat ≤ lines) ↔ line.toNat + (rowHeight height r).toNat ≤ lines := by
        constructor
        · intro hall
          obtain ⟨p, r, rfl⟩ := List.exists_cons_of_ne_nil hne
          have hfirst := hall _ List.mem_cons_self
          rwa [heightOr_of_mem hr List.mem_cons_self] at hfirst
        · intro hle f hf
          obtain ⟨hy, -, -, p, hp, hheight⟩ := mem_layoutRow hf
          rwa [hy, hheight, heightOr_of_mem hr hp]
      have hnext (hle : line.toNat + (rowHeight height r).toNat ≤ lines) :
          (line + rowHeight height r).toNat = line.toNat + (rowHeight height r).toNat :=
        BitVec.toNat_add_of_lt (by omega)
      have htotal : total height (r :: rs) = (rowHeight height r).toNat + total height rs := rfl
      rw [layout, List.forall_mem_append, hrow, htotal, ← Nat.add_assoc]
      constructor
      · rintro ⟨hle, hall⟩
        rw [← hnext hle]
        exact (ih hrs (by rwa [hnext hle])).mp hall
      · intro hle
        have hfit : line.toNat + (rowHeight height r).toNat ≤ lines := by omega
        rw [← hnext hfit] at hle
        exact ⟨hfit, (ih hrs (by rwa [hnext hfit])).mpr hle⟩

/-! ## Frames that do not overlap -/

theorem apart_of_right {f g : Frame} (h : f.x.toNat + f.width.toNat ≤ g.x.toNat) : f.Apart g := by
  rintro y x ⟨⟨-, -, -, hright⟩, -, -, hleft, -⟩
  omega

theorem apart_of_below {f g : Frame} (h : f.y.toNat + f.height.toNat ≤ g.y.toNat) : f.Apart g := by
  rintro y x ⟨⟨-, hbottom, -⟩, htop, -⟩
  omega

/-- The columns of the frames in a row. -/
theorem columns (hx : (j + r.length) * width.toNat < 2 ^ 31) (hf : f ∈ layoutRow height width line j r) :
    j * width.toNat ≤ f.x.toNat ∧ f.x.toNat + width.toNat ≤ (j + r.length) * width.toNat := by
  obtain ⟨-, -, ⟨i, hi, hfx⟩, -⟩ := mem_layoutRow hf
  have hle : (j + i) * width.toNat + width.toNat ≤ (j + r.length) * width.toNat := by
    rw [← Nat.succ_mul]
    exact Nat.mul_le_mul_right _ (by omega)
  rw [hfx, toNat_column (by omega)]
  exact ⟨Nat.mul_le_mul_right _ (by omega), hle⟩

theorem pairwise_layoutRow (hx : (j + r.length) * width.toNat < 2 ^ 31) :
    (layoutRow height width line j r).Pairwise Frame.Apart := by
  induction r generalizing j with
  | nil => exact List.Pairwise.nil
  | cons p r ih =>
      have hx' : (j + 1 + r.length) * width.toNat < 2 ^ 31 := by
        rwa [Nat.add_assoc, Nat.add_comm 1, ← List.length_cons (a := p)]
      refine List.pairwise_cons.mpr ⟨fun f hf => apart_of_right ?_, ih hx'⟩
      have hcol := (columns hx' hf).1
      have hle : j * width.toNat ≤ (j + (p :: r).length) * width.toNat := Nat.mul_le_mul_right _ (by omega)
      show (BitVec.ofNat 32 j * width).toNat + width.toNat ≤ f.x.toNat
      rw [toNat_column (by omega), ← Nat.succ_mul]
      exact hcol

theorem top_layout (hrs : Arranged rs) (hfit : line.toNat + total height rs < 2 ^ 31) :
    ∀ f ∈ layout cols height line rs, line.toNat ≤ f.y.toNat := by
  induction rs generalizing line with
  | nil => exact nofun
  | cons r rs ih =>
      have htotal : total height (r :: rs) = (rowHeight height r).toNat + total height rs := rfl
      have hnext : (line + rowHeight height r).toNat = line.toNat + (rowHeight height r).toNat :=
        BitVec.toNat_add_of_lt (by omega)
      intro f hf
      rcases List.mem_append.mp hf with hf | hf
      · rw [(mem_layoutRow hf).1]
      · have htop := ih (List.forall_mem_cons.mp hrs).2 (by omega) f hf
        omega

/-- Widths of equal parts fit. -/
theorem toNat_width (hcols : cols < 2 ^ 31) : n * (BitVec.ofNat 32 (cols / n)).toNat ≤ cols := by
  have hle := Nat.div_le_self cols n
  rw [BitVec.toNat_ofNat, Nat.mod_eq_of_lt (by omega)]
  exact Nat.mul_div_le cols n

theorem pairwise_layout (hrs : Arranged rs) (hcols : cols < 2 ^ 31) (hfit : line.toNat + total height rs < 2 ^ 31) :
    (layout cols height line rs).Pairwise Frame.Apart := by
  induction rs generalizing line with
  | nil => exact List.Pairwise.nil
  | cons r rs ih =>
      have htotal : total height (r :: rs) = (rowHeight height r).toNat + total height rs := rfl
      have hnext : (line + rowHeight height r).toNat = line.toNat + (rowHeight height r).toNat :=
        BitVec.toNat_add_of_lt (by omega)
      obtain ⟨⟨hne, hr⟩, hrs⟩ := List.forall_mem_cons.mp hrs
      have hwidth := @toNat_width cols r.length hcols
      refine List.pairwise_append.mpr ⟨pairwise_layoutRow (by rw [Nat.zero_add]; omega), ih hrs (by omega), ?_⟩
      intro f hf g hg
      obtain ⟨hy, -, -, p, hp, hheight⟩ := mem_layoutRow hf
      have htop := top_layout hrs (by omega) g hg
      apply apart_of_below
      rw [hy, hheight, heightOr_of_mem hr hp]
      omega

/-! ## The claim of the function -/

/-- The width of a frame, and where it ends. -/
theorem right_layout (hrs : ∀ r ∈ rs, 0 < r.length ∧ r.length ≤ cols) (hcols : cols < 2 ^ 31) :
    ∀ f ∈ layout cols height line rs, 0 < f.width.toNat ∧ f.x.toNat + f.width.toNat ≤ cols := by
  induction rs generalizing line with
  | nil => exact nofun
  | cons r rs ih =>
      obtain ⟨⟨hpos, hle⟩, hrs⟩ := List.forall_mem_cons.mp hrs
      intro f hf
      rcases List.mem_append.mp hf with hf | hf
      · have hwidth := @toNat_width cols r.length hcols
        have hcol := (columns (by rw [Nat.zero_add]; omega) hf).2
        have hdiv := Nat.div_le_self cols r.length
        rw [(mem_layoutRow hf).2.1]
        refine ⟨?_, by rw [Nat.zero_add] at hcol; omega⟩
        rw [BitVec.toNat_ofNat, Nat.mod_eq_of_lt (by omega)]
        exact Nat.div_pos hle hpos
      · exact ih hrs f hf

theorem slots_layout : (layout cols height line rs).map Frame.slot = rs.flatten.map Prod.fst := by
  have hrow (width line : BitVec 32) (j : Nat) (r : List (Nat × Window)) :
      (layoutRow height width line j r).map Frame.slot = r.map Prod.fst := by
    induction r generalizing j with
    | nil => rfl
    | cons p r ih => exact congrArg (p.1 :: ·) (ih (j + 1))
  induction rs generalizing line with
  | nil => rfl
  | cons r rs ih => rw [layout, List.map_append, hrow, ih, List.flatten_cons, List.map_append]

theorem le_of_mem_existing {ws : List (Option Window)} {k : Nat} (hp : p ∈ existing k ws) : k ≤ p.1 := by
  induction ws generalizing k with
  | nil => cases hp
  | cons o ws ih =>
      cases o with
      | none => exact Nat.le_of_succ_le (ih hp)
      | some w =>
          rcases List.mem_cons.mp hp with rfl | hp
          · exact Nat.le_refl k
          · exact Nat.le_of_succ_le (ih hp)

/-- A slot is counted once if there is a window in it. -/
theorem count_existing (ws : List (Option Window)) (k i : Nat) :
    ((existing k ws).map Prod.fst).count (k + i) = if (ws[i]?).join.isSome then 1 else 0 := by
  have hbehind (ws : List (Option Window)) (k : Nat) : ((existing (k + 1) ws).map Prod.fst).count k = 0 := by
    refine List.count_eq_zero.mpr fun hk => ?_
    obtain ⟨p, hp, hfst⟩ := List.mem_map.mp hk
    have hle := le_of_mem_existing hp
    omega
  induction ws generalizing k i with
  | nil => rfl
  | cons o ws ih =>
      cases i with
      | zero =>
          cases o with
          | none => exact hbehind ws k
          | some w =>
              rw [existing, List.map_cons, Nat.add_zero, List.count_cons_self, hbehind]
              rfl
      | succ i =>
          have hrest := ih (k + 1) i
          rw [Nat.add_right_comm, Nat.add_assoc] at hrest
          cases o with
          | none => exact hrest
          | some w =>
              rw [existing, List.map_cons, List.count_cons_of_ne (by show k ≠ k + (i + 1); omega), hrest]
              rfl

/-- A window without a height of its own is in a row that shares the height. -/
theorem flexible_of_mem (hrs : Arranged rs) (hr : r ∈ rs) (hp : p ∈ r) (hheight : ¬ 0 < p.2.height) :
    fixedCount rs.flatten < rs.length := by
  induction rs with
  | nil => cases hr
  | cons r' rs ih =>
      obtain ⟨⟨hne, hr'⟩, hrs⟩ := List.forall_mem_cons.mp hrs
      have hle := (@total_eq rs 0 hrs).1
      have hone := (@toNat_rowHeight r' 0 hne hr').1
      rw [List.flatten_cons, fixedCount_append, List.length_cons]
      rcases List.mem_cons.mp hr with rfl | hr
      · have hzero : fixedCount r = 0 := by
          rcases hr' with ⟨q, rfl⟩ | hnone
          · rw [← List.mem_singleton.mp hp, fixedCount, List.countP_singleton, if_neg (by simpa using hheight)]
          · exact List.countP_eq_zero.mpr fun p hp => by simpa using height_of_narrow (hnone p hp)
        omega
      · have hlt := ih hrs hr
        omega

theorem high_layout (hrs : Arranged rs) (hheight : fixedCount rs.flatten < rs.length → 0 < height) :
    ∀ f ∈ layout cols height line rs, 0 < f.height.toNat := by
  have hpos : ∀ r ∈ rs, ∀ p ∈ r, 0 < (p.2.heightOr height).toNat := by
    intro r hr p hp
    unfold Window.heightOr
    split
    · next hfixed => exact hfixed
    · next hfixed => exact hheight (flexible_of_mem hrs hr hp hfixed)
  clear hrs hheight
  induction rs generalizing line with
  | nil => exact nofun
  | cons r rs ih =>
      obtain ⟨hr, hrs⟩ := List.forall_mem_cons.mp hpos
      intro f hf
      rcases List.mem_append.mp hf with hf | hf
      · obtain ⟨-, -, -, p, hp, hfh⟩ := mem_layoutRow hf
        rw [hfh]
        exact hr p hp
      · exact ih hrs f hf

/-! ## When the function does so -/

/-- The windows of a table that have no height of their own are in that many rows. -/
def Table.sharing (t : Table) (cols : Nat) : Nat :=
  (t.rows cols).length - fixedCount (existing 0 t.windows)

/-- The lines that are left, modulo `2 ^ 32`, are not enough for these rows. -/
def Rejected (lines cols : Nat) (t : Table) : Prop :=
  (2 ^ 32 + lines - fixedSum (existing 0 t.windows) % 2 ^ 32) % 2 ^ 32 < 3 * t.sharing cols

theorem arranged_rows (hcols : 30 ≤ cols) : Arranged (t.rows cols) := by
  have hc : 0 < cols / 30 := Nat.div_pos hcols (by decide)
  exact fun r hr => ⟨List.ne_nil_of_length_pos (bounded_arrange hc r hr).1, uniform_arrange hc r hr⟩

theorem length_existing_le (ws : List (Option Window)) (k : Nat) : (existing k ws).length ≤ ws.length := by
  induction ws generalizing k with
  | nil => exact Nat.le_refl 0
  | cons o ws ih =>
      cases o with
      | none => exact Nat.le_succ_of_le (ih (k + 1))
      | some w => exact Nat.succ_le_succ (ih (k + 1))

theorem flatten_rows_table (t : Table) : (t.rows cols).flatten = existing 0 t.windows :=
  flatten_arrange (cols / 30) _

theorem toNat_flexible (hcols : 30 ≤ cols) : (t.flexible cols).toNat = t.sharing cols := by
  have hcount := (@total_eq (t.rows cols) 0 (arranged_rows hcols)).1
  have hlen := length_rows_le (t := t) hcols
  have hslots := length_existing_le t.windows 0
  have hshort := t.short
  rw [flatten_rows_table] at hcount
  rw [t.count] at hslots
  rw [Table.flexible, Table.sharing, BitVec.toNat_sub, BitVec.toNat_ofNat, BitVec.toNat_ofNat,
    Nat.mod_eq_of_lt (show (t.rows cols).length < 2 ^ 32 by omega),
    Nat.mod_eq_of_lt (show fixedCount (existing 0 t.windows) < 2 ^ 32 by omega)]
  omega

/-- The check of the function. -/
theorem rejected_iff (hlines : lines < 2 ^ 31) (hcols : 30 ≤ cols) :
    (0 < t.flexible cols ∧ t.share lines cols < 3) ↔ Rejected lines cols t := by
  have hflex := toNat_flexible (t := t) hcols
  have hpos : 0 < t.flexible cols ↔ 0 < t.sharing cols := by
    rw [← hflex]
    exact BitVec.lt_def
  by_cases hk : 0 < t.sharing cols
  · rw [hpos, Table.share, if_pos (hpos.mpr hk), BitVec.lt_def, BitVec.toNat_udiv, hflex, BitVec.toNat_sub,
      BitVec.toNat_ofNat, BitVec.toNat_ofNat, Nat.mod_eq_of_lt (show lines < 2 ^ 32 by omega)]
    show _ ∧ _ / _ < 3 ↔ _
    rw [Nat.div_lt_iff_lt_mul hk, Rejected, Nat.sub_add_comm (Nat.le_of_lt (Nat.mod_lt _ (by decide)))]
    exact and_iff_right hk
  · have hzero : t.sharing cols = 0 := by omega
    rw [hpos, Rejected, hzero]
    omega

/-- The heights of the windows and the share of the rows without fit if the former do. -/
theorem total_le_iff (hlines : lines < 2 ^ 31) (hcols : 30 ≤ cols) :
    total (t.share lines cols) (t.rows cols) ≤ lines ↔ fixedSum (existing 0 t.windows) ≤ lines := by
  have htotal := (@total_eq (t.rows cols) (t.share lines cols) (arranged_rows hcols)).2
  rw [flatten_rows_table] at htotal
  rw [htotal]
  constructor
  · omega
  · intro hle
    have hshare : (t.share lines cols).toNat * t.sharing cols ≤ lines - fixedSum (existing 0 t.windows) := by
      unfold Table.share
      split
      · rw [BitVec.toNat_udiv, toNat_flexible hcols, BitVec.toNat_sub_of_le (by
          rw [BitVec.le_def, BitVec.toNat_ofNat, BitVec.toNat_ofNat, Nat.mod_eq_of_lt (by omega),
            Nat.mod_eq_of_lt (by omega)]
          exact hle), BitVec.toNat_ofNat, BitVec.toNat_ofNat, Nat.mod_eq_of_lt (by omega), Nat.mod_eq_of_lt (by omega)]
        exact Nat.div_mul_le_self _ _
      · exact Nat.le_trans (by simp) (Nat.zero_le _)
    rw [Nat.mul_comm] at hshare
    unfold Table.sharing at hshare
    omega

theorem placed_layout (t : Table) (lines : Nat) (i : Nat) :
    ((layout cols (t.share lines cols) 0 (t.rows cols)).map Frame.slot).count i
      = if (t.windows[i]?).join.isSome then 1 else 0 := by
  rw [slots_layout, flatten_rows_table, ← count_existing t.windows 0 i, Nat.zero_add]

/-- The frames are good if the heights that windows have of their own fit. -/
theorem good_layout (hlines : lines < 2 ^ 31) (hcols : 30 ≤ cols) (hmax : cols < 2 ^ 31)
    (hres : ¬ (0 < t.flexible cols ∧ t.share lines cols < 3)) :
    Good lines cols t (layout cols (t.share lines cols) 0 (t.rows cols))
      ↔ fixedSum (existing 0 t.windows) ≤ lines := by
  have hrs := arranged_rows (t := t) hcols
  have hbottom := @bottom_layout_iff (t.rows cols) lines cols (t.share lines cols) 0 hrs hlines
    (Nat.zero_le lines)
  have htotal := total_le_iff (t := t) hlines hcols
  have hzero : (0 : BitVec 32).toNat = 0 := rfl
  rw [hzero, Nat.zero_add, htotal] at hbottom
  constructor
  · intro hgood
    exact hbottom.mp fun f hf => (hgood.inside f hf).bottom
  · intro hle
    have hshare : fixedCount (t.rows cols).flatten < (t.rows cols).length → 0 < t.share lines cols := by
      intro hlt
      rw [flatten_rows_table] at hlt
      have hpos : 0 < t.flexible cols := by
        show 0 < (t.flexible cols).toNat
        rw [toNat_flexible hcols]
        exact Nat.sub_pos_of_lt hlt
      have hge := BitVec.le_def.mp (BitVec.not_lt.mp fun hlt => hres ⟨hpos, hlt⟩)
      exact BitVec.lt_def.mpr (Nat.lt_of_lt_of_le (by decide) hge)
    have hbound : ∀ r ∈ t.rows cols, 0 < r.length ∧ r.length ≤ cols := fun r hr =>
      (bounded_arrange (Nat.div_pos hcols (by decide)) r hr).imp id fun hr =>
        Nat.le_trans hr (Nat.div_le_self cols 30)
    refine ⟨placed_layout t lines, fun f hf => ?_, ?_⟩
    · obtain ⟨hwide, hright⟩ := right_layout hbound hmax f hf
      exact ⟨high_layout hrs hshare f hf, hwide, hbottom.mpr hle f hf, hright⟩
    · refine pairwise_layout hrs hmax ?_
      have hfit := htotal.mpr hle
      rw [hzero]
      omega

theorem good_nil (hn : t.nwin = 0) : Good lines cols t [] := by
  have hnil : existing 0 t.windows = [] := List.eq_nil_of_length_eq_zero (t.count.trans hn)
  refine ⟨fun i => ?_, nofun, List.Pairwise.nil⟩
  have hcount := count_existing t.windows 0 i
  rwa [hnil, Nat.zero_add] at hcount

/-- Without windows there is nothing to do; else the screen needs 30 columns, and the heights that windows
have of their own must fit, or the function returns -1. -/
theorem frames_good_iff (hlines : lines < 2 ^ 31) (hcols : cols < 2 ^ 31) :
    Meets lines cols t ↔ t.nwin = 0 ∨ 30 ≤ cols
      ∧ (fixedSum (existing 0 t.windows) ≤ lines ∨ Rejected lines cols t) := by
  by_cases hn : t.nwin = 0
  · refine iff_of_true ⟨some [], ?_, ?_⟩ (Or.inl hn)
    · rw [winResize, if_pos hn]
      rfl
    · rintro fs ⟨⟩
      exact good_nil hn
  rw [or_iff_right hn]
  by_cases hwide : 30 ≤ cols
  · rw [and_iff_right hwide, ← rejected_iff hlines hwide, Meets, winResize_eq hn hwide hcols]
    by_cases hres : 0 < t.flexible cols ∧ t.share lines cols < 3
    · rw [if_pos hres]
      exact iff_of_true ⟨none, rfl, fun fs h => absurd h.symm (Option.some_ne_none fs)⟩ (Or.inr hres)
    · rw [if_neg hres, or_iff_left hres, ← good_layout hlines hwide hcols hres]
      constructor
      · rintro ⟨res, hfs, hgood⟩
        exact hgood _ (Option.some_inj.mp hfs).symm
      · intro hgood
        refine ⟨_, rfl, ?_⟩
        rintro fs ⟨⟩
        exact hgood
  · refine iff_of_false ?_ fun h => hwide h.1
    rintro ⟨res, hfs, -⟩
    rw [winResize_zero hn (by omega)] at hfs
    cases hfs

/-! ## Tables that it fails for -/

/-- The table of `init`: two slots, and the window of the command line. -/
def commandLine : Table where
  windows := [none, some (newWindow "command-line".toList true 3)]
  nwin := 1
  count := rfl
  short := by decide

theorem commandLine_shown : (24 < 2 ^ 31 ∧ 80 < 2 ^ 31) ∧ Meets 24 80 commandLine :=
  ⟨by decide, (frames_good_iff (by decide) (by decide)).mpr (Or.inr ⟨by decide, Or.inl (by decide)⟩)⟩

/-- 20 columns are a division by zero, and on two lines a window of three is placed across the end. -/
theorem commandLine_not_shown : ¬ Meets 24 20 commandLine ∧ ¬ Meets 2 80 commandLine := by
  constructor
  · rintro ⟨res, hres, -⟩
    cases hres
  · rintro ⟨res, hres, hgood⟩
    have hbottom := ((hgood _ (Option.some_inj.mp hres).symm).inside _ List.mem_cons_self).bottom
    revert hbottom
    decide

end Vimgdb.Curses
