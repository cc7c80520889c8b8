import Vimgdb.User.MemoryRows

/-!
# Memory dumps in the window

The update prints the dump of each segment behind the others.

* `Grows`: what has been printed stays.
* `prints_showSegment`: the update prints the pieces of a dump.
* `Listed`: the segments of the list have addresses of their own.
* `Reads`: a segment of the list with what is read of it; `Dump.shown`.
* `filterMap_rows`: each byte is in the rows once, in the order of the addresses.
* `rows_shown`: the window shows the dump of each segment that is expanded.
-/

namespace Vimgdb.Memory.View

open Escape MarkedText Printf Programs Runs

/-! ## What has been printed stays -/

/-- Pieces have been put behind the others. -/
def Grows (sheet sheet' : Sheet) : Prop := sheet.obuf.pieces <+: sheet'.obuf.pieces

variable {junk : Char} {a n j j' : Nat} {part : Part} {fmt : String} {args : List Arg}
  {sheet sheet' : Sheet} {mem : Segment} {addr addr' : BitVec 64} {content old : CStr}

theorem grows_refl (sheet : Sheet) : Grows sheet sheet := List.prefix_refl _

theorem Grows.trans {sheet'' : Sheet} (h : Grows sheet sheet') (h' : Grows sheet' sheet'') :
    Grows sheet sheet'' := List.IsPrefix.trans h h'

theorem grows_add (h : sheet.add a part fmt args = some sheet') : Grows sheet sheet' := by
  obtain ⟨obuf, hadd, rfl⟩ := Option.map_eq_some_iff.mp h
  obtain ⟨t, -, hpieces⟩ := Dynarray.pieces_of_add hadd
  unfold Grows
  rw [hpieces]
  exact List.prefix_append _ _

theorem grows_store {c : Char} (h : sheet.store j c = some sheet') : Grows sheet sheet' := by
  obtain ⟨mem, -, rfl⟩ := Option.map_eq_some_iff.mp h
  exact grows_refl _

theorem grows_fill (h : fill a n j sheet = some (j', sheet')) : Grows sheet sheet' := by
  induction n generalizing j sheet with
  | zero =>
      cases h
      exact grows_refl _
  | succ n ih =>
      unfold fill at h
      simp only [Option.bind_eq_bind, Option.bind_eq_some_iff] at h
      obtain ⟨sheet₁, hadd, sheet₂, hstore, hrest⟩ := h
      exact ((grows_add hadd).trans (grows_store hstore)).trans (ih hrest)

theorem grows_flush (h : flush junk a j sheet = some sheet') : Grows sheet sheet' := by
  unfold flush at h
  simp only [Option.bind_eq_bind, Option.bind_eq_some_iff] at h
  obtain ⟨sheet₁, hstore, row, -, asciib, -, s, -, sheet₂, hadd, heq⟩ := h
  cases heq
  have hgrows := grows_add hadd
  exact (grows_store hstore).trans hgrows

theorem grows_showByte {i : BitVec 32} (h : showByte a content old i j sheet = some sheet') :
    Grows sheet sheet' := by
  unfold showByte at h
  simp only [Option.bind_eq_bind, Option.bind_eq_some_iff] at h
  obtain ⟨modified, -, sheet₁, hadd, hi, -, lo, -, hstore⟩ := h
  exact (grows_add hadd).trans (grows_store hstore)

theorem grows_endRow {more : Bool} (h : endRow junk a more addr j sheet = some sheet') :
    Grows sheet sheet' := by
  unfold endRow at h
  obtain ⟨sheet₁, hflush, h⟩ := Option.bind_eq_some_iff.mp h
  cases more with
  | true => exact (grows_flush hflush).trans (grows_add h)
  | false =>
      cases h
      exact grows_flush hflush

theorem grows_showBytes {i : BitVec 32}
    (h : showBytes junk a mem content old n i addr j sheet = some (addr', j', sheet')) :
    Grows sheet sheet' := by
  induction n generalizing i addr j sheet with
  | zero =>
      cases h
      exact grows_refl _
  | succ n ih =>
      unfold showBytes at h
      simp only [Option.bind_eq_bind, Option.bind_eq_some_iff] at h
      obtain ⟨sheet₁, hbyte, h⟩ := h
      split at h
      · obtain ⟨sheet₂, hend, hrest⟩ := Option.bind_eq_some_iff.mp h
        exact ((grows_showByte hbyte).trans (grows_endRow hend)).trans (ih hrest)
      · exact (grows_showByte hbyte).trans (ih h)

theorem grows_showColumns {i : BitVec 32} (h : showColumns a n i sheet = some sheet') :
    Grows sheet sheet' := by
  induction n generalizing i sheet with
  | zero =>
      cases h
      exact grows_refl _
  | succ n ih =>
      unfold showColumns at h
      obtain ⟨sheet₁, hadd, hrest⟩ := Option.bind_eq_some_iff.mp h
      exact (grows_add hadd).trans (ih hrest)

theorem grows_showRuler {alignment : BitVec 32} (h : showRuler a alignment sheet = some sheet') :
    Grows sheet sheet' := by
  unfold showRuler at h
  simp only [Option.bind_eq_bind, Option.bind_eq_some_iff] at h
  obtain ⟨sheet₁, hadd, sheet₂, hcolumns, h⟩ := h
  obtain ⟨sheet₃, hend, rfl⟩ := Option.map_eq_some_iff.mp h
  have hgrows := grows_add hend
  exact ((grows_add hadd).trans (grows_showColumns hcolumns)).trans hgrows

theorem grows_blankLine (h : blankLine a sheet = some sheet') : Grows sheet sheet' := by
  obtain ⟨sheet₁, hadd, rfl⟩ := Option.map_eq_some_iff.mp h
  have hgrows := grows_add hadd
  exact hgrows

theorem grows_showRows (h : showRows junk a mem addr content old sheet = some sheet') :
    Grows sheet sheet' := by
  unfold showRows at h
  simp only [Option.bind_eq_bind, Option.bind_eq_some_iff] at h
  obtain ⟨sheet₁, haddr, ⟨j₁, sheet₂⟩, hfill, ⟨addr₂, j₂, sheet₃⟩, hbytes, ⟨j₃, sheet₄⟩, hpad, sheet₅,
    hflush, h⟩ := h
  have hall := ((((grows_add haddr).trans (grows_fill hfill)).trans (grows_showBytes hbytes)).trans
    (grows_fill hpad)).trans (grows_flush hflush)
  split at h
  · exact hall.trans (grows_blankLine h)
  · cases h
    exact hall

theorem grows_showSegment (h : showSegment junk a mem addr content old sheet = some sheet') :
    Grows sheet sheet' := by
  unfold showSegment showHeader at h
  obtain ⟨sheet₁, hheader, h⟩ := Option.bind_eq_some_iff.mp h
  obtain ⟨sheet₂, hadd, heq⟩ := Option.bind_eq_some_iff.mp hheader
  cases heq
  split at h
  · obtain ⟨sheet₃, hruler, hrows⟩ := Option.bind_eq_some_iff.mp h
    have hgrows := grows_showRuler hruler
    exact ((grows_add hadd).trans hgrows).trans (grows_showRows hrows)
  · have hgrows := grows_blankLine h
    exact (grows_add hadd).trans hgrows

theorem grows_showSegments {replies : Nat → Option CStr} {i : Nat} {mems : List (Nat × Segment)}
    {contents contents' : Nat → Contents} {ok : Bool}
    (h : showSegments junk replies i mems contents sheet = some (contents', sheet', ok)) :
    Grows sheet sheet' := by
  induction mems generalizing i contents sheet with
  | nil =>
      cases h
      exact grows_refl _
  | cons e mems ih =>
      obtain ⟨a, mem⟩ := e
      unfold showSegments at h
      split at h
      · cases h
      · split at h
        · cases h
          exact grows_refl _
        · obtain ⟨sheet₁, hsegment, hrest⟩ := Option.bind_eq_some_iff.mp h
          exact (grows_showSegment hsegment).trans (ih hrest)

/-! ## A segment -/

variable {d : Dump} {dest : Dest} {row : CStr}

/-- The column numbers. -/
theorem prints_showColumns {i : Nat} (hi : i + n < 2 ^ 32) :
    Prints (showColumns d.seg n (BitVec.ofNat 32 i)) id dest
      ((List.range' i n).map fun i =>
        ⟨Spec.hex { width := some 2, started := true } i, some ⟨d.seg, .ruler⟩⟩) dest 0 := by
  induction n generalizing i with
  | zero => exact prints_nil id dest
  | succ n ih =>
      have hcolumn := vsnprintf_column (BitVec.ofNat 32 i)
      rw [BitVec.toNat_ofNat, Nat.mod_eq_of_lt (by omega)] at hcolumn
      have hall := (prints_add d.seg .ruler hcolumn dest).then (ih (i := i + 1) (by omega))
      rw [BitVec.ofNat_add] at hall
      rw [List.range'_succ, List.map_cons]
      exact hall

theorem prints_showRuler (hd : d.Lawful) (hmem : d.Of mem) :
    Prints (showRuler d.seg mem.alignment) id dest d.ruler dest 1 := by
  have hsmall := hd.small
  have hend : vsnprintf "`h1\n".toList [] = some "`h1\n".toList := by decide +kernel
  have hcolumns := @prints_showColumns d.width d dest 0 (by omega)
  have hall := (prints_add d.seg .ruler vsnprintf_ruler dest).then
    (hcolumns.then (prints_add d.seg .ruler hend dest).skip)
  intro sheet hsheet
  have heq := hall sheet hsheet
  unfold showRuler
  rw [hmem.alignment]
  unfold Dump.ruler
  rw [List.range_eq_range']
  exact heq

/-- The segment has been entered in the line map. -/
def Sheet.enter (sheet : Sheet) (a : Nat) : Sheet :=
  { sheet with lines := sheet.lines.add sheet.line a }

theorem showHeader_eq (a : Nat) (mem : Segment) (addr : BitVec 64) (sheet : Sheet) :
    showHeader a mem addr sheet = ((sheet.enter a).add a .header
      "[%c] \xc2\xb4h0memory dump: %#0*lx`h0 (%u bytes)\n"
      [.chr (if mem.expanded then '-' else '+'), .int 18, .long addr, .int mem.length]).map
        fun sheet => sheet.skip 1 := by
  have henter : (sheet.enter a).obuf = sheet.obuf := rfl
  unfold showHeader Sheet.add
  rw [henter]
  cases sheet.obuf.add (some ⟨a, .header⟩) "[%c] \xc2\xb4h0memory dump: %#0*lx`h0 (%u bytes)\n".toList
    [.chr (if mem.expanded then '-' else '+'), .int 18, .long addr, .int mem.length] <;> rfl

/-- The header of a segment that is folded. -/
def Dump.folded (d : Dump) : Piece Char Mark :=
  ⟨"[+] \xc2\xb4h0memory dump: ".toList ++ addrDigits d.addr ++ "`h0 (".toList ++
    Spec.signed {} d.bytes.length ++ " bytes)\n".toList, some ⟨d.seg, .header⟩⟩

/-- What is printed of a segment. -/
def Dump.shown (d : Dump) (expanded : Bool) : List (Piece Char Mark) :=
  if expanded then d.pieces else [d.folded, ⟨"\n".toList, some ⟨d.seg, .blank⟩⟩]

/-- The header, behind which the rest is printed. -/
theorem showSegment_eq (haddr : d.addr < 2 ^ 64) (hlength : mem.length.toNat = d.bytes.length)
    {expanded : Bool} (hexpanded : mem.expanded = expanded) {ps : List (Piece Char Mark)} {dest' : Dest}
    {m : BitVec 32} {sheet : Sheet} (hsheet : sheet.asciib = dest)
    (hrest : Prints (fun s => if expanded = true then
        (showRuler d.seg mem.alignment s).bind fun s =>
          showRows junk d.seg mem (BitVec.ofNat 64 d.addr) content old s
      else blankLine d.seg s) id dest ps dest' m) :
    showSegment junk d.seg mem (BitVec.ofNat 64 d.addr) content old sheet =
      (sheet.enter d.seg).put ((if expanded then d.header else d.folded) :: ps) dest' (0 + 1 + m) := by
  have hmemory := vsnprintf_memory expanded (BitVec.ofNat 64 d.addr) mem.length
  rw [BitVec.toNat_ofNat, Nat.mod_eq_of_lt haddr, hlength] at hmemory
  have hheader := (prints_add d.seg .header hmemory dest).skip
  have hpiece : (⟨"[".toList ++ [if expanded then '-' else '+'] ++
      "] \xc2\xb4h0memory dump: ".toList ++ addrDigits d.addr ++ "`h0 (".toList ++
      Spec.signed {} d.bytes.length ++ " bytes)\n".toList, some ⟨d.seg, .header⟩⟩ : Piece Char Mark) =
        if expanded then d.header else d.folded := by
    cases expanded <;> rfl
  rw [hpiece] at hheader
  have heq := hheader.then hrest (sheet.enter d.seg) hsheet
  unfold showSegment
  rw [showHeader_eq, hexpanded]
  rw [Option.map_id] at heq
  exact heq

/-! ## Lengths -/

theorem length_text_map {α : Type} {f : α → Piece Char Mark} (hf : ∀ x, 2 ≤ (f x).text.length)
    (xs : List α) : 2 * xs.length ≤ (MarkedText.text (xs.map f)).length := by
  induction xs with
  | nil => exact Nat.zero_le _
  | cons x xs ih =>
      have hx := hf x
      rw [List.map_cons, List.length_cons]
      have hcons : MarkedText.text (f x :: xs.map f) = (f x).text ++ MarkedText.text (xs.map f) := rfl
      rw [hcons, List.length_append]
      omega

theorem two_le_cell (x : Nat) : 2 ≤ (d.cell x).text.length := by
  unfold Dump.cell
  split
  · exact Nat.le_refl _
  · next i _ =>
    have hdigits : ∀ b : UInt8, (hexByte b).length = 2 := fun _ => rfl
    unfold byteText
    dsimp only
    rw [List.length_append, List.length_append, hdigits]
    omega

/-- A segment of the list with the content it had before: its bytes can be counted, its alignment is a
power of 2, and its addresses are in the lower half. -/
structure Reads (contents : Nat → Contents) (d : Dump) (e : Nat × Segment) : Prop where
  seg : e.1 = d.seg
  begin : ∃ b, e.2.begin = some b ∧ strtollHex b = BitVec.ofNat 64 d.addr
  alignment : e.2.alignment.toNat = d.width
  length : e.2.length.toNat = d.bytes.length
  content : (contents e.1).content = some (hexText d.old)
  width : ∃ k, d.width = 2 ^ k
  old : d.old.length = d.bytes.length
  nonempty : 0 < d.bytes.length
  room : d.addr + d.bytes.length + d.width < 2 ^ 63

variable {contents : Nat → Contents} {e : Nat × Segment}

/-- It is one that can be printed if it is not too long. -/
theorem Reads.lawful (h : Reads contents d e) (hwidth : d.width < 2 ^ 31) (hbytes : d.bytes.length ≤ 2 ^ 30) :
    d.Lawful := ⟨h.width, hwidth, hbytes, h.old, h.nonempty, h.room⟩

theorem Reads.pos (h : Reads contents d e) : 0 < d.width := by
  obtain ⟨k, hk⟩ := h.width
  rw [hk]
  exact Nat.two_pow_pos k

theorem text_cons (p : Piece Char Mark) (ps : List (Piece Char Mark)) :
    MarkedText.text (p :: ps) = p.text ++ MarkedText.text ps := List.flatMap_cons

/-- The columns have two characters each. -/
theorem length_text_ruler : 2 * d.width ≤ (MarkedText.text d.ruler).length := by
  have hmap := length_text_map (f := fun i =>
    (⟨Spec.hex { width := some 2, started := true } i, some ⟨d.seg, .ruler⟩⟩ : Piece Char Mark))
    (fun i => width_le_fill { width := some 2, started := true } _ _ true) (List.range d.width)
  rw [List.length_range] at hmap
  unfold Dump.ruler
  rw [text_append, List.length_append, text_cons, List.length_append]
  omega

/-- The cells have two characters each. -/
theorem length_text_row (x : Nat) : 2 * d.width ≤ (MarkedText.text (d.row x)).length := by
  have hmap := length_text_map (two_le_cell (d := d)) (List.range' x d.width)
  rw [List.length_range'] at hmap
  unfold Dump.row Dump.cells
  rw [text_append, List.length_append, text_cons, List.length_append]
  omega

theorem length_text_rows (ks : List Nat) : 2 * (ks.length * d.width) ≤
    (MarkedText.text (ks.flatMap fun k => d.row (d.first + k * d.width))).length := by
  induction ks with
  | nil => rw [List.length_nil, Nat.zero_mul]; exact Nat.zero_le _
  | cons k ks ih =>
      have hk := length_text_row (d := d) (d.first + k * d.width)
      rw [List.flatMap_cons, text_append, List.length_append, List.length_cons,
        Nat.add_mul, Nat.one_mul]
      omega

/-- The rows go up to the end of the segment, and no further than the row of its last byte. -/
theorem count_spec (hpos : 0 < d.width) (hbytes : 0 < d.bytes.length) :
    d.addr + d.bytes.length ≤ d.first + d.count * d.width ∧
      d.first + d.count * d.width < d.addr + d.bytes.length + d.width := by
  have hle := Nat.mod_le d.addr d.width
  have hmod := Nat.mod_lt (d.addr + d.bytes.length - 1 - d.first) hpos
  have hdiv := Nat.div_add_mod' (d.addr + d.bytes.length - 1 - d.first) d.width
  unfold Dump.count
  rw [Nat.succ_mul]
  unfold Dump.first at hmod hdiv ⊢
  omega

theorem length_text_pieces (hpos : 0 < d.width) (hbytes : 0 < d.bytes.length) :
    2 * d.width + 2 * d.bytes.length ≤ (MarkedText.text d.pieces).length := by
  have hruler := length_text_ruler (d := d)
  have hrows := length_text_rows (d := d) (List.range d.count)
  have hcount := (count_spec hpos hbytes).1
  have hfirst : d.first ≤ d.addr := Nat.sub_le _ _
  rw [List.length_range] at hrows
  have hpieces : d.pieces = [d.header] ++ d.ruler ++ d.rows ++ d.tail := rfl
  rw [hpieces, text_append, text_append, text_append, List.length_append, List.length_append,
    List.length_append]
  unfold Dump.rows
  omega

/-- A segment is printed as its dump says, from a buffer that is large enough. -/
theorem Reads.exists_put (h : Reads contents d e) (junk : Char) {sheet : Sheet}
    (hrecorded : sheet.asciib.Recorded) (hmax : e.2.alignment * 2 + 1 ≤ sheet.asciib.max) :
    ∃ dest' m, showSegment junk d.seg e.2 (BitVec.ofNat 64 d.addr) (stored (some (hexText d.bytes)))
        (stored (some (hexText d.old))) sheet =
      (sheet.enter d.seg).put (d.shown e.2.expanded) dest' m := by
  have hroom := h.room
  unfold Dump.shown
  cases hexpanded : e.2.expanded with
  | false =>
      have hblank : vsnprintf "\n".toList [] = some "\n".toList := rfl
      have hline := (prints_add d.seg .blank hblank sheet.asciib).skip
      exact ⟨sheet.asciib, _, showSegment_eq (by omega) h.length hexpanded rfl hline⟩
  | true =>
      by_cases hsmall : d.width < 2 ^ 30 ∧ d.bytes.length < 2 ^ 30
      · have hd := h.lawful (by omega) (by omega)
        have hmem : d.Of e.2 := ⟨hexpanded, h.alignment, h.length⟩
        have hfilled : Filled d.width sheet.asciib [] := by
          refine ⟨hrecorded, ?_, sheet.asciib.mem, rfl⟩
          rw [BitVec.le_def, BitVec.toNat_add, BitVec.toNat_mul, h.alignment] at hmax
          have hwrap : (d.width * (2 : BitVec 32).toNat % 2 ^ 32 + (1 : BitVec 32).toNat) % 2 ^ 32 =
              d.width * 2 + 1 := by
            show (d.width * 2 % 2 ^ 32 + 1) % 2 ^ 32 = _
            omega
          omega
        obtain ⟨dest', m, -, hrows⟩ := prints_showRows junk hd hmem hfilled
        have hbody := (@prints_showRuler _ d sheet.asciib hd hmem).then hrows
        refine ⟨dest', 0 + 1 + (1 + m),
          (showSegment_eq (by omega) h.length hexpanded rfl hbody).trans ?_⟩
        unfold Dump.pieces
        rw [if_pos rfl, if_pos rfl, List.cons_append, List.cons_append, List.append_assoc]
      · -- neither is there room for the text
        refine ⟨sheet.asciib, 0, ?_⟩
        have hlong := length_text_pieces h.pos h.nonempty
        have hnone : (sheet.enter d.seg).put d.pieces sheet.asciib 0 = none := by
          unfold Sheet.put Dynarray.extend
          rw [dif_neg, Option.map_none]
          rw [text_append, List.length_append]
          omega
        rw [if_pos rfl, hnone]
        cases hshow : showSegment junk d.seg e.2 (BitVec.ofNat 64 d.addr)
          (stored (some (hexText d.bytes))) (stored (some (hexText d.old))) sheet with
        | none => rfl
        | some sheet' =>
            have hchars := (extends_showSegment hshow).chars
            have hshort := sheet'.chars_lt
            rw [if_pos hexpanded, h.alignment, h.length] at hchars
            omega

/-! ## The list -/

/-- The segments have addresses of their own, of which none is used again. -/
structure Listed (s : State) : Prop where
  nodup : (s.memLst.map Prod.fst).Nodup
  lt_next : ∀ a ∈ s.memLst.map Prod.fst, a < s.next

theorem keeps_listed_editAt {argv2 : CStr} {f : Nat → List (Nat × Segment) → List (Nat × Segment)}
    (hf : ∀ a mems, ((f a mems).map Prod.fst).Sublist (mems.map Prod.fst)) :
    Keeps Listed (editAt argv2 f) := by
  intro s h r hr
  rw [exec_editAt] at hr
  split at hr
  · cases hr
    exact h
  · split at hr
    · cases hr
    · cases hr
      exact ⟨h.nodup.sublist (hf _ _), fun a ha => h.lt_next a ((hf _ _).subset ha)⟩

theorem keeps_listed_call (pwr2 : BitVec 32 → Bool) (e : Edit) : Keeps Listed (e.call junk pwr2) := by
  cases e with
  | add m argv4 =>
      intro s h
      show Post (append junk pwr2 m argv4) _ _ s
      unfold append
      cases m with
      | none => exact post_pure.mpr h
      | some m =>
          dsimp only
          rw [post_bind, post_modify, post_pure]
          constructor
          · dsimp only
            rw [List.map_append, List.nodup_append]
            refine ⟨h.nodup, List.nodup_singleton _, fun a ha b hb => ?_⟩
            obtain rfl := List.mem_singleton.mp hb
            exact (h.lt_next a ha).ne
          · intro a ha
            dsimp only at ha ⊢
            rw [List.map_append] at ha
            rcases List.mem_append.mp ha with ha | ha
            · exact Nat.lt_succ_of_lt (h.lt_next a ha)
            · obtain rfl := List.mem_singleton.mp ha
              exact Nat.lt_succ_self _
  | delete argv2 => exact keeps_listed_editAt fun a mems => List.filter_sublist.map _
  | fold argv2 =>
      refine keeps_listed_editAt fun a mems => ?_
      rw [List.map_map]
      exact List.Sublist.refl _
  | view => exact keeps_pure true

theorem keeps_listed_updateText (junk : Char) (window : Bool) (replies : Nat → Option CStr) :
    Keeps Listed (updateText junk window replies) := by
  intro s h
  unfold updateText
  cases window with
  | false => exact post_pure.mpr h
  | true =>
      rw [if_pos rfl, post_bind, post_get]
      split
      · exact post_undefined
      · rw [post_bind, post_modify]
        split
        · exact post_pure.mpr ⟨h.nodup, h.lt_next⟩
        · exact post_throw.mpr ⟨h.nodup, h.lt_next⟩

theorem listed_run {pwr2 : BitVec 32 → Bool} {evs : List Event} {s : State}
    (h : Runs.Run (Step junk pwr2) (init junk) evs s) : Listed s := by
  refine h.invariant ⟨List.nodup_nil, nofun⟩ fun s ev t hs hstep => ?_
  cases ev with
  | edit e =>
      obtain ⟨r, hexec⟩ := hstep
      exact (keeps_listed_call pwr2 e s hs).holds hexec
  | update window replies =>
      obtain ⟨r, hexec⟩ := hstep
      exact (keeps_listed_updateText junk window replies s hs).holds hexec

/-! ## The update -/

variable {replies : Nat → Option CStr} {i : Nat} {mems : List (Nat × Segment)} {ok : Bool}
  {contents' : Nat → Contents}

/-- What is printed of the segments of a list. -/
def shownAll (ds : List Dump) (mems : List (Nat × Segment)) : List (Piece Char Mark) :=
  (ds.zip mems).flatMap fun p => p.1.shown p.2.2.expanded

/-- The content of a segment with another address does not change. -/
theorem Reads.update (h : Reads contents d e) {a : Nat} (ha : e.1 ≠ a) (c : Contents) :
    Reads (Function.update contents a c) d e :=
  { h with content := by rw [Function.update_of_ne ha]; exact h.content }

theorem forall_reads_update {ds : List Dump} {a : Nat} (h : List.Forall₂ (Reads contents) ds mems)
    (ha : a ∉ mems.map Prod.fst) (c : Contents) :
    List.Forall₂ (Reads (Function.update contents a c)) ds mems := by
  induction h with
  | nil => exact List.Forall₂.nil
  | cons hread _ ih =>
      rw [List.map_cons, List.mem_cons, not_or] at ha
      exact List.Forall₂.cons (hread.update (Ne.symm ha.1) c) (ih ha.2)

/-- A step of the loop over the segments. -/
theorem showSegments_cons (h : Reads contents d e) (hreply : replies i = some (hexText d.bytes)) :
    showSegments junk replies i (e :: mems) contents sheet =
      (showSegment junk d.seg e.2 (BitVec.ofNat 64 d.addr) (stored (some (hexText d.bytes)))
        (stored (some (hexText d.old))) sheet).bind fun sheet =>
          showSegments junk replies (i + 1) mems
            (Function.update contents e.1 ((contents e.1).update (hexText d.bytes))) sheet := by
  obtain ⟨b, hbegin, haddr⟩ := h.begin
  obtain ⟨a, mem⟩ := e
  have hseg := h.seg
  have hcontent := h.content
  dsimp only at hbegin hseg hcontent
  conv_lhs => unfold showSegments
  rw [hbegin]
  dsimp only
  rw [hreply]
  dsimp only
  unfold Contents.update
  rw [hcontent, haddr, hseg]
  rfl

variable {ps qs : List (Piece Char Mark)} {dest' : Dest} {m m' : BitVec 32}

/-- Pieces are put behind the text one after the other or at once. -/
theorem put_put {sheet₁ : Sheet} {a : Nat} (h : (sheet.enter a).put ps dest m = some sheet₁)
    (lines : LineMap Nat) : Sheet.put { sheet₁ with lines } qs dest' m' =
      Sheet.put { sheet with lines } (ps ++ qs) dest' (m + m') := by
  obtain ⟨obuf, hextend, rfl⟩ := Option.map_eq_some_iff.mp h
  have hbind := Dynarray.extend_bind sheet.obuf ps qs
  have hobuf : sheet.obuf.extend ps = some obuf := hextend
  rw [hobuf, Option.bind_some] at hbind
  unfold Sheet.put
  dsimp only
  rw [← hbind, ← BitVec.add_assoc]
  rfl

theorem put_eq_none {a : Nat} (h : (sheet.enter a).put ps dest m = none) (lines : LineMap Nat) :
    Sheet.put { sheet with lines } (ps ++ qs) dest' m' = none := by
  have hextend : sheet.obuf.extend ps = none := Option.map_eq_none_iff.mp h
  have hbind := Dynarray.extend_bind sheet.obuf ps qs
  rw [hextend, Option.bind_none] at hbind
  unfold Sheet.put
  dsimp only
  rw [← hbind, Option.map_none]

/-- The loop prints the dumps of all segments. -/
theorem exists_puts {ds : List Dump} (hreads : List.Forall₂ (Reads contents) ds mems)
    (hreplies : ∀ k d, ds[k]? = some d → replies (i + k) = some (hexText d.bytes))
    (hnodup : (mems.map Prod.fst).Nodup) (hrecorded : sheet.asciib.Recorded)
    (hmax : ∀ e ∈ mems, e.2.alignment * 2 + 1 ≤ sheet.asciib.max) :
    ∃ contents' lines dest' m, showSegments junk replies i mems contents sheet =
      (Sheet.put { sheet with lines } (shownAll ds mems) dest' m).map fun sheet =>
        (contents', sheet, true) := by
  induction ds generalizing i mems contents sheet with
  | nil =>
      cases hreads
      refine ⟨contents, sheet.lines, sheet.asciib, 0, ?_⟩
      have hnil := prints_nil id sheet.asciib sheet rfl
      rw [Option.map_id] at hnil
      have hput : Sheet.put { sheet with lines := sheet.lines } (shownAll [] []) sheet.asciib 0 =
          some sheet := hnil.symm
      rw [hput]
      rfl
  | cons d ds ih =>
      obtain ⟨e, mems', hread, htail, rfl⟩ := List.forall₂_cons_left_iff.mp hreads
      have hreply : replies i = some (hexText d.bytes) := hreplies 0 d rfl
      rw [showSegments_cons hread hreply]
      have hall : shownAll (d :: ds) (e :: mems') = d.shown e.2.expanded ++ shownAll ds mems' := rfl
      obtain ⟨dest₁, m₁, hput⟩ := hread.exists_put junk hrecorded (hmax e List.mem_cons_self)
      rw [hall, hput]
      cases hs : (sheet.enter d.seg).put (d.shown e.2.expanded) dest₁ m₁ with
      | none =>
          refine ⟨contents, sheet.lines, dest₁, 0, ?_⟩
          rw [put_eq_none hs]
          rfl
      | some sheet₁ =>
          have hext := extends_showSegment (hput.trans hs)
          have hkeys := List.nodup_cons.mp hnodup
          obtain ⟨contents', lines, dest', m, hrest⟩ := ih (i := i + 1)
            (forall_reads_update htail hkeys.1 ((contents e.1).update (hexText d.bytes)))
            (fun k d hk => by rw [Nat.add_assoc, Nat.add_comm 1]; exact hreplies (k + 1) d hk) hkeys.2
            (hext.recorded hrecorded)
            (fun e' he' => BitVec.le_trans (hmax e' (List.mem_cons_of_mem _ he')) hext.max)
          refine ⟨contents', lines, dest', m₁ + m, ?_⟩
          rw [Option.bind_some, hrest, put_put hs]

/-- A segment that is expanded has its dump in the text, whatever the others are. -/
theorem infix_of_showSegments {k : Nat}
    (h : showSegments junk replies i mems contents sheet = some (contents', sheet', true))
    (hnodup : (mems.map Prod.fst).Nodup) (hrecorded : sheet.asciib.Recorded)
    (hmax : ∀ e ∈ mems, e.2.alignment * 2 + 1 ≤ sheet.asciib.max)
    (hmem : mems[k]? = some e) (hexpanded : e.2.expanded = true) (hread : Reads contents d e)
    (hreply : replies (i + k) = some (hexText d.bytes)) : d.pieces <:+: sheet'.obuf.pieces := by
  induction mems generalizing i k contents sheet with
  | nil => cases hmem
  | cons e₀ mems ih =>
      have hkeys := List.nodup_cons.mp hnodup
      cases k with
      | zero =>
          cases hmem
          rw [Nat.add_zero] at hreply
          rw [showSegments_cons hread hreply] at h
          obtain ⟨sheet₁, hsegment, hrest⟩ := Option.bind_eq_some_iff.mp h
          obtain ⟨dest₁, m, hput⟩ := hread.exists_put junk hrecorded (hmax e List.mem_cons_self)
          rw [hsegment] at hput
          obtain ⟨obuf, hextend, rfl⟩ := Option.map_eq_some_iff.mp hput.symm
          obtain ⟨ps, hps⟩ := grows_showSegments hrest
          have hpieces : obuf.pieces = sheet.obuf.pieces ++ d.shown e.2.expanded :=
            Dynarray.pieces_of_extend hextend
          refine ⟨sheet.obuf.pieces, ps, ?_⟩
          rw [← hps, hpieces, hexpanded]
          rfl
      | succ k =>
          have hmem' : mems[k]? = some e := hmem
          obtain ⟨a, mem⟩ := e₀
          unfold showSegments at h
          split at h
          · cases h
          · split at h
            · cases h
            · next content _ =>
              obtain ⟨sheet₁, hsegment, hrest⟩ := Option.bind_eq_some_iff.mp h
              have hext := extends_showSegment hsegment
              have hin : e.1 ∈ mems.map Prod.fst :=
                List.mem_map_of_mem (List.mem_of_getElem? hmem')
              have hne : e.1 ≠ a := fun heq => hkeys.1 (heq ▸ hin)
              exact ih hrest hkeys.2 (hext.recorded hrecorded)
                (fun e' he' => BitVec.le_trans (hmax e' (List.mem_cons_of_mem _ he')) hext.max) hmem'
                (hread.update hne _) (by rw [Nat.add_assoc, Nat.add_comm 1]; exact hreply)

/-! ## Rows -/

/-- The byte that a piece shows. -/
def byte? (p : Piece Char Mark) : Option Nat :=
  match p.shows with
  | some ⟨_, .byte i⟩ => some i
  | _ => none

theorem byte?_cell (x : Nat) : byte? (d.cell x) = d.index x := by
  unfold Dump.cell
  cases d.index x <;> rfl

theorem filterMap_row (x : Nat) : (d.row x).filterMap byte? = (List.range' x d.width).filterMap d.index := by
  have hcells : (d.cells x d.width).filterMap byte? = (List.range' x d.width).filterMap d.index := by
    unfold Dump.cells
    rw [List.filterMap_map]
    exact congrArg (fun f => List.filterMap f _) (funext byte?_cell)
  unfold Dump.row
  rw [List.filterMap_append, List.filterMap_cons_none rfl, hcells, List.filterMap_cons_none rfl]
  exact List.append_nil _

/-- The rows are over addresses that follow each other. -/
theorem filterMap_rows_eq (x n : Nat) :
    ((List.range n).flatMap fun k => d.row (x + k * d.width)).filterMap byte? =
      (List.range' x (n * d.width)).filterMap d.index := by
  induction n with
  | zero =>
      rw [Nat.zero_mul]
      rfl
  | succ n ih =>
      rw [List.range_succ, List.flatMap_append, List.filterMap_append, ih, List.flatMap_singleton,
        filterMap_row, Nat.succ_mul, ← List.range'_append_1, List.filterMap_append]

/-- Each byte is in the rows once, in the order of the addresses. -/
theorem filterMap_rows (hpos : 0 < d.width) (hbytes : 0 < d.bytes.length) :
    d.rows.filterMap byte? = List.range d.bytes.length := by
  obtain ⟨hcount, -⟩ := count_spec hpos hbytes
  have hfirst : d.first ≤ d.addr := Nat.sub_le _ _
  have hnone : ∀ {x n : Nat}, x + n ≤ d.addr ∨ d.addr + d.bytes.length ≤ x →
      (List.range' x n).filterMap d.index = [] := by
    intro x n hout
    rw [List.filterMap_eq_nil_iff]
    intro y hy
    obtain ⟨i, hi, rfl⟩ := List.mem_range'.mp hy
    exact if_neg fun hin => by omega
  have hsome : (List.range' d.addr d.bytes.length).filterMap d.index = List.range d.bytes.length := by
    have hindex : (List.range d.bytes.length).filterMap (d.index ∘ (d.addr + ·)) =
        (List.range d.bytes.length).filterMap some :=
      List.filterMap_congr fun i hi => index_byte (List.mem_range.mp hi)
    rw [List.range'_eq_map_range, List.filterMap_map, hindex, List.filterMap_some]
  unfold Dump.rows
  rw [filterMap_rows_eq, show d.count * d.width = (d.addr - d.first) + (d.bytes.length +
      (d.first + d.count * d.width - (d.addr + d.bytes.length))) by omega,
    ← List.range'_append_1, ← List.range'_append_1, List.filterMap_append, List.filterMap_append,
    hnone (Or.inl (by omega)), Nat.add_sub_cancel' hfirst, hsome, hnone (Or.inr (Nat.le_refl _))]
  exact List.append_nil _

/-- The rows begin at multiples of the width. -/
theorem first_spec (hpos : 0 < d.width) :
    d.width ∣ d.first ∧ d.first ≤ d.addr ∧ d.addr < d.first + d.width := by
  have hmod := Nat.mod_lt d.addr hpos
  refine ⟨Nat.dvd_sub_mod d.addr, Nat.sub_le _ _, ?_⟩
  unfold Dump.first
  omega

theorem getElem?_cells {x j : Nat} (hj : j < n) : (d.cells x n)[j]? = some (d.cell (x + j)) := by
  unfold Dump.cells
  rw [List.getElem?_map, List.getElem?_range' hj, Nat.one_mul]
  rfl

theorem getElem?_glyphs {x j : Nat} (hj : j < n) : (d.glyphs x n)[j]? = some (d.glyph (x + j)) := by
  unfold Dump.glyphs
  rw [List.getElem?_map, List.getElem?_range' hj, Nat.one_mul]
  rfl

theorem exec_updateText (s : State) : exec (updateText junk true replies) s =
    (showSegments junk replies 0 s.memLst s.contents { asciib := s.asciib }).map fun p =>
      (if p.2.2 then .ok (some p.2.1) else .error (),
        { s with contents := p.1, asciib := p.2.1.asciib, lineMems := p.2.1.lines }) := by
  unfold updateText
  rw [if_pos rfl, exec_get_bind]
  cases showSegments junk replies 0 s.memLst s.contents { asciib := s.asciib } with
  | none => rfl
  | some p =>
      obtain ⟨contents, sheet, ok⟩ := p
      cases ok <;> rfl

/-- In every state, the update shows the dump of each segment that is expanded.  It comes to its end if
the text fits, and it does not print a text that does not.  In a dump, the rows begin at the multiples of
the width from the last one in front of the segment up to its last byte; in a row, each cell and each
character is that of its own address; each byte is in the rows once, in the order of the addresses. -/
theorem rows_shown {pwr2 : BitVec 32 → Bool} {evs : List Event} {s : State}
    (h : Run (Step junk pwr2) (init junk) evs s) (replies : Nat → Option CStr) :
    (∀ sheet t, exec (updateText junk true replies) s = some (.ok (some sheet), t) →
      ∀ k e d, s.memLst[k]? = some e → e.2.expanded = true → Reads s.contents d e →
        replies k = some (hexText d.bytes) → d.pieces <:+: sheet.obuf.pieces) ∧
    (∀ ds, List.Forall₂ (Reads s.contents) ds s.memLst →
      (∀ k d, ds[k]? = some d → replies k = some (hexText d.bytes)) →
      ((text (shownAll ds s.memLst)).length < 2 ^ 31 → ∃ sheet t,
        exec (updateText junk true replies) s = some (.ok (some sheet), t) ∧
        sheet.obuf.pieces = shownAll ds s.memLst) ∧
      (2 ^ 31 ≤ (text (shownAll ds s.memLst)).length →
        exec (updateText junk true replies) s = none)) ∧
    ∀ d : Dump, 0 < d.width → 0 < d.bytes.length →
      d.pieces = d.header :: d.ruler ++
        ((List.range d.count).flatMap fun k => d.row (d.first + k * d.width)) ++ d.tail ∧
      (d.width ∣ d.first ∧ d.first ≤ d.addr ∧ d.addr < d.first + d.width) ∧
      (d.addr + d.bytes.length ≤ d.first + d.count * d.width ∧
        d.first + d.count * d.width < d.addr + d.bytes.length + d.width) ∧
      d.rows.filterMap byte? = List.range d.bytes.length ∧
      ∀ x, (d.glyphs x d.width).length = d.width ∧ ∀ j < d.width,
        (d.cells x d.width)[j]? = some (d.cell (x + j)) ∧
        (d.glyphs x d.width)[j]? = some (d.glyph (x + j)) := by
  have hsized := sized_run h
  have hlisted := listed_run h
  have hexec := @exec_updateText junk replies s
  refine ⟨fun sheet t hshown k e d hmem hexpanded hread hreply => ?_, fun ds hreads hreplies => ?_,
    fun d hpos hbytes => ?_⟩
  · rw [hexec] at hshown
    obtain ⟨⟨contents, sheet', ok⟩, hshow, heq⟩ := Option.map_eq_some_iff.mp hshown
    cases ok with
    | false => cases heq
    | true =>
        cases heq
        exact infix_of_showSegments hshow hlisted.nodup hsized.recorded hsized.alignments hmem hexpanded
          hread (by rw [Nat.zero_add]; exact hreply)
  · obtain ⟨contents', lines, dest', m, hputs⟩ := @exists_puts junk { asciib := s.asciib } _ _ 0 _ _ hreads (by simpa only [Nat.zero_add] using hreplies)
      hlisted.nodup hsized.recorded hsized.alignments
    rw [hexec, hputs]
    unfold Sheet.put Dynarray.extend
    constructor
    · intro hfits
      have hfits' : (text ((Dynarray.empty : Dynarray Mark).pieces ++ shownAll ds s.memLst)).length <
          2 ^ 31 := hfits
      rw [dif_pos hfits']
      exact ⟨_, _, rfl, rfl⟩
    · intro hlong
      have hlong' : ¬ (text ((Dynarray.empty : Dynarray Mark).pieces ++ shownAll ds s.memLst)).length <
          2 ^ 31 := Nat.not_lt.mpr hlong
      rw [dif_neg hlong']
      rfl
  · refine ⟨rfl, first_spec hpos, count_spec hpos hbytes, filterMap_rows hpos hbytes, fun x => ?_⟩
    exact ⟨length_glyphs _ _, fun j hj => ⟨getElem?_cells hj, getElem?_glyphs hj⟩⟩

/-- Three bytes in front of and behind a boundary, of which the last one changes. -/
private def acrossRows : Dump := ⟨0, 0x1006, [0, 0x41, 0x43], [0, 0x41, 0x42], 8⟩

/-- They have been read before. -/
private def acrossAdded : State := { init ' ' with
  memLst := [(0, ⟨some "0x1006".toList, 3, 8, true⟩)]
  next := 1
  contents := Function.update (fun _ => {}) 0 ⟨some "004142".toList, none⟩ }

/-- They are shown in two rows. -/
theorem across_rows_shown : ∃ sheet t,
    exec (updateText ' ' true fun _ => some "004143".toList) acrossAdded = some (.ok (some sheet), t) ∧
    acrossRows.pieces <:+: sheet.obuf.pieces ∧ acrossRows.count = 2 := by
  have hrun : Run (Step ' ' fun v => v &&& (v - 1) == 0) (init ' ')
      [.edit (.add (some { begin := some "0x1006".toList, content := some "004142".toList, length := 3 })
        none)] acrossAdded := Run.nil.snoc ⟨.ok true, rfl⟩
  have hread : Reads acrossAdded.contents acrossRows (0, ⟨some "0x1006".toList, 3, 8, true⟩) :=
    ⟨rfl, ⟨_, rfl, by decide⟩, by decide, by decide, rfl, ⟨3, rfl⟩, rfl, by decide, by decide⟩
  have hreads : List.Forall₂ (Reads acrossAdded.contents) [acrossRows] acrossAdded.memLst :=
    .cons hread .nil
  have hshown := rows_shown hrun fun _ => some "004143".toList
  obtain ⟨sheet, t, hexec, -⟩ := (hshown.2.1 _ hreads (fun k d hk => by
    obtain rfl := List.mem_singleton.mp (List.mem_of_getElem? hk)
    rfl)).1 (by decide +kernel)
  exact ⟨sheet, t, hexec, hshown.1 sheet t hexec 0 _ _ rfl rfl hread rfl, by decide⟩

end Vimgdb.Memory.View
