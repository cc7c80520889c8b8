import Vimgdb.User.MemoryShown
import Vimgdb.User.Refresh

/-!
# Refreshes of memory dumps

`delete` and `fold` take a line of the window and look for the segment in the line map, which is that of
the update before, whether it has failed or not.

* `Puts`: pieces of one segment have been printed, and their lines have been counted.
* `Sheet.Laid`: each line that has been printed is behind the entry of its segment.
* `layout`: the entries of some segments, one behind the other.
* `Described`: the line map describes the text last printed to the window.
* `described_iff`: behind an update it does, if and only if all segments have been read, or those that
  have been are where the window shows them.
* `refreshed_iff_reads`: while the window shows all segments, no read may fail.
* `described_runs_iff`: the runs in which the line map always describes the window.
-/

namespace Vimgdb.Memory.View

open Escape MarkedText Printf Programs Refresh Runs

/-! ## What is printed of a segment -/

/-- Pieces of a segment have been put behind the others, and their lines have been counted. -/
def Puts (a : Nat) (sheet sheet' : Sheet) : Prop := ∃ ps,
  sheet'.obuf.pieces = sheet.obuf.pieces ++ ps ∧ (∀ p ∈ ps, ∃ part, p.shows = some ⟨a, part⟩) ∧
  sheet'.line = sheet.line + BitVec.ofNat 32 (breaks '\n' ps)

/-- All that is shown is above the next line. -/
def Sheet.Settled (sheet : Sheet) : Prop := ∀ e ∈ sheet.obuf.marks, e.1 < sheet.obuf.nextLine

variable {junk : Char} {a n j j' : Nat} {part : Part} {fmt : String} {args : List Arg}
  {sheet sheet' : Sheet} {mem : Segment} {addr addr' : BitVec 64} {content old : CStr}

theorem puts_refl (a : Nat) (sheet : Sheet) : Puts a sheet sheet :=
  ⟨[], (List.append_nil _).symm, nofun, (BitVec.add_zero _).symm⟩

theorem Puts.trans {sheet'' : Sheet} (h : Puts a sheet sheet') (h' : Puts a sheet' sheet'') :
    Puts a sheet sheet'' := by
  obtain ⟨ps, hpieces, hshows, hline⟩ := h
  obtain ⟨qs, hpieces', hshows', hline'⟩ := h'
  refine ⟨ps ++ qs, ?_, fun p hp => ?_, ?_⟩
  · rw [hpieces', hpieces, List.append_assoc]
  · exact (List.mem_append.mp hp).elim (hshows p) (hshows' p)
  · rw [hline', hline, breaks_append, BitVec.ofNat_add, BitVec.add_assoc]

/-- A text that is added, and the lines that it ends. -/
theorem puts_add (h : sheet.add a part fmt args = some sheet') (hargs : ∀ x ∈ args, x.OneLine)
    (hn : (scanned fmt.toList).count '\n' = n) : Puts a sheet (sheet'.skip (BitVec.ofNat 32 n)) := by
  have hline : sheet'.line = sheet.line := congrArg Prod.fst (shown_add h)
  obtain ⟨obuf, hadd, rfl⟩ := Option.map_eq_some_iff.mp h
  obtain ⟨t, ht, hpieces⟩ := Dynarray.pieces_of_add hadd
  refine ⟨[⟨t, some ⟨a, part⟩⟩], hpieces, fun p hp => ?_, ?_⟩
  · obtain rfl := List.mem_singleton.mp hp
    exact ⟨part, rfl⟩
  · show sheet.line + BitVec.ofNat 32 n = _
    rw [breaks_cons, breaks_nil, count_vsnprintf hargs ht, hn, Nat.add_zero]

/-- A text without line breaks. -/
theorem puts_inline (h : sheet.add a part fmt args = some sheet') (hargs : ∀ x ∈ args, x.OneLine)
    (hn : (scanned fmt.toList).count '\n' = 0) : Puts a sheet sheet' := by
  obtain ⟨ps, hpieces, hshows, hline⟩ := puts_add h hargs hn
  refine ⟨ps, hpieces, hshows, Eq.trans ?_ hline⟩
  exact (BitVec.add_zero _).symm

/-- A text that ends a line. -/
theorem puts_line (h : (sheet.add a part fmt args).map (fun sheet => sheet.skip 1) = some sheet')
    (hargs : ∀ x ∈ args, x.OneLine) (hn : (scanned fmt.toList).count '\n' = 1) :
    Puts a sheet sheet' ∧ sheet'.Settled := by
  obtain ⟨sheet₁, hadd, rfl⟩ := Option.map_eq_some_iff.mp h
  refine ⟨puts_add hadd hargs hn, ?_⟩
  obtain ⟨obuf, hobuf, rfl⟩ := Option.map_eq_some_iff.mp hadd
  exact Dynarray.lt_nextLine_of_add hobuf (hn ▸ Nat.one_pos)

theorem puts_store {c : Char} (h : sheet.store j c = some sheet') : Puts a sheet sheet' := by
  obtain ⟨mem, -, rfl⟩ := Option.map_eq_some_iff.mp h
  exact puts_refl a sheet

theorem puts_fill (h : fill a n j sheet = some (j', sheet')) : Puts a sheet sheet' := by
  induction n generalizing j sheet with
  | zero =>
      cases h
      exact puts_refl a _
  | succ n ih =>
      unfold fill at h
      simp only [Option.bind_eq_bind, Option.bind_eq_some_iff] at h
      obtain ⟨sheet₁, hadd, sheet₂, hstore, hrest⟩ := h
      exact ((puts_inline hadd (fun c hc => absurd hc List.not_mem_nil) (by decide)).trans (puts_store hstore)).trans (ih hrest)

/-- The characters of a row are escaped, so they have no line breaks. -/
theorem puts_flush (h : flush junk a j sheet = some sheet') : Puts a sheet sheet' ∧ sheet'.Settled := by
  unfold flush at h
  simp only [Option.bind_eq_bind, Option.bind_eq_some_iff] at h
  obtain ⟨sheet₁, hstore, row, -, asciib, hescape, s, hs, sheet₂, hadd, heq⟩ := h
  cases heq
  obtain ⟨_, t, rest, -, -, hmem, -⟩ := eq_of_strescape hescape
  rw [hmem, Buffers.text_append, Option.some_inj] at hs
  have hone : '\n' ∉ s := by
    intro hmem
    rw [← hs] at hmem
    exact newline_notMem_strescape t ((List.takeWhile_prefix _).subset hmem)
  have hline : (Sheet.add { sheet₁ with asciib } a (.ascii row) "    \xc2\xb4h2%s`h2\n" [.str s]).map
      (fun sheet => sheet.skip 1) = some (sheet₂.skip 1) := by
    rw [hadd]
    rfl
  have hputs := puts_line hline (fun x hx => List.mem_singleton.mp hx ▸ hone) (by decide)
  have hrow : Puts a sheet₁ (sheet₂.skip 1) := hputs.1
  exact ⟨(puts_store hstore).trans hrow, hputs.2⟩

theorem puts_showAddr (h : showAddr a addr sheet = some sheet') : Puts a sheet sheet' := by
  refine puts_inline h (fun x hx => ?_) (by decide)
  simp only [List.mem_cons, List.not_mem_nil, or_false] at hx
  rcases hx with rfl | rfl <;> trivial

theorem puts_showByte (hcontent : '\n' ∉ content) {i : BitVec 32}
    (h : showByte a content old i j sheet = some sheet') : Puts a sheet sheet' := by
  unfold showByte at h
  simp only [Option.bind_eq_bind, Option.bind_eq_some_iff] at h
  obtain ⟨modified, -, sheet₁, hadd, hi, -, lo, -, hstore⟩ := h
  refine (puts_inline hadd (fun x hx => ?_) (by decide)).trans (puts_store hstore)
  have hchanged := newline_notMem_changed modified
  simp only [List.mem_cons, List.not_mem_nil, or_false] at hx
  rcases hx with rfl | rfl | rfl
  · exact hchanged.1
  · exact fun hmem => hcontent (List.mem_of_mem_drop hmem)
  · exact hchanged.2

theorem puts_endRow {more : Bool} (h : endRow junk a more addr j sheet = some sheet') :
    Puts a sheet sheet' := by
  unfold endRow at h
  obtain ⟨sheet₁, hflush, h⟩ := Option.bind_eq_some_iff.mp h
  cases more with
  | true => exact (puts_flush hflush).1.trans (puts_showAddr h)
  | false =>
      cases h
      exact (puts_flush hflush).1

theorem puts_showBytes (hcontent : '\n' ∉ content) {i : BitVec 32}
    (h : showBytes junk a mem content old n i addr j sheet = some (addr', j', sheet')) :
    Puts a sheet sheet' := by
  induction n generalizing i addr j sheet with
  | zero =>
      cases h
      exact puts_refl a _
  | succ n ih =>
      unfold showBytes at h
      simp only [Option.bind_eq_bind, Option.bind_eq_some_iff] at h
      obtain ⟨sheet₁, hbyte, h⟩ := h
      split at h
      · obtain ⟨sheet₂, hend, hrest⟩ := Option.bind_eq_some_iff.mp h
        exact ((puts_showByte hcontent hbyte).trans (puts_endRow hend)).trans (ih hrest)
      · exact (puts_showByte hcontent hbyte).trans (ih h)

theorem puts_showColumns {i : BitVec 32} (h : showColumns a n i sheet = some sheet') :
    Puts a sheet sheet' := by
  induction n generalizing i sheet with
  | zero =>
      cases h
      exact puts_refl a _
  | succ n ih =>
      unfold showColumns at h
      obtain ⟨sheet₁, hadd, hrest⟩ := Option.bind_eq_some_iff.mp h
      exact (puts_inline hadd (fun x hx => List.mem_singleton.mp hx ▸ trivial) (by decide)).trans
        (ih hrest)

theorem puts_showRuler {alignment : BitVec 32} (h : showRuler a alignment sheet = some sheet') :
    Puts a sheet sheet' := by
  unfold showRuler at h
  simp only [Option.bind_eq_bind, Option.bind_eq_some_iff] at h
  obtain ⟨sheet₁, hadd, sheet₂, hcolumns, h⟩ := h
  have hargs : ∀ x ∈ [Arg.int 16, .str []], x.OneLine := by
    intro x hx
    simp only [List.mem_cons, List.not_mem_nil, or_false] at hx
    rcases hx with rfl | rfl
    · trivial
    · exact List.not_mem_nil
  exact ((puts_inline hadd hargs (by decide)).trans (puts_showColumns hcolumns)).trans
    (puts_line h nofun (by decide)).1

theorem puts_blankLine (h : blankLine a sheet = some sheet') : Puts a sheet sheet' ∧ sheet'.Settled :=
  puts_line h nofun (by decide)

theorem puts_showRows (hcontent : '\n' ∉ content)
    (h : showRows junk a mem addr content old sheet = some sheet') :
    Puts a sheet sheet' ∧ sheet'.Settled := by
  unfold showRows at h
  simp only [Option.bind_eq_bind, Option.bind_eq_some_iff] at h
  obtain ⟨sheet₁, haddr, ⟨j₁, sheet₂⟩, hfill, ⟨addr₂, j₂, sheet₃⟩, hbytes, ⟨j₃, sheet₄⟩, hpad, sheet₅,
    hflush, h⟩ := h
  have hrows := ((((puts_showAddr haddr).trans (puts_fill hfill)).trans
    (puts_showBytes hcontent hbytes)).trans (puts_fill hpad)).trans (puts_flush hflush).1
  split at h
  · obtain ⟨hblank, hsettled⟩ := puts_blankLine h
    exact ⟨hrows.trans hblank, hsettled⟩
  · cases h
    exact ⟨hrows, (puts_flush hflush).2⟩

/-- A segment is entered in the line map, and its header is the first of its pieces. -/
theorem puts_showSegment (hcontent : '\n' ∉ content)
    (h : showSegment junk a mem addr content old sheet = some sheet') :
    Puts a (sheet.enter a) sheet' ∧ sheet'.Settled ∧
      (sheet.obuf.nextLine, ⟨a, .header⟩) ∈ sheet'.obuf.marks := by
  unfold showSegment at h
  obtain ⟨sheet₁, hheader, h⟩ := Option.bind_eq_some_iff.mp h
  rw [showHeader_eq] at hheader
  have hargs : ∀ x ∈ [Arg.chr (if mem.expanded then '-' else '+'), .int 18, .long addr,
      .int mem.length], x.OneLine := by
    intro x hx
    simp only [List.mem_cons, List.not_mem_nil, or_false] at hx
    rcases hx with rfl | rfl | rfl | rfl
    · show (if mem.expanded then '-' else '+') ≠ '\n'
      split <;> decide
    · trivial
    · trivial
    · trivial
  have hputs := (puts_line hheader hargs (by decide)).1
  have hmark : (sheet.obuf.nextLine, (⟨a, .header⟩ : Mark)) ∈ sheet₁.obuf.marks := by
    obtain ⟨sheet₂, hadd, rfl⟩ := Option.map_eq_some_iff.mp hheader
    obtain ⟨obuf, hobuf, rfl⟩ := Option.map_eq_some_iff.mp hadd
    obtain ⟨-, hmarks⟩ := Dynarray.add_spec hargs hobuf
    show _ ∈ obuf.marks
    rw [hmarks]
    exact List.mem_append_right _ List.mem_cons_self
  have hrest : Puts a sheet₁ sheet' ∧ sheet'.Settled := by
    split at h
    · obtain ⟨sheet₂, hruler, hrows⟩ := Option.bind_eq_some_iff.mp h
      obtain ⟨hrows, hsettled⟩ := puts_showRows hcontent hrows
      exact ⟨(puts_showRuler hruler).trans hrows, hsettled⟩
    · exact puts_blankLine h
  refine ⟨hputs.trans hrest.1, hrest.2, ?_⟩
  obtain ⟨ps, hpieces, -⟩ := hrest.1
  unfold Dynarray.marks at hmark ⊢
  rw [hpieces, marks_append]
  exact List.mem_append_left _ hmark

/-! ## The line map of a text -/

/-- The segments of some marks. -/
def segs (es : List (Nat × Mark)) : List (Nat × Nat) := es.map fun e => (e.1, e.2.seg)

/-- The lines are counted as they are, each is behind the entry of its segment, and the first one is a
header. -/
structure Sheet.Laid (sheet : Sheet) : Prop where
  line : sheet.line = BitVec.ofNat 32 sheet.obuf.nextLine
  settled : sheet.Settled
  lines : ∃ es, sheet.lines = LineMap.ofMarks es ∧ Ascending sheet.obuf.nextLine es ∧
    Nearest es (segs sheet.obuf.marks)
  first : sheet.obuf.pieces = [] ∨ ∃ a, (1, ⟨a, .header⟩) ∈ sheet.obuf.marks

theorem laid_empty (dest : Dest) : Sheet.Laid { asciib := dest } where
  line := rfl
  settled := nofun
  lines := ⟨[], rfl, ascending_nil 1, nearest_nil []⟩
  first := Or.inl rfl

theorem laid_showSegment (h : sheet.Laid) (hcontent : '\n' ∉ content)
    (hshow : showSegment junk a mem addr content old sheet = some sheet') : sheet'.Laid := by
  obtain ⟨⟨ps, hpieces, hshows, hline⟩, hsettled, hmark⟩ := puts_showSegment hcontent hshow
  have hpieces' : sheet'.obuf.pieces = sheet.obuf.pieces ++ ps := hpieces
  have hnext : sheet'.obuf.nextLine = sheet.obuf.nextLine + breaks '\n' ps := by
    unfold Dynarray.nextLine
    rw [hpieces', breaks_append, Nat.add_assoc]
  have hmarks : sheet'.obuf.marks = sheet.obuf.marks ++
      MarkedText.marks '\n' sheet.obuf.nextLine ps := by
    unfold Dynarray.marks
    rw [hpieces', marks_append]
    rfl
  obtain ⟨es, hlines, hascending, hnear⟩ := h.lines
  refine ⟨?_, hsettled, ⟨es ++ [(sheet.obuf.nextLine, a)], ?_, ?_, ?_⟩, ?_⟩
  · have hline' : sheet'.line = sheet.line + BitVec.ofNat 32 (breaks '\n' ps) := hline
    rw [hline', h.line, hnext, BitVec.ofNat_add]
  · obtain ⟨-, hlines'⟩ := Prod.mk.inj (shown_showSegment hshow)
    rw [hlines', LineMap.ofMarks_snoc, hlines, h.line]
  · exact hascending.snoc (Nat.le_refl _) (hsettled _ hmark) a
  · unfold segs at hnear ⊢
    rw [hmarks, List.map_append]
    refine hnear.enter hascending (fun e he => ?_) fun e he => ?_
    · obtain ⟨e', he', rfl⟩ := List.mem_map.mp he
      exact h.settled e' he'
    · obtain ⟨⟨l, m⟩, he', rfl⟩ := List.mem_map.mp he
      obtain ⟨pre, p, post, rfl, hp, rfl⟩ := MarkedText.mem_marks.mp he'
      obtain ⟨part, hpart⟩ := hshows p (List.mem_append_right _ List.mem_cons_self)
      obtain rfl := Option.some.inj (hp.symm.trans hpart)
      exact ⟨Nat.le_add_right _ _, rfl⟩
  · right
    rcases h.first with hempty | ⟨b, hb⟩
    · have hone : sheet.obuf.nextLine = 1 := by
        unfold Dynarray.nextLine
        rw [hempty, breaks_nil]
      exact ⟨a, hone ▸ hmark⟩
    · exact ⟨b, hmarks ▸ List.mem_append_left _ hb⟩

theorem laid_showSegments {replies : Nat → Option CStr} {i : Nat} {mems : List (Nat × Segment)}
    {contents contents' : Nat → Contents} {ok : Bool} (h : sheet.Laid)
    (hreplies : ∀ k content, replies k = some content → '\n' ∉ content)
    (hshow : showSegments junk replies i mems contents sheet = some (contents', sheet', ok)) :
    sheet'.Laid := by
  induction mems generalizing i contents sheet with
  | nil =>
      cases hshow
      exact h
  | cons e mems ih =>
      obtain ⟨a, mem⟩ := e
      unfold showSegments at hshow
      split at hshow
      · cases hshow
      · split at hshow
        · cases hshow
          exact h
        · next content hreply =>
          obtain ⟨sheet₁, hsegment, hrest⟩ := Option.bind_eq_some_iff.mp hshow
          refine ih (laid_showSegment h (fun hmem => ?_) hsegment) hrest
          rcases List.mem_append.mp hmem with hmem | hmem
          · exact hreplies i content hreply hmem
          · exact absurd (List.mem_singleton.mp hmem) (by decide)

/-- What is shown is found on its lines. -/
theorem Sheet.Laid.describes (h : sheet.Laid) :
    LineMap.Describes sheet.lines (segs sheet.obuf.marks) := by
  obtain ⟨es, hlines, hascending, hnear⟩ := h.lines
  rw [hlines]
  refine LineMap.describes_ofMarks (Nat.le_of_lt sheet.obuf.nextLine_lt) hascending (fun e he => ?_) hnear
  obtain ⟨e', he', rfl⟩ := List.mem_map.mp he
  exact (Dynarray.line_of_mem_marks he').2

theorem Sheet.Laid.pairwise (h : sheet.Laid) : sheet.lines.Pairwise fun d e => d.1 < e.1 := by
  obtain ⟨es, hlines, hascending, -⟩ := h.lines
  rw [hlines]
  exact LineMap.pairwise_ofMarks (Nat.le_of_lt sheet.obuf.nextLine_lt) hascending

/-! ## The segments that are read -/

/-- The entries of some segments that are shown one behind the other. -/
def layout : BitVec 32 → List (Nat × Segment) → LineMap Nat
  | _, [] => []
  | line, (a, mem) :: mems =>
      (line, a) :: layout (line + mem.lines (strtollHex (mem.begin.getD []))) mems

theorem objects_layout (line : BitVec 32) (mems : List (Nat × Segment)) :
    (layout line mems).objects = mems.map Prod.fst := by
  induction mems generalizing line with
  | nil => rfl
  | cons e mems ih =>
      obtain ⟨a, mem⟩ := e
      exact congrArg (a :: ·) (ih _)

/-- The line map has the segments in front of the first read that fails. -/
theorem showSegments_layout {replies : Nat → Bool} {i : Nat} {mems : List (Nat × Segment)}
    {line : BitVec 32} {lines lines' : LineMap Nat} {ok : Bool}
    (h : Memory.showSegments replies i mems line lines = some (lines', ok)) :
    lines' = lines ++ layout line (readFirst replies i mems) ∧
      (ok = true ↔ ∀ k < mems.length, replies (i + k) = true) := by
  induction mems generalizing i line lines with
  | nil =>
      cases h
      exact ⟨(List.append_nil _).symm, iff_of_true rfl nofun⟩
  | cons e mems ih =>
      obtain ⟨a, mem⟩ := e
      unfold Memory.showSegments at h
      split at h
      · cases h
      · next begin hbegin =>
        unfold readFirst
        split at h
        · next hreply =>
          obtain ⟨hlines, hok⟩ := ih h
          rw [if_pos hreply, hlines, hok, LineMap.add, List.append_assoc]
          refine ⟨?_, forall_lt_succ_iff hreply⟩
          show _ = lines ++ (line, a) ::
            layout (line + mem.lines (strtollHex (mem.begin.getD []))) (readFirst replies (i + 1) mems)
          rw [hbegin]
          rfl
        · next hreply =>
          cases h
          rw [if_neg hreply]
          refine ⟨(List.append_nil _).symm, iff_of_false Bool.false_ne_true fun hall => ?_⟩
          exact hreply (hall 0 (Nat.zero_lt_succ _))

/-! ## The window -/

/-- The view with its window. -/
abbrev Window := Refresh.Window State Sheet

/-- The digits that gdb sends for the bytes of a segment. -/
def digits (replies : Nat → Option (List UInt8)) (i : Nat) : Option CStr := (replies i).map hexText

/-- Commands up to their update, and updates; gdb sends bytes or an error. -/
def WindowStep (junk : Char) (pwr2 : BitVec 32 → Bool) :
    Window → Act Edit (Nat → Option (List UInt8)) → Window → Prop :=
  Refresh.Step (fun s e t => ∃ r, exec (e.call junk pwr2) s = some (r, t))
    fun window replies => updateText junk window (digits replies)

/-- The lines of the text last printed to the window, with what they show. -/
def shown (w : Window) : List (Nat × Mark) :=
  match w.text with
  | some (some sheet) => sheet.obuf.marks
  | _ => []

/-- The line map describes the text last printed: each header is found on its line, and no line leads to
another segment than the one it shows. -/
structure Described (w : Window) : Prop where
  header : ∀ l a, (l, ⟨a, .header⟩) ∈ shown w → w.vars.lineMems.find (BitVec.ofNat 32 l) = some a
  object : ∀ l m a, (l, m) ∈ shown w → w.vars.lineMems.find (BitVec.ofNat 32 l) = some a → a = m.seg

/-- All segments are read, or each line of the window is behind the entry of its segment, and no other
one, where those in front of the first read that fails are shown. -/
def Refreshed (w : Window) (replies : Nat → Option (List UInt8)) : Prop :=
  (∀ k < w.vars.memLst.length, (replies k).isSome = true) ∨
    LineMap.Covers (layout 1 (readFirst (fun k => (replies k).isSome) 0 w.vars.memLst)) (segs (shown w))

variable {pwr2 : BitVec 32 → Bool} {w w' : Window} {acts : List (Act Edit (Nat → Option (List UInt8)))}
  {replies : Nat → Option (List UInt8)}

theorem newline_notMem_hexText (bs : List UInt8) : '\n' ∉ hexText bs := by
  have hall : ∀ v < 256, '\n' ∉ [hexDigit (v / 16), hexDigit (v % 16)] := by decide +kernel
  intro hmem
  obtain ⟨b, -, hb⟩ := List.mem_flatMap.mp hmem
  exact hall b.toNat b.toNat_lt hb

theorem newline_notMem_digits (k : Nat) (content : CStr) (h : digits replies k = some content) :
    '\n' ∉ content := by
  obtain ⟨bs, -, rfl⟩ := Option.map_eq_some_iff.mp h
  exact newline_notMem_hexText bs

theorem isSome_digits (k : Nat) : (digits replies k).isSome = (replies k).isSome := Option.isSome_map

/-- The text last printed has been laid out. -/
theorem laid_run (h : Run (WindowStep junk pwr2) ⟨init junk, none⟩ acts w) (sheet : Sheet)
    (hsheet : w.text = some (some sheet)) : sheet.Laid := by
  refine text_run (Q := Sheet.Laid) (fun window replies s t sheet hexec => ?_) h sheet hsheet
  cases window with
  | false => cases hexec
  | true =>
      rw [exec_updateText] at hexec
      obtain ⟨⟨contents, sheet', ok⟩, hshow, heq⟩ := Option.map_eq_some_iff.mp hexec
      cases ok with
      | false => cases heq
      | true =>
          cases heq
          exact laid_showSegments (laid_empty _) newline_notMem_digits hshow

/-- What a line shows is found on it, if the headers are and nothing else is. -/
theorem described_iff_describes (h : ∀ sheet, w.text = some (some sheet) → sheet.Laid) :
    Described w ↔ LineMap.Describes w.vars.lineMems (segs (shown w)) := by
  constructor
  · intro hdesc
    have hheader := hdesc.header
    have hobject := hdesc.object
    unfold shown at hheader hobject ⊢
    split
    · next sheet hsheet =>
      rw [hsheet] at hheader hobject
      dsimp only at hheader hobject
      rcases (h sheet hsheet).first with hempty | ⟨a, ha⟩
      · unfold Dynarray.marks
        rw [hempty]
        exact nofun
      · refine LineMap.describes_of_eq ?_ (fun e he => ?_) fun l a x hmem hx => ?_
        · rw [hheader 1 a ha]
          exact Option.some_ne_none a
        · obtain ⟨e', he', rfl⟩ := List.mem_map.mp he
          have hline := Dynarray.line_of_mem_marks he'
          exact hline
        · obtain ⟨⟨l', m⟩, hm, heq⟩ := List.mem_map.mp hmem
          obtain ⟨rfl, rfl⟩ := Prod.mk.inj heq
          exact hobject _ m x hm hx
    · exact nofun
  · intro hdesc
    have hfind : ∀ l m, (l, m) ∈ shown w → w.vars.lineMems.find (BitVec.ofNat 32 l) = some m.seg :=
      fun l m hm => hdesc l m.seg (List.mem_map_of_mem (f := fun e : Nat × Mark => (e.1, e.2.seg)) hm)
    refine ⟨fun l a hm => hfind l _ hm, fun l m a hm ha => ?_⟩
    rw [hfind l m hm] at ha
    exact (Option.some.inj ha).symm

theorem described_of_shown (h : shown w = []) : Described w := by
  constructor
  · rw [h]
    exact nofun
  · rw [h]
    exact nofun

/-- Behind an update, the line map describes the window if and only if all segments have been read, or
those that have been are where the window shows them. -/
theorem described_iff (h : Run (WindowStep junk pwr2) ⟨init junk, none⟩ acts w)
    (hstep : WindowStep junk pwr2 w (.update replies) w') : Described w' ↔ Refreshed w replies := by
  have hlaid := laid_run h
  have hrun' := laid_run (h.snoc hstep)
  obtain ⟨r, hexec, htext⟩ := hstep
  cases hw : w.text with
  | none =>
      rw [hw] at hexec htext
      have heq : some (Except.ok none, w.vars) = some (r, w'.vars) := hexec
      obtain ⟨rfl, -⟩ := Prod.mk.inj (Option.some.inj heq)
      have hshown : shown w' = [] := by
        unfold shown
        rw [htext]
        rfl
      refine iff_of_true (described_of_shown hshown) (Or.inr ?_)
      unfold shown
      rw [hw]
      exact nofun
  | some text =>
      rw [hw] at hexec htext
      rw [Option.isSome_some, exec_updateText] at hexec
      obtain ⟨⟨contents, sheet, ok⟩, hshow, heq⟩ := Option.map_eq_some_iff.mp hexec
      have hsheet := laid_showSegments (laid_empty _) newline_notMem_digits hshow
      obtain ⟨hlines, hok⟩ := showSegments_layout (refines_showSegments hshow)
      simp only [isSome_digits, Nat.zero_add] at hlines hok
      rw [described_iff_describes hrun']
      cases ok with
      | true =>
          obtain ⟨rfl, hvars⟩ := Prod.mk.inj heq
          refine iff_of_true ?_ (Or.inl (hok.mp rfl))
          unfold shown
          rw [htext, ← hvars]
          exact hsheet.describes
      | false =>
          obtain ⟨rfl, hvars⟩ := Prod.mk.inj heq
          have hshown : shown w' = shown w := by
            unfold shown
            rw [htext, hw]
            rfl
          have hmap : w'.vars.lineMems = sheet.lines := by rw [← hvars]
          have hnot : ¬ ∀ k < w.vars.memLst.length, (replies k).isSome = true :=
            fun hall => Bool.false_ne_true (hok.mpr hall)
          rw [hmap, hshown, LineMap.describes_iff hsheet.pairwise, hlines]
          exact (or_iff_right hnot).symm

/-- The commands do not touch the line map. -/
theorem lineMems_call {e : Edit} {s t : State} {r : Except Unit Bool}
    (h : exec (e.call junk pwr2) s = some (r, t)) : t.lineMems = s.lineMems := by
  have hedit : ∀ {argv2 : CStr} {f : Nat → List (Nat × Segment) → List (Nat × Segment)},
      exec (editAt argv2 f) s = some (r, t) → t.lineMems = s.lineMems := by
    intro argv2 f h
    rw [exec_editAt] at h
    split at h
    · cases h
      rfl
    · split at h <;> cases h
      rfl
  cases e with
  | add m argv4 =>
      cases m with
      | none =>
          cases h
          rfl
      | some m =>
          cases h
          rfl
  | delete argv2 => exact hedit h
  | fold argv2 => exact hedit h
  | view =>
      cases h
      rfl

/-- Commands and windows that come and go leave what is found on the lines that are shown. -/
theorem Described.step {act : Act Edit (Nat → Option (List UInt8))} (hdesc : Described w)
    (hstep : WindowStep junk pwr2 w act w') (hact : ∀ replies, act ≠ .update replies) : Described w' := by
  cases act with
  | update replies => exact absurd rfl (hact replies)
  | edit e =>
      obtain ⟨⟨r, hexec⟩, htext⟩ := hstep
      have hshown : shown w' = shown w := by
        unfold shown
        rw [htext]
      have hmap := lineMems_call hexec
      exact ⟨by rw [hshown, hmap]; exact hdesc.header, by rw [hshown, hmap]; exact hdesc.object⟩
  | create =>
      have hshown : shown w' = shown w := by
        obtain rfl := hstep
        unfold shown
        rcases w.text with _ | _ | _ <;> rfl
      obtain rfl := hstep
      exact ⟨by rw [hshown]; exact hdesc.header, by rw [hshown]; exact hdesc.object⟩
  | destroy =>
      obtain rfl := hstep
      exact described_of_shown rfl

/-! ## Windows that show all segments -/

theorem listed_windowRun (h : Run (WindowStep junk pwr2) ⟨init junk, none⟩ acts w) : Listed w.vars := by
  obtain ⟨evs, hrun⟩ := vars_run (S := Step junk pwr2) (fun s e t h => ⟨.edit e, h⟩)
    (fun window replies s r t h => ⟨.update window (digits replies), r, h⟩) h
  exact listed_run hrun

/-- While the window shows all segments, a read that fails makes the line map useless. -/
theorem refreshed_iff_reads (h : Run (WindowStep junk pwr2) ⟨init junk, none⟩ acts w)
    (hshown : ∀ e ∈ w.vars.memLst, ∃ l part, (l, ⟨e.1, part⟩) ∈ shown w) :
    Refreshed w replies ↔ ∀ k < w.vars.memLst.length, (replies k).isSome = true := by
  refine ⟨fun hrefreshed => hrefreshed.elim id fun hcovers => ?_, Or.inl⟩
  -- each segment has an entry, so each has been read
  have hsub : w.vars.memLst.map Prod.fst ⊆
      (readFirst (fun k => (replies k).isSome) 0 w.vars.memLst).map Prod.fst := by
    intro a ha
    obtain ⟨e, he, rfl⟩ := List.mem_map.mp ha
    obtain ⟨l, part, hmem⟩ := hshown e he
    obtain ⟨c, hc, -⟩ := hcovers l e.1
      (List.mem_map_of_mem (f := fun e : Nat × Mark => (e.1, e.2.seg)) hmem)
    rw [← objects_layout 1]
    exact List.mem_map_of_mem hc
  have hlength := ((listed_windowRun h).nodup.subperm hsub).length_le
  rw [List.length_map, List.length_map] at hlength
  have hall := forall_of_length_le hlength
  simpa only [Nat.zero_add] using hall

/-- The line map describes the window behind every step of a run, if and only if it is a run of updates
that meet the condition.  While all segments are shown, they do if no read fails. -/
theorem described_runs_iff (junk : Char) (pwr2 : BitVec 32 → Bool)
    (acts : List (Act Edit (Nat → Option (List UInt8)))) (w : Window) :
    (Run (fun w act w' => WindowStep junk pwr2 w act w' ∧ Described w') ⟨init junk, none⟩ acts w ↔
      Run (fun w act w' => WindowStep junk pwr2 w act w' ∧ ∀ replies, act = .update replies → Refreshed w replies)
        ⟨init junk, none⟩ acts w) ∧
    (Run (WindowStep junk pwr2) ⟨init junk, none⟩ acts w →
      (∀ e ∈ w.vars.memLst, ∃ l part, (l, ⟨e.1, part⟩) ∈ shown w) →
      ∀ replies, Refreshed w replies ↔ ∀ k < w.vars.memLst.length, (replies k).isSome = true) := by
  refine ⟨?_, fun h hshown replies => refreshed_iff_reads h hshown⟩
  have hstep : ∀ w act w', (∃ acts, Run (WindowStep junk pwr2) ⟨init junk, none⟩ acts w) ∧ Described w →
      WindowStep junk pwr2 w act w' →
      (Described w' ↔ ∀ replies, act = .update replies → Refreshed w replies) := by
    rintro w act w' ⟨⟨acts, hrun⟩, hdesc⟩ hstep
    by_cases hact : ∃ replies, act = .update replies
    · obtain ⟨replies, rfl⟩ := hact
      rw [described_iff hrun hstep]
      refine ⟨fun hrefreshed replies' heq => ?_, fun hall => hall replies rfl⟩
      cases heq
      exact hrefreshed
    · rw [not_exists] at hact
      exact iff_of_true (hdesc.step hstep hact) fun replies heq => absurd heq (hact replies)
  refine Run.guarded_iff (I := fun w =>
    (∃ acts, Run (WindowStep junk pwr2) ⟨init junk, none⟩ acts w) ∧ Described w)
    ⟨⟨[], Run.nil⟩, described_of_shown rfl⟩ (fun w act w' hw h hrefreshed => ?_) hstep acts w
  obtain ⟨acts, hrun⟩ := hw.1
  exact ⟨⟨_, hrun.snoc h⟩, (hstep w act w' hw h).mpr hrefreshed⟩

/-- Two segments have been added. -/
private def twoAdded : State := { init ' ' with
  memLst := [(0, ⟨some "0x10".toList, 1, 8, true⟩), (1, ⟨some "0x20".toList, 1, 8, true⟩)]
  next := 2
  contents := Function.update (Function.update (fun _ => {}) 0 ⟨some "00".toList, none⟩) 1
    ⟨some "00".toList, none⟩ }

/-- They are read, and then a second time; the lines that the first update shows, and whether the second
one is defined. -/
private def twoShown (replies : Nat → Option (List UInt8)) : Option (List (Nat × Nat) × Bool × Bool) :=
  (showSegments ' ' (digits fun _ => some [0x41]) 0 twoAdded.memLst twoAdded.contents
    { asciib := twoAdded.asciib }).map fun p =>
      (segs p.2.1.obuf.marks, p.2.2,
        (showSegments ' ' (digits replies) 0 twoAdded.memLst p.1 { asciib := p.2.1.asciib }).isSome)

/-- The second read fails behind an update that has shown both, and the line map is useless. -/
theorem torn_refresh : ∃ acts w replies w', Run (WindowStep ' ' fun v => v &&& (v - 1) == 0)
      ⟨init ' ', none⟩ acts w ∧ Described w ∧
    WindowStep ' ' (fun v => v &&& (v - 1) == 0) w (.update replies) w' ∧ ¬ Described w' := by
  let replies : Nat → Option (List UInt8) := fun k => if k = 0 then some [0x41] else none
  have htwice : ∃ lines, twoShown replies = some (lines, true, true) ∧ (1, 0) ∈ lines ∧ (5, 1) ∈ lines := by
    have hone : (twoShown replies).map (fun p => (decide ((1, 0) ∈ p.1 ∧ (5, 1) ∈ p.1), p.2)) =
        some (true, true, true) := by decide +kernel
    obtain ⟨⟨lines, flags⟩, heq, hp⟩ := Option.map_eq_some_iff.mp hone
    obtain ⟨hmem, rfl⟩ := Prod.mk.inj hp
    exact ⟨lines, heq, of_decide_eq_true hmem⟩
  obtain ⟨lines, htwice, hfirst, hsecond⟩ := htwice
  obtain ⟨⟨contents, sheet, ok⟩, hshow, heq⟩ := Option.map_eq_some_iff.mp htwice
  obtain ⟨rfl, hflags⟩ := Prod.mk.inj heq
  obtain ⟨rfl, hagain⟩ := Prod.mk.inj hflags
  obtain ⟨⟨contents', sheet', ok'⟩, hshow'⟩ := Option.isSome_iff_exists.mp hagain
  have hcreate : WindowStep ' ' (fun v => v &&& (v - 1) == 0) ⟨twoAdded, none⟩ .create
      ⟨twoAdded, some none⟩ := rfl
  have hadded : Run (WindowStep ' ' fun v => v &&& (v - 1) == 0) ⟨init ' ', none⟩
      [.edit (.add (some { begin := some "0x10".toList, content := some "00".toList, length := 1 }) none),
        .edit (.add (some { begin := some "0x20".toList, content := some "00".toList, length := 1 }) none),
        .create] ⟨twoAdded, some none⟩ :=
    ((Run.nil.snoc (u := ⟨_, none⟩) ⟨⟨.ok true, rfl⟩, rfl⟩).snoc (u := ⟨twoAdded, none⟩)
      ⟨⟨.ok true, rfl⟩, rfl⟩).snoc hcreate
  let w : Window := ⟨{ twoAdded with contents, asciib := sheet.asciib, lineMems := sheet.lines },
    some (some sheet)⟩
  have hupdate : WindowStep ' ' (fun v => v &&& (v - 1) == 0) ⟨twoAdded, some none⟩
      (.update fun _ => some [0x41]) w := by
    refine ⟨.ok (some sheet), ?_, rfl⟩
    rw [Option.isSome_some, exec_updateText, hshow]
    rfl
  have hrun := hadded.snoc hupdate
  obtain ⟨r, t, hexec⟩ : ∃ r t, exec (updateText ' ' true (digits replies)) w.vars = some (r, t) :=
    ⟨_, _, (exec_updateText _).trans (congrArg (Option.map _) hshow')⟩
  have htorn : WindowStep ' ' (fun v => v &&& (v - 1) == 0) w (.update replies) ⟨t, printed r w.text⟩ :=
    ⟨r, hexec, rfl⟩
  refine ⟨_, w, replies, _, hrun, (described_iff hadded hupdate).mpr (Or.inl fun _ _ => rfl), htorn, ?_⟩
  have hall : ∀ e ∈ w.vars.memLst, ∃ l part, (l, ⟨e.1, part⟩) ∈ shown w := by
    have hseg : ∀ l a, (l, a) ∈ segs sheet.obuf.marks → ∃ part, (l, ⟨a, part⟩) ∈ shown w := by
      intro l a hmem
      obtain ⟨⟨_, m⟩, hm, heq⟩ := List.mem_map.mp hmem
      obtain ⟨rfl, rfl⟩ := Prod.mk.inj heq
      exact ⟨m.part, hm⟩
    exact List.forall_mem_cons.mpr ⟨⟨1, hseg 1 0 hfirst⟩, List.forall_mem_singleton.mpr ⟨5, hseg 5 1 hsecond⟩⟩
  rw [described_iff hrun htorn, (described_runs_iff ' ' _ _ w).2 hrun hall replies]
  exact fun hreads => Bool.false_ne_true (hreads 1 Nat.one_lt_two)

end Vimgdb.Memory.View
