import Vimgdb.Common.Dynarray
import Vimgdb.Common.Escape
import Vimgdb.Lib.Runs
import Vimgdb.User.Memory
import Vimgdb.User.PerView

/-!
# The text of memory dumps

`cmd_memory_update` with the text it makes, over the model that makes the line map alone.

* `Part`, `Sheet`: what a piece of the text shows, and what has been printed.
* `fill`, `flush`, `showBytes`, `showSegment`, `showSegments`: the loops.
* `updateText`, `command`: the functions.
* `forgets_command`: without the text they are those on the list and the line map.
* `Sized`: the buffer for the characters of a row is as large as the alignments ask for; `sized_run`.
-/

namespace Vimgdb.Memory.View

open Buffers Escape MarkedText Printf Programs
open Per.View (memcmp)

/-! ## The sheet -/

/-- What a piece of the text shows of a segment. -/
inductive Part
  | header
  | ruler
  | row (addr : BitVec 64)
  | pad
  | byte (i : Nat)
  /-- The characters of a row, as they are in the buffer before they are escaped. -/
  | ascii (row : CStr)
  | blank
  deriving DecidableEq

/-- A piece shows a part of the segment at an address. -/
structure Mark where
  seg : Nat
  part : Part
  deriving DecidableEq

/-- What has been printed, with the line map and the buffer for the characters of a row. -/
structure Sheet where
  obuf : Dynarray Mark := .empty
  lines : LineMap Nat := []
  line : BitVec 32 := 1
  asciib : Dest

/-- `obuf.add` -/
def Sheet.add (sheet : Sheet) (a : Nat) (part : Part) (fmt : String) (args : List Arg) :
    Option Sheet :=
  (sheet.obuf.add (some ⟨a, part⟩) fmt.toList args).map fun obuf => { sheet with obuf }

/-- Lines have been ended. -/
def Sheet.skip (sheet : Sheet) (n : BitVec 32) : Sheet := { sheet with line := sheet.line + n }

/-- `asciib[j] = c` -/
def Sheet.store (sheet : Sheet) (j : Nat) (c : Char) : Option Sheet :=
  (write sheet.asciib.mem j c).map fun mem => { sheet with asciib := { sheet.asciib with mem } }

/-! ## Rows -/

/-- `CTOI`; characters are signed. -/
def ctoi (c : Char) : BitVec 32 :=
  BitVec.ofNat 32 c.toNat - if 'a'.toNat ≤ c.toNat ∧ c.toNat < 128 then 87 else 48

/-- The character of a byte, with its two digits. -/
def byteChar (hi lo : Char) : Char := Char.ofNat ((ctoi hi * 16 + ctoi lo).toNat % 256)

/-- `n` bytes that are not in the segment; `j` is the index in the buffer. -/
def fill (a : Nat) : Nat → Nat → Sheet → Option (Nat × Sheet)
  | 0, j, sheet => some (j, sheet)
  | n + 1, j, sheet => do
      let sheet ← sheet.add a .pad "??" []
      let sheet ← sheet.store j ' '
      fill a n (j + 1) sheet

/-- The characters of a row, of which `j` are in the buffer. -/
def flush (junk : Char) (a j : Nat) (sheet : Sheet) : Option Sheet := do
  let sheet ← sheet.store j '\x00'
  let row ← Buffers.text '\x00' sheet.asciib.mem
  let asciib ← sheet.asciib.strescape junk .dest
  let s ← Buffers.text '\x00' asciib.mem
  let sheet ← Sheet.add { sheet with asciib } a (.ascii row) "    \xc2\xb4h2%s`h2\n" [.str s]
  return sheet.skip 1

/-- The address of a row. -/
def showAddr (a : Nat) (addr : BitVec 64) (sheet : Sheet) : Option Sheet :=
  sheet.add a (.row addr) " \xc2\xb4h1%#0*lx`h1    " [.int 18, .long addr]

/-- A byte, with its character. -/
def showByte (a : Nat) (content old : CStr) (i : BitVec 32) (j : Nat) (sheet : Sheet) :
    Option Sheet := do
  let modified ← memcmp content old (i * 2).toNat 2
  let sheet ← sheet.add a (.byte i.toNat) "%s%2.2s%s"
    [.str (changed modified).1, .str (content.drop (i * 2).toNat), .str (changed modified).2]
  let hi ← Buffers.read content (i * 2).toNat
  let lo ← Buffers.read content (i * 2 + 1).toNat
  let c := byteChar hi lo
  sheet.store j (if c = '\x00' then ' ' else c)

/-- The end of a row, with the address of the next one if there are more bytes. -/
def endRow (junk : Char) (a : Nat) (more : Bool) (addr : BitVec 64) (j : Nat) (sheet : Sheet) :
    Option Sheet := do
  let sheet ← flush junk a j sheet
  if more then showAddr a (addr + 1) sheet else return sheet

/-- The loop over the bytes of a segment, of which `n` are left. -/
def showBytes (junk : Char) (a : Nat) (mem : Segment) (content old : CStr) :
    Nat → BitVec 32 → BitVec 64 → Nat → Sheet → Option (BitVec 64 × Nat × Sheet)
  | 0, _, addr, j, sheet => some (addr, j, sheet)
  | n + 1, i, addr, j, sheet => do
      let sheet ← showByte a content old i j sheet
      if addr + 1 = align (addr + mem.alignment.zeroExtend 64) mem.alignment then
        let sheet ← endRow junk a (i + 1 < mem.length) addr (j + 1) sheet
        showBytes junk a mem content old n (i + 1) (addr + 1) 0 sheet
      else showBytes junk a mem content old n (i + 1) (addr + 1) (j + 1) sheet

/-! ## Segments -/

/-- The header of a segment, which is entered in the line map. -/
def showHeader (a : Nat) (mem : Segment) (addr : BitVec 64) (sheet : Sheet) : Option Sheet := do
  let sheet ← sheet.add a .header "[%c] \xc2\xb4h0memory dump: %#0*lx`h0 (%u bytes)\n"
    [.chr (if mem.expanded then '-' else '+'), .int 18, .long addr, .int mem.length]
  return { sheet with lines := sheet.lines.add sheet.line a, line := sheet.line + 1 }

/-- The numbers above the columns. -/
def showColumns (a : Nat) : Nat → BitVec 32 → Sheet → Option Sheet
  | 0, _, sheet => some sheet
  | n + 1, i, sheet => do
      let sheet ← sheet.add a .ruler "%2x" [.int i]
      showColumns a n (i + 1) sheet

/-- The line above the rows. -/
def showRuler (a : Nat) (alignment : BitVec 32) (sheet : Sheet) : Option Sheet := do
  let sheet ← sheet.add a .ruler " %*s      \xc2\xb4h1" [.int 16, .str []]
  let sheet ← showColumns a alignment.toNat 0 sheet
  (sheet.add a .ruler "`h1\n" []).map fun sheet => sheet.skip 1

/-- A line without anything. -/
def blankLine (a : Nat) (sheet : Sheet) : Option Sheet :=
  (sheet.add a .blank "\n" []).map fun sheet => sheet.skip 1

/-- The rows of a segment. -/
def showRows (junk : Char) (a : Nat) (mem : Segment) (addr : BitVec 64) (content old : CStr)
    (sheet : Sheet) : Option Sheet := do
  let displ := align addr mem.alignment
  let sheet ← showAddr a displ sheet
  let (j, sheet) ← fill a (gap displ addr) 0 sheet
  let (addr, j, sheet) ← showBytes junk a mem content old mem.length.toNat 0 addr j sheet
  let (j, sheet) ←
    fill a (if align addr mem.alignment ≠ addr then
      gap addr (align (addr + mem.alignment.zeroExtend 64) mem.alignment) else 0) j sheet
  let sheet ← flush junk a j sheet
  if j ≠ 0 then blankLine a sheet else return sheet

/-- A segment, with its content and the one before. -/
def showSegment (junk : Char) (a : Nat) (mem : Segment) (addr : BitVec 64) (content old : CStr)
    (sheet : Sheet) : Option Sheet := do
  let sheet ← showHeader a mem addr sheet
  if mem.expanded then
    let sheet ← showRuler a mem.alignment sheet
    showRows junk a mem addr content old sheet
  else blankLine a sheet

/-- `content` and `content_old` of a segment. -/
structure Contents where
  content : Option CStr := none
  old : Option CStr := none

/-- `gdb_memory_t::update` -/
def Contents.update (c : Contents) (content : CStr) : Contents := ⟨some content, c.content⟩

/-- A content in memory. -/
def stored (content : Option CStr) : CStr := content.getD [] ++ ['\x00']

/-- The loop over the segments, with the replies to `data-read-memory-bytes`, and whether it comes to
its end. -/
def showSegments (junk : Char) (replies : Nat → Option CStr) : Nat → List (Nat × Segment) →
    (Nat → Contents) → Sheet → Option ((Nat → Contents) × Sheet × Bool)
  | _, [], contents, sheet => some (contents, sheet, true)
  | i, (a, mem) :: mems, contents, sheet =>
      match mem.begin with
      | none => none
      | some begin =>
          match replies i with
          | none => some (contents, sheet, false)
          | some content => do
              let c := (contents a).update content
              let sheet ←
                showSegment junk a mem (strtollHex begin) (stored c.content) (stored c.old) sheet
              showSegments junk replies (i + 1) mems (Function.update contents a c) sheet

/-! ## The functions -/

/-- The static variables, with the contents of the segments and the buffer for the characters. -/
structure State extends Memory.State where
  contents : Nat → Contents := fun _ => {}
  asciib : Dest

/-- `cmd_memory_update`, and the text it prints to its window. -/
def updateText (junk : Char) (window : Bool) (replies : Nat → Option CStr) :
    Program State Unit (Option Sheet) := do
  if window then
    let s ← get
    match showSegments junk replies 0 s.memLst s.contents { asciib := s.asciib } with
    | none => undefined
    | some (contents, sheet, ok) =>
        modify fun s => { s with contents, asciib := sheet.asciib, lineMems := sheet.lines }
        if ok then return some sheet else throw ()
  else return none

/-- The update is called, and it does not matter how it ends. -/
def refresh (junk : Char) (window : Bool) (replies : Nat → Option CStr) :
    Program State Unit (Option Sheet) :=
  tryCatch (updateText junk window replies) fun _ => return none

/-- The alignment: a number that passes `PWR2`, or 8. -/
def alignmentOf (pwr2 : BitVec 32 → Bool) (argv4 : Option (BitVec 32)) : BitVec 32 :=
  match argv4 with
  | none => 8
  | some n => if pwr2 n then n else 8

/-- The buffer is made larger if the alignment asks for it. -/
def enlarge (junk : Char) (alignment : BitVec 32) (dst : Dest) : Dest :=
  if dst.max < alignment * 2 + 1 then
    ⟨List.replicate (alignment * 2 + 1).toNat junk, alignment * 2 + 1⟩
  else dst

/-- The commands up to the update, with the reply to `data-read-memory-bytes` and the number in
`argv[4]`, if there is one, for `add`. -/
inductive Edit
  | add (mem : Option Gdb.Memory) (argv4 : Option (BitVec 32))
  | delete (argv2 : CStr)
  | fold (argv2 : CStr)
  | view

/-- A segment is added, if it can be read. -/
def append (junk : Char) (pwr2 : BitVec 32 → Bool) (mem : Option Gdb.Memory)
    (argv4 : Option (BitVec 32)) : Program State Unit Bool := do
  match mem with
  | none => return false
  | some mem =>
      let alignment := alignmentOf pwr2 argv4
      modify fun s => { s with
        memLst := s.memLst ++ [(s.next, ⟨mem.begin, mem.length, alignment, true⟩)]
        next := s.next + 1
        contents := Function.update s.contents s.next ⟨mem.content, none⟩
        asciib := if argv4.isSome then enlarge junk alignment s.asciib else s.asciib }
      return true

/-- The list changes for the segment at a line, if there is one. -/
def editAt (argv2 : CStr) (f : Nat → List (Nat × Segment) → List (Nat × Segment)) :
    Program State Unit Bool := do
  let s ← get
  match s.lineMems.find (atoi argv2) with
  | none => return false
  | some a =>
      if s.memLst.lookup a = none then undefined
      else
        modify fun s => { s with memLst := f a s.memLst }
        return true

/-- What an edit does, and whether the update follows. -/
def Edit.call (junk : Char) (pwr2 : BitVec 32 → Bool) : Edit → Program State Unit Bool
  | add mem argv4 => append junk pwr2 mem argv4
  | delete argv2 => editAt argv2 fun a mems => mems.filter fun e => e.1 ≠ a
  | fold argv2 => editAt argv2 fun a mems => mems.map (toggle a)
  | view => return true

/-- `cmd_memory_exec`, and the text that is printed. -/
def command (junk : Char) (pwr2 : BitVec 32 → Bool) (e : Edit) (window : Bool)
    (replies : Nat → Option CStr) : Program State Unit (Option Sheet) := do
  let changed ← e.call junk pwr2
  if changed then refresh junk window replies else return none

/-! ## Without the text -/

variable {junk : Char} {a j j' n : Nat} {sheet sheet' : Sheet} {part : Part} {fmt : String}
  {args : List Arg} {mem : Segment} {addr addr' : BitVec 64} {content old : CStr}

/-- The next line, and the line map. -/
def Sheet.shown (sheet : Sheet) : BitVec 32 × LineMap Nat := (sheet.line, sheet.lines)

theorem shown_add (h : sheet.add a part fmt args = some sheet') : sheet'.shown = sheet.shown := by
  obtain ⟨obuf, -, rfl⟩ := Option.map_eq_some_iff.mp h
  rfl

theorem shown_store {c : Char} (h : sheet.store j c = some sheet') : sheet'.shown = sheet.shown := by
  obtain ⟨mem, -, rfl⟩ := Option.map_eq_some_iff.mp h
  rfl

theorem shown_fill (h : fill a n j sheet = some (j', sheet')) :
    j' = j + n ∧ sheet'.shown = sheet.shown := by
  induction n generalizing j sheet with
  | zero =>
      cases h
      exact ⟨rfl, rfl⟩
  | succ n ih =>
      unfold fill at h
      simp only [Option.bind_eq_bind, Option.bind_eq_some_iff] at h
      obtain ⟨sheet₁, hadd, sheet₂, hstore, hrest⟩ := h
      obtain ⟨rfl, hshown⟩ := ih hrest
      rw [hshown, shown_store hstore, shown_add hadd]
      exact ⟨by omega, rfl⟩

theorem shown_flush (h : flush junk a j sheet = some sheet') :
    sheet'.shown = (sheet.line + 1, sheet.lines) := by
  unfold flush at h
  simp only [Option.bind_eq_bind, Option.bind_eq_some_iff] at h
  obtain ⟨sheet₁, hstore, row, -, asciib, -, s, -, sheet₂, hadd, heq⟩ := h
  cases heq
  obtain ⟨hline, hlines⟩ := Prod.mk.inj (shown_store hstore)
  obtain ⟨hline', hlines'⟩ := Prod.mk.inj (shown_add hadd)
  show (sheet₂.line + 1, sheet₂.lines) = _
  rw [hline', hlines', hline, hlines]

theorem shown_showByte {i : BitVec 32} (h : showByte a content old i j sheet = some sheet') :
    sheet'.shown = sheet.shown := by
  unfold showByte at h
  simp only [Option.bind_eq_bind, Option.bind_eq_some_iff] at h
  obtain ⟨modified, -, sheet₁, hadd, hi, -, lo, -, hstore⟩ := h
  rw [shown_store hstore, shown_add hadd]

theorem shown_endRow {more : Bool} (h : endRow junk a more addr j sheet = some sheet') :
    sheet'.shown = (sheet.line + 1, sheet.lines) := by
  unfold endRow at h
  obtain ⟨sheet₁, hflush, h⟩ := Option.bind_eq_some_iff.mp h
  rw [← shown_flush hflush]
  cases more with
  | true => exact shown_add h
  | false =>
      cases h
      rfl

/-- The lines are counted from any number on. -/
theorem dumpBytes_lines (alignment : BitVec 32) (n : Nat) (addr : BitVec 64) (j : Nat)
    (lines : BitVec 32) : dumpBytes alignment n addr j lines =
      ((dumpBytes alignment n addr j 0).1, (dumpBytes alignment n addr j 0).2.1,
        lines + (dumpBytes alignment n addr j 0).2.2) := by
  induction n generalizing addr j lines with
  | zero =>
      show (addr, j, lines) = (addr, j, lines + 0#32)
      rw [BitVec.add_zero]
  | succ n ih =>
      unfold dumpBytes
      split
      · rw [ih _ _ (lines + 1), ih _ _ (0 + 1), BitVec.add_assoc]
        rfl
      · exact ih _ _ _

theorem shown_showBytes {i : BitVec 32}
    (h : showBytes junk a mem content old n i addr j sheet = some (addr', j', sheet')) :
    sheet'.lines = sheet.lines ∧
      dumpBytes mem.alignment n addr j sheet.line = (addr', j', sheet'.line) := by
  induction n generalizing i addr j sheet with
  | zero =>
      cases h
      exact ⟨rfl, rfl⟩
  | succ n ih =>
      unfold showBytes at h
      simp only [Option.bind_eq_bind, Option.bind_eq_some_iff] at h
      obtain ⟨sheet₁, hbyte, h⟩ := h
      obtain ⟨hline, hlines⟩ := Prod.mk.inj (shown_showByte hbyte)
      unfold dumpBytes
      split at h
      · next hboundary =>
        obtain ⟨sheet₂, hend, hrest⟩ := Option.bind_eq_some_iff.mp h
        obtain ⟨hline', hlines'⟩ := Prod.mk.inj (shown_endRow hend)
        obtain ⟨hsame, hdump⟩ := ih hrest
        rw [if_pos hboundary, hsame, hlines', hlines, ← hdump, hline', hline]
        exact ⟨rfl, rfl⟩
      · next hboundary =>
        obtain ⟨hsame, hdump⟩ := ih h
        rw [if_neg hboundary, hsame, hlines, ← hdump, hline]
        exact ⟨rfl, rfl⟩

theorem shown_showHeader (h : showHeader a mem addr sheet = some sheet') :
    sheet'.shown = (sheet.line + 1, sheet.lines.add sheet.line a) := by
  unfold showHeader at h
  obtain ⟨sheet₁, hadd, heq⟩ := Option.bind_eq_some_iff.mp h
  cases heq
  obtain ⟨hline, hlines⟩ := Prod.mk.inj (shown_add hadd)
  show (sheet₁.line + 1, sheet₁.lines.add sheet₁.line a) = _
  rw [hline, hlines]

theorem shown_showColumns {i : BitVec 32} (h : showColumns a n i sheet = some sheet') :
    sheet'.shown = sheet.shown := by
  induction n generalizing i sheet with
  | zero =>
      cases h
      rfl
  | succ n ih =>
      unfold showColumns at h
      obtain ⟨sheet₁, hadd, hrest⟩ := Option.bind_eq_some_iff.mp h
      rw [ih hrest, shown_add hadd]

/-- A text that is added, and a line that is ended. -/
theorem shown_add_skip (h : (sheet.add a part fmt args).map (fun sheet => sheet.skip 1) =
    some sheet') : sheet'.shown = (sheet.line + 1, sheet.lines) := by
  obtain ⟨sheet₁, hadd, rfl⟩ := Option.map_eq_some_iff.mp h
  obtain ⟨hline, hlines⟩ := Prod.mk.inj (shown_add hadd)
  show (sheet₁.line + 1, sheet₁.lines) = _
  rw [hline, hlines]

theorem shown_showRuler {alignment : BitVec 32} (h : showRuler a alignment sheet = some sheet') :
    sheet'.shown = (sheet.line + 1, sheet.lines) := by
  unfold showRuler at h
  simp only [Option.bind_eq_bind, Option.bind_eq_some_iff] at h
  obtain ⟨sheet₁, hadd, sheet₂, hcolumns, h⟩ := h
  obtain ⟨hline, hlines⟩ := Prod.mk.inj ((shown_showColumns hcolumns).trans (shown_add hadd))
  rw [shown_add_skip h, hline, hlines]

/-- The lines of the rows, and the one behind them. -/
def rowLines (mem : Segment) (addr : BitVec 64) : BitVec 32 :=
  let d := dumpBytes mem.alignment mem.length.toNat addr (gap (align addr mem.alignment) addr) 0
  let j := if align d.1 mem.alignment ≠ d.1 then
      d.2.1 + gap d.1 (align (d.1 + mem.alignment.zeroExtend 64) mem.alignment)
    else d.2.1
  d.2.2 + if j ≠ 0 then 2 else 1

theorem shown_showRows (h : showRows junk a mem addr content old sheet = some sheet') :
    sheet'.shown = (sheet.line + rowLines mem addr, sheet.lines) := by
  unfold showRows at h
  simp only [Option.bind_eq_bind, Option.bind_eq_some_iff] at h
  obtain ⟨sheet₁, haddr, ⟨j₁, sheet₂⟩, hfill, ⟨addr₂, j₂, sheet₃⟩, hbytes, ⟨j₃, sheet₄⟩, hpad, sheet₅,
    hflush, h⟩ := h
  obtain ⟨rfl, hshown⟩ := shown_fill hfill
  obtain ⟨hline, hlines⟩ := Prod.mk.inj (hshown.trans (shown_add haddr))
  obtain ⟨hlines', hdump⟩ := shown_showBytes hbytes
  rw [dumpBytes_lines, Nat.zero_add] at hdump
  obtain ⟨haddr₂, hdump⟩ := Prod.mk.inj hdump
  obtain ⟨hj₂, hline'⟩ := Prod.mk.inj hdump
  obtain ⟨rfl, hshown⟩ := shown_fill hpad
  obtain ⟨hline₄, hlines₄⟩ := Prod.mk.inj hshown
  have hbehind := shown_flush hflush
  have hj : (j₂ + if align addr₂ mem.alignment ≠ addr₂ then
      gap addr₂ (align (addr₂ + mem.alignment.zeroExtend 64) mem.alignment) else 0) =
      if align addr₂ mem.alignment ≠ addr₂ then
        j₂ + gap addr₂ (align (addr₂ + mem.alignment.zeroExtend 64) mem.alignment)
      else j₂ := by
    split <;> rfl
  dsimp only at h
  unfold rowLines
  dsimp only
  rw [haddr₂, hj₂, ← hj]
  generalize (j₂ + if align addr₂ mem.alignment ≠ addr₂ then
    gap addr₂ (align (addr₂ + mem.alignment.zeroExtend 64) mem.alignment) else 0) = j₃ at h ⊢
  split at h
  · next hne =>
    obtain ⟨hline₅, hlines₅⟩ := Prod.mk.inj hbehind
    rw [if_pos hne, shown_add_skip h, hline₅, hlines₅, hline₄, hlines₄, ← hline', hlines', hlines, hline,
      BitVec.add_assoc, BitVec.add_assoc]
    rfl
  · next hzero =>
    cases h
    rw [if_neg hzero, hbehind, hline₄, hlines₄, ← hline', hlines', hlines, hline, BitVec.add_assoc]

/-- A segment is entered in the line map, and its lines are counted. -/
theorem shown_showSegment (h : showSegment junk a mem addr content old sheet = some sheet') :
    sheet'.shown = (sheet.line + mem.lines addr, sheet.lines.add sheet.line a) := by
  unfold showSegment at h
  obtain ⟨sheet₁, hheader, h⟩ := Option.bind_eq_some_iff.mp h
  obtain ⟨hline, hlines⟩ := Prod.mk.inj (shown_showHeader hheader)
  unfold Segment.lines
  split at h
  · next hexpanded =>
    obtain ⟨sheet₂, hruler, hrows⟩ := Option.bind_eq_some_iff.mp h
    obtain ⟨hline₂, hlines₂⟩ := Prod.mk.inj (shown_showRuler hruler)
    rw [if_pos hexpanded, shown_showRows hrows, hline₂, hlines₂, hline, hlines]
    refine congrArg (·, _) ?_
    show sheet.line + 1 + 1 + rowLines mem addr = sheet.line + (2 + _ + _)
    rw [BitVec.add_assoc 2, BitVec.add_assoc sheet.line, BitVec.add_assoc sheet.line]
    rfl
  · next hfolded =>
    rw [if_neg hfolded, shown_add_skip h, hline, hlines, BitVec.add_assoc]
    rfl

/-- Without the text, the loop is the one that makes the line map. -/
theorem refines_showSegments {replies : Nat → Option CStr} {i : Nat} {mems : List (Nat × Segment)}
    {contents contents' : Nat → Contents} {ok : Bool}
    (h : showSegments junk replies i mems contents sheet = some (contents', sheet', ok)) :
    Memory.showSegments (fun k => (replies k).isSome) i mems sheet.line sheet.lines =
      some (sheet'.lines, ok) := by
  induction mems generalizing i contents sheet with
  | nil =>
      cases h
      rfl
  | cons e mems ih =>
      obtain ⟨a, mem⟩ := e
      unfold showSegments at h
      unfold Memory.showSegments
      cases hbegin : mem.begin with
      | none =>
          rw [hbegin] at h
          cases h
      | some begin =>
          rw [hbegin] at h
          cases hreply : replies i with
          | none =>
              rw [hreply] at h
              cases h
              rfl
          | some content =>
              rw [hreply] at h
              obtain ⟨sheet₁, hsegment, hrest⟩ := Option.bind_eq_some_iff.mp h
              obtain ⟨hline, hlines⟩ := Prod.mk.inj (shown_showSegment hsegment)
              have hshow := ih hrest
              rw [hline, hlines] at hshow
              exact hshow

/-- The program does to the list and the line map what the other one does. -/
def Forgets (p : Program State Unit (Option Sheet)) (q : Mems Unit) : Prop :=
  ∀ s r t, exec p s = some (r, t) → exec q s.toState = some (r.map fun _ => (), t.toState)

variable {window : Bool} {replies : Nat → Option CStr}

/-- Without the text it is the update of the line map. -/
theorem forgets_updateText : Forgets (updateText junk window replies)
    (update window fun k => (replies k).isSome) := by
  intro s r t h
  unfold updateText at h
  unfold update
  cases window with
  | false =>
      cases h
      rfl
  | true =>
      rw [if_pos rfl] at h ⊢
      rw [exec_get_bind] at h ⊢
      cases hshow : showSegments junk replies 0 s.memLst s.contents { asciib := s.asciib } with
      | none =>
          rw [hshow] at h
          cases h
      | some shown =>
          obtain ⟨contents, sheet, ok⟩ := shown
          rw [hshow] at h
          have hlines := refines_showSegments hshow
          dsimp only at hlines
          rw [hlines]
          cases ok <;> cases h <;> rfl

theorem forgets_refresh : Forgets (refresh junk window replies)
    (attempt (update window fun k => (replies k).isSome)) := by
  intro s r t h
  unfold refresh at h
  unfold attempt
  rw [exec_tryCatch] at h ⊢
  obtain ⟨⟨r₀, t₀⟩, hupdate, h⟩ := Option.bind_eq_some_iff.mp h
  rw [forgets_updateText s r₀ t₀ hupdate, Option.bind_some]
  cases r₀ with
  | ok sheet =>
      cases h
      rfl
  | error e =>
      cases h
      rfl

/-- What the commands do without the text. -/
def Edit.forget (pwr2 : BitVec 32 → Bool) (window : Bool) (replies : Nat → Bool) : Edit → Mems Unit
  | add mem argv4 => Memory.add mem (alignmentOf pwr2 argv4) window replies
  | delete argv2 => Memory.delete argv2 window replies
  | fold argv2 => Memory.fold argv2 window replies
  | view => attempt (Memory.update window replies)

/-- The list changes, and the update follows. -/
theorem exec_editAt {argv2 : CStr} {f : Nat → List (Nat × Segment) → List (Nat × Segment)} (s : State) :
    exec (editAt argv2 f) s =
      match s.lineMems.find (atoi argv2) with
      | none => some (.ok false, s)
      | some a =>
          if s.memLst.lookup a = none then none
          else some (.ok true, { s with memLst := f a s.memLst }) := by
  unfold editAt
  rw [exec_get_bind]
  cases s.lineMems.find (atoi argv2) with
  | none => rfl
  | some a =>
      dsimp only
      split <;> rfl

theorem forgets_editAt {argv2 : CStr} {f : Nat → List (Nat × Segment) → List (Nat × Segment)} :
    Forgets (do
        let changed ← editAt argv2 f
        if changed then refresh junk window replies else return none) (do
      match (← get).lineMems.find (atoi argv2) with
      | none => pure ()
      | some a =>
          let _ ← deref a
          modify fun s => { s with memLst := f a s.memLst }
          attempt (update window fun k => (replies k).isSome)) := by
  intro s r t h
  rw [exec_bind, exec_editAt] at h
  rw [exec_get_bind]
  cases hfind : s.lineMems.find (atoi argv2) with
  | none =>
      rw [hfind] at h
      cases h
      rfl
  | some a =>
      rw [hfind] at h
      dsimp only at h ⊢
      unfold deref
      rw [exec_bind, exec_get_bind]
      cases hlookup : s.memLst.lookup a with
      | none =>
          rw [if_pos hlookup] at h
          cases h
      | some mem =>
          rw [if_neg (by rw [hlookup]; exact Option.some_ne_none mem)] at h
          exact forgets_refresh { s with memLst := f a s.memLst } r t h

/-- Without the text, the commands are those on the list and the line map. -/
theorem forgets_command (pwr2 : BitVec 32 → Bool) (e : Edit) :
    Forgets (command junk pwr2 e window replies)
      (e.forget pwr2 window fun k => (replies k).isSome) := by
  cases e with
  | add m argv4 =>
      intro s r t h
      cases m with
      | none =>
          cases h
          rfl
      | some m => exact forgets_refresh _ r t h
  | delete argv2 => exact forgets_editAt
  | fold argv2 => exact forgets_editAt
  | view => exact forgets_refresh

/-! ## The buffer for the characters -/

/-- The number of characters that have been printed. -/
def Sheet.chars (sheet : Sheet) : Nat := sheet.obuf.data.length

/-- `n` more characters at least have been printed, and the buffer has not become smaller. -/
structure Extends (n : Nat) (sheet sheet' : Sheet) : Prop where
  recorded : sheet.asciib.Recorded → sheet'.asciib.Recorded
  max : sheet.asciib.max ≤ sheet'.asciib.max
  chars : sheet.chars + n ≤ sheet'.chars

theorem extends_refl (sheet : Sheet) : Extends 0 sheet sheet :=
  ⟨id, BitVec.le_refl _, Nat.le_refl _⟩

theorem Extends.trans {m : Nat} {sheet'' : Sheet} (h : Extends m sheet sheet')
    (h' : Extends n sheet' sheet'') : Extends (m + n) sheet sheet'' where
  recorded := fun hr => h'.recorded (h.recorded hr)
  max := BitVec.le_trans h.max h'.max
  chars := by
    have := h.chars
    have := h'.chars
    omega

theorem Extends.mono {m : Nat} (h : Extends n sheet sheet') (hle : m ≤ n) : Extends m sheet sheet' where
  recorded := h.recorded
  max := h.max
  chars := by
    have := h.chars
    omega

theorem extends_add (h : sheet.add a part fmt args = some sheet') :
    ∃ t, vsnprintf fmt.toList args = some t ∧ Extends t.length sheet sheet' := by
  obtain ⟨obuf, hadd, rfl⟩ := Option.map_eq_some_iff.mp h
  obtain ⟨t, ht, hpieces⟩ := Dynarray.pieces_of_add hadd
  refine ⟨t, ht, id, BitVec.le_refl _, ?_⟩
  unfold Sheet.chars Dynarray.data
  dsimp only
  rw [hpieces, text_append, List.length_append, text_singleton]

theorem Sheet.chars_lt (sheet : Sheet) : sheet.chars < 2 ^ 31 := sheet.obuf.short

theorem extends_store {c : Char} (h : sheet.store j c = some sheet') : Extends 0 sheet sheet' := by
  obtain ⟨mem, hmem, rfl⟩ := Option.map_eq_some_iff.mp h
  refine ⟨fun hr => ?_, BitVec.le_refl _, Nat.le_refl _⟩
  unfold write at hmem
  split at hmem
  · cases hmem
    exact List.length_set.trans hr
  · cases hmem

theorem extends_fill (h : fill a n j sheet = some (j', sheet')) : Extends (2 * n) sheet sheet' := by
  induction n generalizing j sheet with
  | zero =>
      cases h
      exact extends_refl _
  | succ n ih =>
      unfold fill at h
      simp only [Option.bind_eq_bind, Option.bind_eq_some_iff] at h
      obtain ⟨sheet₁, hadd, sheet₂, hstore, hrest⟩ := h
      obtain ⟨t, ht, hext⟩ := extends_add hadd
      obtain rfl : t = "??".toList := (Option.some.inj ht).symm
      exact ((hext.trans (extends_store hstore)).trans (ih hrest)).mono (by
        show 2 * (n + 1) ≤ 2 + 0 + 2 * n
        omega)

/-- At least as many characters as the width says. -/
theorem width_le_fill (spec : Spec) (sign body : CStr) (number : Bool) :
    spec.width.getD 0 ≤ (spec.fill sign body number).length := by
  unfold Spec.fill
  dsimp only
  split_ifs <;> simp only [List.length_append, List.length_replicate] <;> omega

/-- The two digits of a byte, with a mark. -/
theorem vsnprintf_byte (p d q : CStr) : vsnprintf "%s%2.2s%s".toList [.str p, .str d, .str q] =
    some (scanned p ++ Spec.fill { width := some 2, precision := some 2, started := true } []
      ((scanned d).take 2) false ++ scanned q) := by
  have hconv : Spec.convert { width := some 2, precision := some 2, started := true } 's' (.str d) =
      some (Spec.fill { width := some 2, precision := some 2, started := true } []
        ((scanned d).take 2) false) := rfl
  unfold vsnprintf
  rw [scanned_of_notMem (by decide)]
  simp [scan, convert_string, Spec.modify, Spec.addDigit, hconv]

theorem extends_showByte {i : BitVec 32} (h : showByte a content old i j sheet = some sheet') :
    Extends 2 sheet sheet' := by
  unfold showByte at h
  simp only [Option.bind_eq_bind, Option.bind_eq_some_iff] at h
  obtain ⟨modified, -, sheet₁, hadd, hi, -, lo, -, hstore⟩ := h
  obtain ⟨t, ht, hext⟩ := extends_add hadd
  rw [vsnprintf_byte, Option.some_inj] at ht
  refine (hext.trans (extends_store hstore)).mono ?_
  have hwidth := width_le_fill { width := some 2, precision := some 2, started := true } []
    ((scanned (content.drop (i * 2).toNat)).take 2) false
  rw [← ht, List.length_append, List.length_append]
  have hwidth' : 2 ≤ (Spec.fill { width := some 2, precision := some 2, started := true } []
    ((scanned (content.drop (i * 2).toNat)).take 2) false).length := hwidth
  omega

/-- A text ends where a 0 has been written, or in front of it. -/
theorem length_of_text {mem t : CStr} {i : Nat} (h : Buffers.text '\x00' (mem.set i '\x00') = some t)
    (hi : i < mem.length) : t.length ≤ i := by
  rw [List.set_eq_take_append_cons_drop, if_pos hi, Buffers.text_append, Option.some_inj] at h
  rw [← h]
  exact Nat.le_trans (List.takeWhile_sublist _).length_le (List.length_take_le i mem)

/-- The buffer does not become smaller while each of its `j` characters has two in the text. -/
theorem extends_flush (hroom : 2 * j ≤ sheet.chars) (h : flush junk a j sheet = some sheet') :
    Extends 0 sheet sheet' := by
  unfold flush at h
  simp only [Option.bind_eq_bind, Option.bind_eq_some_iff] at h
  obtain ⟨sheet₁, hstore, row, hrow, asciib, hescape, s, hs, sheet₂, hadd, heq⟩ := h
  cases heq
  have hkept := extends_store hstore
  obtain ⟨mem, hmem, rfl⟩ := Option.map_eq_some_iff.mp hstore
  obtain ⟨row', shown, rest, hcopy, hprefix, -, hmax, hrecorded⟩ := eq_of_strescape hescape
  obtain rfl : row = row' := Option.some.inj (hrow.symm.trans hcopy)
  have hlength : row.length ≤ j := by
    unfold write at hmem
    split at hmem
    · next hlt =>
      cases hmem
      exact length_of_text hrow hlt
    · cases hmem
  obtain ⟨t, ht, hext⟩ := extends_add hadd
  have hchars := sheet₂.chars_lt
  have hroom' := hext.chars
  refine ⟨fun hr => hext.recorded (hrecorded (hkept.recorded hr)), BitVec.le_trans ?_ hext.max, ?_⟩
  · -- the sum of the sizes does not wrap
    have hlen : (BitVec.ofNat 32 (row.length * 2 + 1)).toNat = row.length * 2 + 1 := by
      rw [BitVec.toNat_ofNat]
      have : sheet.chars + t.length ≤ sheet₂.chars := hroom'
      omega
    dsimp only at hmax ⊢
    rw [hmax]
    unfold Dest.grow
    split
    · next hlt =>
      rw [BitVec.lt_def, hlen] at hlt
      have : sheet.chars + t.length ≤ sheet₂.chars := hroom'
      rw [BitVec.le_def, BitVec.toNat_add, hlen, Nat.mod_eq_of_lt (by dsimp only at hlt ⊢; omega)]
      exact Nat.le_add_right _ _
    · exact BitVec.le_refl _
  · exact Nat.le_trans (Nat.le_add_right _ _) hroom'

theorem extends_showAddr (h : showAddr a addr sheet = some sheet') : Extends 0 sheet sheet' := by
  obtain ⟨t, -, hext⟩ := extends_add h
  exact hext.mono (Nat.zero_le _)

theorem extends_endRow {more : Bool} (hroom : 2 * j ≤ sheet.chars)
    (h : endRow junk a more addr j sheet = some sheet') : Extends 0 sheet sheet' := by
  unfold endRow at h
  obtain ⟨sheet₁, hflush, h⟩ := Option.bind_eq_some_iff.mp h
  have hext := extends_flush hroom hflush
  cases more with
  | true => exact hext.trans (extends_showAddr h)
  | false =>
      cases h
      exact hext

/-- Each byte has two characters in the text, and so has each character in the buffer. -/
theorem extends_showBytes {i : BitVec 32} (hroom : 2 * j ≤ sheet.chars)
    (h : showBytes junk a mem content old n i addr j sheet = some (addr', j', sheet')) :
    Extends (2 * n) sheet sheet' ∧ 2 * j' ≤ sheet'.chars := by
  induction n generalizing i addr j sheet with
  | zero =>
      cases h
      exact ⟨extends_refl _, hroom⟩
  | succ n ih =>
      unfold showBytes at h
      simp only [Option.bind_eq_bind, Option.bind_eq_some_iff] at h
      obtain ⟨sheet₁, hbyte, h⟩ := h
      have hext := extends_showByte hbyte
      have hroom' : 2 * (j + 1) ≤ sheet₁.chars := by
        have := hext.chars
        omega
      split at h
      · obtain ⟨sheet₂, hend, hrest⟩ := Option.bind_eq_some_iff.mp h
        obtain ⟨hrest, hroom''⟩ := ih (Nat.zero_le _) hrest
        exact ⟨((hext.trans (extends_endRow hroom' hend)).trans hrest).mono (by omega), hroom''⟩
      · obtain ⟨hrest, hroom''⟩ := ih hroom' h
        exact ⟨(hext.trans hrest).mono (by omega), hroom''⟩

theorem extends_showHeader (h : showHeader a mem addr sheet = some sheet') :
    Extends 0 sheet sheet' := by
  unfold showHeader at h
  obtain ⟨sheet₁, hadd, heq⟩ := Option.bind_eq_some_iff.mp h
  cases heq
  obtain ⟨t, -, hext⟩ := extends_add hadd
  exact { hext.mono (Nat.zero_le _) with }

/-- The number of a column. -/
theorem vsnprintf_column (i : BitVec 32) : vsnprintf "%2x".toList [.int i] =
    some (Spec.hex { width := some 2, started := true } i.toNat) := by
  have hconv : Spec.convert { width := some 2, started := true } 'x' (.int i) =
      some (Spec.hex { width := some 2, started := true } i.toNat) := rfl
  unfold vsnprintf
  rw [scanned_of_notMem (by decide)]
  simp [scan, Spec.modify, Spec.addDigit, hconv]

theorem extends_showColumns {i : BitVec 32} (h : showColumns a n i sheet = some sheet') :
    Extends (2 * n) sheet sheet' := by
  induction n generalizing i sheet with
  | zero =>
      cases h
      exact extends_refl _
  | succ n ih =>
      unfold showColumns at h
      obtain ⟨sheet₁, hadd, hrest⟩ := Option.bind_eq_some_iff.mp h
      obtain ⟨t, ht, hext⟩ := extends_add hadd
      have hwidth : 2 ≤ (Spec.hex { width := some 2, started := true } i.toNat).length :=
        width_le_fill { width := some 2, started := true } _ _ true
      rw [vsnprintf_column, Option.some_inj] at ht
      rw [ht] at hwidth
      exact (hext.trans (ih hrest)).mono (by omega)

theorem extends_showRuler {alignment : BitVec 32} (h : showRuler a alignment sheet = some sheet') :
    Extends (2 * alignment.toNat) sheet sheet' := by
  unfold showRuler at h
  simp only [Option.bind_eq_bind, Option.bind_eq_some_iff] at h
  obtain ⟨sheet₁, hadd, sheet₂, hcolumns, h⟩ := h
  obtain ⟨sheet₃, hend, rfl⟩ := Option.map_eq_some_iff.mp h
  obtain ⟨t, -, hext⟩ := extends_add hadd
  obtain ⟨t', -, hext'⟩ := extends_add hend
  exact { ((hext.trans (extends_showColumns hcolumns)).trans hext').mono (by omega) with }

theorem extends_blankLine (h : blankLine a sheet = some sheet') : Extends 0 sheet sheet' := by
  obtain ⟨sheet₁, hadd, rfl⟩ := Option.map_eq_some_iff.mp h
  obtain ⟨t, -, hext⟩ := extends_add hadd
  exact { hext.mono (Nat.zero_le _) with }

theorem extends_showRows (h : showRows junk a mem addr content old sheet = some sheet') :
    Extends (2 * mem.length.toNat) sheet sheet' := by
  unfold showRows at h
  simp only [Option.bind_eq_bind, Option.bind_eq_some_iff] at h
  obtain ⟨sheet₁, haddr, ⟨j₁, sheet₂⟩, hfill, ⟨addr₂, j₂, sheet₃⟩, hbytes, ⟨j₃, sheet₄⟩, hpad, sheet₅,
    hflush, h⟩ := h
  dsimp only at hfill hbytes hpad hflush h
  have h₁ := extends_showAddr haddr
  have h₂ := extends_fill hfill
  obtain ⟨hj₁, -⟩ := shown_fill hfill
  have hroom₂ : 2 * j₁ ≤ sheet₂.chars := by
    have := h₂.chars
    omega
  obtain ⟨h₃, hroom₃⟩ := extends_showBytes hroom₂ hbytes
  have h₄ := extends_fill hpad
  obtain ⟨hj₃, -⟩ := shown_fill hpad
  have hroom₄ : 2 * j₃ ≤ sheet₄.chars := by
    have := h₄.chars
    omega
  have hall := (((h₁.trans h₂).trans h₃).trans h₄).trans (extends_flush hroom₄ hflush)
  split at h
  · exact (hall.trans (extends_blankLine h)).mono (by omega)
  · cases h
    exact hall.mono (by omega)

/-- The columns and the bytes of a segment have their characters in the text. -/
theorem extends_showSegment (h : showSegment junk a mem addr content old sheet = some sheet') :
    Extends (if mem.expanded then 2 * mem.alignment.toNat + 2 * mem.length.toNat else 0)
      sheet sheet' := by
  unfold showSegment at h
  obtain ⟨sheet₁, hheader, h⟩ := Option.bind_eq_some_iff.mp h
  have hext := extends_showHeader hheader
  split at h
  · next hexpanded =>
    obtain ⟨sheet₂, hruler, hrows⟩ := Option.bind_eq_some_iff.mp h
    rw [if_pos hexpanded]
    exact ((hext.trans (extends_showRuler hruler)).trans (extends_showRows hrows)).mono (by omega)
  · next hfolded =>
    rw [if_neg hfolded]
    exact hext.trans (extends_blankLine h)

theorem extends_showSegments {i : Nat} {mems : List (Nat × Segment)} {contents contents' : Nat → Contents}
    {ok : Bool} (h : showSegments junk replies i mems contents sheet = some (contents', sheet', ok)) :
    Extends 0 sheet sheet' := by
  induction mems generalizing i contents sheet with
  | nil =>
      cases h
      exact extends_refl _
  | cons e mems ih =>
      obtain ⟨a, mem⟩ := e
      unfold showSegments at h
      split at h
      · cases h
      · split at h
        · cases h
          exact extends_refl _
        · obtain ⟨sheet₁, hsegment, hrest⟩ := Option.bind_eq_some_iff.mp h
          exact ((extends_showSegment hsegment).trans (ih hrest)).mono (Nat.zero_le _)

/-- The buffer is as large as the default alignment and those of the segments ask for. -/
structure Sized (s : State) : Prop where
  recorded : s.asciib.Recorded
  default : 17 ≤ s.asciib.max
  alignments : ∀ e ∈ s.memLst, e.2.alignment * 2 + 1 ≤ s.asciib.max

theorem Sized.congr {s t : State} (h : Sized s) (hrecorded : s.asciib.Recorded → t.asciib.Recorded)
    (hmax : s.asciib.max ≤ t.asciib.max)
    (hmem : ∀ e ∈ t.memLst, ∃ e' ∈ s.memLst, e.2.alignment = e'.2.alignment) : Sized t where
  recorded := hrecorded h.recorded
  default := BitVec.le_trans h.default hmax
  alignments e he := by
    obtain ⟨e', he', heq⟩ := hmem e he
    rw [heq]
    exact BitVec.le_trans (h.alignments e' he') hmax

theorem keeps_updateText (junk : Char) (window : Bool) (replies : Nat → Option CStr) :
    Keeps Sized (updateText junk window replies) := by
  intro s h
  unfold updateText
  cases window with
  | false => exact post_pure.mpr h
  | true =>
      rw [if_pos rfl, post_bind, post_get]
      split
      · exact post_undefined
      · next contents sheet ok hshow =>
        have hext := extends_showSegments hshow
        have hsized : Sized { s with contents, asciib := sheet.asciib, lineMems := sheet.lines } :=
          h.congr hext.recorded hext.max fun e he => ⟨e, he, rfl⟩
        rw [post_bind, post_modify]
        split
        · exact post_pure.mpr hsized
        · exact post_throw.mpr hsized

theorem recorded_enlarge {dst : Dest} (h : dst.Recorded) (alignment : BitVec 32) :
    (enlarge junk alignment dst).Recorded := by
  unfold enlarge
  split
  · exact List.length_replicate
  · exact h

theorem le_enlarge (junk : Char) (alignment : BitVec 32) (dst : Dest) :
    dst.max ≤ (enlarge junk alignment dst).max ∧
      alignment * 2 + 1 ≤ (enlarge junk alignment dst).max := by
  unfold enlarge
  split
  · next hlt => exact ⟨BitVec.le_of_lt hlt, BitVec.le_refl _⟩
  · next hle => exact ⟨BitVec.le_refl _, BitVec.not_lt.mp hle⟩

theorem keeps_append (pwr2 : BitVec 32 → Bool) (m : Option Gdb.Memory) (argv4 : Option (BitVec 32)) :
    Keeps Sized (append junk pwr2 m argv4) := by
  intro s h
  unfold append
  cases m with
  | none => exact post_pure.mpr h
  | some m =>
      dsimp only
      rw [post_bind, post_modify, post_pure]
      cases argv4 with
      | none =>
          refine ⟨h.recorded, h.default, fun e he => ?_⟩
          rcases List.mem_append.mp he with he | he
          · exact h.alignments e he
          · obtain rfl := List.mem_singleton.mp he
            exact h.default
      | some v =>
          obtain ⟨hmax, hown⟩ :=
            le_enlarge junk (alignmentOf pwr2 (some v)) s.asciib
          refine ⟨recorded_enlarge h.recorded _, BitVec.le_trans h.default hmax, fun e he => ?_⟩
          rcases List.mem_append.mp he with he | he
          · exact BitVec.le_trans (h.alignments e he) hmax
          · obtain rfl := List.mem_singleton.mp he
            exact hown

/-- The list may become shorter, and its segments may be folded. -/
theorem keeps_editAt {argv2 : CStr} {f : Nat → List (Nat × Segment) → List (Nat × Segment)}
    (hf : ∀ a mems, ∀ e ∈ f a mems, ∃ e' ∈ mems, e.2.alignment = e'.2.alignment) :
    Keeps Sized (editAt argv2 f) := by
  intro s h r hr
  rw [exec_editAt] at hr
  split at hr
  · cases hr
    exact h
  · split at hr
    · cases hr
    · cases hr
      exact h.congr id (BitVec.le_refl _) (hf _ _)

theorem alignment_toggle (a : Nat) (e : Nat × Segment) : (toggle a e).2.alignment = e.2.alignment := by
  unfold toggle
  dsimp only
  split <;> rfl

theorem keeps_call (pwr2 : BitVec 32 → Bool) (e : Edit) : Keeps Sized (e.call junk pwr2) := by
  cases e with
  | add m argv4 => exact keeps_append pwr2 m argv4
  | delete argv2 =>
      exact keeps_editAt fun a mems e he => ⟨e, List.mem_of_mem_filter he, rfl⟩
  | fold argv2 =>
      refine keeps_editAt fun a mems e he => ?_
      obtain ⟨e', he', rfl⟩ := List.mem_map.mp he
      exact ⟨e', he', alignment_toggle a e'⟩
  | view => exact keeps_pure true

/-! ## Runs -/

/-- The variables before the first command; `junk` is what new memory contains. -/
def init (junk : Char) : State := { asciib := ⟨List.replicate 17 junk, 17⟩ }

/-- What happens: a command up to its update, or an update. -/
inductive Event
  | edit (e : Edit)
  | update (window : Bool) (replies : Nat → Option CStr)

/-- It comes to its end. -/
def Step (junk : Char) (pwr2 : BitVec 32 → Bool) (s : State) (ev : Event) (t : State) : Prop :=
  match ev with
  | .edit e => ∃ r, exec (e.call junk pwr2) s = some (r, t)
  | .update window replies => ∃ r, exec (updateText junk window replies) s = some (r, t)

theorem sized_init (junk : Char) : Sized (init junk) where
  recorded := List.length_replicate
  default := BitVec.le_refl _
  alignments := nofun

theorem sized_step {pwr2 : BitVec 32 → Bool} {s t : State} {ev : Event} (h : Sized s)
    (hstep : Step junk pwr2 s ev t) : Sized t := by
  cases ev with
  | edit e =>
      obtain ⟨r, hexec⟩ := hstep
      exact (keeps_call pwr2 e s h).holds hexec
  | update window replies =>
      obtain ⟨r, hexec⟩ := hstep
      exact (keeps_updateText junk window replies s h).holds hexec

/-- The buffer is large enough behind every run. -/
theorem sized_run {pwr2 : BitVec 32 → Bool} {evs : List Event} {s : State}
    (h : Runs.Run (Step junk pwr2) (init junk) evs s) : Sized s :=
  h.invariant (sized_init junk) fun _ _ _ => sized_step

/-- A command is its edit, and the update if it follows. -/
theorem run_command {pwr2 : BitVec 32 → Bool} {e : Edit} {r : Except Unit (Option Sheet)} {s t : State}
    (h : exec (command junk pwr2 e window replies) s = some (r, t)) :
    ∃ evs, Runs.Run (Step junk pwr2) s evs t := by
  unfold command at h
  rw [exec_bind] at h
  obtain ⟨⟨r₀, u⟩, hedit, h⟩ := Option.bind_eq_some_iff.mp h
  have hrun : Runs.Run (Step junk pwr2) s [.edit e] u := Runs.Run.nil.snoc ⟨_, hedit⟩
  cases r₀ with
  | error err =>
      cases h
      exact ⟨_, hrun⟩
  | ok changed =>
      cases changed with
      | false =>
          cases h
          exact ⟨_, hrun⟩
      | true =>
          dsimp only at h
          rw [if_pos rfl, refresh, exec_tryCatch] at h
          obtain ⟨⟨r₁, t₁⟩, hupdate, h⟩ := Option.bind_eq_some_iff.mp h
          have hrun' : Runs.Run (Step junk pwr2) s [.edit e, .update window replies] t₁ :=
            hrun.snoc ⟨_, hupdate⟩
          cases r₁ with
          | ok sheet =>
              cases h
              exact ⟨_, hrun'⟩
          | error err =>
              cases h
              exact ⟨_, hrun'⟩

end Vimgdb.Memory.View
