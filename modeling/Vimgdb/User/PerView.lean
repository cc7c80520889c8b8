import Vimgdb.Common.Dynarray
import Vimgdb.Gdb.MemoryObject
import Vimgdb.Lib.Buffer
import Vimgdb.User.Per
import Vimgdb.User.PerSet

/-!
# The text of the peripherals

`cmd_per_update` with the text it makes and the memory it works on, over the model that makes the line
maps alone.

* `Row`, `Sheet`: what a piece of the text shows, and what has been printed.
* `Shifts`: what shifts by the width of a number or more come to.
* `showBits`, `showRegister`, `showSection`, `showRanges`: the loops.
* `updateText`: the function.
* `refines_updateText`: without the text and the memory it is the update of the line maps.
-/

namespace Vimgdb.Per.View

open Buffers Printf Programs
open Gdb (MemoryObject)

/-! ## The sheet -/

/-- A pointer to some bits of a register. -/
structure BitsPtr where
  reg : RegisterPtr
  bits : Nat
  deriving DecidableEq

/-- What a piece of the text shows. -/
inductive Row
  | sec (p : SectionPtr)
  | heading (p : RegisterPtr)
  | register (p : RegisterPtr)
  | bits (p : BitsPtr)
  deriving DecidableEq

/-- What has been printed, with its text, and the values of bits that have been shown last. -/
structure Sheet extends Shown where
  obuf : Dynarray Row := .empty
  values : BitsPtr → BitVec 64

/-- `obuf.add` -/
def Sheet.add (sheet : Sheet) (shows : Option Row) (fmt : String) (args : List Arg) :
    Option Sheet :=
  (sheet.obuf.add shows fmt.toList args).map fun obuf => { sheet with obuf }

/-- Lines have been ended. -/
def Sheet.skip (sheet : Sheet) (n : BitVec 32) : Sheet := { sheet with line := sheet.line + n }

/-- A section is entered in the line map, on a line of its own. -/
def Sheet.addSec (sheet : Sheet) (p : SectionPtr) : Sheet :=
  { sheet with secs := sheet.secs.add sheet.line p, line := sheet.line + 1 }

/-- A register is entered in the line map. -/
def Sheet.addReg (sheet : Sheet) (p : RegisterPtr) : Sheet :=
  { sheet with regs := sheet.regs.add sheet.line p }

/-! ## Bits -/

/-- What shifts by the width of a number or more come to, which the language leaves open. -/
structure Shifts where
  left : BitVec 32 → BitVec 32 → BitVec 32
  right : BitVec 64 → BitVec 32 → BitVec 64

/-- `<<`, on an `int` or an `unsigned int` -/
def Shifts.shl (sh : Shifts) (x n : BitVec 32) : BitVec 32 :=
  if n < 32 then x <<< n.toNat else sh.left x n

/-- `>>`, on an `unsigned long` -/
def Shifts.shr (sh : Shifts) (x : BitVec 64) (n : BitVec 32) : BitVec 64 :=
  if n < 64 then x >>> n.toNat else sh.right x n

/-- The loop of `per_bits_t::per_bits_t`. -/
def Shifts.mask (sh : Shifts) (nbits : BitVec 32) : BitVec 32 :=
  (List.range nbits.toNat).foldl (fun mask i => mask ||| sh.shl 1 (BitVec.ofNat 32 i)) 0

/-- `bit_val` -/
def Shifts.bitVal (sh : Shifts) (regVal : BitVec 64) (bits : Bits) : BitVec 64 :=
  sh.shr (regVal &&& (sh.shl (sh.mask bits.nbits) bits.idx).zeroExtend 64) bits.idx

/-- Behind four bits a line ends. -/
def breakLine (i : Nat) (sheet : Sheet) : Option Sheet :=
  if i ≠ 0 ∧ i % 4 = 0 then (sheet.add none "\n" []).map fun sheet => sheet.skip 1 else some sheet

/-- The loop over the bits of a register, four to a line. -/
def showBits (sh : Shifts) (p : RegisterPtr) (regVal : BitVec 64) :
    Nat → List Bits → Sheet → Option Sheet
  | _, [], sheet => some sheet
  | i, bits :: rest, sheet => do
      let sheet ← breakLine i sheet
      let bitVal := sh.bitVal regVal bits
      let modified := bitVal ≠ sheet.values ⟨p, i⟩
      let sheet := { sheet with values := Function.update sheet.values ⟨p, i⟩ bitVal }
      let sheet ← sheet.add (some (.bits ⟨p, i⟩)) "   \xc2\xb4h3%s`h3 %s%.*lx%s"
        [.str bits.name, .str (changed modified).1, .int ((bits.nbits + 3) / 4), .long bitVal,
          .str (changed modified).2]
      showBits sh p regVal (i + 1) rest sheet

/-! ## Registers -/

/-- `memcmp`, and whether there is a difference; both buffers have to be that long. -/
def memcmp (s t : CStr) (start len : Nat) : Option Bool :=
  if start + len ≤ s.length ∧ start + len ≤ t.length then
    some ((s.drop start).take len ≠ (t.drop start).take len)
  else none

/-- What `%.*s` reads ends with the precision, or at a 0. -/
def readable (precision : BitVec 32) (s : CStr) : Bool :=
  '\x00' ∈ s || (0 ≤ precision.toInt && precision.toInt ≤ s.length)

/-- What stands between a name and a description. -/
def dash (desc : Option CStr) : CStr :=
  if scanned (desc.getD []) = [] then [] else " - ".toList

/-- `strtoll` on the digits of a register, behind which a 0 is put for as long. -/
def regVal (s : CStr) (start stop : Nat) : Option (BitVec 64 × CStr) := do
  let c ← read s stop
  let s ← write s stop '\x00'
  let digits ← text '\x00' (s.drop start)
  let s ← write s stop c
  return (strtollHex digits, s)

/-- The bits of a register, if there are any. -/
def showFields (sh : Shifts) (p : RegisterPtr) (reg : Register) (s : CStr) (sheet : Sheet) :
    Option (CStr × Sheet) :=
  if reg.bits = [] then some (s, sheet)
  else do
    let (val, s) ← regVal s (reg.offset * 2).toNat (reg.offset * 2 + reg.nbytes * 2).toNat
    let sheet ← showBits sh p val 0 reg.bits sheet
    let sheet ← sheet.add none "\n\n" []
    return (s, sheet.skip 2)

/-- A headline, or an empty line. -/
def showHeading (p : RegisterPtr) (reg : Register) (sheet : Sheet) : Option Sheet :=
  (sheet.add (some (.heading p)) " \xc2\xb4h1%s%s%s`h1\n"
    [.str (reg.name.getD []), .str (dash reg.desc), .str (reg.desc.getD [])]).map fun sheet =>
      sheet.skip 1

/-- The name and the value of a register, which is read from `s`. -/
def showValue (p : RegisterPtr) (reg : Register) (modified : Bool) (s : CStr) (sheet : Sheet) :
    Option Sheet :=
  let value := s.drop (reg.offset * 2).toNat
  if readable (reg.nbytes * 2) value then
    (sheet.add (some (.register p)) "  \xc2\xb4h2%s%s%s`h2 = %s%.*s%s\n"
      [.str (orNull reg.name), .str (dash reg.desc), .str (reg.desc.getD []),
        .str (changed modified).1, .int (reg.nbytes * 2), .str value,
        .str (changed modified).2]).map fun sheet => sheet.skip 1
  else none

/-- The bytes of a register are swapped, if they have to be. -/
def swapBytes (endian : Endian) (reg : Register) (s : CStr) : Option CStr :=
  if byteSwapCond reg.opt endian then swapAt s (reg.offset * 2).toNat (reg.nbytes * 2)
  else some s

/-- A register or a headline.  `s` is the content of the memory with its 0, which is worked on, and
`old` that of the update before. -/
def showRegister (sh : Shifts) (endian : Endian) (p : RegisterPtr) (reg : Register) (old s : CStr)
    (sheet : Sheet) : Option (CStr × Sheet) :=
  let sheet := sheet.addReg p
  if reg.nbytes = 0 then (showHeading p reg sheet).map fun sheet => (s, sheet)
  else do
    let modified ← memcmp s old (reg.offset * 2).toNat (reg.nbytes * 2).toNat
    let s ← swapBytes endian reg s
    let sheet ← showValue p reg modified s sheet
    let (s, sheet) ← showFields sh p reg s sheet
    let s ← swapBytes endian reg s
    return (s, sheet)

/-! ## Sections and ranges -/

/-- The loop over the registers of a section. -/
def showRegisters (sh : Shifts) (endian : Endian) (p : SectionPtr) (old : CStr) :
    Nat → List Register → CStr → Sheet → Option (CStr × Sheet)
  | _, [], s, sheet => some (s, sheet)
  | k, reg :: regs, s, sheet => do
      let (s, sheet) ← showRegister sh endian ⟨p, k⟩ reg old s sheet
      showRegisters sh endian p old (k + 1) regs s sheet

/-- The header of a section. -/
def showHeader (p : SectionPtr) (sec : Section) (sheet : Sheet) : Option Sheet :=
  (sheet.add (some (.sec p)) "[%c] \xc2\xb4h0%s`h0\n"
    [.chr (if sec.expanded then '-' else '+'), .str sec.name]).map fun sheet => sheet.addSec p

/-- A section: its header, and its registers if it is expanded. -/
def showSection (sh : Shifts) (endian : Endian) (p : SectionPtr) (sec : Section) (old s : CStr)
    (sheet : Sheet) : Option (CStr × Sheet) := do
  let sheet ← showHeader p sec sheet
  let (s, sheet) ←
    showRegisters sh endian p old 0 (if sec.expanded then sec.regs else []) s sheet
  let sheet ← sheet.add none "\n" []
  return (s, sheet.skip 1)

/-- The loop over the sections of a range. -/
def showSections (sh : Shifts) (endian : Endian) (load i : Nat) (old : CStr) :
    Nat → List Section → CStr → Sheet → Option (CStr × Sheet)
  | _, [], s, sheet => some (s, sheet)
  | j, sec :: secs, s, sheet => do
      let (s, sheet) ← showSection sh endian ⟨load, i, j⟩ sec old s sheet
      showSections sh endian load i old (j + 1) secs s sheet

/-- The loop over the ranges, each with its memory, and whether it comes to its end. -/
def showRanges (sh : Shifts) (endian : Endian) (load : Nat) (replies : Nat → Option CStr) :
    Nat → List Range → List MemoryObject → Sheet → Option (List MemoryObject × Sheet × Bool)
  | _, [], mems, sheet => some (mems, sheet, true)
  | _, _ :: _, [], _ => none
  | i, range :: ranges, mem :: mems, sheet =>
      match replies i with
      | none => some (mem :: mems, sheet, false)
      | some content => do
          let mem := mem.update (some { content := some content })
          let (s, sheet) ← showSections sh endian load i (mem.contentOld.getD [] ++ ['\x00']) 0
            range.sections (content ++ ['\x00']) sheet
          let content ← text '\x00' s
          let (mems, sheet, ok) ← showRanges sh endian load replies (i + 1) ranges mems sheet
          return ({ mem with content := some content } :: mems, sheet, ok)

/-- The static variables, with the memory of the ranges and the values of bits. -/
structure State extends Per.State where
  mems : List MemoryObject := []
  values : BitsPtr → BitVec 64 := fun _ => 0

/-- `cmd_per_update`, and the text it prints to its window. -/
def updateText (sh : Shifts) (window : Bool) (replies : Nat → Option CStr) :
    Program State Unit (Option Sheet) := do
  if window then
    let s ← get
    match showRanges sh s.props.endian s.load replies 0 s.rangeLst s.mems { values := s.values } with
    | none => undefined
    | some (mems, sheet, ok) =>
        modify fun s => { s with
          mems, values := sheet.values, lineSecs := sheet.secs, lineRegs := sheet.regs }
        if ok then return some sheet else throw ()
  else return none

/-! ## Without the text -/

variable {sh : Shifts} {endian : Endian} {old s s' : CStr} {sheet sheet' : Sheet} {load i : Nat}
  {replies : Nat → Option CStr} {p : RegisterPtr} {reg : Register}

/-- Lines have been ended. -/
def skipLines (shown : Shown) (n : BitVec 32) : Shown := { shown with line := shown.line + n }

theorem Sheet.toShown_skip (n : BitVec 32) : (sheet.skip n).toShown = skipLines sheet.toShown n := rfl

theorem skipLines_zero (shown : Shown) : skipLines shown 0 = shown := by
  unfold skipLines
  rw [show (0 : BitVec 32) = 0#32 from rfl, BitVec.add_zero]

theorem skipLines_skipLines (shown : Shown) (m n : BitVec 32) : skipLines (skipLines shown m) n = skipLines shown (m + n) := by
  unfold skipLines
  dsimp only
  rw [BitVec.add_assoc]

/-- A text that is added changes nothing else. -/
theorem Sheet.toShown_add {shows : Option Row} {fmt : String} {args : List Arg}
    (h : sheet.add shows fmt args = some sheet') : sheet'.toShown = sheet.toShown := by
  obtain ⟨obuf, -, rfl⟩ := Option.map_eq_some_iff.mp h
  rfl

/-- A text that is added, and lines that are ended. -/
theorem Sheet.toShown_add_skip {shows : Option Row} {fmt : String} {args : List Arg} {n : BitVec 32}
    (h : (sheet.add shows fmt args).map (fun sheet => sheet.skip n) = some sheet') :
    sheet'.toShown = skipLines sheet.toShown n := by
  obtain ⟨sheet₁, hadd, rfl⟩ := Option.map_eq_some_iff.mp h
  rw [Sheet.toShown_skip, Sheet.toShown_add hadd]

/-- The lines that are ended in front of some bits, from the one at `i` on. -/
def breaksIn (i n : Nat) : Nat := (i + n - 1) / 4 - (i - 1) / 4

theorem breaksIn_succ (i n : Nat) :
    breaksIn i (n + 1) = (if i ≠ 0 ∧ i % 4 = 0 then 1 else 0) + breaksIn (i + 1) n := by
  unfold breaksIn
  split <;> omega

theorem toShown_breakLine (h : breakLine i sheet = some sheet') : sheet'.toShown =
    skipLines sheet.toShown (BitVec.ofNat 32 (if i ≠ 0 ∧ i % 4 = 0 then 1 else 0)) := by
  unfold breakLine at h
  split at h
  · next hi =>
    rw [if_pos hi]
    exact Sheet.toShown_add_skip h
  · next hi =>
    cases h
    rw [if_neg hi]
    exact (skipLines_zero _).symm

theorem toShown_showBits {val : BitVec 64} {bits : List Bits}
    (h : showBits sh p val i bits sheet = some sheet') :
    sheet'.toShown = skipLines sheet.toShown (BitVec.ofNat 32 (breaksIn i bits.length)) := by
  induction bits generalizing i sheet with
  | nil =>
      cases h
      have hzero : breaksIn i 0 = 0 := by
        unfold breaksIn
        omega
      rw [List.length_nil, hzero]
      exact (skipLines_zero _).symm
  | cons b bits ih =>
      unfold showBits at h
      simp only [Option.bind_eq_bind, Option.bind_eq_some_iff] at h
      obtain ⟨sheet₁, hbreak, sheet₂, hadd, hrest⟩ := h
      have hsame := Sheet.toShown_add hadd
      rw [ih hrest, hsame, toShown_breakLine hbreak, skipLines_skipLines, List.length_cons, breaksIn_succ,
        BitVec.ofNat_add]

theorem toShown_showFields (h : showFields sh p reg s sheet = some (s', sheet')) :
    sheet'.toShown = skipLines sheet.toShown
      (if reg.bits = [] then 0 else BitVec.ofNat 32 ((reg.bits.length - 1) / 4) + 2) := by
  unfold showFields at h
  split at h
  · next hnil =>
    cases h
    rw [if_pos hnil]
    exact (skipLines_zero _).symm
  · next hbits =>
    simp only [Option.bind_eq_bind, Option.bind_eq_some_iff] at h
    obtain ⟨⟨val, s₁⟩, -, sheet₁, hshow, sheet₂, hadd, heq⟩ := h
    cases heq
    have hbreaks : breaksIn 0 reg.bits.length = (reg.bits.length - 1) / 4 := by
      unfold breaksIn
      omega
    rw [if_neg hbits, Sheet.toShown_skip, Sheet.toShown_add hadd, toShown_showBits hshow, skipLines_skipLines,
      hbreaks]

/-- A register is entered, and its lines are ended. -/
theorem toShown_showRegister (h : showRegister sh endian p reg old s sheet = some (s', sheet')) :
    sheet'.toShown = skipLines (sheet.addReg p).toShown reg.lines := by
  unfold showRegister at h
  dsimp only at h
  unfold Register.lines
  split at h
  · next hzero =>
    obtain ⟨sheet₁, hheading, heq⟩ := Option.map_eq_some_iff.mp h
    cases heq
    rw [if_pos (Or.inl hzero)]
    exact Sheet.toShown_add_skip hheading
  · next hzero =>
    simp only [Option.bind_eq_bind, Option.bind_eq_some_iff] at h
    obtain ⟨modified, -, s₁, -, sheet₁, hvalue, ⟨s₂, sheet₂⟩, hfields, s₃, -, heq⟩ := h
    cases heq
    unfold showValue at hvalue
    dsimp only at hvalue
    split at hvalue
    · rw [toShown_showFields hfields, Sheet.toShown_add_skip hvalue, skipLines_skipLines]
      by_cases hbits : reg.bits = []
      · rw [if_pos hbits, if_pos (Or.inr hbits)]
        rfl
      · rw [if_neg hbits, if_neg fun h => h.elim hzero hbits, BitVec.add_assoc]
    · cases hvalue

theorem toShown_showRegisters {q : SectionPtr} {k : Nat} {regs : List Register}
    (h : showRegisters sh endian q old k regs s sheet = some (s', sheet')) :
    sheet'.toShown = Per.showRegisters q k regs sheet.toShown := by
  induction regs generalizing k s sheet with
  | nil =>
      cases h
      rfl
  | cons reg regs ih =>
      unfold showRegisters at h
      rw [Option.bind_eq_bind, Option.bind_eq_some_iff] at h
      obtain ⟨⟨s₁, sheet₁⟩, hreg, hrest⟩ := h
      rw [ih hrest, toShown_showRegister hreg]
      rfl

theorem toShown_showSection {q : SectionPtr} {sec : Section}
    (h : showSection sh endian q sec old s sheet = some (s', sheet')) :
    sheet'.toShown = Per.showSection q sec sheet.toShown := by
  unfold showSection at h
  simp only [Option.bind_eq_bind, Option.bind_eq_some_iff] at h
  obtain ⟨sheet₁, hheader, ⟨s₁, sheet₂⟩, hregs, sheet₃, hadd, heq⟩ := h
  cases heq
  obtain ⟨sheet₀, hname, rfl⟩ := Option.map_eq_some_iff.mp hheader
  have hsec : (sheet₀.addSec q).toShown = (sheet.addSec q).toShown := by
    unfold Sheet.addSec
    rw [Sheet.toShown_add hname]
  rw [Sheet.toShown_skip, Sheet.toShown_add hadd, toShown_showRegisters hregs, hsec]
  unfold Per.showSection
  dsimp only
  split <;> rfl

theorem toShown_showSections {j : Nat} {secs : List Section}
    (h : showSections sh endian load i old j secs s sheet = some (s', sheet')) :
    sheet'.toShown = Per.showSections load i j secs sheet.toShown := by
  induction secs generalizing j s sheet with
  | nil =>
      cases h
      rfl
  | cons sec secs ih =>
      unfold showSections at h
      rw [Option.bind_eq_bind, Option.bind_eq_some_iff] at h
      obtain ⟨⟨s₁, sheet₁⟩, hsec, hrest⟩ := h
      rw [ih hrest, toShown_showSection hsec]
      rfl

/-- Without the text, the loop is the one that makes the line maps. -/
theorem refines_showRanges {ranges : List Range} {mems mems' : List MemoryObject} {ok : Bool}
    (hmem : Initialised ranges)
    (h : showRanges sh endian load replies i ranges mems sheet = some (mems', sheet', ok)) :
    ∃ ranges', Per.showRanges load replies i ranges sheet.toShown =
      some (ranges', sheet'.toShown, ok) := by
  induction ranges generalizing i mems sheet mems' with
  | nil =>
      cases h
      exact ⟨[], rfl⟩
  | cons range ranges ih =>
      obtain ⟨mem, hsome⟩ := Option.ne_none_iff_exists'.mp (hmem range List.mem_cons_self)
      rw [Per.showRanges, hsome]
      cases mems with
      | nil => cases h
      | cons m mems =>
          unfold showRanges at h
          cases hreply : replies i with
          | none =>
              rw [hreply] at h
              cases h
              exact ⟨range :: ranges, rfl⟩
          | some content =>
              rw [hreply] at h
              simp only [Option.bind_eq_bind, Option.bind_eq_some_iff] at h
              obtain ⟨⟨s₁, sheet₁⟩, hsecs, content', -, ⟨mems₁, sheet₂, ok'⟩, hrest, heq⟩ := h
              cases heq
              obtain ⟨ranges', hshow⟩ := ih (fun r hr => hmem r (List.mem_cons_of_mem _ hr)) hrest
              rw [toShown_showSections hsecs] at hshow
              exact ⟨{ range with mem := some content } :: ranges', by
                dsimp only
                rw [hshow]
                rfl⟩

/-- Without the text and the memory it is the update of the line maps. -/
theorem refines_updateText {window : Bool} {s t : State} {r : Except Unit (Option Sheet)}
    (hmem : Initialised s.rangeLst) (h : exec (updateText sh window replies) s = some (r, t)) :
    ∃ u, exec (update window replies) s.toState = some (r.map fun _ => (), u) ∧
      u.lineSecs = t.lineSecs ∧ u.lineRegs = t.lineRegs := by
  unfold updateText at h
  unfold update
  cases window with
  | false =>
      cases h
      exact ⟨_, rfl, rfl, rfl⟩
  | true =>
      rw [if_pos rfl] at h ⊢
      rw [exec_get_bind] at h ⊢
      cases hshow : showRanges sh s.props.endian s.load replies 0 s.rangeLst s.mems
          { values := s.values } with
      | none =>
          rw [hshow] at h
          cases h
      | some shown =>
          obtain ⟨mems, sheet, ok⟩ := shown
          rw [hshow] at h
          obtain ⟨ranges', hranges⟩ := refines_showRanges hmem hshow
          rw [hranges]
          cases ok <;> cases h <;> exact ⟨_, rfl, rfl, rfl⟩

end Vimgdb.Per.View
