import Vimgdb.Common.LineMap
import Vimgdb.Lib.Program
import Vimgdb.User.PerFile

/-!
# The peripherals

The commands of `per.cc` and the update at a stop.  The replies of gdb are arguments; what comes of
reading a null pointer is undefined.

* `State`: the list of ranges and the line maps, whose pointers are places in the list.
* `update`, `load`, `set`, `fold`: what the functions do.
* `Initialised`: each range has its memory.
* `Inv`: the ranges have their memory, and what is in the line maps has not been deleted.
-/

namespace Vimgdb.Per

open Programs

/-! ## The state -/

/-- A pointer to a section: how often the list had been deleted when it was made, and its place. -/
structure SectionPtr where
  load : Nat
  range : Nat
  sec : Nat
  deriving DecidableEq

/-- A pointer to a register. -/
structure RegisterPtr where
  sec : SectionPtr
  reg : Nat
  deriving DecidableEq

/-- The static variables. -/
structure State where
  perFile : Option CStr := none
  rangeLst : List Range := []
  props : Props := {}
  lineSecs : LineMap SectionPtr := []
  lineRegs : LineMap RegisterPtr := []
  /-- How often the list has been deleted. -/
  load : Nat := 0

/-- What the functions do; the error is -1. -/
abbrev Pers := Program State Unit

/-- The section at a place. -/
def sectionAt (ranges : List Range) (p : SectionPtr) : Option Section :=
  (ranges[p.range]?).bind fun range => range.sections[p.sec]?

/-- The register at a place. -/
def registerAt (ranges : List Range) (p : RegisterPtr) : Option Register :=
  (sectionAt ranges p.sec).bind fun sec => sec.regs[p.reg]?

/-- What a pointer to a section leads to, if it has not been deleted. -/
def State.section (s : State) (p : SectionPtr) : Option Section :=
  if p.load = s.load then sectionAt s.rangeLst p else none

/-- What a pointer to a register leads to, if it has not been deleted. -/
def State.register (s : State) (p : RegisterPtr) : Option Register :=
  if p.sec.load = s.load then registerAt s.rangeLst p else none

/-! ## The update -/

/-- What has been shown: the next line, and the line maps. -/
structure Shown where
  line : BitVec 32 := 1
  secs : LineMap SectionPtr := []
  regs : LineMap RegisterPtr := []

/-- The lines of a register: its bits are shown four to a line. -/
def Register.lines (reg : Register) : BitVec 32 :=
  if reg.nbytes = 0 ∨ reg.bits = [] then 1 else 1 + BitVec.ofNat 32 ((reg.bits.length - 1) / 4) + 2

/-- The loop over the registers of a section. -/
def showRegisters (p : SectionPtr) : Nat → List Register → Shown → Shown
  | _, [], sh => sh
  | k, reg :: regs, sh => showRegisters p (k + 1) regs
      { sh with regs := sh.regs.add sh.line ⟨p, k⟩, line := sh.line + reg.lines }

/-- A section: its header, and its registers if it is expanded. -/
def showSection (p : SectionPtr) (sec : Section) (sh : Shown) : Shown :=
  let sh := { sh with secs := sh.secs.add sh.line p, line := sh.line + 1 }
  let sh := if sec.expanded then showRegisters p 0 sec.regs sh else sh
  { sh with line := sh.line + 1 }

/-- The loop over the sections of a range. -/
def showSections (load i : Nat) : Nat → List Section → Shown → Shown
  | _, [], sh => sh
  | j, sec :: secs, sh => showSections load i (j + 1) secs (showSection ⟨load, i, j⟩ sec sh)

/-- The loop over the ranges, with the replies to `data-read-memory-bytes`, and whether it comes to its
end. -/
def showRanges (load : Nat) (replies : Nat → Option CStr) :
    Nat → List Range → Shown → Option (List Range × Shown × Bool)
  | _, [], sh => some ([], sh, true)
  | i, range :: ranges, sh =>
      match range.mem, replies i with
      | none, _ => none
      | some _, none => some (range :: ranges, sh, false)
      | some _, some content => do
          let (ranges, sh, ok) ←
            showRanges load replies (i + 1) ranges (showSections load i 0 range.sections sh)
          return ({ range with mem := some content } :: ranges, sh, ok)

/-- `cmd_per_update` -/
def update (window : Bool) (replies : Nat → Option CStr) : Pers Unit := do
  if window then
    let s ← get
    match showRanges s.load replies 0 s.rangeLst {} with
    | none => undefined
    | some (ranges, sh, ok) =>
        set { s with rangeLst := ranges, lineSecs := sh.secs, lineRegs := sh.regs }
        if ok then pure () else throw ()
  else pure ()

/-! ## Loading -/

/-- `cmd_per_cleanup` -/
def cleanup : Pers Unit :=
  modify fun s => { s with
    perFile := none
    lineSecs := []
    lineRegs := []
    rangeLst := []
    load := s.load + 1 }

/-- The check of the bits of a register, with the sums in 32 bits. -/
def Bits.inside (bits : Bits) (nbytes : BitVec 32) : Bool :=
  !(nbytes * 8 < bits.idx + bits.nbits)

/-- The checks of a register; a headline is skipped. -/
def Register.fits (reg : Register) (size : BitVec 32) : Bool :=
  reg.nbytes == 0 || reg.inside size && reg.bits.all fun bits => bits.inside reg.nbytes

/-- The checks of a range. -/
def Range.fits (range : Range) : Bool :=
  range.sections.all fun sec => sec.regs.all fun reg => reg.fits range.size

/-- The names of the registers are deescaped. -/
def Range.deescape (range : Range) : Range :=
  { range with sections := range.sections.map fun sec =>
      { sec with regs := sec.regs.map fun reg => { reg with name := reg.name.map strdeescape } } }

/-- The loop over the ranges: their memory is read.  The message for memory that cannot be read shows
the name of `sec`, which no loop has set yet, or the last one has left as a null pointer. -/
def initRanges (acquired : Nat → Option CStr) : Nat → List Range → Option (List Range × Bool)
  | _, [] => some ([], true)
  | i, range :: ranges =>
      match acquired i with
      | none => none
      | some content =>
          let range := { range.deescape with mem := some content }
          if range.fits then do
            let (ranges, ok) ← initRanges acquired (i + 1) ranges
            return (range :: ranges, ok)
          else some (range :: ranges, false)

/-- `cmd_per_exec` for a file: its text, unless it cannot be opened, and the replies to the commands
that read memory. -/
def load (file : CStr) (text : Option CStr) (acquired : Nat → Option CStr) (window : Bool)
    (replies : Nat → Option CStr) : Pers Unit := do
  cleanup
  match text with
  | none => pure ()
  | some text =>
      let f := perparse text
      modify fun s => { s with rangeLst := f.ranges, props := f.props }
      if f.accepted then
        match initRanges acquired 0 f.ranges with
        | none => undefined
        | some (ranges, ok) =>
            modify fun s => { s with rangeLst := ranges }
            if ok then modify fun s => { s with perFile := some file } else cleanup
            attempt (update window replies)
      else pure ()

/-! ## The other commands -/

/-- `set`, up to the command to gdb: whether there is a register at the line.  The register knows its
range unless it is a headline. -/
def target (argv2 : CStr) : Pers Bool := do
  let s ← get
  match s.lineRegs.find (atoi argv2) with
  | none => return false
  | some p =>
      match s.register p with
      | none => undefined
      | some reg => if reg.nbytes = 0 then undefined else return true

/-- `set`: once gdb has `written` the value, the handlers of a stop are called, that of the peripherals
being one of them. -/
def set (argv2 : CStr) (written window : Bool) (replies : Nat → Option CStr) : Pers Unit := do
  let found ← target argv2
  if found && written then attempt (update window replies) else pure ()

/-- A section changes. -/
def modifySection (ranges : List Range) (p : SectionPtr) (f : Section → Section) : List Range :=
  ranges.modify p.range fun range => { range with sections := range.sections.modify p.sec f }

/-- `fold` -/
def fold (argv2 : CStr) (window : Bool) (replies : Nat → Option CStr) : Pers Unit := do
  let s ← get
  match s.lineSecs.find (atoi argv2) with
  | none => pure ()
  | some p =>
      match s.section p with
      | none => undefined
      | some _ =>
          modify fun s => { s with
            rangeLst := modifySection s.rangeLst p fun sec => { sec with expanded := !sec.expanded } }
          attempt (update window replies)

/-- The commands, and the update at a stop. -/
inductive Cmd
  | load (file : CStr) (text : Option CStr) (acquired : Nat → Option CStr) (window : Bool)
      (replies : Nat → Option CStr)
  | set (argv2 : CStr) (written window : Bool) (replies : Nat → Option CStr)
  | fold (argv2 : CStr) (window : Bool) (replies : Nat → Option CStr)
  | view (window : Bool) (replies : Nat → Option CStr)
  | stop (window : Bool) (replies : Nat → Option CStr)

/-- What a command does. -/
def Cmd.call : Cmd → Pers Unit
  | load file text acquired window replies => Per.load file text acquired window replies
  | set argv2 written window replies => Per.set argv2 written window replies
  | fold argv2 window replies => Per.fold argv2 window replies
  | view window replies => attempt (update window replies)
  | stop window replies => attempt (update window replies)

/-! ## What is shown -/

/-- Each range has its memory. -/
def Initialised (ranges : List Range) : Prop := ∀ range ∈ ranges, range.mem ≠ none

/-- The line maps lead to sections and registers of the ranges. -/
structure Shown.Within (all : List Range) (load : Nat) (sh : Shown) : Prop where
  secs : ∀ p ∈ sh.secs.objects, p.load = load ∧ sectionAt all p ≠ none
  regs : ∀ p ∈ sh.regs.objects, p.sec.load = load ∧ registerAt all p ≠ none

variable {all ranges : List Range} {n : Nat} {sh : Shown} {p : SectionPtr}

/-- A section of a range. -/
theorem sectionAt_eq {i j : Nat} {r : Range} {sec : Section} (hr : all[i]? = some r)
    (hsec : r.sections[j]? = some sec) : sectionAt all ⟨n, i, j⟩ = some sec := by
  unfold sectionAt
  rw [hr]
  exact hsec

/-- The first of what is left from a place on is at that place. -/
theorem getElem?_of_drop {α : Type} {l xs : List α} {x : α} {k : Nat} (h : l.drop k = x :: xs) :
    l[k]? = some x ∧ l.drop (k + 1) = xs := by
  constructor
  · rw [← List.head?_drop, h]
    rfl
  · rw [← List.tail_drop, h]
    rfl

theorem within_nil {line : BitVec 32} : Shown.Within all n ⟨line, [], []⟩ where
  secs _ hp := absurd hp List.not_mem_nil
  regs _ hp := absurd hp List.not_mem_nil

theorem Shown.Within.addSec (h : sh.Within all n) (hload : p.load = n)
    (hp : sectionAt all p ≠ none) (line : BitVec 32) :
    Shown.Within all n { sh with secs := sh.secs.add line p } where
  secs q hq := by
    rw [LineMap.objects_add, List.mem_append, List.mem_singleton] at hq
    rcases hq with hq | rfl
    · exact h.secs q hq
    · exact ⟨hload, hp⟩
  regs := h.regs

theorem Shown.Within.addReg {r : RegisterPtr} (h : sh.Within all n) (hload : r.sec.load = n)
    (hr : registerAt all r ≠ none) (line : BitVec 32) :
    Shown.Within all n { sh with regs := sh.regs.add line r } where
  secs := h.secs
  regs q hq := by
    rw [LineMap.objects_add, List.mem_append, List.mem_singleton] at hq
    rcases hq with hq | rfl
    · exact h.regs q hq
    · exact ⟨hload, hr⟩

/-- A line does not matter. -/
theorem Shown.Within.setLine (h : sh.Within all n) (line : BitVec 32) :
    Shown.Within all n { sh with line := line } := ⟨h.secs, h.regs⟩

theorem within_showRegisters {sec : Section} (hload : p.load = n) (hsec : sectionAt all p = some sec)
    {regs : List Register} {k : Nat} (hregs : sec.regs.drop k = regs) (h : sh.Within all n) :
    (showRegisters p k regs sh).Within all n := by
  induction regs generalizing k sh with
  | nil => exact h
  | cons reg regs ih =>
      obtain ⟨hreg, hrest⟩ := getElem?_of_drop hregs
      have hat : registerAt all ⟨p, k⟩ = some reg := by
        unfold registerAt
        rw [hsec]
        exact hreg
      exact ih hrest ((h.addReg hload (by rw [hat]; exact Option.some_ne_none _) _).setLine _)

theorem within_showSection {sec : Section} (hload : p.load = n) (hsec : sectionAt all p = some sec)
    (h : sh.Within all n) : (showSection p sec sh).Within all n := by
  have hhead := (h.addSec hload (by rw [hsec]; exact Option.some_ne_none _) sh.line).setLine
    (sh.line + 1)
  unfold showSection
  dsimp only
  split
  · exact (within_showRegisters hload hsec List.drop_zero hhead).setLine _
  · exact hhead.setLine _

theorem within_showSections {i j : Nat} {r : Range} (hr : all[i]? = some r) {secs : List Section}
    (hsecs : r.sections.drop j = secs) (h : sh.Within all n) :
    (showSections n i j secs sh).Within all n := by
  induction secs generalizing j sh with
  | nil => exact h
  | cons sec secs ih =>
      obtain ⟨hsec, hrest⟩ := getElem?_of_drop hsecs
      exact ih hrest (within_showSection rfl (sectionAt_eq hr hsec) h)

/-- What is shown: the ranges keep their sections, and the line maps lead to these. -/
theorem within_showRanges {replies : Nat → Option CStr} {i : Nat} {ranges' : List Range}
    {sh' : Shown} {ok : Bool} (hdrop : all.drop i = ranges) (h : sh.Within all n)
    (heq : showRanges n replies i ranges sh = some (ranges', sh', ok)) :
    ranges'.map Range.sections = ranges.map Range.sections ∧ sh'.Within all n := by
  induction ranges generalizing i sh ranges' with
  | nil =>
      cases heq
      exact ⟨rfl, h⟩
  | cons r rs ih =>
      obtain ⟨hr, hrest⟩ := getElem?_of_drop hdrop
      rw [showRanges] at heq
      split at heq
      · cases heq
      · cases heq
        exact ⟨rfl, h⟩
      · rw [Option.bind_eq_bind, Option.bind_eq_some_iff] at heq
        obtain ⟨⟨rs', sh'', ok'⟩, hshow, heq⟩ := heq
        cases heq
        obtain ⟨hsections, hwithin⟩ := ih hrest (within_showSections hr List.drop_zero h) hshow
        exact ⟨by rw [List.map_cons, List.map_cons, hsections], hwithin⟩

/-- The ranges with their memory are shown, and keep it. -/
theorem showRanges_eq_some {replies : Nat → Option CStr} {i : Nat} (hmem : Initialised ranges) :
    ∃ ranges' sh' ok, showRanges n replies i ranges sh = some (ranges', sh', ok) ∧
      Initialised ranges' := by
  induction ranges generalizing i sh with
  | nil => exact ⟨[], sh, true, rfl, hmem⟩
  | cons r rs ih =>
      obtain ⟨mem, hsome⟩ := Option.ne_none_iff_exists'.mp (hmem r List.mem_cons_self)
      rw [showRanges, hsome]
      cases replies i with
      | none => exact ⟨r :: rs, sh, false, rfl, hmem⟩
      | some content =>
          obtain ⟨rs', sh', ok, heq, hmem'⟩ :=
            @ih (showSections n i 0 r.sections sh) (i + 1)
              fun r' hr' => hmem r' (List.mem_cons_of_mem _ hr')
          refine ⟨{ r with mem := some content } :: rs', sh', ok, ?_, ?_⟩
          · dsimp only
            rw [heq]
            rfl
          · intro r' hr'
            rcases List.mem_cons.mp hr' with rfl | hr'
            · exact Option.some_ne_none _
            · exact hmem' r' hr'

/-! ## The invariant -/

/-- The line maps lead to what has not been deleted. -/
def Live (s : State) : Prop := Shown.Within s.rangeLst s.load ⟨0, s.lineSecs, s.lineRegs⟩

/-- The ranges have their memory, and the line maps lead to what has not been deleted. -/
structure Inv (s : State) : Prop where
  mem : Initialised s.rangeLst
  within : Live s

variable {s : State}

theorem sectionAt_congr (h : ranges.map Range.sections = all.map Range.sections) :
    sectionAt ranges = sectionAt all := by
  have hat : ∀ (l : List Range) (p : SectionPtr), sectionAt l p =
      ((l.map Range.sections)[p.range]?).bind fun secs => secs[p.sec]? := by
    intro l p
    unfold sectionAt
    rw [List.getElem?_map]
    cases l[p.range]? <;> rfl
  funext p
  rw [hat, hat, h]

theorem Shown.Within.congr (h : sh.Within all n)
    (hsec : ∀ p, sectionAt all p ≠ none → sectionAt ranges p ≠ none)
    (hreg : ∀ p, registerAt all p ≠ none → registerAt ranges p ≠ none) : sh.Within ranges n where
  secs p hp := ⟨(h.secs p hp).1, hsec p (h.secs p hp).2⟩
  regs p hp := ⟨(h.regs p hp).1, hreg p (h.regs p hp).2⟩

/-- The ranges and the line maps behind the loop over the ranges. -/
theorem live_showRanges {replies : Nat → Option CStr} {ranges' : List Range} {sh' : Shown} {ok : Bool}
    (heq : showRanges s.load replies 0 s.rangeLst {} = some (ranges', sh', ok)) :
    Live { s with rangeLst := ranges', lineSecs := sh'.secs, lineRegs := sh'.regs } := by
  obtain ⟨hsections, hwithin⟩ := within_showRanges rfl within_nil heq
  have hsec := sectionAt_congr hsections
  have hlive : Shown.Within s.rangeLst s.load ⟨0, sh'.secs, sh'.regs⟩ :=
    ⟨hwithin.secs, hwithin.regs⟩
  refine hlive.congr (fun p hp => ?_) fun p hp => ?_
  · rwa [hsec]
  · unfold registerAt
    rwa [hsec]

/-- The update comes to its end. -/
theorem Inv.returns_update (h : Inv s) (window : Bool) (replies : Nat → Option CStr) :
    Returns (attempt (update window replies)) (fun _ => Inv) s := by
  cases window with
  | false => exact (returns_pure.mpr h).attempt
  | true =>
      obtain ⟨ranges', sh', ok, heq, hmem⟩ := @showRanges_eq_some s.rangeLst s.load {} replies 0 h.mem
      have hinv : Inv { s with rangeLst := ranges', lineSecs := sh'.secs, lineRegs := sh'.regs } :=
        ⟨hmem, live_showRanges heq⟩
      refine ⟨(), _, ?_, hinv⟩
      unfold attempt update
      rw [exec_tryCatch, if_pos rfl, exec_get_bind]
      rw [heq]
      dsimp only
      cases ok <;> rfl

/-- However the update ends. -/
theorem keeps_update (window : Bool) (replies : Nat → Option CStr) :
    Keeps Live (update window replies) := by
  intro s h
  unfold update
  split
  · rw [post_bind, post_get]
    split
    · exact post_undefined
    · next ranges' sh' ok heq =>
      rw [post_bind, post_set]
      split
      · exact post_pure.mpr (live_showRanges heq)
      · exact post_throw.mpr (live_showRanges heq)
  · exact post_pure.mpr h

/-- Nothing is shown. -/
theorem live_nil (hsecs : s.lineSecs = []) (hregs : s.lineRegs = []) : Live s := by
  unfold Live
  rw [hsecs, hregs]
  exact within_nil

/-- A state without ranges. -/
theorem inv_nil (hranges : s.rangeLst = []) (hsecs : s.lineSecs = []) (hregs : s.lineRegs = []) :
    Inv s where
  mem := by
    rw [hranges]
    nofun
  within := live_nil hsecs hregs

theorem modifySection_getElem? {f : Section → Section} {i : Nat} :
    (modifySection all p f)[i]? = if p.range = i then
      all[i]?.map fun range => { range with sections := range.sections.modify p.sec f }
    else all[i]? := by
  unfold modifySection
  rw [List.getElem?_modify]
  split <;> simp_all

/-- A section that is folded stays where it is, with its registers. -/
theorem sectionAt_modifySection {f : Section → Section} (q : SectionPtr) :
    sectionAt (modifySection all p f) q =
      if p.range = q.range ∧ p.sec = q.sec then (sectionAt all q).map f else sectionAt all q := by
  unfold sectionAt
  rw [modifySection_getElem?]
  by_cases hrange : p.range = q.range
  · rw [if_pos hrange]
    cases all[q.range]? with
    | none => simp
    | some range =>
        dsimp only [Option.map_some, Option.bind_some]
        rw [List.getElem?_modify]
        by_cases hsec : p.sec = q.sec <;> simp [hrange, hsec]
  · rw [if_neg hrange, if_neg fun h => hrange h.1]

theorem Live.modifySection (h : Live s) (p : SectionPtr) :
    Live { s with rangeLst := modifySection s.rangeLst p fun sec =>
      { sec with expanded := !sec.expanded } } := by
  refine h.congr (fun q hq => ?_) fun q hq => ?_
  · dsimp only
    rw [sectionAt_modifySection]
    split
    · simpa using hq
    · exact hq
  · unfold registerAt at hq ⊢
    dsimp only
    rw [sectionAt_modifySection]
    split
    · rw [Option.bind_map]
      exact hq
    · exact hq

theorem Inv.modifySection (h : Inv s) (p : SectionPtr) :
    Inv { s with rangeLst := modifySection s.rangeLst p fun sec =>
      { sec with expanded := !sec.expanded } } where
  mem := by
    intro r hr
    obtain ⟨i, hi⟩ := List.mem_iff_getElem?.mp hr
    rw [modifySection_getElem?] at hi
    split at hi
    · obtain ⟨r₀, hr₀, rfl⟩ := Option.map_eq_some_iff.mp hi
      exact h.mem r₀ (List.mem_of_getElem? hr₀)
    · exact h.mem r (List.mem_of_getElem? hi)
  within := h.within.modifySection p

/-! ## Folding and setting -/

theorem returns_fold (h : Inv s) (argv2 : CStr) (window : Bool) (replies : Nat → Option CStr) :
    Returns (fold argv2 window replies) (fun _ => Inv) s := by
  unfold fold
  rw [returns_bind, returns_get]
  cases hfind : s.lineSecs.find (atoi argv2) with
  | none => exact returns_pure.mpr h
  | some p =>
      obtain ⟨hload, hsec⟩ := h.within.secs p (LineMap.mem_of_find hfind)
      obtain ⟨sec, hsec⟩ := Option.ne_none_iff_exists'.mp hsec
      have hpointer : s.section p = some sec := by
        unfold State.section
        rw [if_pos hload, hsec]
      dsimp only
      rw [hpointer]
      dsimp only
      rw [returns_bind, returns_modify]
      exact (h.modifySection p).returns_update window replies

/-- The command is a `set` of a headline, which has no range. -/
def SetsHeadline (s : State) : Cmd → Prop
  | .set argv2 _ _ _ => ∃ p reg, s.lineRegs.find (atoi argv2) = some p ∧ s.register p = some reg ∧
      reg.nbytes = 0
  | _ => False

theorem Inv.set (h : Inv s) (argv2 : CStr) (written window : Bool) (replies : Nat → Option CStr) :
    Returns (set argv2 written window replies) (fun _ => Inv) s ∨
      exec (Per.set argv2 written window replies) s = none ∧
        SetsHeadline s (.set argv2 written window replies) := by
  -- what comes of the line
  have htarget : (∃ found, exec (target argv2) s = some (.ok found, s)) ∨
      exec (target argv2) s = none ∧ SetsHeadline s (.set argv2 written window replies) := by
    unfold target SetsHeadline
    rw [exec_get_bind]
    dsimp only
    cases hfind : s.lineRegs.find (atoi argv2) with
    | none => exact Or.inl ⟨false, rfl⟩
    | some p =>
        obtain ⟨hload, hreg⟩ := h.within.regs p (LineMap.mem_of_find hfind)
        obtain ⟨reg, hreg⟩ := Option.ne_none_iff_exists'.mp hreg
        have hpointer : s.register p = some reg := by
          unfold State.register
          rw [if_pos hload, hreg]
        dsimp only
        rw [hpointer]
        dsimp only
        by_cases hheadline : reg.nbytes = 0
        · rw [if_pos hheadline]
          exact Or.inr ⟨rfl, p, reg, rfl, hpointer, hheadline⟩
        · rw [if_neg hheadline]
          exact Or.inl ⟨true, rfl⟩
  unfold Per.set
  rcases htarget with ⟨found, hfound⟩ | ⟨hnone, hheadline⟩
  · left
    rw [returns_bind]
    refine ⟨found, s, hfound, ?_⟩
    dsimp only
    split
    · exact h.returns_update window replies
    · exact returns_pure.mpr h
  · right
    rw [exec_bind, hnone]
    exact ⟨rfl, hheadline⟩

/-! ## However a command ends -/

/-- Nothing changes, and a register is found only where the line map leads somewhere. -/
theorem post_target (argv2 : CStr) {E : Unit → State → Prop} : Post (target argv2)
    (fun found t => t = s ∧ (found = true → s.lineRegs.find (atoi argv2) ≠ none)) E s := by
  unfold target
  rw [post_bind, post_get]
  split
  · exact post_pure.mpr ⟨rfl, nofun⟩
  · next p hp =>
    split
    · exact post_undefined
    · split
      · exact post_undefined
      · exact post_pure.mpr ⟨rfl, fun _ => by rw [hp]; exact Option.some_ne_none p⟩

theorem keeps_target (I : State → Prop) (argv2 : CStr) : Keeps I (target argv2) := by
  refine keeps_get.bind fun s => ?_
  split
  · exact keeps_pure _
  · split
    · exact keeps_undefined
    · split
      · exact keeps_undefined
      · exact keeps_pure _

theorem keeps_load (file : CStr) (text : Option CStr) (acquired : Nat → Option CStr) (window : Bool)
    (replies : Nat → Option CStr) : Keeps Live (load file text acquired window replies) := by
  intro s _
  unfold load cleanup
  rw [post_bind, post_modify]
  cases text with
  | none => exact post_pure.mpr (live_nil rfl rfl)
  | some text =>
      dsimp only
      rw [post_bind, post_modify]
      split
      · split
        · exact post_undefined
        · next ranges ok _ =>
          rw [post_bind, post_modify]
          cases ok with
          | true =>
              rw [if_pos rfl, post_bind, post_modify]
              exact (keeps_update window replies).attempt _ (live_nil rfl rfl)
          | false =>
              rw [if_neg Bool.false_ne_true, post_bind, post_modify]
              exact (keeps_update window replies).attempt _ (live_nil rfl rfl)
      · exact post_pure.mpr (live_nil rfl rfl)

theorem keeps_fold (argv2 : CStr) (window : Bool) (replies : Nat → Option CStr) :
    Keeps Live (fold argv2 window replies) := by
  intro s h
  unfold fold
  rw [post_bind, post_get]
  split
  · exact post_pure.mpr h
  · next p _ =>
    split
    · exact post_undefined
    · rw [post_bind, post_modify]
      exact (keeps_update window replies).attempt _ (h.modifySection p)

/-- The line maps of the peripherals never lead to what has been deleted. -/
theorem keeps_call (c : Cmd) : Keeps Live c.call := by
  cases c with
  | load file text acquired window replies => exact keeps_load file text acquired window replies
  | set argv2 written window replies =>
      refine (keeps_target Live argv2).bind fun found => ?_
      split
      · exact (keeps_update window replies).attempt
      · exact keeps_pure ()
  | fold argv2 window replies => exact keeps_fold argv2 window replies
  | view window replies | stop window replies => exact (keeps_update window replies).attempt

end Vimgdb.Per
