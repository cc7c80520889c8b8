import Vimgdb.Common.LineMap
import Vimgdb.Common.Numbers
import Vimgdb.Gdb.Types
import Vimgdb.Lib.Program

/-!
# Memory dumps

The commands of `memory.cc` and the update at a stop.  The replies of gdb are arguments.

* `State`: the segments by address, and the line map, which holds addresses.
* `update`, `add`, `delete`, `fold`: what the functions do.
* `Live`: the line map leads to segments that have not been deleted.
* `post_delete`: so it is behind a deletion while the window exists; nothing else endangers it.
-/

namespace Vimgdb.Memory

open Programs

/-! ## The state -/

/-- A segment. -/
structure Segment where
  begin : Option CStr
  length : BitVec 32
  alignment : BitVec 32 := 8
  expanded : Bool := true

/-- The static variables. -/
structure State where
  memLst : List (Nat × Segment) := []
  /-- The next address; none is used again. -/
  next : Nat := 0
  lineMems : LineMap Nat := []

/-- What the functions do; the error is -1. -/
abbrev Mems := Program State Unit

/-! ## The update -/

/-- `ALIGN` -/
def align (val : BitVec 64) (base : BitVec 32) : BitVec 64 := val &&& ~~~(base.zeroExtend 64 - 1)

/-- The loop over the bytes of a segment: the address, the characters in the ascii buffer, and the
lines. -/
def dumpBytes (alignment : BitVec 32) : Nat → BitVec 64 → Nat → BitVec 32 → BitVec 64 × Nat × BitVec 32
  | 0, addr, j, lines => (addr, j, lines)
  | n + 1, addr, j, lines =>
      if addr + 1 = align (addr + alignment.zeroExtend 64) alignment then
        dumpBytes alignment n (addr + 1) 0 (lines + 1)
      else dumpBytes alignment n (addr + 1) (j + 1) lines

/-- How far it is from an address to another one behind it. -/
def gap (lo hi : BitVec 64) : Nat := if lo.slt hi then (hi - lo).toNat else 0

/-- The lines of a segment at an address. -/
def Segment.lines (mem : Segment) (addr : BitVec 64) : BitVec 32 :=
  if mem.expanded then
    let j := gap (align addr mem.alignment) addr
    let (addr, j, lines) := dumpBytes mem.alignment mem.length.toNat addr j 0
    let j :=
      if align addr mem.alignment ≠ addr then
        j + gap addr (align (addr + mem.alignment.zeroExtend 64) mem.alignment)
      else j
    2 + lines + (if j ≠ 0 then 2 else 1)
  else 2

/-- The loop over the segments: what is shown from `line` on, with the replies to
`data-read-memory-bytes`, and whether it comes to its end. -/
def showSegments (replies : Nat → Bool) :
    Nat → List (Nat × Segment) → BitVec 32 → LineMap Nat → Option (LineMap Nat × Bool)
  | _, [], _, lines => some (lines, true)
  | i, (a, mem) :: mems, line, lines =>
      match mem.begin with
      | none => none
      | some begin =>
          if replies i then
            showSegments replies (i + 1) mems (line + mem.lines (strtollHex begin)) (lines.add line a)
          else some (lines, false)

/-- `cmd_memory_update` -/
def update (window : Bool) (replies : Nat → Bool) : Mems Unit := do
  if window then
    match showSegments replies 0 (← get).memLst 1 [] with
    | none => undefined
    | some (lines, ok) =>
        modify fun s => { s with lineMems := lines }
        if ok then pure () else throw ()
  else pure ()

/-! ## Commands -/

/-- `add`, with the reply to `data-read-memory-bytes` and the alignment, once it is found to be a power
of 2. -/
def add (mem : Option Gdb.Memory) (alignment : BitVec 32) (window : Bool) (replies : Nat → Bool) :
    Mems Unit := do
  match mem with
  | none => pure ()
  | some mem =>
      modify fun s => { s with
        memLst := s.memLst ++ [(s.next, ⟨mem.begin, mem.length, alignment, true⟩)]
        next := s.next + 1 }
      attempt (update window replies)

/-- The pointer is followed. -/
def deref (a : Nat) : Mems Segment := do
  match (← get).memLst.lookup a with
  | none => undefined
  | some mem => return mem

/-- `delete` -/
def delete (argv2 : CStr) (window : Bool) (replies : Nat → Bool) : Mems Unit := do
  match (← get).lineMems.find (atoi argv2) with
  | none => pure ()
  | some a =>
      let _ ← deref a
      modify fun s => { s with memLst := s.memLst.filter fun e => e.1 ≠ a }
      attempt (update window replies)

/-- A segment is folded. -/
def toggle (a : Nat) (e : Nat × Segment) : Nat × Segment :=
  (e.1, if e.1 = a then { e.2 with expanded := !e.2.expanded } else e.2)

/-- `fold` -/
def fold (argv2 : CStr) (window : Bool) (replies : Nat → Bool) : Mems Unit := do
  match (← get).lineMems.find (atoi argv2) with
  | none => pure ()
  | some a =>
      let _ ← deref a
      modify fun s => { s with memLst := s.memLst.map (toggle a) }
      attempt (update window replies)

example : (Segment.mk (some "0x1004".toList) 16 8 true).lines 0x1004 = 6 := by decide

/-! ## What is shown -/

/-- The line map leads to segments that have not been deleted. -/
def Live (s : State) : Prop := ∀ a ∈ s.lineMems.objects, s.memLst.lookup a ≠ none

variable {s : State} {replies : Nat → Bool}

theorem mem_of_showSegments {i : Nat} {mems : List (Nat × Segment)} {line : BitVec 32}
    {lines lines' : LineMap Nat} {ok : Bool}
    (h : showSegments replies i mems line lines = some (lines', ok)) :
    ∀ a ∈ lines'.objects, a ∈ lines.objects ∨ a ∈ mems.map Prod.fst := by
  induction mems generalizing i line lines with
  | nil =>
      cases h
      exact fun a ha => Or.inl ha
  | cons e mems ih =>
      obtain ⟨b, mem⟩ := e
      unfold showSegments at h
      split at h
      · cases h
      · split at h
        · intro a ha
          rcases ih h a ha with ha | ha
          · rw [LineMap.objects_add, List.mem_append, List.mem_singleton] at ha
            rcases ha with ha | rfl
            · exact Or.inl ha
            · exact Or.inr List.mem_cons_self
          · exact Or.inr (List.mem_cons_of_mem _ ha)
        · cases h
          exact fun a ha => Or.inl ha

theorem lookup_ne_none_iff {l : List (Nat × Segment)} {a : Nat} :
    l.lookup a ≠ none ↔ a ∈ l.map Prod.fst := by
  induction l with
  | nil => simp
  | cons e l ih =>
      obtain ⟨b, mem⟩ := e
      rw [List.lookup_cons, List.map_cons, List.mem_cons]
      by_cases hab : a = b
      · simp [hab]
      · rw [beq_false_of_ne hab]
        simp only [hab, false_or]
        exact ih

/-- While the window exists, the update makes the line map anew. -/
theorem post_update {window : Bool} (h : window = false → Live s) :
    Post (update window replies) (fun _ => Live) (fun _ => Live) s := by
  unfold update
  cases window with
  | false => exact post_pure.mpr (h rfl)
  | true =>
      rw [if_pos rfl, post_bind, post_get]
      split
      · exact post_undefined
      · next lines ok hshow =>
        have hlive : Live { s with lineMems := lines } := by
          intro a ha
          refine lookup_ne_none_iff.mpr ((mem_of_showSegments hshow a ha).resolve_left ?_)
          exact List.not_mem_nil
        rw [post_bind, post_modify]
        split
        · exact post_pure.mpr hlive
        · exact post_throw.mpr hlive

theorem keeps_update (window : Bool) (replies : Nat → Bool) : Keeps Live (update window replies) :=
  fun _ h => post_update fun _ => h

theorem keeps_add (mem : Option Gdb.Memory) (alignment : BitVec 32) (window : Bool)
    (replies : Nat → Bool) : Keeps Live (add mem alignment window replies) := by
  intro s h
  unfold add
  split
  · exact post_pure.mpr h
  · rw [post_bind, post_modify]
    refine (keeps_update window replies).attempt _ fun a ha => ?_
    have hmem := lookup_ne_none_iff.mp (h a ha)
    refine lookup_ne_none_iff.mpr ?_
    dsimp only
    rw [List.map_append]
    exact List.mem_append_left _ hmem

theorem keeps_fold (argv2 : CStr) (window : Bool) (replies : Nat → Bool) :
    Keeps Live (fold argv2 window replies) := by
  intro s h
  unfold fold deref
  rw [post_bind, post_get]
  split
  · exact post_pure.mpr h
  · next b _ =>
    rw [post_bind, post_bind, post_get]
    split
    · exact post_undefined
    · rw [post_pure, post_bind, post_modify]
      refine (keeps_update window replies).attempt _ fun a ha => ?_
      have hmem := lookup_ne_none_iff.mp (h a ha)
      refine lookup_ne_none_iff.mpr ?_
      dsimp only
      rw [List.map_map]
      exact hmem

/-- A segment that is found is deleted.  The line map does not lead to it any more if the window
exists. -/
theorem post_delete (h : Live s) {argv2 : CStr} {window : Bool}
    (hwindow : s.lineMems.find (atoi argv2) ≠ none → window = true) :
    Post (delete argv2 window replies) (fun _ => Live) (fun _ => Live) s := by
  unfold delete deref
  rw [post_bind, post_get]
  split
  · exact post_pure.mpr h
  · next a hfind =>
    rw [post_bind, post_bind, post_get]
    split
    · exact post_undefined
    · rw [post_pure, post_bind, post_modify, post_attempt]
      refine post_update fun hfalse => ?_
      rw [hwindow (by rw [hfind]; exact Option.some_ne_none a)] at hfalse
      cases hfalse

end Vimgdb.Memory
