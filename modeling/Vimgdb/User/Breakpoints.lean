import Vimgdb.Gdb.Issue
import Vimgdb.Gdb.Types
import Vimgdb.Lib.Maps
import Vimgdb.Lib.Runs

/-!
# The breakpoints of the user interface

`cmd_break_exec` keeps the breakpoints of gdb in a map, by a text of their locations.

* `location`: what `breakpt_print` shows of a breakpoint, and what is exported.
* `key`: the same, as it fits a buffer.
* `Step`: the commands, while gdb does what it is told.
* `Consistent`: the map is what gdb has, and a breakpoint is found by the text that is shown.
* `run_matched_iff`: the runs in which that is so.
-/

namespace Vimgdb.Breakpt

open Gdb Maps Runs

/-- `%d` of an `int`. -/
def decimal (v : BitVec 32) : CStr :=
  if v.msb then '-' :: itoa 10 (2 ^ 32 - v.toNat) else itoa 10 v.toNat

/-- `%s` of a pointer. -/
def string (s : Option CStr) : CStr := s.getD "(null)".toList

/-- The location of a breakpoint as text.  A line that is not set has some value, here 0. -/
def location (b : Breakpoint) : CStr :=
  match b.filename with
  | some filename => filename ++ ':' :: decimal (b.line.getD 0)
  | none => string b.at

/-- The key of a breakpoint: `snprintf` cuts its location off. -/
def key (b : Breakpoint) : CStr := (location b).take 255

/-! ## Commands -/

variable {Loc : Type}

/-- A breakpoint of gdb. -/
structure Remote (Loc : Type) where
  /-- The place in the program. -/
  loc : Loc
  enabled : Bool

/-- The map of the user interface, and the breakpoints of gdb by number. -/
structure State (Loc : Type) where
  breakptLst : AList fun _ : CStr => Breakpoint := ∅
  gdb : AList fun _ : BitVec 32 => Remote Loc := ∅

/-- The commands that change them: `add` with gdb's answer and the place it stands for. -/
inductive Cmd (Loc : Type)
  | add (b : Breakpoint) (loc : Loc)
  | delete (argv2 : CStr)
  | enable (argv2 : CStr)
  | disable (argv2 : CStr)

/-- The number of a breakpoint, some value if it is not set. -/
def number (b : Breakpoint) : BitVec 32 := b.num.getD 0

/-- `break-enable` or `break-disable`. -/
def State.remoteEnable (s : State Loc) (num : BitVec 32) (v : Bool) :
    AList fun _ : BitVec 32 => Remote Loc :=
  match s.gdb.lookup num with
  | some r => s.gdb.insert num { r with enabled := v }
  | none => s.gdb

/-- `add`: a breakpoint whose key is taken is deleted again. -/
def State.add (s : State Loc) (b : Breakpoint) (r : Remote Loc) : State Loc :=
  let gdb := s.gdb.insert (number b) r
  match s.breakptLst.lookup (key b) with
  | none => { breakptLst := s.breakptLst.insert (key b) b, gdb }
  | some _ => { s with gdb := gdb.erase (number b) }

/-- `delete` -/
def State.delete (s : State Loc) (argv2 : CStr) : State Loc :=
  match s.breakptLst.lookup argv2 with
  | none => s
  | some b => { breakptLst := s.breakptLst.erase argv2, gdb := s.gdb.erase (number b) }

/-- `enable` and `disable`. -/
def State.setEnabled (s : State Loc) (argv2 : CStr) (v : Bool) : State Loc :=
  match s.breakptLst.lookup argv2 with
  | none => s
  | some b =>
      { breakptLst := s.breakptLst.insert argv2 { b with enabled := some v }
        gdb := s.remoteEnable (number b) v }

/-- A command is executed, and each command it gives to gdb succeeds.  A new breakpoint gets a number
that no other one has, and its answer says whether it is enabled. -/
inductive Step : State Loc → Cmd Loc → State Loc → Prop
  | add {s : State Loc} {b : Breakpoint} {r : Remote Loc} {num : BitVec 32}
      (hnum : b.num = some num) (henabled : b.enabled = some r.enabled)
      (hfresh : s.gdb.lookup num = none) : Step s (.add b r.loc) (s.add b r)
  | delete {s : State Loc} (argv2 : CStr) : Step s (.delete argv2) (s.delete argv2)
  | enable {s : State Loc} (argv2 : CStr) : Step s (.enable argv2) (s.setEnabled argv2 true)
  | disable {s : State Loc} (argv2 : CStr) : Step s (.disable argv2) (s.setEnabled argv2 false)

/-! ## Consistency -/

/-- The breakpoints of the map and of gdb correspond by number, with equal enabled state. -/
structure Matched (s : State Loc) : Prop where
  entry : ∀ k b, s.breakptLst.lookup k = some b → ∃ num r, b.num = some num ∧
    s.gdb.lookup num = some r ∧ b.enabled = some r.enabled
  remote : ∀ num r, s.gdb.lookup num = some r → ∃ k b, s.breakptLst.lookup k = some b ∧
    b.num = some num
  unique : ∀ k k' b b', s.breakptLst.lookup k = some b → s.breakptLst.lookup k' = some b' →
    b.num = b'.num → k = k'

/-- The location that is shown for a breakpoint selects this breakpoint. -/
def Selects (s : State Loc) : Prop :=
  ∀ k b, s.breakptLst.lookup k = some b → s.breakptLst.lookup (location b) = some b

/-- A breakpoint that is added is discarded only if there is one at its place. -/
def Kept (s : State Loc) : Cmd Loc → State Loc → Prop
  | .add b loc, t => t.gdb.lookup (number b) = none → ∃ num r, s.gdb.lookup num = some r ∧ r.loc = loc
  | _, _ => True

/-- What holds of a command and the state it leads to. -/
structure Consistent (s : State Loc) (c : Cmd Loc) (t : State Loc) : Prop where
  matched : Matched t
  selects : Selects t
  kept : Kept s c t

/-- The condition on a breakpoint that is added: if its key is taken, there is a breakpoint at its
place; if not, its location fits the key. -/
def Meets (s : State Loc) : Cmd Loc → Prop
  | .add b loc =>
      match s.breakptLst.lookup (key b) with
      | some _ => ∃ num r, s.gdb.lookup num = some r ∧ r.loc = loc
      | none => (location b).length < 256
  | _ => True

/-! ## Steps -/

variable {s t : State Loc} {c : Cmd Loc}

theorem Matched.number_eq (h : Matched s) {k : CStr} {b : Breakpoint}
    (hb : s.breakptLst.lookup k = some b) : b.num = some (number b) := by
  obtain ⟨num, r, hnum, -⟩ := h.entry k b hb
  unfold number
  rw [hnum]
  rfl

/-- Where the map and gdb are as before, so is their correspondence. -/
theorem Matched.congr (h : Matched s) (hlst : t.breakptLst = s.breakptLst)
    (hgdb : ∀ num, t.gdb.lookup num = s.gdb.lookup num) : Matched t where
  entry k b hb := by
    rw [hlst] at hb
    obtain ⟨num, r, hnum, hr, henabled⟩ := h.entry k b hb
    exact ⟨num, r, hnum, (hgdb num).trans hr, henabled⟩
  remote num r hr := by
    rw [hgdb] at hr
    rw [hlst]
    exact h.remote num r hr
  unique := by
    rw [hlst]
    exact h.unique

/-- A breakpoint with a fresh number is entered on both sides. -/
theorem Matched.insert (h : Matched s) {b : Breakpoint} {r : Remote Loc} {num : BitVec 32} {k : CStr}
    (hnum : b.num = some num) (henabled : b.enabled = some r.enabled)
    (hfresh : s.gdb.lookup num = none) (hk : s.breakptLst.lookup k = none) :
    Matched { breakptLst := s.breakptLst.insert k b, gdb := s.gdb.insert num r } where
  entry k' b' hb' := by
    rcases lookup_insert_eq_some.mp hb' with ⟨rfl, rfl⟩ | ⟨hne, hb'⟩
    · exact ⟨num, r, hnum, AList.lookup_insert _, henabled⟩
    · obtain ⟨num', r', hnum', hr', henabled'⟩ := h.entry k' b' hb'
      refine ⟨num', r', hnum', lookup_insert_eq_some.mpr (Or.inr ⟨?_, hr'⟩), henabled'⟩
      rintro rfl
      rw [hfresh] at hr'
      cases hr'
  remote num' r' hr' := by
    rcases lookup_insert_eq_some.mp hr' with ⟨rfl, rfl⟩ | ⟨hne, hr'⟩
    · exact ⟨k, b, AList.lookup_insert _, hnum⟩
    · obtain ⟨k', b', hb', hnum'⟩ := h.remote num' r' hr'
      refine ⟨k', b', lookup_insert_eq_some.mpr (Or.inr ⟨?_, hb'⟩), hnum'⟩
      rintro rfl
      rw [hk] at hb'
      cases hb'
  unique k₁ k₂ b₁ b₂ h₁ h₂ heq := by
    have hold : ∀ k' b', s.breakptLst.lookup k' = some b' → b'.num ≠ some num := by
      intro k' b' hb' hn
      obtain ⟨num', r', hnum', hr', -⟩ := h.entry k' b' hb'
      rw [hn] at hnum'
      cases hnum'
      rw [hfresh] at hr'
      cases hr'
    rcases lookup_insert_eq_some.mp h₁ with ⟨hk₁, rfl⟩ | ⟨-, hb₁⟩ <;>
      rcases lookup_insert_eq_some.mp h₂ with ⟨hk₂, hb₂⟩ | ⟨-, hb₂⟩
    · rw [hk₁, hk₂]
    · exact absurd (heq ▸ hnum) (hold _ _ hb₂)
    · subst hb₂
      exact absurd (heq.trans hnum) (hold _ _ hb₁)
    · exact h.unique k₁ k₂ b₁ b₂ hb₁ hb₂ heq

/-- A breakpoint is removed from both sides. -/
theorem Matched.erase (h : Matched s) {b : Breakpoint} {k : CStr}
    (hb : s.breakptLst.lookup k = some b) :
    Matched { breakptLst := s.breakptLst.erase k, gdb := s.gdb.erase (number b) } where
  entry k' b' hb' := by
    obtain ⟨hne, hb'⟩ := lookup_erase_eq_some.mp hb'
    obtain ⟨num, r, hnum, hr, henabled⟩ := h.entry k' b' hb'
    refine ⟨num, r, hnum, lookup_erase_eq_some.mpr ⟨fun heq => hne ?_, hr⟩, henabled⟩
    exact h.unique k' k b' b hb' hb (by rw [hnum, heq, h.number_eq hb])
  remote num r hr := by
    obtain ⟨hne, hr⟩ := lookup_erase_eq_some.mp hr
    obtain ⟨k', b', hb', hnum⟩ := h.remote num r hr
    refine ⟨k', b', lookup_erase_eq_some.mpr ⟨?_, hb'⟩, hnum⟩
    rintro rfl
    rw [hb] at hb'
    cases hb'
    rw [h.number_eq hb] at hnum
    exact hne (Option.some.inj hnum).symm
  unique k₁ k₂ b₁ b₂ h₁ h₂ heq :=
    h.unique k₁ k₂ b₁ b₂ (lookup_erase_eq_some.mp h₁).2 (lookup_erase_eq_some.mp h₂).2 heq

/-- A breakpoint is enabled or disabled on both sides. -/
theorem Matched.setEnabled (h : Matched s) {b : Breakpoint} {k : CStr} (v : Bool)
    (hb : s.breakptLst.lookup k = some b) :
    Matched { breakptLst := s.breakptLst.insert k { b with enabled := some v }
              gdb := s.remoteEnable (number b) v } := by
  obtain ⟨num, r, hnum, hr, -⟩ := h.entry k b hb
  have hnumber : number b = num := by rw [number, hnum]; rfl
  have hremote : s.remoteEnable (number b) v = s.gdb.insert num { r with enabled := v } := by
    unfold State.remoteEnable
    rw [hnumber, hr]
  rw [hremote]
  refine ⟨?_, ?_, ?_⟩
  · intro k' b' hb'
    rcases lookup_insert_eq_some.mp hb' with ⟨rfl, rfl⟩ | ⟨hne, hold⟩
    · exact ⟨num, _, hnum, AList.lookup_insert _, rfl⟩
    · obtain ⟨num', r', hnum', hr', henabled'⟩ := h.entry k' b' hold
      refine ⟨num', r', hnum', lookup_insert_eq_some.mpr (Or.inr ⟨fun heq => ?_, hr'⟩), henabled'⟩
      exact hne (h.unique k' k b' b hold hb (by rw [hnum', heq, hnum]))
  · intro num' r' hr'
    rcases lookup_insert_eq_some.mp hr' with ⟨rfl, -⟩ | ⟨hne, hr'⟩
    · exact ⟨k, _, AList.lookup_insert _, hnum⟩
    · obtain ⟨k', b', hb', hnum'⟩ := h.remote num' r' hr'
      refine ⟨k', b', lookup_insert_eq_some.mpr (Or.inr ⟨?_, hb'⟩), hnum'⟩
      rintro rfl
      rw [hb] at hb'
      cases hb'
      rw [hnum] at hnum'
      exact hne (Option.some.inj hnum').symm
  · intro k₁ k₂ b₁ b₂ h₁ h₂ heq
    have hold : ∀ k' b', (s.breakptLst.insert k { b with enabled := some v }).lookup k' = some b' →
        ∃ b₀, s.breakptLst.lookup k' = some b₀ ∧ b₀.num = b'.num := by
      intro k' b' hb'
      rcases lookup_insert_eq_some.mp hb' with ⟨rfl, rfl⟩ | ⟨-, hb'⟩
      · exact ⟨b, hb, rfl⟩
      · exact ⟨b', hb', rfl⟩
    obtain ⟨b₁', h₁', hn₁⟩ := hold k₁ b₁ h₁
    obtain ⟨b₂', h₂', hn₂⟩ := hold k₂ b₂ h₂
    exact h.unique k₁ k₂ b₁' b₂' h₁' h₂' (hn₁.trans (heq.trans hn₂.symm))

/-- The correspondence is kept, whatever the locations are. -/
theorem Matched.step (h : Matched s) (hstep : Step s c t) : Matched t := by
  cases hstep with
  | @add b r num hnum henabled hfresh =>
      have hnumber : number b = num := by rw [number, hnum]; rfl
      unfold State.add
      rw [hnumber]
      dsimp only
      split
      · next hk => exact h.insert hnum henabled hfresh hk
      · refine h.congr rfl fun num' => ?_
        by_cases hne : num' = num
        · rw [hne, hfresh]
          exact AList.lookup_erase _ _
        · exact (AList.lookup_erase_ne hne).trans (AList.lookup_insert_ne hne)
  | delete argv2 =>
      unfold State.delete
      split
      · exact h
      · next b hb => exact h.erase hb
  | enable argv2 | disable argv2 =>
      unfold State.setEnabled
      split
      · exact h
      · next b hb => exact h.setEnabled _ hb

/-- Each key is the location of its breakpoint. -/
def Keyed (s : State Loc) : Prop := ∀ k b, s.breakptLst.lookup k = some b → location b = k

theorem Keyed.selects (h : Keyed s) : Selects s := by
  intro k b hb
  rw [h k b hb]
  exact hb

theorem key_eq_of_length {b : Breakpoint} (h : (location b).length < 256) : key b = location b :=
  List.take_of_length_le (by omega)

theorem length_key (b : Breakpoint) : (key b).length < 256 := by
  unfold key
  rw [List.length_take]
  omega

/-- A step that meets the condition keeps the keys. -/
theorem Keyed.step (h : Keyed s) (hstep : Step s c t) (hmeets : Meets s c) : Keyed t := by
  cases hstep with
  | @add b r num hnum henabled hfresh =>
      unfold State.add
      dsimp only
      unfold Meets at hmeets
      dsimp only at hmeets
      cases hk : s.breakptLst.lookup (key b) with
      | some _ => exact h
      | none =>
          rw [hk] at hmeets
          intro k' b' hb'
          rcases lookup_insert_eq_some.mp hb' with ⟨rfl, rfl⟩ | ⟨-, hb'⟩
          · exact (key_eq_of_length hmeets).symm
          · exact h k' b' hb'
  | delete argv2 =>
      unfold State.delete
      split
      · exact h
      · intro k' b' hb'
        exact h k' b' (lookup_erase_eq_some.mp hb').2
  | enable argv2 | disable argv2 =>
      unfold State.setEnabled
      split
      · exact h
      · next b hb =>
        intro k' b' hb'
        rcases lookup_insert_eq_some.mp hb' with ⟨rfl, rfl⟩ | ⟨-, hb'⟩
        · exact h _ b hb
        · exact h k' b' hb'

/-- A breakpoint that is discarded has its key taken. -/
theorem lookup_add_gdb {b : Breakpoint} {r : Remote Loc} :
    (s.add b r).gdb.lookup (number b) =
      match s.breakptLst.lookup (key b) with
      | none => some r
      | some _ => none := by
  unfold State.add
  dsimp only
  cases s.breakptLst.lookup (key b) with
  | none => exact AList.lookup_insert _
  | some _ => exact AList.lookup_erase _ _

/-- The invariant. -/
structure Inv (s : State Loc) : Prop where
  matched : Matched s
  keyed : Keyed s

theorem Inv.step (h : Inv s) (hstep : Step s c t) (hmeets : Meets s c) : Inv t :=
  ⟨h.matched.step hstep, h.keyed.step hstep hmeets⟩

/-- From a state with the invariant, a step is consistent if and only if it meets the condition. -/
theorem Inv.consistent_iff (h : Inv s) (hstep : Step s c t) : Consistent s c t ↔ Meets s c := by
  constructor
  · intro hcons
    cases hstep with
    | @add b r num hnum henabled hfresh =>
        have hkept := hcons.kept
        have hselects := hcons.selects
        unfold Kept at hkept
        dsimp only at hkept
        unfold Meets
        dsimp only
        rw [lookup_add_gdb] at hkept
        unfold State.add at hselects
        dsimp only at hselects
        cases hk : s.breakptLst.lookup (key b) with
        | some _ =>
            rw [hk] at hkept
            exact hkept rfl
        | none =>
            rw [hk] at hselects
            have hfound := hselects (key b) b (AList.lookup_insert _)
            -- only a text that fits is found under a key
            rcases lookup_insert_eq_some.mp hfound with ⟨heq, -⟩ | ⟨-, hfound⟩
            · have := length_key b
              rwa [← heq] at this
            · obtain ⟨num', r', hnum', hr', -⟩ := h.matched.entry _ _ hfound
              rw [hnum] at hnum'
              cases hnum'
              rw [hfresh] at hr'
              cases hr'
    | delete | enable | disable => trivial
  · intro hmeets
    have hinv := h.step hstep hmeets
    refine ⟨hinv.matched, hinv.keyed.selects, ?_⟩
    cases hstep with
    | @add b r num hnum henabled hfresh =>
        unfold Kept
        dsimp only
        unfold Meets at hmeets
        dsimp only at hmeets
        rw [lookup_add_gdb]
        cases hk : s.breakptLst.lookup (key b) with
        | some _ =>
            rw [hk] at hmeets
            exact fun _ => hmeets
        | none => exact fun hnone => absurd hnone (Option.some_ne_none r)
    | delete | enable | disable => trivial

theorem inv_init : Inv ({} : State Loc) where
  matched := ⟨fun _ _ h => absurd h nofun, fun _ _ h => absurd h nofun,
    fun _ _ _ _ h => absurd h nofun⟩
  keyed _ _ h := absurd h nofun

/-! ## Runs -/

/-- The runs in which the map is what gdb has, no breakpoint is discarded for one at another place, and
each is selected by the location that is shown, are those that meet the condition. -/
theorem run_matched_iff (cs : List (Cmd Loc)) (t : State Loc) :
    Run (fun s c t => Step s c t ∧ Consistent s c t) {} cs t ↔
      Run (fun s c t => Step s c t ∧ Meets s c) {} cs t :=
  @Run.guarded_iff _ _ _ Inv Consistent (fun s c _ => Meets s c) _ inv_init
    (fun _ _ _ h hstep hmeets => h.step hstep hmeets)
    (fun _ _ _ h hstep => h.consistent_iff hstep) cs t

/-- A file whose name fills the key but for one character. -/
def longName (c : Char) : CStr := List.replicate 255 'a' ++ [c]

/-- A breakpoint in such a file. -/
def longBreakpoint (num : BitVec 32) (c : Char) : Breakpoint :=
  { num := some num, filename := some (longName c), line := some 7, enabled := some true }

theorem location_longBreakpoint (num : BitVec 32) (c : Char) :
    location (longBreakpoint num c) = List.replicate 255 'a' ++ (c :: ':' :: decimal 7) :=
  List.append_assoc _ _ _

theorem key_longBreakpoint (num : BitVec 32) (c : Char) :
    key (longBreakpoint num c) = List.replicate 255 'a' := by
  unfold key
  rw [location_longBreakpoint]
  exact List.take_left' List.length_replicate

/-- Of two breakpoints in such files the first one is not found by what is shown, and the second one is
discarded. -/
theorem long_locations_collide :
    ∃ s t : State CStr, Run Step {} [.add (longBreakpoint 1 '1') (longName '1')] s ∧
      Step s (.add (longBreakpoint 2 '2') (longName '2')) t ∧ ¬ Selects s ∧
      ¬ Kept s (.add (longBreakpoint 2 '2') (longName '2')) t := by
  let r₁ : Remote CStr := { loc := longName '1', enabled := true }
  let r₂ : Remote CStr := { loc := longName '2', enabled := true }
  let s : State CStr := State.add {} (longBreakpoint 1 '1') r₁
  have hlst : s.breakptLst =
      (∅ : AList _).insert (List.replicate 255 'a') (longBreakpoint 1 '1') := by
    rw [← key_longBreakpoint 1 '1']
    rfl
  have hgdb : s.gdb = (∅ : AList _).insert 1 r₁ := rfl
  have hstep₁ : Step {} (.add (longBreakpoint 1 '1') r₁.loc) s := .add rfl rfl rfl
  have hstep₂ : Step s (.add (longBreakpoint 2 '2') r₂.loc) (s.add (longBreakpoint 2 '2') r₂) :=
    .add rfl rfl rfl
  refine ⟨s, _, Run.snoc Run.nil hstep₁, hstep₂, fun hselects => ?_, fun hkept => ?_⟩
  · have hfound := hselects (List.replicate 255 'a') (longBreakpoint 1 '1')
      (by rw [hlst]; exact AList.lookup_insert _)
    rw [hlst] at hfound
    rcases lookup_insert_eq_some.mp hfound with ⟨heq, -⟩ | ⟨-, hfound⟩
    · rw [location_longBreakpoint] at heq
      exact absurd (List.append_right_eq_self.mp heq) (List.cons_ne_nil _ _)
    · cases hfound
  · have hnone : (s.add (longBreakpoint 2 '2') r₂).gdb.lookup (number (longBreakpoint 2 '2')) =
        none := by
      rw [lookup_add_gdb, key_longBreakpoint, hlst, AList.lookup_insert]
    obtain ⟨num, r, hr, hloc⟩ := hkept hnone
    rw [hgdb] at hr
    rcases lookup_insert_eq_some.mp hr with ⟨-, rfl⟩ | ⟨-, hr⟩
    · exact absurd (List.append_cancel_left hloc) (by decide)
    · cases hr

end Vimgdb.Breakpt
