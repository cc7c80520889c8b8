import Vimgdb.Lib.Runs
import Vimgdb.User.Per

/-!
# Loading peripherals

A file is loaded while other commands and stops come before it and behind.  Commands are taken one after
the other, and so are the stops.

* `Consistent`: a command leaves the ranges with their memory.
* `Meets`: the condition on a file and on what gdb reads for it.
* `run_initialised_iff`: the runs in which each range has its memory.
-/

namespace Vimgdb.Per

open Programs Runs

/-! ## What is meant -/

/-- The variables before the first command. -/
def init : State := {}

/-- A step, to nothing if it is undefined. -/
def Step (s : Option State) (c : Cmd) (t : Option State) : Prop :=
  ∃ s₀, s = some s₀ ∧ t = (exec c.call s₀).map Prod.snd

/-- The command leaves the ranges with their memory.  It comes to its end unless it sets a headline,
which does not touch them. -/
def Consistent (s : Option State) (c : Cmd) (t : Option State) : Prop :=
  (∀ t₀, t = some t₀ → Initialised t₀.rangeLst) ∧
    (t = none → ∃ s₀, s = some s₀ ∧ SetsHeadline s₀ c)

/-- The memory of each range can be read, up to the first one with something outside of it. -/
def Readable (acquired : Nat → Option CStr) (ranges : List Range) : Prop :=
  ∀ i < ranges.length, (∀ range ∈ ranges.take i, range.fits = true) → acquired i ≠ none

/-- A file with a syntax error has it in the first range or before, and the memory of the ranges of a
file without one can be read. -/
def Meets (c : Cmd) : Prop :=
  match c with
  | .load _ (some text) acquired _ _ =>
      if (perparse text).accepted then Readable acquired (perparse text).ranges
      else startsWithRange (tokens text) = false
  | _ => True

variable {ranges : List Range} {s : State}

/-! ## Loading -/

theorem fits_deescape (range : Range) : range.deescape.fits = range.fits := by
  unfold Range.fits Range.deescape
  rw [List.all_map]
  congr 1
  funext sec
  exact List.all_map

/-- The first range is read, and if it fits the others. -/
theorem readable_cons {acquired : Nat → Option CStr} {r : Range} {rs : List Range} :
    Readable acquired (r :: rs) ↔ acquired 0 ≠ none ∧
      (r.fits = true → Readable (fun i => acquired (i + 1)) rs) := by
  constructor
  · intro h
    refine ⟨h 0 (Nat.zero_lt_succ _) nofun, fun hfits i hi hbefore => ?_⟩
    refine h (i + 1) (Nat.succ_lt_succ hi) fun r' hr' => ?_
    rw [List.take_succ_cons] at hr'
    rcases List.mem_cons.mp hr' with rfl | hr'
    · exact hfits
    · exact hbefore r' hr'
  · rintro ⟨h0, h⟩ i hi hbefore
    cases i with
    | zero => exact h0
    | succ i =>
        rw [List.take_succ_cons] at hbefore
        exact h (hbefore r List.mem_cons_self) i (Nat.lt_of_succ_lt_succ hi) fun r' hr' =>
          hbefore r' (List.mem_cons_of_mem _ hr')

/-- The loop over the ranges comes to its end if and only if their memory can be read. -/
theorem initRanges_ne_none {acquired : Nat → Option CStr} {i : Nat} :
    initRanges acquired i ranges ≠ none ↔ Readable (fun k => acquired (i + k)) ranges := by
  induction ranges generalizing i with
  | nil => exact iff_of_true (Option.some_ne_none _) fun k hk => absurd hk (Nat.not_lt_zero k)
  | cons r rs ih =>
      have ih := @ih (i + 1)
      simp only [Nat.add_assoc, Nat.add_comm 1] at ih
      rw [readable_cons, ← ih, Nat.add_zero]
      rw [initRanges]
      cases acquired i with
      | none => simp
      | some content =>
          have hfits : Range.fits { r.deescape with mem := some content } = r.fits :=
            fits_deescape r
          dsimp only
          rw [hfits]
          cases r.fits with
          | false => simp
          | true => cases initRanges acquired (i + 1) rs <;> simp

/-- If it comes to its end without an error, all ranges have their memory. -/
theorem initialised_of_initRanges {acquired : Nat → Option CStr} {i : Nat} {ranges' : List Range}
    (h : initRanges acquired i ranges = some (ranges', true)) : Initialised ranges' := by
  induction ranges generalizing i ranges' with
  | nil =>
      cases h
      nofun
  | cons r rs ih =>
      unfold initRanges at h
      cases hacquired : acquired i with
      | none => rw [hacquired] at h; cases h
      | some content =>
          rw [hacquired] at h
          dsimp only at h
          split at h
          · rw [Option.bind_eq_bind, Option.bind_eq_some_iff] at h
            obtain ⟨⟨rs', ok⟩, hrest, heq⟩ := h
            cases heq
            intro r' hr'
            rcases List.mem_cons.mp hr' with rfl | hr'
            · exact Option.some_ne_none _
            · exact ih hrest r' hr'
          · cases h

/-! ## Commands -/

variable {c : Cmd} {file : CStr} {text : Option CStr} {acquired replies : Nat → Option CStr}
  {window : Bool}

/-- A load that meets the condition comes to its end. -/
theorem returns_load (s : State) (hmeets : Meets (.load file text acquired window replies)) :
    Returns (load file text acquired window replies) (fun _ => Inv) s := by
  unfold load cleanup
  rw [returns_bind, returns_modify]
  cases text with
  | none => exact returns_pure.mpr (inv_nil rfl rfl rfl)
  | some text =>
      have hmeets : if (perparse text).accepted then Readable acquired (perparse text).ranges
          else startsWithRange (tokens text) = false := hmeets
      dsimp only
      rw [returns_bind, returns_modify]
      by_cases haccepted : (perparse text).accepted = true
      · rw [if_pos haccepted] at hmeets ⊢
        have hsome : initRanges acquired 0 (perparse text).ranges ≠ none :=
          initRanges_ne_none.mpr (by simpa only [Nat.zero_add] using hmeets)
        obtain ⟨⟨ranges, ok⟩, hinit⟩ := Option.ne_none_iff_exists'.mp hsome
        rw [hinit]
        dsimp only
        rw [returns_bind, returns_modify]
        cases ok with
        | true =>
            rw [if_pos rfl, returns_bind, returns_modify]
            exact Inv.returns_update ⟨initialised_of_initRanges hinit, live_nil rfl rfl⟩ window replies
        | false =>
            rw [if_neg Bool.false_ne_true, returns_bind, returns_modify]
            exact (inv_nil rfl rfl rfl).returns_update window replies
      · rw [if_neg haccepted] at hmeets ⊢
        have hnil := perparse_eq_nil_iff.mpr hmeets
        exact returns_pure.mpr (inv_nil hnil rfl rfl)

/-- Another one does not, or it leaves a range without its memory. -/
theorem post_load (s : State) (hmeets : ¬ Meets (.load file text acquired window replies)) :
    Post (load file text acquired window replies) (fun _ t => ¬ Initialised t.rangeLst)
      (fun _ t => ¬ Initialised t.rangeLst) s := by
  unfold load cleanup
  rw [post_bind, post_modify]
  cases text with
  | none => exact absurd trivial hmeets
  | some text =>
      have hmeets : ¬ if (perparse text).accepted then Readable acquired (perparse text).ranges
          else startsWithRange (tokens text) = false := hmeets
      dsimp only
      rw [post_bind, post_modify]
      by_cases haccepted : (perparse text).accepted = true
      · rw [if_pos haccepted] at hmeets ⊢
        have hnone : initRanges acquired 0 (perparse text).ranges = none := by
          by_contra hne
          exact hmeets (by simpa only [Nat.zero_add] using initRanges_ne_none.mp hne)
        rw [hnone]
        exact post_undefined
      · rw [if_neg haccepted] at hmeets ⊢
        rw [post_pure]
        intro hinit
        obtain ⟨r, hr⟩ := List.exists_mem_of_ne_nil _ (mt perparse_eq_nil_iff.mp hmeets)
        exact hinit r hr (mem_perparse r hr)

/-- A command that meets the condition comes to its end and keeps the invariant, or it sets a
headline. -/
theorem Inv.call (h : Inv s) (hmeets : Meets c) :
    Returns c.call (fun _ => Inv) s ∨ exec c.call s = none ∧ SetsHeadline s c := by
  cases c with
  | load => exact Or.inl (returns_load s hmeets)
  | set argv2 written window replies => exact h.set argv2 written window replies
  | fold argv2 window replies => exact Or.inl (returns_fold h argv2 window replies)
  | view window replies => exact Or.inl (h.returns_update window replies)
  | stop window replies => exact Or.inl (h.returns_update window replies)

variable {t : Option State}

theorem Inv.step (h : Inv s) (hmeets : Meets c) (hstep : Step (some s) c t) :
    (∃ t₀, t = some t₀ ∧ Inv t₀) ∨ t = none ∧ SetsHeadline s c := by
  obtain ⟨s₀, heq, rfl⟩ := hstep
  cases heq
  rcases h.call hmeets with ⟨_, t₀, hexec, hinv⟩ | ⟨hexec, hheadline⟩
  · exact Or.inl ⟨t₀, by rw [hexec]; rfl, hinv⟩
  · exact Or.inr ⟨by rw [hexec]; rfl, hheadline⟩

/-- From a state with the invariant, a step is consistent if and only if the command meets the
condition. -/
theorem Inv.consistent_iff (h : Inv s) (hstep : Step (some s) c t) :
    Consistent (some s) c t ↔ Meets c := by
  constructor
  · rintro ⟨hinit, hnone⟩
    by_contra hmeets
    cases c with
    | load file text acquired window replies =>
        obtain ⟨s₀, heq, rfl⟩ := hstep
        cases heq
        cases hexec : exec (load file text acquired window replies) s with
        | none =>
            obtain ⟨_, -, hheadline⟩ := hnone (congrArg (Option.map Prod.snd) hexec)
            exact hheadline
        | some r =>
            have hends := post_load s hmeets r hexec
            have hinit := hinit r.2 (congrArg (Option.map Prod.snd) hexec)
            obtain ⟨_ | _, t₀⟩ := r <;> exact hends hinit
    | set | fold | view | stop => exact hmeets trivial
  · intro hmeets
    rcases h.step hmeets hstep with ⟨t₀, rfl, hinv⟩ | ⟨rfl, hheadline⟩
    · refine ⟨?_, nofun⟩
      rintro _ ⟨⟩
      exact hinv.mem
    · exact ⟨nofun, fun _ => ⟨s, rfl, hheadline⟩⟩

/-! ## Runs -/

/-- The runs in which the ranges have their memory behind every command, and nothing but a `set` of a
headline is undefined, are those that meet the condition. -/
theorem run_initialised_iff (cs : List Cmd) (t : Option State) :
    Run (fun s c t => Step s c t ∧ Consistent s c t) (some init) cs t ↔
      Run (fun s c t => Step s c t ∧ Meets c) (some init) cs t := by
  refine @Run.guarded_iff _ _ _ (fun s => ∀ s₀, s = some s₀ → Inv s₀) Consistent
    (fun _ c _ => Meets c) _ ?_ ?_ ?_ cs t
  · rintro _ ⟨⟩
    exact inv_nil rfl rfl rfl
  · rintro s c t h hstep hmeets t₀ rfl
    obtain ⟨s₀, rfl, -⟩ := id hstep
    rcases (h s₀ rfl).step hmeets hstep with ⟨_, ⟨⟩, hinv⟩ | ⟨hnone, -⟩
    · exact hinv
    · cases hnone
  · rintro s c t h hstep
    obtain ⟨s₀, rfl, -⟩ := id hstep
    exact (h s₀ rfl).consistent_iff hstep

/-- A file with an error behind its first range. -/
def brokenFile : CStr := "range 0x10 8{}\nrange 1".toList

/-- It leaves a range without memory, and the next stop is undefined. -/
theorem broken_file_stop_undefined : ∃ s : State,
    Step (some init) (.load "p".toList (some brokenFile) (fun _ => none) true fun _ => none) (some s) ∧
      ¬ Initialised s.rangeLst ∧ Step (some s) (.stop true fun _ => none) none := by
  have hparse : perparse brokenFile = ⟨[{ base := 0x10, size := 8, sections := [] }], {}, false⟩ := by
    decide +kernel
  refine ⟨{ rangeLst := [{ base := 0x10, size := 8, sections := [] }], load := 1 },
    ⟨init, rfl, ?_⟩, fun h => h _ List.mem_cons_self rfl, ⟨_, rfl, rfl⟩⟩
  show _ = Option.map Prod.snd
    (exec (load "p".toList (some brokenFile) (fun _ => none) true fun _ => none) init)
  unfold load
  dsimp only
  rw [hparse]
  rfl

end Vimgdb.Per
