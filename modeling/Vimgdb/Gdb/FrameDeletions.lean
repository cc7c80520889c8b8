import Vimgdb.Gdb.Callstack
import Vimgdb.Gdb.VariableDeletions

/-!
# Deleted frames

An update of the callstack deletes frames that it has just been told of, and nothing else.

* `Remains s₀ s`: all frames and variables of `s₀` are still in memory.
* `Walk`: the loop over the frames of a stop, whatever the callstack has become.
* `post_update_remains`: so it is behind every update; one that fails has got no answer from gdb.
-/

namespace Vimgdb.Gdb.Callstack

open Programs IntrusiveList Maps
open VariableMaps (Since)

/-! ## What remains -/

/-- Addresses are below the next one, and no frame or variable of `s₀` has been deleted. -/
structure Remains (s₀ s : State) : Prop where
  next : s₀.next ≤ s.next
  frames : ∀ f o, s₀.frames.lookup f = some o → s.frames.lookup f ≠ none
  below : ∀ f o, s.frames.lookup f = some o → f < s.next
  listed : ∀ k f, s.frameLst.lookup k = some f → f < s.next
  vars : Since s₀.vars (fun _ => False) s.vars

/-- Addresses are below the next one. -/
def Bounded (s : State) : Prop := Remains s s

/-- The loop over the frames: `us` are to come.  They are new and not entered, and neither the list they
are in nor the callstack leads from elsewhere to them. -/
structure Walk (s₀ : State) (framelst : Option Nat) (us : List Nat) (s : State) : Prop where
  remains : Remains s₀ s
  rest : Rest s.links us
  front : Front s.links framelst us
  ends : EndsOutside s.links s.callstack us
  fresh : ∀ u ∈ us, s₀.next ≤ u ∧ ∃ f, s.frames.lookup u = some { frame := f }
  unlisted : ∀ k u, s.frameLst.lookup k = some u → u ∉ us

/-- gdb answers the commands for the frame. -/
def Level.Replied (l : Level) : Prop := l.vars ≠ none ∧ l.Answered

variable {s₀ s t : State} {framelst : Option Nat} {us : List Nat} {u : Nat}

theorem Remains.refl (h : Remains s₀ s) : Bounded s where
  next := Nat.le_refl _
  frames f o ho := by rw [ho]; exact Option.some_ne_none o
  below := h.below
  listed := h.listed
  vars := h.vars.bounded

theorem bounded_init : Bounded State.init where
  next := Nat.le_refl _
  frames _ _ h := nomatch h
  below _ _ h := nomatch h
  listed _ _ h := nomatch h
  vars := VariableMaps.bounded_init

/-- A frame changes. -/
theorem Remains.setFrame (h : Remains s₀ s) {f : Nat} {o : Object} (ho : s.frames.lookup f = some o)
    (o' : Object) : Remains s₀ (s.setFrame f o') where
  next := h.next
  frames g x hg := by
    by_cases hgf : g = f
    · subst hgf
      show (s.frames.insert g o').lookup g ≠ none
      rw [AList.lookup_insert]
      exact Option.some_ne_none o'
    · show (s.frames.insert f o').lookup g ≠ none
      rw [AList.lookup_insert_ne hgf]
      exact h.frames g x hg
  below g x hg := by
    rcases lookup_insert_eq_some.mp hg with ⟨rfl, -⟩ | ⟨-, hg⟩
    · exact h.below g o ho
    · exact h.below g x hg
  listed := h.listed
  vars := h.vars

/-- The variables change. -/
theorem Walk.setVars (h : Walk s₀ framelst us s) {vars : VariableMaps.State}
    (hvars : Since s₀.vars (fun _ => False) vars) : Walk s₀ framelst us { s with vars := vars } :=
  { h with remains := { h.remains with vars := hvars } }

/-- A frame that has come changes. -/
theorem Walk.setFrame (h : Walk s₀ framelst us s) (hu : u ∉ us) {o : Object}
    (ho : s.frames.lookup u = some o) (o' : Object) : Walk s₀ framelst us (s.setFrame u o') :=
  { h with
    remains := h.remains.setFrame ho o'
    fresh := fun w hw => by
      obtain ⟨hnew, f, hf⟩ := h.fresh w hw
      refine ⟨hnew, f, ?_⟩
      show (s.frames.insert u o').lookup w = _
      rw [AList.lookup_insert_ne (ne_of_mem_of_not_mem hw hu)]
      exact hf }

/-! ## The steps of the loop -/

/-- A variable is added to a frame that has come. -/
theorem Walk.addVariable (h : Walk s₀ framelst us s) (hu : u ∉ us) (ctx : CStr) (x : Listed) :
    Post (addVariable ctx u x) (fun _ => Walk s₀ framelst us) (fun _ t => Remains s₀ t ∧
      ¬ (x.create ≠ none ∧ x.info ≠ none ∧ x.deleted = true)) s := by
  unfold Callstack.addVariable
  split
  · exact post_undefined
  · next name _ =>
    dsimp only
    unfold onVars
    rw [post_bind, post_zoom]
    have horigin : VariableMaps.Origin.callstack ≠ .unknown := by decide
    refine (h.remains.vars.acquire horigin ctx name _ x.info).mono (fun a w hw => ?_) fun _ w hw => ?_
    · rw [post_bind, post_zoom]
      refine VariableMaps.post_deref fun v hv => ?_
      rw [post_bind, post_zoom, post_modify]
      have hreferred : Since s₀.vars (fun _ => False) (w.setObject a (referred v x.var.argument)) :=
        hw.setObject hv fun _ hc => hc
      have hset := h.setVars hreferred
      rw [post_bind]
      refine post_deref fun o ho => ?_
      rw [post_bind, post_modify, post_zoom]
      have hpush := hset.setFrame hu ho (o.push a x.var.argument)
      unfold releaseEntry
      rw [post_bind, post_get]
      split
      · next hdeleted =>
        refine post_throw.mpr ⟨hpush.remains, fun hreplied => ?_⟩
        rw [hreplied.2.2] at hdeleted
        simp at hdeleted
      · exact post_pure.mpr hpush
    · obtain ⟨hw, hnone⟩ := hw
      refine ⟨(h.setVars hw).remains, fun hreplied => ?_⟩
      rcases hnone with hnone | hnone
      · exact hreplied.1 (Option.map_eq_none_iff.mp hnone)
      · exact hreplied.2.1 hnone

theorem Walk.addVariables {varlst : List Listed} (h : Walk s₀ framelst us s) (hu : u ∉ us)
    (ctx : CStr) :
    Post (varlst.forM (Callstack.addVariable ctx u)) (fun _ => Walk s₀ framelst us)
      (fun _ t => Remains s₀ t ∧ ¬ ∀ x ∈ varlst, x.create ≠ none ∧ x.info ≠ none ∧ x.deleted = true) s := by
  induction varlst generalizing s with
  | nil => exact post_pure.mpr h
  | cons x varlst ih =>
      show Post (Callstack.addVariable ctx u x >>= fun _ => varlst.forM _) _ _ s
      rw [post_bind]
      refine (h.addVariable hu ctx x).mono (fun _ t ht => ?_) fun _ t ht => ?_
      · refine (ih ht).mono (fun _ _ hw => hw) fun _ w hw => ⟨hw.1, fun hreplied => hw.2 ?_⟩
        exact fun y hy => hreplied y (List.mem_cons_of_mem _ hy)
      · exact ⟨ht.1, fun hreplied => ht.2 (hreplied x List.mem_cons_self)⟩

/-- A frame goes to the callstack. -/
theorem Walk.addTail (h : Walk s₀ framelst us s) (hu : u ∉ us) {E : Unit → State → Prop} :
    Post (addTail u) (fun _ t => Walk s₀ framelst us t ∧ t.frames = s.frames) E s := by
  unfold Callstack.addTail
  rw [post_bind, post_get]
  split
  · exact post_undefined
  · next links callstack hadd =>
    obtain ⟨hsame, hends⟩ := h.ends.addTail hu hadd
    refine post_modify.mpr ⟨{ h with
      remains := { h.remains with }
      rest := h.rest.congr hsame
      front := h.front.congr hsame
      ends := hends }, rfl⟩

/-- The first frame to come is taken out of the list. -/
theorem Walk.rm (h : Walk s₀ framelst (u :: us) s) {E : Unit → State → Prop} :
    Post (rm framelst u) (fun lst t => Walk s₀ lst us t ∧ t.frames = s.frames) E s := by
  unfold Callstack.rm
  rw [post_bind, post_get]
  split
  · exact post_undefined
  · next links lst hrm =>
    rw [post_bind, post_modify, post_pure]
    obtain ⟨hrest, hfront, hends⟩ := h.rest.rm h.front h.ends hrm
    exact ⟨{
      remains := { h.remains with }
      rest := hrest
      front := hfront
      ends := hends
      fresh := fun w hw => h.fresh w (List.mem_cons_of_mem _ hw)
      unlisted := fun k w hk hmem => h.unlisted k w hk (List.mem_cons_of_mem _ hmem) }, rfl⟩

/-- A new frame is deleted. -/
theorem Walk.release (h : Walk s₀ framelst us s) (hbounded : Bounded s₀) (hnew : s₀.next ≤ u)
    (hu : u ∉ us) {f : Frame} (hf : s.frames.lookup u = some { frame := f }) (deleted : Bool)
    {E : Unit → State → Prop} : Post (release u deleted) (fun _ => Walk s₀ framelst us) E s := by
  unfold Callstack.release
  rw [post_bind]
  refine post_deref fun o ho => ?_
  rw [hf, Option.some.injEq] at ho
  subst ho
  rw [post_bind, post_modify]
  dsimp only
  -- it has no variables
  refine post_attempt.mpr (post_zoom.mpr (post_pure.mpr ?_))
  have hlookup : ∀ w, w ≠ u → (s.frames.erase u).lookup w = s.frames.lookup w := fun w hw =>
    AList.lookup_erase_ne hw
  refine { h with
    remains := { h.remains with
      frames := fun g o hg => ?_
      below := fun g o hg => h.remains.below g o (lookup_erase_eq_some.mp hg).2 }
    fresh := fun w hw => ?_ }
  · have hlt := hbounded.below g o hg
    show (s.frames.erase u).lookup g ≠ none
    rw [hlookup g (by omega)]
    exact h.remains.frames g o hg
  · obtain ⟨hw', f', hf'⟩ := h.fresh w hw
    exact ⟨hw', f', (hlookup w (ne_of_mem_of_not_mem hw hu)).trans hf'⟩

/-- A frame comes to the callstack: it is entered, or it is deleted and another one takes its place. -/
theorem Walk.enter (h : Walk s₀ framelst (u :: us) s) (hbounded : Bounded s₀) (ctx function : CStr)
    (varlst : List Listed) (deleted : Bool) :
    Post (enter ctx function framelst u varlst deleted) (fun lst => Walk s₀ lst us)
      (fun _ t => Remains s₀ t ∧
        ¬ ∀ x ∈ varlst, x.create ≠ none ∧ x.info ≠ none ∧ x.deleted = true) s := by
  obtain ⟨hnew, f, hf⟩ := h.fresh u List.mem_cons_self
  obtain ⟨hu, -⟩ := List.nodup_cons.mp h.rest.nodup
  have htail : Walk s₀ framelst us s := {
    remains := h.remains
    rest := h.rest.tail
    front := h.front.tail h.rest
    ends := h.ends.tail
    fresh := fun w hw => h.fresh w (List.mem_cons_of_mem _ hw)
    unlisted := fun k w hk hmem => h.unlisted k w hk (List.mem_cons_of_mem _ hmem) }
  unfold Callstack.enter acquire
  rw [post_bind, post_bind, post_get]
  dsimp only
  split
  · next g hg =>
    have hg' := h.unlisted _ g hg
    rw [post_pure, post_bind]
    refine (h.addTail hg').mono (fun _ t ht => ?_) fun _ _ hE => hE
    obtain ⟨ht, hframes⟩ := ht
    rw [if_pos (fun heq : g = u => hg' (heq ▸ List.mem_cons_self)), post_bind]
    refine ht.rm.mono (fun lst w hw => ?_) fun _ _ hE => hE
    obtain ⟨hw, hframes'⟩ := hw
    rw [post_bind]
    refine (hw.release hbounded hnew hu (f := f) ?_ deleted).mono (fun _ x hx => ?_) fun _ _ hE => hE
    · rw [hframes', hframes]
      exact hf
    · exact post_pure.mpr hx
  · rw [post_bind]
    refine post_deref fun o ho => ?_
    rw [post_bind, post_modify, post_pure, post_bind]
    have hentered : Walk s₀ framelst us { s.setFrame u { o with context := some (ctx ++ ':' :: function) }
        with frameLst := s.frameLst.insert (ctx ++ ':' :: function) u } := by
      have hset := htail.setFrame hu ho { o with context := some (ctx ++ ':' :: function) }
      refine { hset with remains := { hset.remains with listed := ?_ }, unlisted := ?_ }
      · intro k g hg
        rcases lookup_insert_eq_some.mp hg with ⟨-, rfl⟩ | ⟨-, hg⟩
        · exact h.remains.below u o ho
        · exact h.remains.listed k g hg
      · intro k g hg
        rcases lookup_insert_eq_some.mp hg with ⟨-, rfl⟩ | ⟨-, hg⟩
        · exact hu
        · exact htail.unlisted k g hg
    refine (hentered.addTail hu).mono (fun _ t ht => ?_) fun _ _ hE => hE
    rw [if_neg (not_not_intro rfl), post_bind]
    exact (ht.1.addVariables hu ctx).mono (fun _ w hw => post_pure.mpr hw) fun _ _ hE => hE

/-! ## Updates -/

/-- The loop body for a frame. -/
theorem Walk.addFrame (h : Walk s₀ framelst (u :: us) s) (hbounded : Bounded s₀) (ctx : CStr)
    (l : Level) :
    Post (addFrame ctx framelst u l) (fun r => Walk s₀ r.2 us)
      (fun _ t => Remains s₀ t ∧ ¬ l.Replied) s := by
  unfold Callstack.addFrame
  cases hvars : l.vars with
  | none => exact post_throw.mpr ⟨h.remains, fun hreplied => hreplied.1 hvars⟩
  | some varlst =>
      dsimp only
      rw [post_bind]
      refine post_deref fun o ho => ?_
      split
      · rw [post_bind]
        refine (h.enter hbounded _ _ varlst l.deleted).mono (fun _ t ht => post_pure.mpr ht)
          fun _ t ht => ⟨ht.1, fun hreplied => ht.2 ?_⟩
        intro x hx
        refine hreplied.2 x ?_
        rw [hvars]
        exact hx
      · exact post_undefined

/-- `next` is read of a frame that is to come. -/
theorem Walk.following (h : Walk s₀ framelst us s) {E : Unit → State → Prop} :
    Post (following us.head?) (fun next t => t = s ∧ next = us.tail.head?) E s := by
  unfold Callstack.following
  rcases us with _ | ⟨u, us⟩
  · exact post_pure.mpr ⟨rfl, rfl⟩
  · show Post (deref u >>= _) _ _ s
    rw [post_bind]
    refine post_deref fun o ho => ?_
    rw [post_bind, post_get, post_pure]
    exact ⟨rfl, h.rest.next⟩

theorem Walk.loop (h : Walk s₀ framelst us s) (hbounded : Bounded s₀) (ctx : CStr)
    (ls : List Level) :
    Post (loop ls ctx framelst us.head? us.tail.head?) (fun _ => Remains s₀)
      (fun _ t => Remains s₀ t ∧ ¬ ∀ l ∈ ls, l.Replied) s := by
  induction ls generalizing s ctx framelst us with
  | nil =>
      cases us with
      | nil => exact post_pure.mpr h.remains
      | cons u us => exact post_undefined
  | cons l ls ih =>
      cases us with
      | nil => exact post_pure.mpr h.remains
      | cons u us =>
          show Post (Callstack.addFrame ctx framelst u l >>= _) _ _ s
          rw [post_bind]
          refine (h.addFrame hbounded ctx l).mono (fun r t ht => ?_) fun _ t ht =>
            ⟨ht.1, fun hreplied => ht.2 (hreplied l List.mem_cons_self)⟩
          rw [post_bind]
          refine ht.following.mono (fun next w hw => ?_) fun _ _ hE => hE
          obtain ⟨rfl, rfl⟩ := hw
          exact (ih ht r.1).mono (fun _ _ hx => hx) fun _ x hx =>
            ⟨hx.1, fun hreplied => hx.2 fun l' hl' => hreplied l' (List.mem_cons_of_mem _ hl')⟩

/-- The list of new frames, while it is built. -/
structure Listing (s₀ : State) (framelst : Option Nat) (us : List Nat) (s : State) : Prop where
  remains : Remains s₀ s
  isList : IsList s.links framelst us
  callstack : s.callstack = none
  fresh : ∀ u ∈ us, s₀.next ≤ u ∧ ∃ f, s.frames.lookup u = some { frame := f }
  unlisted : ∀ k u, s.frameLst.lookup k = some u → u ∉ us

theorem Listing.walk (h : Listing s₀ framelst us s) : Walk s₀ framelst us s where
  remains := h.remains
  rest := h.isList.rest
  front := h.isList.front
  ends first hfirst := by
    rw [h.callstack] at hfirst
    cases hfirst
  fresh := h.fresh
  unlisted := h.unlisted

/-- The state with a new frame in front of the list. -/
def State.addFrame (s : State) (framelst : Option Nat) (f : Frame) : State :=
  { s with
    frames := s.frames.insert s.next { frame := f }
    next := s.next + 1
    links := (s.links.addHead framelst s.next).1 }

/-- A new frame comes to the front of the list. -/
theorem Listing.cons (h : Listing s₀ framelst us s) (f : Frame) :
    Listing s₀ (s.links.addHead framelst s.next).2 (s.next :: us) (s.addFrame framelst f) := by
  have hus : s.next ∉ us := by
    intro hmem
    obtain ⟨-, f, hf⟩ := h.fresh _ hmem
    exact absurd (h.remains.below _ _ hf) (Nat.lt_irrefl _)
  have hold : ∀ g, g ≠ s.next → (s.frames.insert s.next { frame := f }).lookup g =
      s.frames.lookup g := fun g hg => AList.lookup_insert_ne hg
  refine {
    remains := { h.remains with
      next := h.remains.next.trans (Nat.le_succ _)
      frames := fun g o hg => ?_
      below := fun g o hg => ?_
      listed := fun k g hg => Nat.lt_succ_of_lt (h.remains.listed k g hg) }
    isList := h.isList.addHead hus
    callstack := h.callstack
    fresh := fun w hw => ?_
    unlisted := fun k w hk hmem => ?_ }
  · by_cases hgn : g = s.next
    · rw [hgn]
      show (s.frames.insert s.next _).lookup s.next ≠ none
      rw [AList.lookup_insert]
      exact Option.some_ne_none _
    · show (s.frames.insert s.next _).lookup g ≠ none
      rw [hold g hgn]
      exact h.remains.frames g o hg
  · rcases lookup_insert_eq_some.mp hg with ⟨rfl, -⟩ | ⟨-, hg⟩
    · exact Nat.lt_succ_self _
    · exact Nat.lt_succ_of_lt (h.remains.below g o hg)
  · rcases List.mem_cons.mp hw with rfl | hw
    · exact ⟨h.remains.next, f, AList.lookup_insert _⟩
    · obtain ⟨hnew, f', hf⟩ := h.fresh w hw
      exact ⟨hnew, f', (hold w (ne_of_mem_of_not_mem hw hus)).trans hf⟩
  · rcases List.mem_cons.mp hmem with rfl | hmem
    · exact absurd (h.remains.listed k _ hk) (Nat.lt_irrefl _)
    · exact h.unlisted k w hk hmem

theorem Listing.listFrames (h : Listing s₀ framelst us s) (ls : List Level)
    {E : Unit → State → Prop} :
    Post (listFrames ls framelst) (fun lst t => ∃ us, Listing s₀ lst us t) E s := by
  induction ls generalizing s framelst us with
  | nil => exact post_pure.mpr ⟨us, h⟩
  | cons l ls ih =>
      unfold Callstack.listFrames
      rw [post_bind, post_get]
      dsimp only
      rw [post_bind, post_modify]
      exact ih (h.cons l.frame)

/-- gdb answers the commands of an update. -/
def Answers (frames : Option (List Level)) : Prop := ∃ ls, frames = some ls ∧ ∀ l ∈ ls, l.Replied

/-- No update deletes a frame or a variable that was there before, and one that fails has got no answer
to one of its commands. -/
theorem post_update_remains (h : Bounded s) (window : Bool) (frames : Option (List Level)) :
    Post (update window frames) (fun _ => Remains s)
      (fun _ t => Remains s t ∧ ¬ Answers frames) s := by
  unfold update
  split
  · rw [post_bind, post_modify]
    cases frames with
    | none => exact post_throw.mpr ⟨{ h with }, fun ⟨_, hsome, _⟩ => nomatch hsome⟩
    | some ls =>
        dsimp only
        have hlisting : Listing s none [] { s with callstack := none } := {
          remains := { h with }
          isList := isList_nil _
          callstack := rfl
          fresh := fun _ hw => absurd hw List.not_mem_nil
          unlisted := fun _ _ _ => List.not_mem_nil }
        rw [post_bind]
        refine (hlisting.listFrames ls).mono (fun lst t ht => ?_) fun _ _ hE => hE
        obtain ⟨us, ht⟩ := ht
        obtain rfl : lst = us.head? := ht.isList.head
        rw [post_bind]
        refine ht.walk.following.mono (fun next w hw => ?_) fun _ _ hE => hE
        obtain ⟨rfl, rfl⟩ := hw
        refine (ht.walk.loop h [] ls.reverse).mono (fun _ _ hx => hx) fun _ x hx => ⟨hx.1, ?_⟩
        rintro ⟨_, ⟨⟩, hreplied⟩
        exact hx.2 fun l hl => hreplied l (List.mem_reverse.mp hl)
  · exact post_pure.mpr h

end Vimgdb.Gdb.Callstack
