import Vimgdb.Gdb.Callstack
import Vimgdb.Lib.Runs

/-!
# The references to the variables of the callstack

A variable counts who refers to it: gdb, and each place in the lists of a frame that holds it.

* `occurrences`: how often a variable is listed.
* `Balanced`: the counts are right, with `P` to be released.
* `run_counts`: they are right in every run, as long as they fit 32 bits.
-/

namespace Vimgdb.Gdb.Callstack

open Programs Maps Runs

/-! ## Occurrences -/

/-- The variables of a frame. -/
def Object.vars (o : Object) : List Nat := o.args ++ o.locals

/-- The variables the frames in memory refer to. -/
def State.references (s : State) : List Nat := refs Object.vars s.frames

/-- How often a variable is in the lists of the frames. -/
def State.occurrences (s : State) (a : Nat) : Nat := s.references.count a

/-- While the variables `P` are to be released: those that are referred to are in memory, no variable
is listed more than `n` times, and the counts are right in their 32 bits. -/
structure Balanced (n : Nat) (P : List Nat) (s : State) : Prop where
  live : ∀ a, a ∈ s.references ++ P → ∃ v, s.vars.heap.lookup a = some v
  refcnt : ∀ a v, s.vars.heap.lookup a = some v →
    v.refcnt = BitVec.ofNat 32 (1 + (s.references ++ P).count a)
  bound : ∀ a, (s.references ++ P).count a ≤ n
  below : ∀ a v, s.vars.heap.lookup a = some v → a < s.vars.next
  frames : ∀ f o, s.frames.lookup f = some o → f < s.next

variable {n m : Nat} {P : List Nat} {s t : State}

theorem Balanced.mono (h : Balanced n P s) (hle : n ≤ m) : Balanced m P s :=
  { h with bound := fun a => (h.bound a).trans hle }

/-- What does not change the variables, nor what refers to them, keeps the balance. -/
theorem Balanced.congr (h : Balanced n P s) (hvars : t.vars = s.vars)
    (hrefs : ∀ a, t.references.count a = s.references.count a)
    (hframes : ∀ f o, t.frames.lookup f = some o → f < t.next) : Balanced n P t where
  live a ha := by
    rw [hvars]
    refine h.live a ?_
    rw [← List.count_pos_iff, List.count_append] at ha ⊢
    rwa [← hrefs]
  refcnt a v ha := by
    rw [hvars] at ha
    rw [List.count_append, hrefs, ← List.count_append]
    exact h.refcnt a v ha
  bound a := by
    rw [List.count_append, hrefs, ← List.count_append]
    exact h.bound a
  below := by rw [hvars]; exact h.below
  frames := hframes

/-- Only the pointers, the map or the callstack change. -/
theorem Balanced.same (h : Balanced n P s) (hvars : t.vars = s.vars) (hframes : t.frames = s.frames)
    (hnext : t.next = s.next) : Balanced n P t := by
  refine h.congr hvars (fun a => ?_) fun f o hf => ?_
  · unfold State.references
    rw [hframes]
  · rw [hframes] at hf
    rw [hnext]
    exact h.frames f o hf

/-- A frame changes. -/
theorem count_setFrame {f : Nat} {o : Object} (ho : s.frames.lookup f = some o) (o' : Object)
    (a : Nat) : (s.setFrame f o').references.count a + o.vars.count a =
      s.references.count a + o'.vars.count a := by
  have hrefs : (s.setFrame f o').references = o'.vars ++ refs Object.vars (s.frames.erase f) := rfl
  have hcount := count_refs Object.vars ho a
  unfold State.references
  unfold State.references at hrefs
  rw [hrefs, List.count_append, hcount]
  omega

theorem below_insert {frames : PointerTree.Heap Object} {next f : Nat} {o' : Object}
    (h : ∀ f o, frames.lookup f = some o → f < next) (hf : f < next) :
    ∀ g o, (frames.insert f o').lookup g = some o → g < next := by
  intro g o hg
  rcases lookup_insert_eq_some.mp hg with ⟨rfl, -⟩ | ⟨-, hg⟩
  · exact hf
  · exact h g o hg

/-! ## Frames -/

theorem keeps_acquire (name context : CStr) (src : Nat) :
    Keeps (Balanced n P) (acquire name context src) := by
  intro s h
  unfold acquire
  rw [post_bind, post_get]
  dsimp only
  split
  · exact post_pure.mpr h
  · rw [post_bind]
    refine post_deref fun o ho => ?_
    rw [post_bind, post_modify, post_pure]
    refine h.congr rfl (fun a => ?_) (below_insert h.frames (h.frames _ _ ho))
    have hcount := count_setFrame ho { o with context := some (context ++ ':' :: name) } a
    have hvars : Object.vars { o with context := some (context ++ ':' :: name) } = o.vars := rfl
    rw [hvars] at hcount
    exact Nat.add_right_cancel hcount

theorem keeps_addTail (a : Nat) : Keeps (Balanced n P) (addTail a) := by
  intro s h
  unfold addTail
  rw [post_bind, post_get]
  split
  · exact post_undefined
  · exact post_modify.mpr (h.same rfl rfl rfl)

theorem keeps_rm (framelst : Option Nat) (a : Nat) : Keeps (Balanced n P) (rm framelst a) := by
  intro s h
  unfold rm
  rw [post_bind, post_get]
  split
  · exact post_undefined
  · rw [post_bind, post_modify, post_pure]
    exact h.same rfl rfl rfl

theorem keeps_following (a : Option Nat) : Keeps (Balanced n P) (following a) := by
  intro s h
  unfold following
  split
  · exact post_pure.mpr h
  · rw [post_bind]
    refine post_deref fun o ho => ?_
    rw [post_bind, post_get, post_pure]
    exact h

theorem keeps_listFrames (ls : List Level) (framelst : Option Nat) :
    Keeps (Balanced n P) (listFrames ls framelst) := by
  induction ls generalizing framelst with
  | nil => exact keeps_pure framelst
  | cons l ls ih =>
      intro s h
      unfold listFrames
      rw [post_bind, post_get]
      dsimp only
      rw [post_bind, post_modify]
      refine ih _ _ (h.congr rfl (fun a => ?_) ?_)
      · -- the new frame refers to nothing
        have hnone : s.frames.lookup s.next = none := by
          by_contra hne
          obtain ⟨o, ho⟩ := Option.ne_none_iff_exists'.mp hne
          exact absurd (h.frames _ o ho) (Nat.lt_irrefl _)
        show (refs Object.vars (s.frames.insert s.next _)).count a = _
        rw [refs_insert, erase_of_lookup_eq_none hnone]
        rfl
      · refine below_insert (fun f o hf => ?_) (Nat.lt_succ_self _)
        exact (h.frames f o hf).trans (Nat.lt_succ_self _)

/-! ## Variables -/

/-- A variable that is found has one reference more, one that is created has one; the other variables
stay. -/
structure Acquired (u : VariableMaps.State) (a : Nat) (w : VariableMaps.State) : Prop where
  found : ∃ v, w.heap.lookup a = some v ∧
    ((∃ v₀, u.heap.lookup a = some v₀ ∧ v.refcnt = v₀.refcnt + 1) ∨
      u.heap.lookup a = none ∧ v.refcnt = 1)
  others : ∀ b, b ≠ a → w.heap.lookup b = u.heap.lookup b
  below : ∀ b v, w.heap.lookup b = some v → b < w.next

/-- Nothing has happened to the variables, or one that nothing refers to is new. -/
structure Failed (u w : VariableMaps.State) : Prop where
  heap : ∀ b v, w.heap.lookup b = some v →
    u.heap.lookup b = some v ∨ u.heap.lookup b = none ∧ v.refcnt = 1
  kept : ∀ b v, u.heap.lookup b = some v → w.heap.lookup b = some v
  below : ∀ b v, w.heap.lookup b = some v → b < w.next

theorem lookup_next {u : VariableMaps.State}
    (h : ∀ a v, u.heap.lookup a = some v → a < u.next) : u.heap.lookup u.next = none := by
  by_contra hne
  obtain ⟨v, hv⟩ := Option.ne_none_iff_exists'.mp hne
  exact absurd (h _ v hv) (Nat.lt_irrefl _)

theorem post_acquireVariable {u : VariableMaps.State}
    (h : ∀ a v, u.heap.lookup a = some v → a < u.next) (ctx name : CStr)
    (create info : Option Variable) :
    Post (VariableMaps.acquire .callstack ctx name create info) (Acquired u) (fun _ => Failed u) u := by
  have hnext := lookup_next h
  refine VariableMaps.acquire_spec (fun _ => ⟨fun b v hb => Or.inl hb, fun b v hb => hb, h⟩)
    (fun _ a v _ hv => ?_) fun _ _ c _ _ _ => ?_
  · refine ⟨⟨_, AList.lookup_insert _, Or.inl ⟨v, hv, rfl⟩⟩, fun b hb => AList.lookup_insert_ne hb, ?_⟩
    intro b w hb
    rcases lookup_insert_eq_some.mp hb with ⟨rfl, -⟩ | ⟨-, hb⟩
    · exact h _ v hv
    · exact h b w hb
  · have hfailed : Failed u (u.addRoot (VariableMaps.key .callstack ctx name) c .callstack) := by
      refine ⟨?_, ?_, ?_⟩
      · intro b v hb
        rcases lookup_insert_eq_some.mp hb with ⟨rfl, rfl⟩ | ⟨-, hb⟩
        · exact Or.inr ⟨hnext, rfl⟩
        · exact Or.inl hb
      · intro b v hb
        refine lookup_insert_eq_some.mpr (Or.inr ⟨fun heq => ?_, hb⟩)
        rw [heq, hnext] at hb
        cases hb
      · intro b v hb
        rcases lookup_insert_eq_some.mp hb with ⟨rfl, -⟩ | ⟨-, hb⟩
        · exact Nat.lt_succ_self _
        · exact (h b v hb).trans (Nat.lt_succ_self _)
    refine ⟨fun _ => hfailed, fun i _ => ⟨⟨_, AList.lookup_insert _, Or.inr ⟨hnext, rfl⟩⟩, ?_, ?_⟩⟩
    · intro b hb
      exact (AList.lookup_insert_ne hb).trans (AList.lookup_insert_ne hb)
    · intro b w hb
      rcases lookup_insert_eq_some.mp hb with ⟨rfl, -⟩ | ⟨-, hb⟩
      · exact Nat.lt_succ_self _
      · exact hfailed.below b w hb

/-- What nothing refers to may come. -/
theorem Balanced.failed (h : Balanced n P s) {w : VariableMaps.State} (hw : Failed s.vars w) :
    Balanced n P { s with vars := w } where
  live a ha := by
    obtain ⟨v, hv⟩ := h.live a ha
    exact ⟨v, hw.kept a v hv⟩
  refcnt a v ha := by
    rcases hw.heap a v ha with ha | ⟨hnone, hone⟩
    · exact h.refcnt a v ha
    · have hcount : (s.references ++ P).count a = 0 := by
        rw [List.count_eq_zero]
        intro hmem
        obtain ⟨v', hv'⟩ := h.live a hmem
        rw [hnone] at hv'
        cases hv'
      show v.refcnt = BitVec.ofNat 32 (1 + (s.references ++ P).count a)
      rw [hcount, hone]
      rfl
  bound := h.bound
  below := hw.below
  frames := h.frames

/-- The count of a variable that is acquired for a frame. -/
theorem refcnt_referred (h : Balanced n P s) {a : Nat} {w : VariableMaps.State}
    (hw : Acquired s.vars a w) (hn : n + 1 < 2 ^ 32) {v : VariableMaps.Object}
    (hv : w.heap.lookup a = some v) (argument : Bool) :
    (referred v argument).refcnt = BitVec.ofNat 32 (1 + ((s.references ++ P).count a + 1)) := by
  obtain ⟨v', hv', hcases⟩ := hw.found
  obtain rfl := Option.some.inj (hv.symm.trans hv')
  have hbound := h.bound a
  show (if v.refcnt = 1 then v.refcnt + 1 else v.refcnt) = _
  rcases hcases with ⟨v₀, hv₀, hcnt⟩ | ⟨hnone, hone⟩
  · -- found: the count was at least one, so it is not one now
    have hadd : ∀ k, BitVec.ofNat 32 (k + 1) = BitVec.ofNat 32 k + 1 := fun k => BitVec.ofNat_add k 1
    have hsum : v.refcnt = BitVec.ofNat 32 (1 + ((s.references ++ P).count a + 1)) := by
      rw [hcnt, h.refcnt a v₀ hv₀, ← Nat.add_assoc, hadd]
    have hne : v.refcnt ≠ 1 := by
      intro heq
      have hnat := congrArg BitVec.toNat (hsum.symm.trans heq)
      rw [BitVec.toNat_ofNat] at hnat
      have hone : (1 : BitVec 32).toNat = 1 := rfl
      rw [hone] at hnat
      omega
    rw [if_neg hne, hsum]
  · -- new: nothing refers to it yet
    have hcount : (s.references ++ P).count a = 0 := by
      rw [List.count_eq_zero]
      intro hmem
      obtain ⟨v', hv'⟩ := h.live a hmem
      rw [hnone] at hv'
      cases hv'
    rw [if_pos hone, hone, hcount]
    rfl

theorem vars_push (o : Object) (a : Nat) (argument : Bool) (b : Nat) :
    (o.push a argument).vars.count b = o.vars.count b + [a].count b := by
  unfold Object.push Object.vars
  cases argument <;> simp only [List.count_append, if_true, Bool.false_eq_true, if_false] <;> omega

/-- A frame gets a variable. -/
theorem Balanced.push (h : Balanced n P s) (hn : n + 1 < 2 ^ 32) {a g : Nat}
    {w : VariableMaps.State} (hw : Acquired s.vars a w) {v : VariableMaps.Object} {o : Object}
    (hv : w.heap.lookup a = some v) (ho : s.frames.lookup g = some o) (argument : Bool) :
    Balanced (n + 1) P
      ({ s with vars := w.setObject a (referred v argument) }.setFrame g (o.push a argument)) := by
  have hrefs : ∀ b, ({ s with vars := w.setObject a (referred v argument) }.setFrame g
      (o.push a argument)).references.count b = s.references.count b + [a].count b := by
    intro b
    have hcount := @count_setFrame { s with vars := w.setObject a (referred v argument) } g o ho
      (o.push a argument) b
    rw [vars_push] at hcount
    have hold : State.references { s with vars := w.setObject a (referred v argument) } =
        s.references := rfl
    rw [hold] at hcount
    omega
  constructor
  · intro b hb
    show ∃ u, (w.heap.insert a _).lookup b = some u
    by_cases hba : b = a
    · subst hba
      exact ⟨_, AList.lookup_insert _⟩
    · rw [AList.lookup_insert_ne hba, hw.others b hba]
      apply h.live
      rw [← List.count_pos_iff, List.count_append] at hb ⊢
      rwa [hrefs, List.count_singleton, if_neg (by simpa using Ne.symm hba), Nat.add_zero] at hb
  · intro b u hb
    rw [List.count_append, hrefs]
    rcases lookup_insert_eq_some.mp hb with ⟨rfl, rfl⟩ | ⟨hba, hb⟩
    · rw [refcnt_referred h hw hn hv, List.count_append, List.count_singleton_self]
      congr 2
      omega
    · rw [List.count_singleton, if_neg (by simpa using Ne.symm hba), Nat.add_zero,
        ← List.count_append]
      rw [hw.others b hba] at hb
      exact h.refcnt b u hb
  · intro b
    have hbound := h.bound b
    rw [List.count_append] at hbound
    rw [List.count_append, hrefs, List.count_singleton]
    split <;> omega
  · intro b u hb
    rcases lookup_insert_eq_some.mp hb with ⟨rfl, -⟩ | ⟨-, hb⟩
    · exact hw.below _ v hv
    · exact hw.below b u hb
  · exact below_insert h.frames (h.frames g o ho)

/-- The loop body for a variable. -/
theorem post_addVariable (h : Balanced n [] s) (hn : n + 1 < 2 ^ 32) (ctx : CStr) (g : Nat)
    (x : Listed) :
    Post (addVariable ctx g x) (fun _ => Balanced (n + 1) []) (fun _ => Balanced (n + 1) []) s := by
  unfold addVariable
  split
  · exact post_undefined
  · next name hname =>
    dsimp only
    unfold onVars
    rw [post_bind, post_zoom]
    refine (post_acquireVariable h.below ctx name _ _).mono (fun a w hw => ?_) fun _ w hw =>
      (h.failed hw).mono (Nat.le_succ n)
    rw [post_bind, post_zoom]
    refine VariableMaps.post_deref fun v hv => ?_
    rw [post_bind, post_zoom, post_modify, post_bind]
    refine post_deref fun o ho => ?_
    rw [post_bind, post_modify, post_zoom]
    have hpush := h.push hn hw hv ho x.var.argument
    unfold releaseEntry
    rw [post_bind, post_get]
    split
    · exact post_throw.mpr hpush
    · exact post_pure.mpr hpush

theorem post_addVariables (h : Balanced n [] s) {xs : List Listed} (hn : n + xs.length < 2 ^ 32)
    (ctx : CStr) (g : Nat) :
    Post (xs.forM (addVariable ctx g)) (fun _ => Balanced (n + xs.length) [])
      (fun _ => Balanced (n + xs.length) []) s := by
  induction xs generalizing n s with
  | nil => exact post_pure.mpr h
  | cons x xs ih =>
      rw [List.length_cons] at hn ⊢
      show Post (addVariable ctx g x >>= fun _ => xs.forM (addVariable ctx g)) _ _ s
      rw [post_bind, show n + (xs.length + 1) = n + 1 + xs.length by omega]
      exact (post_addVariable h (by omega) ctx g x).mono (fun _ t ht => ih ht (by omega))
        fun _ t ht => ht.mono (by omega)

/-! ## Releases -/

/-- A reference is dropped.  The variable is not deleted, since that of gdb is left. -/
theorem Balanced.release {a : Nat} (h : Balanced n (a :: P) s) (hn : n < 2 ^ 32) (deleted : Bool) :
    ∃ w, exec (VariableMaps.release a deleted) s.vars = some (.ok (), w) ∧
      (∀ b, (w.heap.lookup b).isSome = (s.vars.heap.lookup b).isSome) ∧
      Balanced n P { s with vars := w } := by
  obtain ⟨v, hv⟩ := h.live a (List.mem_append_right _ List.mem_cons_self)
  have hcons : ∀ b, (s.references ++ a :: P).count b = (s.references ++ P).count b + [a].count b := by
    intro b
    rw [List.count_append, List.count_cons, List.count_append, List.count_singleton]
    omega
  have hadd : ∀ k, BitVec.ofNat 32 (k + 1) - 1 = BitVec.ofNat 32 k := by
    intro k
    rw [BitVec.ofNat_add]
    exact BitVec.add_sub_cancel _ _
  have hcnt : v.refcnt - 1 = BitVec.ofNat 32 (1 + (s.references ++ P).count a) := by
    rw [h.refcnt a v hv, hcons, List.count_singleton_self, ← Nat.add_assoc, hadd]
  have hne : v.refcnt - 1 ≠ 0 := by
    intro heq
    have hnat := congrArg BitVec.toNat (hcnt.symm.trans heq)
    have hbound := h.bound a
    rw [hcons, List.count_singleton_self] at hbound
    rw [BitVec.toNat_ofNat] at hnat
    have hzero : (0 : BitVec 32).toNat = 0 := rfl
    rw [hzero] at hnat
    omega
  refine ⟨s.vars.setObject a { v with refcnt := v.refcnt - 1 }, ?_, ?_, ?_⟩
  · obtain ⟨_, _, hderef, hobject, hstate⟩ :
        Returns (VariableMaps.deref a) (fun x t => x = v ∧ t = s.vars) s.vars :=
      VariableMaps.returns_deref hv ⟨rfl, rfl⟩
    rw [hobject, hstate] at hderef
    unfold VariableMaps.release
    rw [exec_bind, hderef]
    show exec (modify _ >>= _) _ = _
    rw [exec_bind]
    show exec (if v.refcnt - 1 = 0 then _ else pure ()) _ = _
    rw [if_neg hne]
    rfl
  · intro b
    show ((s.vars.heap.insert a _).lookup b).isSome = _
    by_cases hba : b = a
    · rw [hba, AList.lookup_insert, hv]
      rfl
    · rw [AList.lookup_insert_ne hba]
  · constructor
    · intro b hb
      show ∃ u, (s.vars.heap.insert a _).lookup b = some u
      by_cases hba : b = a
      · subst hba
        exact ⟨_, AList.lookup_insert _⟩
      · rw [AList.lookup_insert_ne hba]
        apply h.live
        rcases List.mem_append.mp hb with hb | hb
        · exact List.mem_append_left _ hb
        · exact List.mem_append_right _ (List.mem_cons_of_mem a hb)
    · intro b u hb
      show u.refcnt = BitVec.ofNat 32 (1 + (s.references ++ P).count b)
      rcases lookup_insert_eq_some.mp hb with ⟨rfl, rfl⟩ | ⟨hba, hb⟩
      · exact hcnt
      · rw [h.refcnt b u hb, hcons, List.count_singleton, if_neg (by simpa using Ne.symm hba),
          Nat.add_zero]
    · intro b
      exact (Nat.le_add_right _ _).trans ((hcons b).symm.trans_le (h.bound b))
    · intro b u hb
      rcases lookup_insert_eq_some.mp hb with ⟨rfl, -⟩ | ⟨-, hb⟩
      · exact h.below _ v hv
      · exact h.below b u hb
    · exact h.frames

/-- The references of a frame are dropped. -/
theorem Balanced.releases (h : Balanced n P s) (hn : n < 2 ^ 32) (deleted : Bool) :
    ∃ w, exec (P.forM fun v => VariableMaps.release v deleted) s.vars = some (.ok (), w) ∧
      (∀ b, (w.heap.lookup b).isSome = (s.vars.heap.lookup b).isSome) ∧
      Balanced n [] { s with vars := w } := by
  induction P generalizing s with
  | nil => exact ⟨s.vars, rfl, fun _ => rfl, h⟩
  | cons a P ih =>
      obtain ⟨w, hw, hlive, hbalanced⟩ := h.release hn deleted
      obtain ⟨w', hw', hlive', hbalanced'⟩ := ih hbalanced
      refine ⟨w', ?_, fun b => (hlive' b).trans (hlive b), hbalanced'⟩
      show exec (VariableMaps.release a deleted >>= fun _ => P.forM _) _ = _
      rw [exec_bind, hw]
      exact hw'

/-- A frame is released: its variables stay. -/
theorem exec_release (h : Balanced n [] s) (hn : n < 2 ^ 32) {f : Nat} {o : Object}
    (ho : s.frames.lookup f = some o) (deleted : Bool) :
    ∃ t, exec (release f deleted) s = some (.ok (), t) ∧
      (∀ a, (t.vars.heap.lookup a).isSome = (s.vars.heap.lookup a).isSome) ∧ Balanced n [] t := by
  -- the map of the frames does not matter
  have hcount : ∀ a lst, s.references.count a =
      (State.references { s with frames := s.frames.erase f, frameLst := lst } ++ o.vars).count a := by
    intro a lst
    have hcount := count_refs Object.vars ho a
    rw [List.count_append, Nat.add_comm]
    exact hcount
  have hrest : Balanced n o.vars { s with frames := s.frames.erase f } := by
    constructor
    · intro a ha
      apply h.live a
      rw [← List.count_pos_iff, ← hcount] at ha
      rw [List.append_nil]
      exact List.count_pos_iff.mp ha
    · intro a v hv
      rw [← hcount, h.refcnt a v hv, List.append_nil]
    · intro a
      rw [← hcount]
      have hbound := h.bound a
      rwa [List.append_nil] at hbound
    · exact h.below
    · exact fun g o' hg => h.frames g o' (lookup_erase_eq_some.mp hg).2
  obtain ⟨w, hw, hlive, hbalanced⟩ := hrest.releases hn deleted
  obtain ⟨lst, hlst⟩ : ∃ lst, exec (release f deleted) s =
      some (.ok (), { s with frames := s.frames.erase f, frameLst := lst, vars := w }) := by
    apply Exists.intro
    obtain ⟨_, _, hderef, hobject, hstate⟩ : Returns (deref f) (fun x t => x = o ∧ t = s) s :=
      returns_deref ho ⟨rfl, rfl⟩
    rw [hobject, hstate] at hderef
    unfold release
    rw [exec_bind, hderef]
    show exec (modify _ >>= _) s = _
    rw [exec_bind]
    show exec (attempt (onVars _)) _ = _
    unfold attempt onVars
    rw [exec_tryCatch, exec_zoom]
    have hforM : exec ((o.args ++ o.locals).forM fun v => VariableMaps.release v deleted) s.vars =
        some (.ok (), w) := hw
    rw [hforM]
    rfl
  exact ⟨_, hlst, hlive, { hbalanced with }⟩

theorem keeps_release (hn : n < 2 ^ 32) (f : Nat) (deleted : Bool) :
    Keeps (Balanced n []) (release f deleted) := by
  intro s h
  cases ho : s.frames.lookup f with
  | none =>
      unfold release
      rw [post_bind]
      refine post_deref fun o hf => ?_
      rw [ho] at hf
      cases hf
  | some o =>
      obtain ⟨t, ht, -, hbalanced⟩ := exec_release h hn ho deleted
      intro r hr
      rw [ht] at hr
      cases hr
      exact hbalanced

/-! ## Updates -/

theorem post_enter (h : Balanced n [] s) {varlst : List Listed} (hn : n + varlst.length < 2 ^ 32)
    (ctx function : CStr) (framelst : Option Nat) (tframe : Nat) (deleted : Bool) :
    Post (enter ctx function framelst tframe varlst deleted)
      (fun _ => Balanced (n + varlst.length) []) (fun _ => Balanced (n + varlst.length) []) s := by
  have hle : n ≤ n + varlst.length := Nat.le_add_right _ _
  unfold enter
  rw [post_bind]
  refine (keeps_acquire function ctx tframe s h).mono (fun frame t ht => ?_) fun _ t ht => ht.mono hle
  rw [post_bind]
  refine (keeps_addTail frame t ht).mono (fun _ u hu => ?_) fun _ u hu => hu.mono hle
  split
  · rw [post_bind]
    refine (keeps_rm framelst tframe u hu).mono (fun lst w hw => ?_) fun _ w hw => hw.mono hle
    rw [post_bind]
    refine (keeps_release (by omega) tframe deleted w hw).mono (fun _ x hx => ?_) fun _ x hx =>
      hx.mono hle
    exact post_pure.mpr (hx.mono hle)
  · rw [post_bind]
    exact (post_addVariables hu hn ctx frame).mono (fun _ w hw => post_pure.mpr hw) fun _ w hw => hw

/-- The variables gdb lists for the frames. -/
def listed (ls : List Level) : Nat := (ls.flatMap fun l => l.vars.getD []).length

theorem listed_cons (l : Level) (ls : List Level) :
    listed (l :: ls) = (l.vars.getD []).length + listed ls := by
  unfold listed
  rw [List.flatMap_cons, List.length_append]

theorem post_addFrame (h : Balanced n [] s) {l : Level} (hn : n + (l.vars.getD []).length < 2 ^ 32)
    (ctx : CStr) (framelst : Option Nat) (tframe : Nat) :
    Post (addFrame ctx framelst tframe l) (fun _ => Balanced (n + (l.vars.getD []).length) [])
      (fun _ => Balanced (n + (l.vars.getD []).length) []) s := by
  unfold addFrame
  cases hvars : l.vars with
  | none => exact post_throw.mpr (h.mono (Nat.le_add_right _ _))
  | some varlst =>
      rw [hvars] at hn
      dsimp only
      rw [post_bind]
      refine post_deref fun o ho => ?_
      split
      · rw [post_bind]
        exact (post_enter h hn _ _ framelst tframe l.deleted).mono
          (fun _ t ht => post_pure.mpr ht) fun _ t ht => ht
      · exact post_undefined

theorem post_loop (h : Balanced n [] s) {ls : List Level} (hn : n + listed ls < 2 ^ 32) (ctx : CStr)
    (framelst entry next : Option Nat) :
    Post (loop ls ctx framelst entry next) (fun _ => Balanced (n + listed ls) [])
      (fun _ => Balanced (n + listed ls) []) s := by
  induction ls generalizing n s ctx framelst entry next with
  | nil =>
      cases entry with
      | none => exact post_pure.mpr h
      | some tframe => exact post_undefined
  | cons l ls ih =>
      cases entry with
      | none => exact post_pure.mpr (h.mono (Nat.le_add_right _ _))
      | some tframe =>
          rw [listed_cons] at hn ⊢
          show Post (addFrame ctx framelst tframe l >>= _) _ _ s
          rw [post_bind, ← Nat.add_assoc]
          refine (post_addFrame h (by omega) ctx framelst tframe).mono (fun r t ht => ?_)
            fun _ t ht => ht.mono (Nat.le_add_right _ _)
          rw [post_bind]
          refine (keeps_following next t ht).mono (fun next' u hu => ?_) fun _ u hu =>
            hu.mono (Nat.le_add_right _ _)
          exact ih hu (by omega) _ _ _ _

/-- The number of variables gdb lists for an update. -/
def listedFor (frames : Option (List Level)) : Nat := listed (frames.getD [])

theorem listed_reverse (ls : List Level) : listed ls.reverse = listed ls :=
  ((List.reverse_perm ls).flatMap_right _).length_eq

theorem post_update (h : Balanced n [] s) {frames : Option (List Level)}
    (hn : n + listedFor frames < 2 ^ 32) (window : Bool) :
    Post (update window frames) (fun _ => Balanced (n + listedFor frames) [])
      (fun _ => Balanced (n + listedFor frames) []) s := by
  have hle : n ≤ n + listedFor frames := Nat.le_add_right _ _
  unfold update
  split
  · rw [post_bind, post_modify]
    have hreset : Balanced n [] { s with callstack := none } := h.same rfl rfl rfl
    cases frames with
    | none => exact post_throw.mpr hreset
    | some ls =>
        dsimp only
        have hlisted : listedFor (some ls) = listed ls.reverse := (listed_reverse ls).symm
        rw [hlisted] at hn hle ⊢
        rw [post_bind]
        refine (keeps_listFrames ls none _ hreset).mono (fun framelst t ht => ?_) fun _ t ht =>
          ht.mono hle
        rw [post_bind]
        refine (keeps_following framelst t ht).mono (fun next u hu => ?_) fun _ u hu => hu.mono hle
        exact post_loop hu hn _ _ _ _
  · exact post_pure.mpr (h.mono hle)

/-! ## Runs -/

/-- The operations: an update, with the replies of gdb, and the release of a frame. -/
inductive Op
  | update (window : Bool) (frames : Option (List Level))
  | release (frame : Nat) (deleted : Bool)

/-- What an operation does. -/
def Op.call : Op → Calls Unit
  | update window frames => Callstack.update window frames
  | release frame deleted => Callstack.release frame deleted

/-- The number of variables gdb lists for an operation. -/
def Op.listed : Op → Nat
  | update _ frames => listedFor frames
  | release _ _ => 0

/-- An operation that ends, with an error or without. -/
def Step (s : State) (op : Op) (t : State) : Prop := ∃ r, exec op.call s = some (r, t)

/-- There is room for the variables gdb lists: their counts fit 32 bits. -/
def Room (s : State) (op : Op) : Prop := ∀ a, s.occurrences a + op.listed < 2 ^ 32 - 1

/-- Each variable counts gdb and its occurrences in the lists of the frames; those in the lists are in
memory; and the release of a frame deletes no variable. -/
structure Counts (s : State) : Prop where
  refcnt : ∀ a v, s.vars.heap.lookup a = some v → v.refcnt.toNat = 1 + s.occurrences a
  kept : ∀ f o a, s.frames.lookup f = some o → a ∈ o.args ++ o.locals →
    ∃ v, s.vars.heap.lookup a = some v
  release : ∀ f o deleted, s.frames.lookup f = some o →
    ∃ t, exec (Callstack.release f deleted) s = some (.ok (), t) ∧
      ∀ a, (t.vars.heap.lookup a).isSome = (s.vars.heap.lookup a).isSome

theorem balanced_init : Balanced 0 [] State.init where
  live a ha := by cases ha
  refcnt a v h := by cases h
  bound a := Nat.le_refl 0
  below a v h := by cases h
  frames f o h := by cases h

/-- The bound is that of the state. -/
theorem Balanced.tighten (h : Balanced n [] s) (hbound : ∀ a, s.occurrences a ≤ m) :
    Balanced m [] s :=
  { h with bound := fun a => by rw [List.append_nil]; exact hbound a }

/-- An operation adds as many references as gdb lists variables. -/
theorem post_call (h : Balanced n [] s) (op : Op) (hn : n + op.listed < 2 ^ 32) :
    Post op.call (fun _ => Balanced (n + op.listed) []) (fun _ => Balanced (n + op.listed) []) s := by
  cases op with
  | update window frames => exact post_update h hn window
  | release f deleted => exact keeps_release hn f deleted s h

theorem Balanced.step {op : Op} (h : Balanced n [] s) (hstep : Step s op t) (hroom : Room s op) :
    Balanced (2 ^ 32 - 2) [] t := by
  obtain ⟨r, hexec⟩ := hstep
  have hzero := hroom 0
  have hs : Balanced (2 ^ 32 - 2 - op.listed) [] s := h.tighten fun a => by
    have := hroom a
    omega
  have hends := (post_call hs op (by omega)).holds hexec
  rwa [show 2 ^ 32 - 2 - op.listed + op.listed = 2 ^ 32 - 2 by omega] at hends

theorem Balanced.counts (h : Balanced (2 ^ 32 - 2) [] s) : Counts s where
  refcnt a v ha := by
    have hbound := h.bound a
    rw [List.append_nil] at hbound
    rw [h.refcnt a v ha, List.append_nil, BitVec.toNat_ofNat]
    exact Nat.mod_eq_of_lt (by omega)
  kept f o a ho ha := by
    apply h.live a
    rw [List.append_nil]
    exact mem_refs.mpr ⟨f, o, ho, ha⟩
  release f o deleted ho := by
    obtain ⟨t, ht, hlive, -⟩ := exec_release h (by decide) ho deleted
    exact ⟨t, ht, hlive⟩

/-- In every run that leaves room, the counts are right. -/
theorem run_counts {ops : List Op}
    (h : Run (fun s op t => Step s op t ∧ Room s op) State.init ops s) : Counts s := by
  have hbalanced : Balanced (2 ^ 32 - 2) [] s :=
    h.invariant (balanced_init.mono (Nat.zero_le _)) fun t op u ht hstep => ht.step hstep.1 hstep.2
  exact hbalanced.counts

/-! ## Shadowed names -/

/-- A frame for which a name is listed a number of times. -/
def shadowing (k : Nat) : Level where
  frame := { function := some "main".toList, line := 3 }
  vars := some (List.replicate k
    { var := { name := some ['i'], type := some "int".toList }
      create := some {}
      info := some {}
      deleted := true })

/-- A name is listed twice, and the frame is released. -/
theorem shadowed_then_released :
    ∃ s, Run Step State.init [.update true (some [shadowing 2]), .release 0 true] s ∧ Counts s := by
  have hsome : ((exec (Op.update true (some [shadowing 2])).call State.init).bind fun r =>
      exec (Op.release 0 true).call r.2).isSome = true := by decide +kernel
  obtain ⟨⟨r', t⟩, hboth⟩ := Option.isSome_iff_exists.mp hsome
  obtain ⟨⟨r, s⟩, hs, ht⟩ := Option.bind_eq_some_iff.mp hboth
  have hroom : Room State.init (.update true (some [shadowing 2])) := by
    intro a
    show 0 + 2 < _
    decide
  have hbalanced := balanced_init.step ⟨r, hs⟩ hroom
  have hroom' : Room s (.release 0 true) := by
    intro a
    have hbound := hbalanced.bound a
    rw [List.append_nil] at hbound
    exact Nat.lt_succ_of_le hbound
  have hrun : Run (fun s op t => Step s op t ∧ Room s op) State.init
      [.update true (some [shadowing 2]), .release 0 true] t :=
    (Run.nil.snoc ⟨⟨r, hs⟩, hroom⟩).snoc ⟨⟨r', ht⟩, hroom'⟩
  exact ⟨t, hrun.mono fun _ _ _ h => h.1, run_counts hrun⟩

/-- The variables of one name are one variable. -/
theorem count_of_named {u : VariableMaps.State} (hu : VariableMaps.Inv [] u) {ctx name : CStr}
    {as : List Nat} {k : Nat} (h : Named u ctx as (List.replicate k name)) :
    ∃ a, as.count a = k := by
  have hlen : as.length = k := h.length_eq.trans List.length_replicate
  cases as with
  | nil => exact ⟨0, hlen⟩
  | cons a as =>
      refine ⟨a, ?_⟩
      have hall : ∀ b ∈ a :: as, a = b := by
        intro b hb
        have hnamed : ∀ c ∈ a :: as, ∃ v, u.heap.lookup c = some v ∧
            v.var.name = some (VariableMaps.key .callstack ctx name) := by
          intro c hc
          obtain ⟨i, hi, rfl⟩ := List.getElem_of_mem hc
          have := List.Forall₂.get h hi (by rw [List.length_replicate]; omega)
          simpa using this
        obtain ⟨v, hv, hname⟩ := hnamed a List.mem_cons_self
        obtain ⟨w, hw, hname'⟩ := hnamed b hb
        exact hu.names.inj hv hw (hname.trans hname'.symm)
      rw [List.count_eq_length.mpr hall, hlen]

theorem names_shadowing (k : Nat) :
    (shadowing k).report.locals = List.replicate k ['i'] := by
  show names false (List.replicate k _) = _
  unfold names
  rw [List.filter_eq_self.mpr, List.map_replicate]
  · rfl
  · intro x hx
    rw [List.eq_of_mem_replicate hx]
    rfl

/-- As often as the name is listed, the frame refers to the variable. -/
theorem shadowing_listed {k : Nat} (hpos : 0 < k) (hlt : k < 2 ^ 32) :
    ∃ s, Step State.init (.update true (some [shadowing k])) s ∧ ∃ a v,
      s.vars.heap.lookup a = some v ∧ s.occurrences a = k ∧ v.refcnt = BitVec.ofNat 32 (1 + k) := by
  have hcomplete : (shadowing k).Complete := by
    refine ⟨Option.some_ne_none _, _, rfl, fun x hx => ?_⟩
    rw [List.eq_of_mem_replicate hx]
    exact ⟨Option.some_ne_none _, Option.some_ne_none _⟩
  have hanswered : (shadowing k).Answered := by
    intro x hx
    rw [List.eq_of_mem_replicate (hx : x ∈ List.replicate k _)]
    exact ⟨Option.some_ne_none _, Option.some_ne_none _, rfl⟩
  have hfits : Fits [] [] [shadowing k] :=
    ⟨fun p hp => absurd hp List.not_mem_nil, ⟨hanswered, fun p hp => absurd hp List.not_mem_nil⟩,
      trivial⟩
  have hlisted : listedFor (some [shadowing k]) = k := by
    show (List.replicate k _ ++ []).length = k
    rw [List.append_nil, List.length_replicate]
  obtain ⟨r, t, hexec, hinv, as, -, -, hall⟩ := returns_update inv_init
    (fun l hl => List.mem_singleton.mp hl ▸ hcomplete) (fun p hp => absurd hp List.not_mem_nil) hfits
  obtain ⟨f, fs, ⟨o, ho, hdesc⟩, -⟩ := List.forall₂_cons_left_iff.mp hall
  have hlocals := hdesc.locals
  rw [names_shadowing] at hlocals
  obtain ⟨a, ha⟩ := count_of_named hinv.vars hlocals
  have hbalanced : Balanced (0 + listedFor (some [shadowing k])) [] t :=
    post_update balanced_init (by rw [hlisted]; omega) true _ hexec
  rw [hlisted, Nat.zero_add] at hbalanced
  have hle := hbalanced.bound a
  rw [List.append_nil] at hle
  have hcount := count_refs Object.vars ho a
  have hvars : o.vars.count a = o.args.count a + k := by
    rw [← ha]
    exact List.count_append
  have hocc : t.references.count a = k := by
    apply Nat.le_antisymm hle
    unfold State.references
    omega
  obtain ⟨v, hv⟩ := hbalanced.live a (by
    rw [List.append_nil]
    exact List.count_pos_iff.mp (by omega))
  refine ⟨t, ⟨_, hexec⟩, a, v, hv, hocc, ?_⟩
  rw [hbalanced.refcnt a v hv, List.append_nil, hocc]

/-- With as many occurrences as 32 bits can count, the count of the variable is 0. -/
theorem count_overflows :
    ∃ s, Run Step State.init [.update true (some [shadowing (2 ^ 32 - 1)])] s ∧ ∃ a v,
      s.vars.heap.lookup a = some v ∧ v.refcnt.toNat ≠ 1 + s.occurrences a := by
  have hgeneral : ∀ k, k = 2 ^ 32 - 1 → ∃ s,
      Run Step State.init [.update true (some [shadowing k])] s ∧ ∃ a v,
        s.vars.heap.lookup a = some v ∧ v.refcnt.toNat ≠ 1 + s.occurrences a := by
    intro k hk
    obtain ⟨s, hstep, a, v, hv, hocc, hcnt⟩ := @shadowing_listed k (by omega) (by omega)
    refine ⟨s, Run.nil.snoc hstep, a, v, hv, ?_⟩
    rw [hcnt, hocc, BitVec.toNat_ofNat]
    omega
  exact hgeneral _ rfl

end Vimgdb.Gdb.Callstack
