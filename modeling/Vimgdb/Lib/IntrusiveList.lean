import Mathlib.Data.List.Chain
import Mathlib.Data.List.Nodup
import Mathlib.Logic.Function.Basic

/-!
# Intrusive lists

Doubly linked lists whose elements carry the pointers themselves.  A list is a pointer to its first
element; the first element's `prev` is the last one, and the last one's `next` is null.

* `Links.addTail`, `Links.addHead`, `Links.rm`: adding an element at the end or in front, removing an
  element.  Reading through a null pointer fails.
* `IsList`: the elements of a list, in order.
* `IsList.addTail`, `IsList.addHead`, `IsList.rmFirst`, `IsList.rm`: what the operations do to them.
* `IsList.addTail_sameOn`, `IsList.rmFirst_sameOn`: other lists stay as they are.
* `Links.Forward`: the elements can be walked through.
* `Rest.rm`, `EndsOutside.addTail`: a list that is taken apart while its elements go to another one,
  whatever that has become.
-/

namespace IntrusiveList

variable {A : Type*} [DecidableEq A]

/-! ## The operations -/

/-- The pointers of the elements. -/
structure Links (A : Type*) where
  next : A → Option A
  prev : A → Option A

/-- An element's `next` is written. -/
def Links.setNext (l : Links A) (x : A) (p : Option A) : Links A :=
  { l with next := Function.update l.next x p }

/-- An element's `prev` is written. -/
def Links.setPrev (l : Links A) (x : A) (p : Option A) : Links A :=
  { l with prev := Function.update l.prev x p }

@[simp] theorem Links.setNext_prev (l : Links A) (x : A) (p : Option A) :
    (l.setNext x p).prev = l.prev := rfl

@[simp] theorem Links.setPrev_next (l : Links A) (x : A) (p : Option A) :
    (l.setPrev x p).next = l.next := rfl

@[simp] theorem Links.setNext_next_self (l : Links A) (x : A) (p : Option A) :
    (l.setNext x p).next x = p := Function.update_self ..

@[simp] theorem Links.setPrev_prev_self (l : Links A) (x : A) (p : Option A) :
    (l.setPrev x p).prev x = p := Function.update_self ..

theorem Links.setNext_next_of_ne (l : Links A) {x y : A} (h : y ≠ x) (p : Option A) :
    (l.setNext x p).next y = l.next y := Function.update_of_ne h ..

theorem Links.setPrev_prev_of_ne (l : Links A) {x y : A} (h : y ≠ x) (p : Option A) :
    (l.setPrev x p).prev y = l.prev y := Function.update_of_ne h ..

/-- An element is added at the end of the list `head`; the new pointers and the new head. -/
def Links.addTail (l : Links A) (head : Option A) (el : A) : Option (Links A × Option A) :=
  let l := l.setNext el none
  match head with
  | none => some (l.setPrev el (some el), some el)
  | some first => do
      let l := l.setPrev el (l.prev first)
      let last ← l.prev first
      let l := l.setNext last (some el)
      return (l.setPrev first (some el), head)

/-- An element is added in front of the list `head`; the new pointers and the new head. -/
def Links.addHead (l : Links A) (head : Option A) (el : A) : Links A × Option A :=
  let l := l.setNext el head
  match head with
  | none => (l.setPrev el (some el), some el)
  | some first => ((l.setPrev el (l.prev first)).setPrev first (some el), some el)

/-- An element is taken out of the list `head`; the new pointers and the new head. -/
def Links.rm (l : Links A) (head : Option A) (entry : A) : Option (Links A × Option A) := do
  let l ← if head ≠ some entry then do
      let p ← l.prev entry
      pure (l.setNext p (l.next entry))
    else pure l
  let l ← match l.next entry with
    | some n => pure (l.setPrev n (l.prev entry))
    | none => do
        let first ← head
        pure (l.setPrev first (l.prev entry))
  return (l, if head = some entry then l.next entry else head)

/-! ## Lists -/

/-- `y` follows `x`. -/
def Links.Linked (l : Links A) (x y : A) : Prop := l.next x = some y ∧ l.prev y = some x

/-- `head` is a list with the elements `xs`. -/
structure IsList (l : Links A) (head : Option A) (xs : List A) : Prop where
  head : head = xs.head?
  chain : xs.IsChain l.Linked
  last : ∀ x ∈ xs.getLast?, l.next x = none
  back : ∀ x ∈ xs.head?, l.prev x = xs.getLast?
  nodup : xs.Nodup

omit [DecidableEq A] in
/-- The null pointer is the empty list. -/
theorem isList_nil (l : Links A) : IsList l none [] where
  head := rfl
  chain := List.isChain_nil
  last := by simp
  back := by simp
  nodup := List.nodup_nil

/-- The element comes last. -/
theorem IsList.addTail {l : Links A} {head : Option A} {xs : List A} (h : IsList l head xs) {el : A}
    (hel : el ∉ xs) :
    ∃ l', l.addTail head el = some (l', (xs ++ [el]).head?) ∧
      IsList l' (xs ++ [el]).head? (xs ++ [el]) := by
  rcases xs with _ | ⟨x, xs⟩
  · rw [h.head]
    refine ⟨(l.setNext el none).setPrev el (some el), rfl, rfl, List.isChain_singleton el, ?_, ?_,
      List.nodup_singleton el⟩
    · simp
    · simp
  · obtain ⟨last, hlast⟩ : ∃ last, (x :: xs).getLast? = some last :=
      ⟨_, List.getLast?_eq_some_getLast (List.cons_ne_nil x xs)⟩
    have hxel : x ≠ el := fun heq => hel (heq ▸ List.mem_cons_self)
    have hback : l.prev x = some last := (h.back x rfl).trans hlast
    have hlastel : last ≠ el := fun heq => hel (heq ▸ List.mem_of_getLast? hlast)
    let l' : Links A :=
      (((l.setNext el none).setPrev el (some last)).setNext last (some el)).setPrev x (some el)
    have hadd : l.addTail head el = some (l', some x) := by
      unfold Links.addTail
      rw [h.head]
      simp [hback, Links.setPrev_prev_of_ne _ hxel, l']
    have hnext : ∀ y, y ≠ el → y ≠ last → l'.next y = l.next y := by
      intro y hy hyl
      simp only [l', Links.setPrev_next]
      rw [Links.setNext_next_of_ne _ hyl, Links.setPrev_next, Links.setNext_next_of_ne _ hy]
    have hprev : ∀ y, y ≠ el → y ≠ x → l'.prev y = l.prev y := by
      intro y hy hyx
      simp only [l']
      rw [Links.setPrev_prev_of_ne _ hyx, Links.setNext_prev, Links.setPrev_prev_of_ne _ hy,
        Links.setNext_prev]
    have hne : x ∉ xs := (List.nodup_cons.mp h.nodup).1
    refine ⟨l', hadd, rfl, ?_, ?_, ?_, ?_⟩
    · refine List.isChain_append.mpr ⟨?_, List.isChain_singleton el, ?_⟩
      · refine h.chain.imp_of_mem_tail_imp fun a b ha hb hab => ?_
        have hbel : b ≠ el := fun heq => hel (heq ▸ List.mem_cons_of_mem x hb)
        have hal : a ≠ last := by
          rintro rfl
          rw [Links.Linked, h.last a hlast] at hab
          cases hab.1
        refine ⟨(hnext a (fun heq => hel (heq ▸ ha)) hal).trans hab.1, ?_⟩
        exact (hprev b hbel fun heq => hne (heq ▸ hb)).trans hab.2
      · intro a ha b hb
        obtain rfl : last = a := Option.some.inj (hlast.symm.trans ha)
        obtain rfl : el = b := Option.some.inj hb
        refine ⟨by simp [l'], ?_⟩
        simp only [l']
        rw [Links.setPrev_prev_of_ne _ hxel.symm, Links.setNext_prev, Links.setPrev_prev_self]
    · intro y hy
      rw [List.getLast?_append_of_ne_nil _ (List.cons_ne_nil el [])] at hy
      obtain rfl : el = y := Option.some.inj hy
      simp only [l', Links.setPrev_next]
      rw [Links.setNext_next_of_ne _ hlastel.symm, Links.setPrev_next, Links.setNext_next_self]
    · intro y hy
      obtain rfl : x = y := Option.some.inj hy
      rw [List.getLast?_append_of_ne_nil _ (List.cons_ne_nil el [])]
      simp [l']
    · exact List.nodup_append.mpr ⟨h.nodup, List.nodup_singleton el, by
        intro a ha b hb
        rw [List.mem_singleton.mp hb]
        exact fun heq => hel (heq ▸ ha)⟩

/-- The element comes first. -/
theorem IsList.addHead {l : Links A} {head : Option A} {xs : List A} (h : IsList l head xs) {el : A}
    (hel : el ∉ xs) : IsList (l.addHead head el).1 (l.addHead head el).2 (el :: xs) := by
  rcases xs with _ | ⟨x, xs⟩
  · rw [h.head]
    refine ⟨rfl, List.isChain_singleton el, ?_, ?_, List.nodup_singleton el⟩
    · rintro y hy
      obtain rfl : el = y := Option.some.inj hy
      exact l.setNext_next_self el none
    · rintro y hy
      obtain rfl : el = y := Option.some.inj hy
      exact (l.setNext el none).setPrev_prev_self el (some el)
  · rw [h.head]
    have hxel : x ≠ el := fun heq => hel (heq ▸ List.mem_cons_self)
    have hnodup := List.nodup_cons.mp h.nodup
    refine ⟨rfl, ?_, ?_, ?_, List.nodup_cons.mpr ⟨hel, h.nodup⟩⟩
    · refine List.isChain_cons_cons.mpr ⟨⟨l.setNext_next_self el (some x), ?_⟩, ?_⟩
      · exact Links.setPrev_prev_self _ x (some el)
      · refine h.chain.imp_of_mem_tail_imp fun a b ha hb hab => ?_
        have hbx : b ≠ x := fun heq => hnodup.1 (heq ▸ hb)
        have hbel : b ≠ el := fun heq => hel (heq ▸ List.mem_cons_of_mem x hb)
        have hael : a ≠ el := fun heq => hel (heq ▸ ha)
        refine ⟨(l.setNext_next_of_ne hael (some x)).trans hab.1, ?_⟩
        · refine (Links.setPrev_prev_of_ne _ hbx (some el)).trans ?_
          exact (Links.setPrev_prev_of_ne _ hbel _).trans hab.2
    · intro y hy
      rw [List.getLast?_cons_cons] at hy
      have hyel : y ≠ el := fun heq => hel (heq ▸ List.mem_of_getLast? hy)
      exact (l.setNext_next_of_ne hyel (some x)).trans (h.last y hy)
    · intro y hy
      obtain rfl : el = y := Option.some.inj hy
      rw [List.getLast?_cons_cons]
      refine (Links.setPrev_prev_of_ne _ hxel.symm (some el)).trans ?_
      exact (Links.setPrev_prev_self _ el _).trans (h.back x rfl)

/-- The first element is taken out. -/
theorem IsList.rmFirst {l : Links A} {head : Option A} {x : A} {xs : List A}
    (h : IsList l head (x :: xs)) :
    ∃ l', l.rm head x = some (l', xs.head?) ∧ IsList l' xs.head? xs := by
  obtain rfl : head = some x := h.head
  have hnodup := List.nodup_cons.mp h.nodup
  rcases xs with _ | ⟨y, ys⟩
  · have hnext : l.next x = none := h.last x rfl
    refine ⟨l.setPrev x (l.prev x), ?_, isList_nil _⟩
    unfold Links.rm
    simp [hnext]
  · have hxy := List.isChain_cons_cons.mp h.chain
    have hyx : y ∉ ys := (List.nodup_cons.mp hnodup.2).1
    refine ⟨l.setPrev y (l.prev x), ?_, rfl, ?_, ?_, ?_, hnodup.2⟩
    · unfold Links.rm
      simp [hxy.1.1]
    · refine hxy.2.imp_of_mem_tail_imp fun a b _ hb hab => ⟨hab.1, ?_⟩
      have hby : b ≠ y := fun heq => hyx (heq ▸ hb)
      exact (Links.setPrev_prev_of_ne _ hby _).trans hab.2
    · intro z hz
      refine h.last z ?_
      rw [List.getLast?_cons_cons]
      exact hz
    · intro z hz
      obtain rfl : y = z := Option.some.inj hz
      rw [Links.setPrev_prev_self, h.back x rfl, List.getLast?_cons_cons]

/-- What becomes of a list when the pointer behind `x` and the one in front of what follows are written. -/
theorem IsList.rm_of_last {l : Links A} {head : Option A} {xs : List A} {x p : A}
    (h : IsList l head (xs ++ [x])) (hp : xs.getLast? = some p) :
    ∃ l', l.rm head x = some (l', xs.head?) ∧ IsList l' xs.head? xs := by
  obtain ⟨first, hfirst⟩ : ∃ first, xs.head? = some first := by
    cases xs with
    | nil => cases hp
    | cons first xs => exact ⟨first, rfl⟩
  obtain ⟨hxs, -, hdisjoint⟩ := List.nodup_append.mp h.nodup
  have hx : ∀ y ∈ xs, y ≠ x := fun y hy => hdisjoint y hy x List.mem_cons_self
  have hpmem : p ∈ xs := List.mem_of_getLast? hp
  have hfmem : first ∈ xs := List.mem_of_head? hfirst
  obtain ⟨hchain, -, hlink⟩ := List.isChain_append.mp h.chain
  have hpx : l.Linked p x := hlink p hp x rfl
  have hnext : l.next x = none := h.last x List.getLast?_concat
  have hhead : head = some first := by rw [h.head, List.head?_append, hfirst]; rfl
  refine ⟨(l.setNext p none).setPrev first (some p), ?_, rfl, ?_, ?_, ?_, hxs⟩
  · unfold Links.rm
    have hne : some first ≠ some x := fun heq => hx first hfmem (Option.some.inj heq)
    have hnext' : (l.setNext p none).next x = none := by
      rw [Links.setNext_next_of_ne _ (hx p hpmem).symm, hnext]
    rw [hhead, if_pos hne, hpx.2]
    simp only [Option.bind_eq_bind, Option.bind_some, Option.pure_def, hnext, hnext', hpx.2,
      Links.setNext_prev, if_neg hne, hfirst]
  · -- the last element has none behind it, and the first one has none in front of it
    refine hchain.imp_of_mem_tail_imp fun a b ha hb hab => ⟨?_, ?_⟩
    · have hap : a ≠ p := by
        rintro rfl
        have heq := Option.some.inj (hab.1.symm.trans hpx.1)
        exact hx b (List.mem_of_mem_tail hb) heq
      exact (Links.setNext_next_of_ne _ hap _).trans hab.1
    · have hbf : b ≠ first := by
        cases xs with
        | nil => cases hb
        | cons y ys =>
            cases hfirst
            exact fun heq => (List.nodup_cons.mp hxs).1 (heq ▸ hb)
      exact (Links.setPrev_prev_of_ne _ hbf _).trans hab.2
  · intro y hy
    obtain rfl := Option.some.inj (hp.symm.trans hy)
    exact l.setNext_next_self p none
  · intro y hy
    obtain rfl := Option.some.inj (hfirst.symm.trans hy)
    exact (Links.setPrev_prev_self _ first _).trans hp.symm

/-- An element in the middle is taken out. -/
theorem IsList.rm_of_next {l : Links A} {head : Option A} {xs ys : List A} {x p y : A}
    (h : IsList l head (xs ++ x :: y :: ys)) (hp : xs.getLast? = some p) :
    ∃ l', l.rm head x = some (l', xs.head?) ∧ IsList l' xs.head? (xs ++ y :: ys) := by
  obtain ⟨first, hfirst⟩ : ∃ first, xs.head? = some first := by
    cases xs with
    | nil => cases hp
    | cons first xs => exact ⟨first, rfl⟩
  obtain ⟨hxs, hrest, hdisjoint⟩ := List.nodup_append.mp h.nodup
  obtain ⟨hxnot, hys⟩ := List.nodup_cons.mp hrest
  have hpmem : p ∈ xs := List.mem_of_getLast? hp
  have hfmem : first ∈ xs := List.mem_of_head? hfirst
  have hout : ∀ a ∈ xs, a ≠ x ∧ a ∉ y :: ys := fun a ha =>
    ⟨hdisjoint a ha x List.mem_cons_self,
      fun hmem => hdisjoint a ha a (List.mem_cons_of_mem _ hmem) rfl⟩
  obtain ⟨hchain, hbehind, hlink⟩ := List.isChain_append.mp h.chain
  have hpx : l.Linked p x := hlink p hp x rfl
  obtain ⟨hxy, hchain'⟩ := List.isChain_cons_cons.mp hbehind
  have hhead : head = some first := by rw [h.head, List.head?_append, hfirst]; rfl
  have hnexta : ∀ a, a ≠ p → ((l.setNext p (some y)).setPrev y (some p)).next a = l.next a :=
    fun a ha => Links.setNext_next_of_ne _ ha _
  have hprevb : ∀ b, b ≠ y → ((l.setNext p (some y)).setPrev y (some p)).prev b = l.prev b :=
    fun b hb => Links.setPrev_prev_of_ne _ hb _
  refine ⟨(l.setNext p (some y)).setPrev y (some p), ?_, ?_, ?_, ?_, ?_, ?_⟩
  · unfold Links.rm
    have hne : some first ≠ some x := fun heq => (hout first hfmem).1 (Option.some.inj heq)
    have hnext' : (l.setNext p (some y)).next x = some y := by
      rw [Links.setNext_next_of_ne _ (hout p hpmem).1.symm, hxy.1]
    rw [hhead, if_pos hne, hpx.2]
    simp only [Option.bind_eq_bind, Option.bind_some, Option.pure_def, hxy.1, hnext', hpx.2,
      Links.setNext_prev, if_neg hne, hfirst]
  · rw [List.head?_append, hfirst]
    rfl
  · refine List.isChain_append.mpr ⟨?_, ?_, ?_⟩
    · refine hchain.imp_of_mem_tail_imp fun a b ha hb hab => ⟨?_, ?_⟩
      · refine (hnexta a ?_).trans hab.1
        rintro rfl
        have heq := Option.some.inj (hab.1.symm.trans hpx.1)
        exact (hout b (List.mem_of_mem_tail hb)).1 heq
      · refine (hprevb b ?_).trans hab.2
        rintro rfl
        exact (hout b (List.mem_of_mem_tail hb)).2 List.mem_cons_self
    · refine hchain'.imp_of_mem_tail_imp fun a b ha hb hab => ⟨?_, ?_⟩
      · exact (hnexta a fun heq => (hout p hpmem).2 (heq ▸ ha)).trans hab.1
      · exact (hprevb b fun heq => (List.nodup_cons.mp hys).1 (heq ▸ hb)).trans hab.2
    · intro a ha b hb
      obtain rfl := Option.some.inj (hp.symm.trans ha)
      obtain rfl := Option.some.inj hb
      exact ⟨l.setNext_next_self p (some y), Links.setPrev_prev_self _ y _⟩
  · intro z hz
    rw [List.getLast?_append_of_ne_nil _ (List.cons_ne_nil y ys)] at hz
    have hzmem : z ∈ y :: ys := List.mem_of_getLast? hz
    refine (hnexta z fun heq => (hout p hpmem).2 (heq ▸ hzmem)).trans (h.last z ?_)
    rw [List.getLast?_append_of_ne_nil _ (List.cons_ne_nil x _), List.getLast?_cons_cons]
    exact hz
  · intro z hz
    rw [List.head?_append, hfirst] at hz
    obtain rfl : first = z := Option.some.inj hz
    have hback : l.prev first = (xs ++ x :: y :: ys).getLast? := h.back first (by
      rw [List.head?_append, hfirst]
      rfl)
    rw [hprevb first fun heq => (hout first hfmem).2 (heq ▸ List.mem_cons_self), hback,
      List.getLast?_append_of_ne_nil _ (List.cons_ne_nil x _), List.getLast?_cons_cons,
      List.getLast?_append_of_ne_nil _ (List.cons_ne_nil y ys)]
  · exact List.nodup_append.mpr ⟨hxs, hys, fun a ha b hb heq => (hout a ha).2 (heq ▸ hb)⟩

/-- Any element is taken out. -/
theorem IsList.rm {l : Links A} {head : Option A} {xs ys : List A} {x : A}
    (h : IsList l head (xs ++ x :: ys)) :
    ∃ l', l.rm head x = some (l', (xs ++ ys).head?) ∧ IsList l' (xs ++ ys).head? (xs ++ ys) := by
  cases hp : xs.getLast? with
  | none =>
      obtain rfl := List.getLast?_eq_none_iff.mp hp
      exact h.rmFirst
  | some p =>
      have hhead : (xs ++ ys).head? = xs.head? := by
        cases xs with
        | nil => cases hp
        | cons first xs => rfl
      rw [hhead]
      cases ys with
      | nil =>
          rw [List.append_nil]
          exact h.rm_of_last hp
      | cons y ys => exact h.rm_of_next hp

/-- The elements follow each other, and a null pointer follows the last one. -/
def Links.Forward (l : Links A) : List A → Prop
  | [] => True
  | x :: xs => l.next x = xs.head? ∧ l.Forward xs

omit [DecidableEq A] in
/-- A list can be walked through. -/
theorem IsList.forward {l : Links A} {head : Option A} {xs : List A} (h : IsList l head xs) :
    l.Forward xs := by
  have hchain := h.chain
  have hlast := h.last
  clear h
  induction xs with
  | nil => trivial
  | cons x xs ih =>
      rcases xs with _ | ⟨y, ys⟩
      · exact ⟨hlast x rfl, trivial⟩
      · obtain ⟨hxy, hys⟩ := List.isChain_cons_cons.mp hchain
        refine ⟨hxy.1, ih hys fun z hz => hlast z ?_⟩
        rw [List.getLast?_cons_cons]
        exact hz

/-! ## Several lists -/

/-- The pointers of the elements are the same. -/
def Links.SameOn (l l' : Links A) (xs : List A) : Prop :=
  ∀ x ∈ xs, l'.next x = l.next x ∧ l'.prev x = l.prev x

omit [DecidableEq A] in
theorem Links.SameOn.trans {l l' l'' : Links A} {xs : List A} (h : l.SameOn l' xs)
    (h' : l'.SameOn l'' xs) : l.SameOn l'' xs := by
  intro x hx
  exact ⟨(h' x hx).1.trans (h x hx).1, (h' x hx).2.trans (h x hx).2⟩

theorem Links.setNext_sameOn (l : Links A) {x : A} {xs : List A} (hx : x ∉ xs) (p : Option A) :
    l.SameOn (l.setNext x p) xs :=
  fun _ hy => ⟨l.setNext_next_of_ne (ne_of_mem_of_not_mem hy hx) p, rfl⟩

theorem Links.setPrev_sameOn (l : Links A) {x : A} {xs : List A} (hx : x ∉ xs) (p : Option A) :
    l.SameOn (l.setPrev x p) xs :=
  fun _ hy => ⟨rfl, l.setPrev_prev_of_ne (ne_of_mem_of_not_mem hy hx) p⟩

omit [DecidableEq A] in
/-- A list depends on the pointers of its elements. -/
theorem IsList.congr {l l' : Links A} {head : Option A} {xs : List A} (h : IsList l head xs)
    (hsame : l.SameOn l' xs) : IsList l' head xs where
  head := h.head
  chain := h.chain.imp_of_mem_tail_imp fun a b ha hb hab =>
    ⟨(hsame a ha).1.trans hab.1, (hsame b (List.mem_of_mem_tail hb)).2.trans hab.2⟩
  last x hx := (hsame x (List.mem_of_getLast? hx)).1.trans (h.last x hx)
  back x hx := (hsame x (List.mem_of_head? hx)).2.trans (h.back x hx)
  nodup := h.nodup

/-- Adding an element leaves other lists as they are. -/
theorem IsList.addTail_sameOn {l l' : Links A} {head head' : Option A} {xs ys : List A} {el : A}
    (h : IsList l head xs) (hadd : l.addTail head el = some (l', head')) (hel : el ∉ ys)
    (hdisjoint : ∀ x ∈ xs, x ∉ ys) : l.SameOn l' ys := by
  unfold Links.addTail at hadd
  have hnext := l.setNext_sameOn hel none
  rcases xs with _ | ⟨x, xs⟩
  · rw [h.head] at hadd
    obtain ⟨rfl, -⟩ := Prod.mk.inj (Option.some.inj hadd)
    exact hnext.trans (Links.setPrev_sameOn _ hel _)
  · obtain ⟨last, hlast⟩ : ∃ last, (x :: xs).getLast? = some last :=
      ⟨_, List.getLast?_eq_some_getLast (List.cons_ne_nil x xs)⟩
    have hback : l.prev x = some last := (h.back x rfl).trans hlast
    have hx : x ∉ ys := hdisjoint x List.mem_cons_self
    have hl : last ∉ ys := hdisjoint last (List.mem_of_getLast? hlast)
    rw [h.head] at hadd
    change (((l.setNext el none).setPrev el (l.prev x)).prev x).bind _ = _ at hadd
    rcases eq_or_ne x el with rfl | hne
    · rw [Links.setPrev_prev_self, Links.setNext_prev, hback] at hadd
      obtain ⟨rfl, -⟩ := Prod.mk.inj (Option.some.inj hadd)
      exact ((hnext.trans (Links.setPrev_sameOn _ hel _)).trans
        (Links.setNext_sameOn _ hl _)).trans (Links.setPrev_sameOn _ hx _)
    · rw [Links.setPrev_prev_of_ne _ hne, Links.setNext_prev, hback] at hadd
      obtain ⟨rfl, -⟩ := Prod.mk.inj (Option.some.inj hadd)
      exact ((hnext.trans (Links.setPrev_sameOn _ hel _)).trans
        (Links.setNext_sameOn _ hl _)).trans (Links.setPrev_sameOn _ hx _)

/-- Taking out the first element leaves other lists as they are. -/
theorem IsList.rmFirst_sameOn {l l' : Links A} {head head' : Option A} {x : A} {xs ys : List A}
    (h : IsList l head (x :: xs)) (hrm : l.rm head x = some (l', head'))
    (hdisjoint : ∀ y ∈ x :: xs, y ∉ ys) : l.SameOn l' ys := by
  obtain rfl : head = some x := h.head
  have hnext : l.next x = xs.head? := h.forward.1
  rcases xs with _ | ⟨y, xs⟩
  · have hx : l.rm (some x) x = some (l.setPrev x (l.prev x), none) := by
      unfold Links.rm
      simp [hnext]
    obtain ⟨rfl, -⟩ := Prod.mk.inj (Option.some.inj (hx.symm.trans hrm))
    exact l.setPrev_sameOn (hdisjoint x List.mem_cons_self) _
  · have hy : l.rm (some x) x = some (l.setPrev y (l.prev x), some y) := by
      unfold Links.rm
      simp [hnext]
    obtain ⟨rfl, -⟩ := Prod.mk.inj (Option.some.inj (hy.symm.trans hrm))
    exact l.setPrev_sameOn (hdisjoint y (List.mem_cons_of_mem x List.mem_cons_self)) _

omit [DecidableEq A] in
theorem Links.Forward.congr {l l' : Links A} {xs : List A} (h : l.Forward xs)
    (hsame : l.SameOn l' xs) : l'.Forward xs := by
  induction xs with
  | nil => trivial
  | cons x xs ih =>
      refine ⟨(hsame x List.mem_cons_self).1.trans h.1, ih h.2 fun y hy => ?_⟩
      exact hsame y (List.mem_cons_of_mem x hy)

/-! ## Taking a list apart -/

/-- The elements follow each other up to the last one.  Nothing is said of what is in front of them. -/
structure Rest (l : Links A) (xs : List A) : Prop where
  chain : xs.IsChain l.Linked
  last : ∀ x ∈ xs.getLast?, l.next x = none
  nodup : xs.Nodup

/-- The first element of the list `head` is not among `xs`, nor is the one it has for the last one. -/
def EndsOutside (l : Links A) (head : Option A) (xs : List A) : Prop :=
  ∀ first, head = some first → first ∉ xs ∧ ∀ p, l.prev first = some p → p ∉ xs

/-- In the list `head`, whose last elements are `xs`, none of these is in front of the first one. -/
structure Front (l : Links A) (head : Option A) (xs : List A) : Prop where
  first : ∀ x, head = some x → x ∉ xs.tail
  prev : ∀ x p, xs.head? = some x → head ≠ some x → l.prev x = some p → p ∉ xs

omit [DecidableEq A] in
theorem IsList.rest {l : Links A} {head : Option A} {xs : List A} (h : IsList l head xs) :
    Rest l xs := ⟨h.chain, h.last, h.nodup⟩

omit [DecidableEq A] in
theorem IsList.front {l : Links A} {head : Option A} {xs : List A} (h : IsList l head xs) :
    Front l head xs where
  first x hx := by
    have hnodup := h.nodup
    rw [h.head] at hx
    rcases xs with _ | ⟨y, ys⟩
    · exact List.not_mem_nil
    · obtain rfl := Option.some.inj hx
      exact (List.nodup_cons.mp hnodup).1
  prev x p hx hne := absurd (h.head.trans hx) hne

omit [DecidableEq A] in
theorem Rest.tail {l : Links A} {x : A} {xs : List A} (h : Rest l (x :: xs)) : Rest l xs where
  chain := h.chain.tail
  last y hy := h.last y (by rw [List.getLast?_cons, show xs.getLast? = some y from hy]; rfl)
  nodup := (List.nodup_cons.mp h.nodup).2

omit [DecidableEq A] in
theorem Rest.next {l : Links A} {x : A} {xs : List A} (h : Rest l (x :: xs)) :
    l.next x = xs.head? := by
  rcases xs with _ | ⟨y, ys⟩
  · exact h.last x rfl
  · exact (List.isChain_cons_cons.mp h.chain).1.1

omit [DecidableEq A] in
/-- The first one, and the one in front of an element. -/
theorem IsList.before {l : Links A} {head : Option A} {xs ys : List A} {x : A}
    (h : IsList l head (xs ++ x :: ys)) :
    (xs = [] ∧ head = some x) ∨ ∃ first p, head = some first ∧ first ∈ xs ∧ first ≠ x ∧ p ∈ xs ∧
      p ≠ x ∧ l.prev x = some p := by
  cases xs with
  | nil => exact Or.inl ⟨rfl, h.head⟩
  | cons first xs =>
      obtain ⟨p, hp⟩ : ∃ p, (first :: xs).getLast? = some p :=
        ⟨_, List.getLast?_eq_some_getLast (List.cons_ne_nil first xs)⟩
      have hpmem : p ∈ first :: xs := List.mem_of_getLast? hp
      obtain ⟨-, -, hdisjoint⟩ := List.nodup_append.mp h.nodup
      obtain ⟨-, -, hlink⟩ := List.isChain_append.mp h.chain
      exact Or.inr ⟨first, p, h.head, List.mem_cons_self,
        hdisjoint first List.mem_cons_self x List.mem_cons_self, hpmem,
        hdisjoint p hpmem x List.mem_cons_self, (hlink p hp x rfl).2⟩

omit [DecidableEq A] in
/-- What follows an element. -/
theorem IsList.next_eq {l : Links A} {head : Option A} {xs ys : List A} {x : A}
    (h : IsList l head (xs ++ x :: ys)) : l.next x = ys.head? := by
  have hrest : Rest l (x :: ys) :=
    ⟨(List.isChain_append.mp h.chain).2.1, fun y hy => h.last y (by
      rw [List.getLast?_append_of_ne_nil _ (List.cons_ne_nil x ys)]
      exact hy), (List.nodup_append.mp h.nodup).2.1⟩
  exact hrest.next

omit [DecidableEq A] in
/-- The first one of the elements goes elsewhere, and is not taken out. -/
theorem Front.tail {l : Links A} {head : Option A} {x : A} {xs : List A}
    (h : Front l head (x :: xs)) (hrest : Rest l (x :: xs)) : Front l head xs where
  first y hy hmem := h.first y hy (List.mem_of_mem_tail hmem)
  prev y p hy _ hp := by
    rcases xs with _ | ⟨z, zs⟩
    · cases hy
    · obtain rfl := Option.some.inj hy
      rw [(List.isChain_cons_cons.mp hrest.chain).1.2, Option.some.injEq] at hp
      exact hp ▸ (List.nodup_cons.mp hrest.nodup).1

omit [DecidableEq A] in
theorem Front.congr {l l' : Links A} {head : Option A} {xs : List A} (h : Front l head xs)
    (hsame : l.SameOn l' xs) : Front l' head xs where
  first := h.first
  prev x p hx hne hp :=
    h.prev x p hx hne ((hsame x (List.mem_of_head? hx)).2.symm.trans hp)

omit [DecidableEq A] in
theorem Rest.congr {l l' : Links A} {xs : List A} (h : Rest l xs) (hsame : l.SameOn l' xs) :
    Rest l' xs where
  chain := h.chain.imp_of_mem_tail_imp fun a b ha hb hab =>
    ⟨(hsame a ha).1.trans hab.1, (hsame b (List.mem_of_mem_tail hb)).2.trans hab.2⟩
  last x hx := (hsame x (List.mem_of_getLast? hx)).1.trans (h.last x hx)
  nodup := h.nodup

omit [DecidableEq A] in
theorem EndsOutside.tail {l : Links A} {head : Option A} {x : A} {xs : List A}
    (h : EndsOutside l head (x :: xs)) : EndsOutside l head xs := by
  intro first hfirst
  obtain ⟨hnot, hprev⟩ := h first hfirst
  exact ⟨fun hmem => hnot (List.mem_cons_of_mem _ hmem),
    fun p hp hmem => hprev p hp (List.mem_cons_of_mem _ hmem)⟩

/-- An element is added to a list whose end is elsewhere: the pointers of the others stay, and the end is
still elsewhere. -/
theorem EndsOutside.addTail {l l' : Links A} {head head' : Option A} {el : A} {xs : List A}
    (h : EndsOutside l head xs) (hel : el ∉ xs) (hadd : l.addTail head el = some (l', head')) :
    l.SameOn l' xs ∧ EndsOutside l' head' xs := by
  unfold Links.addTail at hadd
  have hnext := l.setNext_sameOn hel none
  cases head with
  | none =>
      obtain ⟨rfl, rfl⟩ := Prod.mk.inj (Option.some.inj hadd)
      refine ⟨hnext.trans (Links.setPrev_sameOn _ hel _), ?_⟩
      rintro _ ⟨⟩
      refine ⟨hel, fun p hp => ?_⟩
      rw [Links.setPrev_prev_self, Option.some.injEq] at hp
      exact hp ▸ hel
  | some first =>
      obtain ⟨hfirst, hprev⟩ := h first rfl
      change (((l.setNext el none).setPrev el (l.prev first)).prev first).bind _ = _ at hadd
      obtain ⟨last, hlast, hadd⟩ := Option.bind_eq_some_iff.mp hadd
      obtain ⟨rfl, rfl⟩ := Prod.mk.inj (Option.some.inj hadd)
      have hlast' : last ∉ xs := by
        rcases eq_or_ne first el with rfl | hne
        · rw [Links.setPrev_prev_self] at hlast
          exact hprev last hlast
        · rw [Links.setPrev_prev_of_ne _ hne] at hlast
          exact hprev last hlast
      refine ⟨((hnext.trans (Links.setPrev_sameOn _ hel _)).trans
        (Links.setNext_sameOn _ hlast' _)).trans (Links.setPrev_sameOn _ hfirst _), ?_⟩
      rintro _ ⟨⟩
      refine ⟨hfirst, fun p hp => ?_⟩
      rw [Links.setPrev_prev_self, Option.some.injEq] at hp
      exact hp ▸ hel

/-- What `rm` does, in two steps. -/
theorem Links.rm_eq_some {l l' : Links A} {head head' : Option A} {x : A}
    (h : l.rm head x = some (l', head')) :
    ∃ l₁, (head = some x ∧ l₁ = l ∨ head ≠ some x ∧ ∃ p, l.prev x = some p ∧
        l₁ = l.setNext p (l.next x)) ∧
      (∃ y, (l₁.next x = some y ∨ l₁.next x = none ∧ head = some y) ∧
        l' = l₁.setPrev y (l₁.prev x)) ∧ head' = if head = some x then l'.next x else head := by
  unfold Links.rm at h
  by_cases hhead : head = some x
  · subst hhead
    refine ⟨l, Or.inl ⟨rfl, rfl⟩, ?_⟩
    cases hnext : l.next x with
    | none =>
        simp only [hnext, ne_eq, not_true, if_false, pure_bind, if_true] at h
        obtain ⟨rfl, rfl⟩ := Prod.mk.inj (Option.some.inj h)
        exact ⟨⟨x, Or.inr ⟨rfl, rfl⟩, rfl⟩, (if_pos rfl).symm⟩
    | some y =>
        simp only [hnext, ne_eq, not_true, if_false, pure_bind, if_true] at h
        obtain ⟨rfl, rfl⟩ := Prod.mk.inj (Option.some.inj h)
        exact ⟨⟨y, Or.inl rfl, rfl⟩, (if_pos rfl).symm⟩
  · cases hprev : l.prev x with
    | none => simp [hhead, hprev] at h
    | some p =>
        refine ⟨l.setNext p (l.next x), Or.inr ⟨hhead, p, rfl, rfl⟩, ?_⟩
        cases hnext : (l.setNext p (l.next x)).next x with
        | none =>
            simp only [hhead, hprev, hnext, ne_eq, not_false_eq_true, if_true, if_false, pure_bind,
              Option.bind_eq_bind, Option.bind_some] at h
            obtain ⟨first, rfl, h⟩ := Option.bind_eq_some_iff.mp h
            obtain ⟨rfl, rfl⟩ := Prod.mk.inj (Option.some.inj h)
            exact ⟨⟨first, Or.inr ⟨rfl, rfl⟩, rfl⟩, (if_neg hhead).symm⟩
        | some y =>
            simp only [hhead, hprev, hnext, ne_eq, not_false_eq_true, if_true, if_false, pure_bind,
              Option.bind_eq_bind, Option.bind_some] at h
            obtain ⟨rfl, rfl⟩ := Prod.mk.inj (Option.some.inj h)
            exact ⟨⟨y, Or.inl rfl, rfl⟩, (if_neg hhead).symm⟩

/-- The first one of the elements is taken out. -/
theorem Rest.rm {l l' : Links A} {head head' stack : Option A} {x : A} {xs : List A}
    (h : Rest l (x :: xs)) (hfront : Front l head (x :: xs)) (hends : EndsOutside l stack (x :: xs))
    (hrm : l.rm head x = some (l', head')) :
    Rest l' xs ∧ Front l' head' xs ∧ EndsOutside l' stack xs := by
  obtain ⟨hx, hnodup⟩ := List.nodup_cons.mp h.nodup
  obtain ⟨l₁, hl₁, ⟨y, hy, rfl⟩, rfl⟩ := Links.rm_eq_some hrm
  -- the element in front of `x` is none of the others
  have hsame : l.SameOn l₁ (x :: xs) ∧ l₁.prev = l.prev := by
    rcases hl₁ with ⟨-, rfl⟩ | ⟨hne, p, hp, rfl⟩
    · exact ⟨fun _ _ => ⟨rfl, rfl⟩, rfl⟩
    · exact ⟨l.setNext_sameOn (hfront.prev x p rfl hne hp) _, rfl⟩
  have hnext : l₁.next x = xs.head? := (hsame.1 x List.mem_cons_self).1.trans h.next
  have hrest := h.tail.congr fun z hz => hsame.1 z (List.mem_cons_of_mem _ hz)
  rw [hsame.2, Links.setPrev_next, hnext]
  rcases xs with _ | ⟨z, zs⟩
  · exact ⟨⟨List.isChain_nil, nofun, List.nodup_nil⟩, ⟨fun _ _ => List.not_mem_nil, nofun⟩,
      fun _ _ => ⟨List.not_mem_nil, fun _ _ => List.not_mem_nil⟩⟩
  · obtain rfl : y = z := by
      rw [hnext] at hy
      rcases hy with hy | ⟨hy, -⟩
      · exact (Option.some.inj hy).symm
      · cases hy
    have hzs := (List.nodup_cons.mp hnodup).1
    refine ⟨⟨?_, hrest.last, hnodup⟩, ⟨?_, ?_⟩, ?_⟩
    · refine hrest.chain.imp_of_mem_tail_imp fun a b _ hb hab => ⟨hab.1, ?_⟩
      rw [Links.setPrev_prev_of_ne _ (ne_of_mem_of_not_mem hb hzs)]
      exact hab.2
    · intro w hw
      split at hw
      · obtain rfl := Option.some.inj hw
        exact hzs
      · exact fun hmem => hfront.first w hw (List.mem_cons_of_mem _ hmem)
    · rintro _ p ⟨⟩ hne hp hmem
      rw [Links.setPrev_prev_self] at hp
      split at hne
      · exact hne rfl
      · next hhead => exact hfront.prev x p rfl hhead hp (List.mem_cons_of_mem _ hmem)
    · intro first hfirst
      obtain ⟨hnot, hprev⟩ := hends first hfirst
      have hfirstne : first ≠ y := fun heq => hnot (heq ▸ List.mem_cons_of_mem _ List.mem_cons_self)
      refine ⟨fun hmem => hnot (List.mem_cons_of_mem _ hmem), fun p hp hmem => ?_⟩
      rw [Links.setPrev_prev_of_ne _ hfirstne, hsame.2] at hp
      exact hprev p hp (List.mem_cons_of_mem _ hmem)

end IntrusiveList
