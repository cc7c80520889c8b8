import Vimgdb.Lib.IntrusiveList

/-!
# The list macros

`list.h` over the memory of the elements: the pointers that are elements, and the elements that have been
freed, which may not be accessed any more.

* `Heap`: the memory; `Heap.next`, `Heap.setNext` and so on: the accesses.
* `listAddHead`, `listAddTail`, `listRm`, `listForEach`: the macros.
* `listRm_eq` and so on: on elements that have not been freed they are the operations on pointers.
* `forEachLoop_eq`: the walk over a list whose elements are removed.
* `lists_are_sequences`: what they do to sequences.
-/

namespace Vimgdb.Lists

open IntrusiveList

variable {A : Type*} [DecidableEq A]

/-! ## The macros -/

/-- The pointers of the elements, and the elements that have been freed. -/
structure Heap (A : Type*) where
  links : Links A
  freed : List A := []

/-- `x->next` is read. -/
def Heap.next (m : Heap A) (x : A) : Option (Option A) :=
  if x ∈ m.freed then none else some (m.links.next x)

/-- `x->prev` is read. -/
def Heap.prev (m : Heap A) (x : A) : Option (Option A) :=
  if x ∈ m.freed then none else some (m.links.prev x)

/-- `x->next` is written. -/
def Heap.setNext (m : Heap A) (x : A) (p : Option A) : Option (Heap A) :=
  if x ∈ m.freed then none else some { m with links := m.links.setNext x p }

/-- `x->prev` is written. -/
def Heap.setPrev (m : Heap A) (x : A) (p : Option A) : Option (Heap A) :=
  if x ∈ m.freed then none else some { m with links := m.links.setPrev x p }

/-- `delete x` -/
def Heap.free (m : Heap A) (x : A) : Option (Heap A) :=
  if x ∈ m.freed then none else some { m with freed := x :: m.freed }

/-- `list_add_head` -/
def listAddHead (m : Heap A) (head : Option A) (el : A) : Option (Heap A × Option A) := do
  let m ← m.setNext el head
  match head with
  | none => return (← m.setPrev el (some el), some el)
  | some first =>
      let m ← m.setPrev el (← m.prev first)
      return (← m.setPrev first (some el), some el)

/-- `list_add_tail` -/
def listAddTail (m : Heap A) (head : Option A) (el : A) : Option (Heap A × Option A) := do
  let m ← m.setNext el none
  match head with
  | none => return (← m.setPrev el (some el), some el)
  | some first =>
      let m ← m.setPrev el (← m.prev first)
      let last ← ← m.prev first
      let m ← m.setNext last (some el)
      return (← m.setPrev first (some el), head)

/-- The pointer that leads to `entry` from the one in front of it, as `list_rm` writes it. -/
def unlinkNext (m : Heap A) (head : Option A) (entry : A) : Option (Heap A) :=
  if head ≠ some entry then do
    let p ← ← m.prev entry
    m.setNext p (← m.next entry)
  else some m

/-- The pointer back to `entry`, which is that of the first element if `entry` is the last one. -/
def unlinkPrev (m : Heap A) (head : Option A) (entry : A) : Option (Heap A) := do
  match ← m.next entry with
  | some n => m.setPrev n (← m.prev entry)
  | none =>
      let first ← head
      m.setPrev first (← m.prev entry)

/-- `list_rm` -/
def listRm (m : Heap A) (head : Option A) (entry : A) : Option (Heap A × Option A) := do
  let m ← unlinkNext m head entry
  let m ← unlinkPrev m head entry
  if head = some entry then return (m, ← m.next entry) else return (m, head)

/-- The loop of `list_for_each`: the elements for which the body has run.  The next element is read
before the body runs; the loop ends before `fuel` is used up. -/
def forEachLoop (body : A → Heap A × Option A → Option (Heap A × Option A)) :
    Nat → Option A → Option A → Heap A × Option A → Option (List A × Heap A × Option A)
  | 0, _, _, _ => none
  | _ + 1, none, _, s => some ([], s)
  | fuel + 1, some entry, next, s => do
      let s ← body entry s
      let next' ← match next with
        | none => some none
        | some n => s.1.next n
      let r ← forEachLoop body fuel next next' s
      return (entry :: r.1, r.2)

/-- `list_for_each`, with a body that may change the list. -/
def listForEach (body : A → Heap A × Option A → Option (Heap A × Option A)) (fuel : Nat)
    (s : Heap A × Option A) : Option (List A × Heap A × Option A) := do
  let next ← match s.2 with
    | none => some none
    | some first => s.1.next first
  forEachLoop body fuel s.2 next s

/-- A body that removes the element and frees it, if it is one that goes. -/
def removeAndFree (goes : A → Bool) (entry : A) (s : Heap A × Option A) :
    Option (Heap A × Option A) :=
  if goes entry then do
    let (m, head) ← listRm s.1 s.2 entry
    return (← m.free entry, head)
  else some s

/-! ## Elements that have not been freed -/

/-- None of the elements has been freed. -/
def Heap.Alive (m : Heap A) (xs : List A) : Prop := ∀ x ∈ xs, x ∉ m.freed

variable {m : Heap A} {head : Option A} {xs ys : List A} {x : A}

theorem listAddHead_eq (h : IsList m.links head xs) (halive : m.Alive (x :: xs)) :
    listAddHead m head x =
      some ({ m with links := (m.links.addHead head x).1 }, (m.links.addHead head x).2) := by
  have hx := halive x List.mem_cons_self
  unfold listAddHead Links.addHead Heap.setNext Heap.setPrev Heap.prev
  rw [if_neg hx, h.head]
  cases xs with
  | nil => simp [hx]
  | cons first xs =>
      have hfirst := halive first (List.mem_cons_of_mem _ List.mem_cons_self)
      simp [hx, hfirst]

theorem listAddTail_eq (h : IsList m.links head xs) (halive : m.Alive (x :: xs)) (hx : x ∉ xs) :
    listAddTail m head x =
      (m.links.addTail head x).map fun p => ({ m with links := p.1 }, p.2) := by
  have hxalive := halive x List.mem_cons_self
  unfold listAddTail Links.addTail Heap.setNext Heap.setPrev Heap.prev
  rw [if_neg hxalive, h.head]
  cases xs with
  | nil => simp [hxalive]
  | cons first xs =>
      have hfirst := halive first (List.mem_cons_of_mem _ List.mem_cons_self)
      have hne : first ≠ x := fun heq => hx (heq ▸ List.mem_cons_self)
      obtain ⟨last, hlast⟩ : ∃ last, (first :: xs).getLast? = some last :=
        ⟨_, List.getLast?_eq_some_getLast (List.cons_ne_nil first xs)⟩
      have hback : m.links.prev first = some last := (h.back first rfl).trans hlast
      have hlastalive := halive last (List.mem_cons_of_mem _ (List.mem_of_getLast? hlast))
      have hprev : ((m.links.setNext x none).setPrev x (some last)).prev first = some last :=
        (Links.setPrev_prev_of_ne _ hne _).trans hback
      simp [hxalive, hfirst, hback, hprev, hlastalive]

theorem listRm_eq (h : IsList m.links head (xs ++ x :: ys)) (halive : m.Alive (xs ++ x :: ys)) :
    listRm m head x = (m.links.rm head x).map fun p => ({ m with links := p.1 }, p.2) := by
  have hx := halive x (List.mem_append_right _ List.mem_cons_self)
  have hnext := h.next_eq
  have hys : ∀ y, ys.head? = some y → y ∉ m.freed := fun y hy =>
    halive y (List.mem_append_right _ (List.mem_cons_of_mem _ (List.mem_of_head? hy)))
  unfold listRm unlinkNext unlinkPrev Links.rm Heap.setNext Heap.setPrev Heap.prev Heap.next
  rcases h.before with ⟨-, rfl⟩ | ⟨first, p, rfl, hfirst, hne, hp, hpx, hprev⟩
  · -- the first one has none in front of it
    cases hhead : ys.head? with
    | none =>
        rw [hhead] at hnext
        simp [hx, hnext]
    | some y =>
        rw [hhead] at hnext
        simp [hx, hnext, hys y hhead]
  · have hpalive := halive p (List.mem_append_left _ hp)
    have hfalive := halive first (List.mem_append_left _ hfirst)
    have hnext' : (m.links.setNext p ys.head?).next x = ys.head? :=
      (Links.setNext_next_of_ne _ hpx.symm _).trans hnext
    cases hhead : ys.head? with
    | none =>
        rw [hhead] at hnext hnext'
        simp [hx, hne, hprev, hnext, hnext', hpalive, hfalive]
    | some y =>
        rw [hhead] at hnext hnext'
        simp [hx, hne, hprev, hnext, hnext', hpalive, hys y hhead]

/-! ## Walking over a list -/

/-- The body takes the element out and frees it, or leaves the list as it is. -/
theorem removeAndFree_eq (goes : A → Bool) (h : IsList m.links head (xs ++ x :: ys))
    (halive : m.Alive (xs ++ x :: ys)) : ∃ m' head',
      removeAndFree goes x (m, head) = some (m', head') ∧
      IsList m'.links head' ((xs ++ if goes x then [] else [x]) ++ ys) ∧
      m'.Alive ((xs ++ if goes x then [] else [x]) ++ ys) := by
  unfold removeAndFree
  cases hgoes : goes x with
  | false =>
      refine ⟨m, head, rfl, ?_, ?_⟩ <;>
        simpa only [Bool.false_eq_true, if_false, List.append_assoc, List.singleton_append]
  | true =>
      obtain ⟨l', hrm, hlist⟩ := h.rm
      have hx := halive x (List.mem_append_right _ List.mem_cons_self)
      have hmacro := listRm_eq h halive
      rw [hrm] at hmacro
      have hfree : Heap.free { m with links := l' } x =
          some { m with links := l', freed := x :: m.freed } := if_neg hx
      refine ⟨{ m with links := l', freed := x :: m.freed }, (xs ++ ys).head?, ?_, ?_, ?_⟩
      · simp only [if_true, Option.bind_eq_bind, hmacro, Option.map_some, Option.bind_some, hfree,
          Option.pure_def]
      · simpa only [if_true, List.append_nil] using hlist
      · rw [if_pos rfl, List.append_nil]
        intro y hy
        obtain ⟨-, hnodup, hdisjoint⟩ := List.nodup_append.mp h.nodup
        rw [List.mem_cons, not_or]
        rcases List.mem_append.mp hy with hy | hy
        · exact ⟨hdisjoint y hy x List.mem_cons_self, halive y (List.mem_append_left _ hy)⟩
        · exact ⟨fun heq => (List.nodup_cons.mp hnodup).1 (heq ▸ hy),
            halive y (List.mem_append_right _ (List.mem_cons_of_mem _ hy))⟩

/-- From an element on, the body runs once for each one; those that go are not in the list behind it. -/
theorem forEachLoop_eq (goes : A → Bool) {fuel : Nat} (h : IsList m.links head (xs ++ ys))
    (halive : m.Alive (xs ++ ys)) (hfuel : ys.length < fuel) : ∃ m' head',
      forEachLoop (removeAndFree goes) fuel ys.head? ys.tail.head? (m, head) =
        some (ys, m', head') ∧
      IsList m'.links head' (xs ++ ys.filter fun y => !goes y) ∧
      m'.Alive (xs ++ ys.filter fun y => !goes y) := by
  induction ys generalizing m head xs fuel with
  | nil =>
      obtain ⟨fuel, rfl⟩ := Nat.exists_eq_succ_of_ne_zero hfuel.ne'
      exact ⟨m, head, rfl, h, halive⟩
  | cons x ys ih =>
      obtain ⟨fuel, rfl⟩ := Nat.exists_eq_succ_of_ne_zero (Nat.ne_of_gt (Nat.zero_lt_of_lt hfuel))
      obtain ⟨m₁, head₁, hbody, hlist, halive₁⟩ := removeAndFree_eq goes h halive
      -- the next element has not been freed, and what follows it is as before
      have hnext : (match ys.head? with
          | none => some none
          | some n => m₁.next n) = some ys.tail.head? := by
        cases ys with
        | nil => rfl
        | cons y ys =>
            have hy := halive₁ y (List.mem_append_right _ List.mem_cons_self)
            exact (if_neg hy).trans (congrArg some hlist.next_eq)
      obtain ⟨m', head', hrest, hlist', halive'⟩ := ih hlist halive₁ (Nat.lt_of_succ_lt_succ hfuel)
      refine ⟨m', head', ?_, ?_⟩
      · unfold forEachLoop
        simp only [List.head?_cons, List.tail_cons]
        rw [hbody, Option.bind_eq_bind, Option.bind_some]
        cases hys : ys.head? with
        | none =>
            rw [hys] at hnext hrest
            rw [← Option.some.inj hnext] at hrest
            simp only [Option.bind_eq_bind, Option.bind_some, hrest, Option.pure_def]
        | some n =>
            rw [hys] at hnext hrest
            have hread : m₁.next n = some ys.tail.head? := hnext
            simp only [Option.bind_eq_bind, Option.bind_some, hread, hrest, Option.pure_def]
      · have hfilter : (x :: ys).filter (fun y => !goes y) =
            (if goes x then [] else [x]) ++ ys.filter fun y => !goes y := by
          rw [List.filter_cons]
          cases goes x <;> rfl
        rw [hfilter, ← List.append_assoc]
        exact ⟨hlist', halive'⟩

theorem listForEach_eq (goes : A → Bool) {fuel : Nat} (h : IsList m.links head xs)
    (halive : m.Alive xs) (hfuel : xs.length < fuel) : ∃ m' head',
      listForEach (removeAndFree goes) fuel (m, head) = some (xs, m', head') ∧
      IsList m'.links head' (xs.filter fun x => !goes x) := by
  obtain ⟨m', head', hloop, hlist, -⟩ := forEachLoop_eq goes (show IsList m.links head ([] ++ xs) from h) halive hfuel
  refine ⟨m', head', ?_, hlist⟩
  unfold listForEach
  rw [h.head]
  cases xs with
  | nil =>
      rw [h.head] at hloop
      exact hloop
  | cons x xs =>
      have hx : m.next x = some xs.head? :=
        (if_neg (halive x List.mem_cons_self)).trans (congrArg some h.forward.1)
      rw [h.head] at hloop
      simp only [List.head?_cons, hx, Option.bind_eq_bind, Option.bind_some]
      exact hloop

/-! ## Sequences -/

/-- A macro with its element. -/
inductive Op (A : Type*)
  | addHead (el : A)
  | addTail (el : A)
  | rm (entry : A)

/-- The macro. -/
def Op.run (s : Heap A × Option A) : Op A → Option (Heap A × Option A)
  | addHead el => listAddHead s.1 s.2 el
  | addTail el => listAddTail s.1 s.2 el
  | rm entry => listRm s.1 s.2 entry

/-- What it does to a sequence. -/
def Op.apply (xs : List A) : Op A → List A
  | addHead el => el :: xs
  | addTail el => xs ++ [el]
  | rm entry => xs.erase entry

/-- An element that is added is not in the list, and one that is taken out is. -/
def Op.Valid (xs : List A) : Op A → Prop
  | addHead el => el ∉ xs
  | addTail el => el ∉ xs
  | rm entry => entry ∈ xs

instance (xs : List A) (op : Op A) : Decidable (op.Valid xs) := by
  cases op <;> unfold Op.Valid <;> infer_instance

/-- Macros one after the other. -/
def runAll (s : Heap A × Option A) (ops : List (Op A)) : Option (Heap A × Option A) :=
  ops.foldlM (fun s op => op.run s) s

/-- What they do to a sequence. -/
def applyAll (xs : List A) (ops : List (Op A)) : List A := ops.foldl Op.apply xs

/-- Each one has its element in the list or not, as it has to be. -/
def ValidAll : List A → List (Op A) → Prop
  | _, [] => True
  | xs, op :: ops => op.Valid xs ∧ ValidAll (op.apply xs) ops

/-- A macro does to the list what it does to the sequence, if the memory of the elements is there. -/
theorem exists_run (h : IsList m.links head xs) (hfreed : m.freed = []) {op : Op A}
    (hvalid : op.Valid xs) : ∃ m' head', op.run (m, head) = some (m', head') ∧
      IsList m'.links head' (op.apply xs) ∧ m'.freed = [] := by
  have halive : ∀ ys, m.Alive ys := fun ys y _ hy => by
    rw [hfreed] at hy
    cases hy
  cases op with
  | addHead el => exact ⟨_, _, listAddHead_eq h (halive _), h.addHead hvalid, hfreed⟩
  | addTail el =>
      obtain ⟨l', hadd, hlist⟩ := h.addTail hvalid
      have hmacro := listAddTail_eq h (halive _) hvalid
      rw [hadd] at hmacro
      exact ⟨_, _, hmacro, hlist, hfreed⟩
  | rm entry =>
      obtain ⟨ys, zs, rfl⟩ := List.append_of_mem hvalid
      obtain ⟨l', hrm, hlist⟩ := h.rm
      have hmacro := listRm_eq h (halive _)
      rw [hrm] at hmacro
      have hnot : entry ∉ ys := fun hmem =>
        (List.nodup_append.mp h.nodup).2.2 entry hmem entry List.mem_cons_self rfl
      have herase : (ys ++ entry :: zs).erase entry = ys ++ zs := by
        rw [List.erase_append_right _ hnot, List.erase_cons_head]
      refine ⟨_, _, hmacro, ?_, hfreed⟩
      show IsList l' (ys ++ zs).head? ((ys ++ entry :: zs).erase entry)
      rw [herase]
      exact hlist

theorem exists_runAll {ops : List (Op A)} (h : IsList m.links head xs) (hfreed : m.freed = [])
    (hvalid : ValidAll xs ops) : ∃ m' head', runAll (m, head) ops = some (m', head') ∧
      IsList m'.links head' (applyAll xs ops) ∧ m'.freed = [] := by
  induction ops generalizing m head xs with
  | nil => exact ⟨m, head, rfl, h, hfreed⟩
  | cons op ops ih =>
      obtain ⟨hop, hops⟩ := hvalid
      obtain ⟨m₁, head₁, hrun, hlist, hfreed₁⟩ := exists_run h hfreed hop
      obtain ⟨m', head', hall, hlist', hfreed'⟩ := ih hlist hfreed₁ hops
      refine ⟨m', head', ?_, hlist', hfreed'⟩
      unfold runAll
      rw [List.foldlM_cons, hrun]
      exact hall

/-- Behind every sequence of the macros from the empty list on, the elements are linked in the order of
the sequence, the first one's `prev` is the last one, and a walk whose body takes elements out and frees
them comes to each one once and leaves the others. -/
theorem lists_are_sequences (l : Links A) {ops : List (Op A)} (hvalid : ValidAll [] ops) :
    ∃ m head, runAll ({ links := l }, none) ops = some (m, head) ∧
      head = (applyAll [] ops).head? ∧
      m.links.Forward (applyAll [] ops) ∧
      (∀ first, head = some first → m.links.prev first = (applyAll [] ops).getLast?) ∧
      (∀ ys x y zs, applyAll [] ops = ys ++ x :: y :: zs → m.links.prev y = some x) ∧
      (applyAll [] ops).Nodup ∧
      ∀ (goes : A → Bool) (fuel : Nat), (applyAll [] ops).length < fuel → ∃ m' head',
        listForEach (removeAndFree goes) fuel (m, head) = some (applyAll [] ops, m', head') ∧
        IsList m'.links head' ((applyAll [] ops).filter fun x => !goes x) := by
  obtain ⟨m, head, hrun, hlist, hfreed⟩ :=
    exists_runAll (m := { links := l }) (isList_nil l) rfl hvalid
  refine ⟨m, head, hrun, hlist.head, hlist.forward, fun first hfirst => ?_, fun ys x y zs heq => ?_,
    hlist.nodup, fun goes fuel hfuel => ?_⟩
  · exact hlist.back first (hlist.head ▸ hfirst)
  · have hchain := hlist.chain
    rw [heq] at hchain
    exact (List.isChain_cons_cons.mp (List.isChain_append.mp hchain).2.1).1.2
  · exact listForEach_eq goes hlist (fun x _ hx => by rw [hfreed] at hx; cases hx) hfuel

/-- Four elements, of which the first one is taken out. -/
theorem four_elements_listed : ∃ m head,
    runAll ({ links := ⟨fun _ => none, fun _ => none⟩ }, none)
      [.addTail 1, .addHead 2, .addTail 3, .addHead 4, .rm 4] = some (m, head) ∧
      head = some 2 ∧ m.links.Forward [2, 1, 3] ∧ m.links.prev 2 = some 3 := by
  obtain ⟨m, head, hrun, hhead, hforward, hback, -⟩ :=
    @lists_are_sequences _ _ ⟨fun _ => none, fun _ => none⟩
      [.addTail 1, .addHead 2, .addTail 3, .addHead 4, .rm 4] (by
        refine ⟨by decide, by decide, by decide, by decide, by decide, trivial⟩)
  exact ⟨m, head, hrun, hhead, hforward, hback 2 hhead⟩

end Vimgdb.Lists
