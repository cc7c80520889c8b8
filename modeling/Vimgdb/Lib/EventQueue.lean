import Mathlib.Data.Fintype.EquivFin
import Vimgdb.Lib.IntrusiveList
import Vimgdb.Lib.Runs

/-!
# Event queues

Threads add events to an intrusive list under a mutex and signal a condition; one consumer takes the
first event, and waits for the condition if it finds the list empty.  The test is not repeated when
the consumer is woken.

* `Step`: the producers and the consumer, one lock, test, list operation or signal at a time.
* `Inv`: the list holds the accepted events that have not been taken, and the consumer waits only
  while it is empty or a signal is due.
* `taken_of_stopped`: an event can end the consumer, which takes nothing more then.
* `delivered`: the events are taken once each and in order, none is lost, and no null pointer is
  followed.
-/

namespace EventQueue

open IntrusiveList Runs

/-! ## The system -/

/-- Where a producer is. -/
inductive Producer (V : Type)
  | idle
  /-- It has an event and wants the mutex. -/
  | called (v : V)
  | locked (v : V)
  /-- The event is in the list. -/
  | added
  /-- It gives the mutex back. -/
  | leaving
  /-- It has followed a null pointer. -/
  | crashed

/-- Where the consumer is. -/
inductive Consumer (A V : Type)
  | idle
  | checking
  | waiting
  | woken
  | taking
  /-- It has taken an event and holds the mutex. -/
  | holding (a : A) (v : V)
  | processing (a : A) (v : V)
  | stopped
  /-- It has followed a null pointer. -/
  | crashed

/-- The owner of the mutex. -/
inductive Owner (P : Type)
  | producer (p : P)
  | consumer

/-- The list, the nodes that are allocated, and the threads.  `arrived` are the events the producers
have brought, `taken` those the consumer has taken. -/
structure State (A V P : Type) where
  links : Links A
  head : Option A
  val : A → V
  allocated : Finset A
  mtx : Option (Owner P)
  producer : P → Producer V
  consumer : Consumer A V
  arrived : List V
  taken : List V

/-- Who takes a step. -/
inductive Event (P : Type)
  | call (p : P)
  | producer (p : P)
  | consumer

/-- `pthread_cond_signal`. -/
def Consumer.signal {A V : Type} : Consumer A V → Consumer A V
  | .waiting => .woken
  | c => c

section
variable {A V P : Type}

/-- The list is empty, and nobody has begun. -/
structure Initial (s : State A V P) : Prop where
  head : s.head = none
  mtx : s.mtx = none
  producer : ∀ p, s.producer p = .idle
  consumer : s.consumer = .idle
  arrived : s.arrived = []
  taken : s.taken = []

variable [DecidableEq A] [DecidableEq P]

/-- The producer goes on. -/
def State.move (s : State A V P) (p : P) (x : Producer V) : State A V P :=
  { s with producer := Function.update s.producer p x }

/-- One step.  Events that are not accepted are dropped; after one that stops it the consumer does not
return to the list. -/
inductive Step (accepts stops : V → Bool) (s : State A V P) : Event P → State A V P → Prop
  | call {p : P} (v : V) : s.producer p = .idle →
      Step accepts stops s (.call p) (s.move p (.called v))
  | lock {p : P} {v : V} : s.producer p = .called v → s.mtx = none →
      Step accepts stops s (.producer p)
        { s.move p (.locked v) with mtx := some (.producer p) }
  | add {p : P} {v : V} {a : A} {l : Links A} {head : Option A} : s.producer p = .locked v →
      accepts v = true → a ∉ s.allocated → s.links.addTail s.head a = some (l, head) →
      Step accepts stops s (.producer p)
        { s.move p .added with
          links := l
          head := head
          val := Function.update s.val a v
          allocated := insert a s.allocated
          arrived := s.arrived ++ [v] }
  | addCrash {p : P} {v : V} {a : A} : s.producer p = .locked v → accepts v = true →
      a ∉ s.allocated → s.links.addTail s.head a = none →
      Step accepts stops s (.producer p) (s.move p .crashed)
  | drop {p : P} {v : V} : s.producer p = .locked v → accepts v = false →
      Step accepts stops s (.producer p) { s.move p .leaving with arrived := s.arrived ++ [v] }
  | signal {p : P} : s.producer p = .added →
      Step accepts stops s (.producer p)
        { s.move p .leaving with consumer := s.consumer.signal }
  | unlock {p : P} : s.producer p = .leaving →
      Step accepts stops s (.producer p) { s.move p .idle with mtx := none }
  | lockConsumer : s.consumer = .idle → s.mtx = none →
      Step accepts stops s .consumer { s with consumer := .checking, mtx := some .consumer }
  | wait : s.consumer = .checking → s.head = none →
      Step accepts stops s .consumer { s with consumer := .waiting, mtx := none }
  | found {a : A} : s.consumer = .checking → s.head = some a →
      Step accepts stops s .consumer { s with consumer := .taking }
  | relock : s.consumer = .woken → s.mtx = none →
      Step accepts stops s .consumer { s with consumer := .taking, mtx := some .consumer }
  | take {a : A} {l : Links A} {head : Option A} : s.consumer = .taking → s.head = some a →
      s.links.rm s.head a = some (l, head) →
      Step accepts stops s .consumer
        { s with
          consumer := .holding a (s.val a)
          links := l
          head := head
          taken := s.taken ++ [s.val a] }
  | takeCrash : s.consumer = .taking →
      (∀ a, s.head = some a → s.links.rm s.head a = none) →
      Step accepts stops s .consumer { s with consumer := .crashed }
  | unlockConsumer {a : A} {v : V} : s.consumer = .holding a v →
      Step accepts stops s .consumer { s with consumer := .processing a v, mtx := none }
  | processed {a : A} {v : V} : s.consumer = .processing a v →
      Step accepts stops s .consumer
        { s with
          consumer := if stops v then .stopped else .idle
          allocated := s.allocated.erase a }

end

/-! ## The invariant -/

section
variable {A V P : Type}

/-- Does a producer hold the mutex? -/
def Producer.holds : Producer V → Bool
  | .locked _ | .added | .leaving | .crashed => true
  | _ => false

/-- Does the consumer hold the mutex? -/
def Consumer.holds : Consumer A V → Bool
  | .checking | .taking | .holding .. | .crashed => true
  | _ => false

/-- The node the consumer has taken. -/
def Consumer.node : Consumer A V → Option A
  | .holding a _ | .processing a _ => some a
  | _ => none

/-- Who holds the mutex. -/
structure Mutex (s : State A V P) : Prop where
  producer : ∀ p, (s.producer p).holds = true ↔ s.mtx = some (.producer p)
  consumer : s.consumer.holds = true ↔ s.mtx = some .consumer

/-- The list holds the nodes `xs`. -/
structure Holds (accepts : V → Bool) (s : State A V P) (xs : List A) : Prop where
  list : IsList s.links s.head xs
  allocated : ∀ a ∈ xs, a ∈ s.allocated
  node : ∀ a, s.consumer.node = some a → a ∈ s.allocated ∧ a ∉ xs
  arrived : s.arrived.filter accepts = s.taken ++ xs.map s.val
  waiting : s.consumer = .waiting → xs = [] ∨ ∃ p, s.producer p = .added
  added : ∀ p, s.producer p = .added → xs ≠ []
  found : s.consumer = .woken ∨ s.consumer = .taking → xs ≠ []

/-- The invariant. -/
structure Inv (accepts : V → Bool) (s : State A V P) : Prop where
  mutex : Mutex s
  notCrashed : s.consumer ≠ .crashed ∧ ∀ p, s.producer p ≠ .crashed
  holds : ∃ xs, Holds accepts s xs

theorem inv_initial {accepts : V → Bool} {s : State A V P} (h : Initial s) : Inv accepts s := by
  refine ⟨⟨fun p => ?_, ?_⟩, ⟨?_, fun p => ?_⟩, [], ?_, ?_, ?_, ?_, ?_, ?_, ?_⟩
  · simp [h.producer p, h.mtx, Producer.holds]
  · simp [h.consumer, h.mtx, Consumer.holds]
  · rw [h.consumer]
    nofun
  · rw [h.producer p]
    nofun
  · rw [h.head]
    exact isList_nil _
  · simp
  · simp [h.consumer, Consumer.node]
  · simp [h.arrived, h.taken]
  · exact fun _ => Or.inl rfl
  · simp [h.producer]
  · simp [h.consumer]

variable [DecidableEq P]

/-- A producer moves and keeps the mutex, or takes it, or gives it back. -/
theorem Mutex.produce {s s' : State A V P} {p : P} {x y : Producer V} (h : Mutex s)
    (hp : s.producer p = x) (hproducer : s'.producer = Function.update s.producer p y)
    (hconsumer : s'.consumer.holds = s.consumer.holds)
    (hmtx : s'.mtx = if x.holds = y.holds then s.mtx else if y.holds then some (.producer p) else none)
    (hfree : y.holds = true → x.holds = true ∨ s.mtx = none) : Mutex s' := by
  have hx := h.producer p
  rw [hp] at hx
  have hother : ∀ o, o ≠ Owner.producer p → (s'.mtx = some o ↔ s.mtx = some o) := by
    intro o ho
    rw [hmtx]
    split_ifs with h₁ h₂
    · rfl
    · rcases hfree h₂ with h' | h'
      · exact absurd (h'.trans h₂.symm) h₁
      · simp [h', Ne.symm ho]
    · have hheld : x.holds = true := by
        cases hx : x.holds
        · simp_all
        · rfl
      simp [hx.mp hheld, Ne.symm ho]
  constructor
  · intro q
    rw [hproducer]
    by_cases hq : q = p
    · subst hq
      rw [Function.update_self, hmtx]
      split_ifs with h₁ h₂
      · rw [← h₁, hx]
      · simp [h₂]
      · simp [h₂]
    · rw [Function.update_of_ne hq, h.producer q]
      exact (hother _ fun heq => hq (Owner.producer.inj heq)).symm
  · rw [hconsumer, h.consumer]
    exact (hother .consumer nofun).symm

omit [DecidableEq P] in
/-- The consumer moves. -/
theorem Mutex.consume {s s' : State A V P} (h : Mutex s) (hproducer : s'.producer = s.producer)
    (hmtx : s'.mtx = if s.consumer.holds = s'.consumer.holds then s.mtx
      else if s'.consumer.holds then some .consumer else none)
    (hfree : s'.consumer.holds = true → s.consumer.holds = true ∨ s.mtx = none) : Mutex s' := by
  constructor
  · intro q
    rw [hproducer, h.producer q, hmtx]
    split_ifs with h₁ h₂
    · rfl
    · rcases hfree h₂ with h' | h'
      · exact absurd (h'.trans h₂.symm) h₁
      · simp [h']
    · have hheld : s.consumer.holds = true := by
        cases hx : s.consumer.holds
        · simp_all
        · rfl
      simp [h.consumer.mp hheld]
  · rw [hmtx]
    split_ifs with h₁ h₂
    · rw [← h₁, h.consumer]
    · simp [h₂]
    · simp [h₂]

/-- A producer that adds nothing does not matter to the consumer. -/
theorem Holds.quiet {accepts : V → Bool} {s : State A V P} {xs : List A} (h : Holds accepts s xs)
    {p : P} (hp : s.producer p ≠ .added) {y : Producer V} (hy : y ≠ .added) :
    (s.consumer = .waiting → xs = [] ∨ ∃ q, Function.update s.producer p y q = .added) ∧
      ∀ q, Function.update s.producer p y q = .added → xs ≠ [] := by
  constructor
  · intro hw
    rcases h.waiting hw with hnil | ⟨q, hq⟩
    · exact Or.inl hnil
    · have hqp : q ≠ p := by
        rintro rfl
        exact hp hq
      exact Or.inr ⟨q, by rw [Function.update_of_ne hqp]; exact hq⟩
  · intro q hq
    by_cases hqp : q = p
    · subst hqp
      rw [Function.update_self] at hq
      exact absurd hq hy
    · rw [Function.update_of_ne hqp] at hq
      exact h.added q hq

/-! ## Steps of a producer -/

section
variable [DecidableEq A] {accepts stops : V → Bool} {s s' : State A V P}

omit [DecidableEq A] in
/-- A producer that does not touch the list keeps the invariant. -/
theorem Inv.produce (h : Inv accepts s) {p : P} {x y : Producer V} (hp : s.producer p = x)
    (hmutex : Mutex s') (hproducer : s'.producer = Function.update s.producer p y)
    (hconsumer : s'.consumer = s.consumer) (hx : x ≠ .added) (hy : y ≠ .added)
    (hcrash : y ≠ .crashed)
    (hlist : s'.links = s.links ∧ s'.head = s.head ∧ s'.val = s.val ∧ s'.allocated = s.allocated ∧
      s'.arrived.filter accepts = s.arrived.filter accepts ∧ s'.taken = s.taken) :
    Inv accepts s' := by
  obtain ⟨hlinks, hhead, hval, halloc, harr, htaken⟩ := hlist
  obtain ⟨xs, hxs⟩ := h.holds
  obtain ⟨hwaiting, hadded⟩ := hxs.quiet (by rw [hp]; exact hx) hy
  refine ⟨hmutex, ⟨?_, fun q => ?_⟩, xs, ?_, ?_, ?_, ?_, ?_, ?_, ?_⟩
  · rw [hconsumer]
    exact h.notCrashed.1
  · rw [hproducer]
    by_cases hq : q = p
    · subst hq
      rw [Function.update_self]
      exact hcrash
    · rw [Function.update_of_ne hq]
      exact h.notCrashed.2 q
  · rw [hlinks, hhead]
    exact hxs.list
  · rw [halloc]
    exact hxs.allocated
  · rw [hconsumer, halloc]
    exact hxs.node
  · rw [harr, htaken, hval]
    exact hxs.arrived
  · rw [hconsumer, hproducer]
    exact hwaiting
  · rw [hproducer]
    exact hadded
  · rw [hconsumer]
    exact hxs.found

/-- An accepted event comes to the end of the list. -/
theorem Inv.add (h : Inv accepts s) {p : P} {v : V} {a : A} {l : Links A} {head : Option A}
    (hp : s.producer p = .locked v) (hv : accepts v = true) (ha : a ∉ s.allocated)
    (hadd : s.links.addTail s.head a = some (l, head)) :
    Inv accepts
      { s.move p .added with
        links := l
        head := head
        val := Function.update s.val a v
        allocated := insert a s.allocated
        arrived := s.arrived ++ [v] } := by
  obtain ⟨xs, hxs⟩ := h.holds
  have hmem : a ∉ xs := fun hx => ha (hxs.allocated a hx)
  obtain ⟨l', hadd', hlist⟩ := hxs.list.addTail hmem
  rw [hadd] at hadd'
  obtain ⟨rfl, rfl⟩ := Prod.mk.inj (Option.some.inj hadd')
  have hne : xs ++ [a] ≠ [] := List.append_ne_nil_of_right_ne_nil _ (List.cons_ne_nil a [])
  refine ⟨h.mutex.produce hp rfl rfl rfl fun _ => Or.inl rfl, ⟨h.notCrashed.1, fun q => ?_⟩,
    xs ++ [a], hlist, ?_, ?_, ?_, ?_, fun _ _ => hne, fun _ => hne⟩
  · show Function.update s.producer p .added q ≠ .crashed
    by_cases hq : q = p
    · subst hq
      rw [Function.update_self]
      nofun
    · rw [Function.update_of_ne hq]
      exact h.notCrashed.2 q
  · intro x hx
    rcases List.mem_append.mp hx with hx | hx
    · exact Finset.mem_insert_of_mem (hxs.allocated x hx)
    · rw [List.mem_singleton.mp hx]
      exact Finset.mem_insert_self a _
  · intro x hx
    obtain ⟨halloc, hnot⟩ := hxs.node x hx
    refine ⟨Finset.mem_insert_of_mem halloc, fun hin => ?_⟩
    rcases List.mem_append.mp hin with hin | hin
    · exact hnot hin
    · rw [List.mem_singleton.mp hin] at halloc
      exact ha halloc
  · have hold : xs.map (Function.update s.val a v) = xs.map s.val := by
      apply List.map_congr_left
      intro x hx
      have hxa : x ≠ a := fun heq => hmem (heq ▸ hx)
      exact Function.update_of_ne hxa ..
    show (s.arrived ++ [v]).filter accepts =
      s.taken ++ (xs ++ [a]).map (Function.update s.val a v)
    rw [List.filter_append, List.filter_cons_of_pos hv, List.filter_nil, hxs.arrived, List.map_append,
      hold, List.map_singleton, Function.update_self, List.append_assoc]
  · exact fun _ => Or.inr ⟨p, Function.update_self ..⟩

omit [DecidableEq A] in
/-- The consumer is signalled. -/
theorem Inv.signal (h : Inv accepts s) {p : P} (hp : s.producer p = .added) :
    Inv accepts { s.move p .leaving with consumer := s.consumer.signal } := by
  obtain ⟨xs, hxs⟩ := h.holds
  have hne := hxs.added p hp
  have hcases : s.consumer.signal = s.consumer ∨ s.consumer.signal = .woken := by
    cases s.consumer <;> simp [Consumer.signal]
  have hholds : s.consumer.signal.holds = s.consumer.holds := by
    cases s.consumer <;> rfl
  have hnode : s.consumer.signal.node = s.consumer.node := by
    cases s.consumer <;> rfl
  have hwaiting : s.consumer.signal ≠ .waiting := by
    cases s.consumer <;> nofun
  have hcrash : s.consumer.signal ≠ .crashed := by
    rcases hcases with hc | hc
    · rw [hc]
      exact h.notCrashed.1
    · rw [hc]
      nofun
  refine ⟨h.mutex.produce hp rfl hholds rfl fun _ => Or.inl rfl, ⟨hcrash, fun q => ?_⟩, xs,
    hxs.list, hxs.allocated, ?_, hxs.arrived, fun hw => absurd hw hwaiting, fun _ _ => hne,
    fun _ => hne⟩
  · show Function.update s.producer p .leaving q ≠ .crashed
    by_cases hq : q = p
    · subst hq
      rw [Function.update_self]
      nofun
    · rw [Function.update_of_ne hq]
      exact h.notCrashed.2 q
  · intro a ha
    exact hxs.node a (hnode ▸ ha)

/-- A step of a producer keeps the invariant. -/
theorem Inv.producerStep {p : P} (h : Inv accepts s)
    (hstep : Step accepts stops s (.producer p) s') : Inv accepts s' := by
  cases hstep with
  | @lock _ v hp hfree =>
      have hmutex : Mutex { s.move p (.locked v) with mtx := some (.producer p) } :=
        h.mutex.produce hp rfl rfl rfl fun _ => Or.inr hfree
      exact h.produce hp hmutex rfl rfl nofun nofun nofun ⟨rfl, rfl, rfl, rfl, rfl, rfl⟩
  | add hp hv ha hadd => exact h.add hp hv ha hadd
  | addCrash hp hv ha hadd =>
      obtain ⟨xs, hxs⟩ := h.holds
      obtain ⟨l', hadd', -⟩ := hxs.list.addTail fun hx => ha (hxs.allocated _ hx)
      rw [hadd] at hadd'
      cases hadd'
  | @drop _ v hp hv =>
      have hmutex : Mutex { s.move p .leaving with arrived := s.arrived ++ [v] } :=
        h.mutex.produce hp rfl rfl rfl fun _ => Or.inl rfl
      have hfilter : (s.arrived ++ [v]).filter accepts = s.arrived.filter accepts := by
        rw [List.filter_append, List.filter_cons_of_neg (by simp [hv]), List.filter_nil,
          List.append_nil]
      exact h.produce hp hmutex rfl rfl nofun nofun nofun ⟨rfl, rfl, rfl, rfl, hfilter, rfl⟩
  | signal hp => exact h.signal hp
  | unlock hp =>
      have hmutex : Mutex { s.move p .idle with mtx := none } :=
        h.mutex.produce hp rfl rfl rfl nofun
      exact h.produce hp hmutex rfl rfl nofun nofun nofun ⟨rfl, rfl, rfl, rfl, rfl, rfl⟩

/-! ## Steps of the consumer -/

/-- A step of the consumer keeps the invariant. -/
theorem Inv.consumerStep (h : Inv accepts s) (hstep : Step accepts stops s .consumer s') :
    Inv accepts s' := by
  obtain ⟨xs, hxs⟩ := h.holds
  cases hstep with
  | lockConsumer hc hfree =>
      refine ⟨h.mutex.consume rfl (by rw [hc]; rfl) fun _ => Or.inr hfree, ⟨nofun, h.notCrashed.2⟩, xs,
        hxs.list, hxs.allocated, nofun, hxs.arrived, nofun, hxs.added, ?_⟩
      rintro (hw | hw) <;> cases hw
  | wait hc hhead =>
      have hnil : xs = [] := by
        have := hxs.list.head
        rw [hhead] at this
        exact List.head?_eq_none_iff.mp this.symm
      refine ⟨h.mutex.consume rfl (by rw [hc]; rfl) nofun, ⟨nofun, h.notCrashed.2⟩, xs,
        hxs.list, hxs.allocated, nofun, hxs.arrived, fun _ => Or.inl hnil, hxs.added, ?_⟩
      rintro (hw | hw) <;> cases hw
  | found hc hhead =>
      have hne : xs ≠ [] := by
        rintro rfl
        have := hxs.list.head
        rw [hhead] at this
        cases this
      refine ⟨h.mutex.consume rfl (by rw [hc]; rfl) fun _ => Or.inl (by rw [hc]; rfl),
        ⟨nofun, h.notCrashed.2⟩, xs, hxs.list, hxs.allocated, nofun, hxs.arrived, nofun, hxs.added,
        fun _ => hne⟩
  | relock hc hfree =>
      refine ⟨h.mutex.consume rfl (by rw [hc]; rfl) fun _ => Or.inr hfree, ⟨nofun, h.notCrashed.2⟩, xs,
        hxs.list, hxs.allocated, nofun, hxs.arrived, nofun, hxs.added,
        fun _ => hxs.found (Or.inl hc)⟩
  | @take a l head hc hhead hrm =>
      rcases xs with _ | ⟨x, ys⟩
      · exact absurd rfl (hxs.found (Or.inr hc))
      · obtain rfl : a = x := by
          have := hxs.list.head
          rw [hhead] at this
          exact Option.some.inj this
        obtain ⟨l', hrm', hlist⟩ := hxs.list.rmFirst
        rw [hrm] at hrm'
        obtain ⟨rfl, rfl⟩ := Prod.mk.inj (Option.some.inj hrm')
        have hnot : a ∉ ys := (List.nodup_cons.mp hxs.list.nodup).1
        have hnone : ∀ q, s.producer q ≠ .added := fun q hq => by
          have hq' := (h.mutex.producer q).mp (by rw [hq]; rfl)
          rw [h.mutex.consumer.mp (by rw [hc]; rfl)] at hq'
          cases hq'
        refine ⟨h.mutex.consume rfl (by rw [hc]; rfl) fun _ => Or.inl (by rw [hc]; rfl),
          ⟨nofun, h.notCrashed.2⟩, ys, hlist, ?_, ?_, ?_, nofun, fun q hq => absurd hq (hnone q), ?_⟩
        · exact fun y hy => hxs.allocated y (List.mem_cons_of_mem a hy)
        · intro y hy
          obtain rfl : a = y := Option.some.inj hy
          exact ⟨hxs.allocated a List.mem_cons_self, hnot⟩
        · rw [hxs.arrived, List.map_cons, List.append_assoc]
          rfl
        · rintro (hw | hw) <;> cases hw
  | takeCrash hc hcrash =>
      rcases xs with _ | ⟨x, ys⟩
      · exact absurd rfl (hxs.found (Or.inr hc))
      · obtain ⟨l', hrm, -⟩ := hxs.list.rmFirst
        rw [hcrash x hxs.list.head] at hrm
        cases hrm
  | @unlockConsumer a v hc =>
      refine ⟨h.mutex.consume rfl (by rw [hc]; rfl) nofun, ⟨nofun, h.notCrashed.2⟩, xs,
        hxs.list, hxs.allocated, ?_, hxs.arrived, nofun, hxs.added, ?_⟩
      · intro b hb
        exact hxs.node b (by rw [hc]; exact hb)
      · rintro (hw | hw) <;> cases hw
  | @processed a v hc =>
      have hnext : ∀ x : Consumer A V, x = (if stops v then .stopped else .idle) →
          x = .stopped ∨ x = .idle := by
        rintro x rfl
        split
        · exact Or.inl rfl
        · exact Or.inr rfl
      have hout := hnext _ rfl
      have hnode := hxs.node a (by rw [hc]; rfl)
      refine ⟨h.mutex.consume rfl ?_ ?_, ⟨?_, h.notCrashed.2⟩, xs, hxs.list, ?_, ?_, hxs.arrived, ?_,
        hxs.added, ?_⟩
      · rw [hc]
        rcases hout with ho | ho <;> simp only [ho] <;> rfl
      · rcases hout with ho | ho <;> simp only [ho] <;> nofun
      · rcases hout with ho | ho <;> simp only [ho] <;> nofun
      · exact fun x hx =>
          Finset.mem_erase.mpr ⟨fun heq => hnode.2 (heq ▸ hx), hxs.allocated x hx⟩
      · rcases hout with ho | ho <;> simp only [ho] <;> nofun
      · rcases hout with ho | ho <;> simp only [ho] <;> nofun
      · rcases hout with ho | ho <;> simp only [ho] <;> simp

/-- Every step keeps the invariant. -/
theorem Inv.step {e : Event P} (h : Inv accepts s) (hstep : Step accepts stops s e s') :
    Inv accepts s' := by
  cases e with
  | call p =>
      cases hstep with
      | call v hp =>
          have hmutex : Mutex (s.move p (.called v)) := h.mutex.produce hp rfl rfl rfl nofun
          exact h.produce hp hmutex rfl rfl nofun nofun nofun ⟨rfl, rfl, rfl, rfl, rfl, rfl⟩
  | producer p => exact h.producerStep hstep
  | consumer => exact h.consumerStep hstep

end

/-! ## Progress -/

section
variable [DecidableEq A] {accepts stops : V → Bool} {s s' : State A V P}

/-- The steps that are not calls of producers. -/
def Event.internal : Event P → Bool
  | .call _ => false
  | _ => true

/-- A step in which no producer is called. -/
def InternalStep (accepts stops : V → Bool) (s : State A V P) (e : Event P) (s' : State A V P) :
    Prop :=
  Step accepts stops s e s' ∧ e.internal = true

/-- The steps a producer may take, and those of the consumer for its event. -/
def Producer.work : Producer V → Nat
  | .called _ => 10
  | .locked _ => 9
  | .added => 3
  | .leaving => 1
  | _ => 0

/-- The steps the consumer may take until it comes to the next event. -/
def Consumer.work : Consumer A V → Nat
  | .holding .. => 4
  | .processing .. => 3
  | .idle => 2
  | .checking | .woken => 1
  | _ => 0

/-- The number of events that are accepted and not taken. -/
def State.left (accepts : V → Bool) (s : State A V P) : Nat :=
  (s.arrived.filter accepts).length - s.taken.length

/-- A bound for the internal steps. -/
def State.work [Fintype P] (accepts : V → Bool) (s : State A V P) : Nat :=
  ∑ p, (s.producer p).work + (s.consumer.work + 5 * s.left accepts)

omit [DecidableEq A] in
theorem work_lt_of_move [Fintype P] {p : P} {x y : Producer V} (hp : s.producer p = x)
    (hproducer : s'.producer = Function.update s.producer p y)
    (hlt : y.work + (s'.consumer.work + 5 * s'.left accepts) <
      x.work + (s.consumer.work + 5 * s.left accepts)) : s'.work accepts < s.work accepts := by
  have hsum := sum_update_add Producer.work s.producer p y
  rw [← hproducer, hp] at hsum
  unfold State.work
  omega

omit [DecidableEq P] [DecidableEq A] in
theorem work_lt_of_consume [Fintype P] (hproducer : s'.producer = s.producer)
    (hlt : s'.consumer.work + 5 * s'.left accepts < s.consumer.work + 5 * s.left accepts) :
    s'.work accepts < s.work accepts := by
  unfold State.work
  rw [hproducer]
  omega

/-- Every internal step lowers the bound. -/
theorem InternalStep.work_lt [Fintype P] {e : Event P} (hinv : Inv accepts s)
    (h : InternalStep accepts stops s e s') : s'.work accepts < s.work accepts := by
  have hinv' := hinv.step h.1
  obtain ⟨xs, hxs⟩ := hinv.holds
  have hleft : s.left accepts = xs.length := by
    unfold State.left
    rw [hxs.arrived, List.length_append, List.length_map]
    omega
  have hsignal : s.consumer.signal.work ≤ s.consumer.work + 1 := by
    cases s.consumer <;> simp [Consumer.signal, Consumer.work]
  obtain ⟨hstep, hinternal⟩ := h
  cases hstep with
  | call _ _ => cases hinternal
  | lock hp _ => exact work_lt_of_move hp rfl (Nat.add_lt_add_right (by simp [Producer.work]) _)
  | @add p v a l head hp hv _ _ =>
      refine work_lt_of_move hp rfl ?_
      have hnew : (s.arrived ++ [v]).filter accepts = s.arrived.filter accepts ++ [v] := by
        rw [List.filter_append, List.filter_cons_of_pos hv, List.filter_nil]
      simp only [Producer.work, State.left, State.move, hnew, List.length_append,
        List.length_singleton]
      omega
  | addCrash hp _ _ _ =>
      exact work_lt_of_move hp rfl (Nat.add_lt_add_right (by simp [Producer.work]) _)
  | @drop p v hp hv =>
      refine work_lt_of_move hp rfl ?_
      have hnew : (s.arrived ++ [v]).filter accepts = s.arrived.filter accepts := by
        rw [List.filter_append, List.filter_cons_of_neg (by simp [hv]), List.filter_nil,
          List.append_nil]
      simp only [Producer.work, State.left, State.move, hnew]
      omega
  | signal hp =>
      refine work_lt_of_move hp rfl ?_
      simp only [Producer.work, State.left, State.move]
      omega
  | unlock hp => exact work_lt_of_move hp rfl (Nat.add_lt_add_right (by simp [Producer.work]) _)
  | take hc _ _ =>
      have hne := hxs.found (Or.inr hc)
      have hpos : 0 < s.left accepts := by
        rw [hleft]
        exact List.length_pos_of_ne_nil hne
      refine work_lt_of_consume rfl ?_
      simp only [hc, Consumer.work, State.left, List.length_append, List.length_singleton] at hpos ⊢
      omega
  | takeCrash _ _ => exact absurd rfl hinv'.notCrashed.1
  | @processed a v hc =>
      refine work_lt_of_consume rfl (Nat.add_lt_add_right ?_ _)
      rw [hc]
      simp only
      split <;> simp [Consumer.work]
  | lockConsumer hc _ | wait hc _ | found hc _ | relock hc _ | unlockConsumer hc =>
      refine work_lt_of_consume rfl (Nat.add_lt_add_right ?_ _)
      rw [hc]
      simp [Consumer.work]

/-- Every call is done, and the consumer waits for the next event, or has stopped. -/
structure Complete (accepts : V → Bool) (s : State A V P) : Prop where
  idle : ∀ p, s.producer p = .idle
  consumer : s.consumer = .stopped ∨ s.consumer = .waiting ∧ s.taken = s.arrived.filter accepts

/-- When no step is left, nobody holds the mutex. -/
theorem Inv.mtx_eq_none [Infinite A] (h : Inv accepts s)
    (hstuck : ∀ e s', ¬ InternalStep accepts stops s e s') : s.mtx = none := by
  have hstuck' : ∀ e s', e.internal = true → ¬ Step accepts stops s e s' :=
    fun e s' he hs => hstuck e s' ⟨hs, he⟩
  rcases hmtx : s.mtx with _ | p | _
  · rfl
  · have hheld := (h.mutex.producer p).mpr hmtx
    obtain ⟨a, ha⟩ := Infinite.exists_notMem_finset s.allocated
    rcases hp : s.producer p with _ | v | v | _ | _ | _
    all_goals rw [hp] at hheld
    · cases hheld
    · cases hheld
    · rcases hv : accepts v with _ | _
      · exact absurd (.drop hp hv) (hstuck' _ _ rfl)
      · rcases hadd : s.links.addTail s.head a with _ | ⟨l, head⟩
        · exact absurd (.addCrash hp hv ha hadd) (hstuck' _ _ rfl)
        · exact absurd (.add hp hv ha hadd) (hstuck' _ _ rfl)
    · exact absurd (.signal hp) (hstuck' _ _ rfl)
    · exact absurd (.unlock hp) (hstuck' _ _ rfl)
    · exact absurd hp (h.notCrashed.2 p)
  · have hheld := h.mutex.consumer.mpr hmtx
    rcases hc : s.consumer with _ | _ | _ | _ | _ | ⟨a, v⟩ | ⟨a, v⟩ | _ | _
    all_goals rw [hc] at hheld
    · cases hheld
    · rcases hhead : s.head with _ | a
      · exact absurd (.wait hc hhead) (hstuck' _ _ rfl)
      · exact absurd (.found hc hhead) (hstuck' _ _ rfl)
    · cases hheld
    · cases hheld
    · by_cases hrm : ∀ a, s.head = some a → s.links.rm s.head a = none
      · exact absurd (.takeCrash hc hrm) (hstuck' _ _ rfl)
      · push Not at hrm
        obtain ⟨a, hhead, hsome⟩ := hrm
        obtain ⟨⟨l, head⟩, hr⟩ := Option.ne_none_iff_exists'.mp hsome
        exact absurd (.take hc hhead hr) (hstuck' _ _ rfl)
    · exact absurd (.unlockConsumer hc) (hstuck' _ _ rfl)
    · cases hheld
    · cases hheld
    · exact absurd hc h.notCrashed.1

/-- When no step is left, all accepted events are taken, unless the consumer has stopped. -/
theorem Inv.complete [Infinite A] (h : Inv accepts s)
    (hstuck : ∀ e s', ¬ InternalStep accepts stops s e s') : Complete accepts s := by
  have hmtx := h.mtx_eq_none hstuck
  have hstuck' : ∀ e s', e.internal = true → ¬ Step accepts stops s e s' :=
    fun e s' he hs => hstuck e s' ⟨hs, he⟩
  have hidle : ∀ p, s.producer p = .idle := by
    intro p
    have hnot : (s.producer p).holds ≠ true := fun hheld => by
      have := (h.mutex.producer p).mp hheld
      rw [hmtx] at this
      cases this
    rcases hp : s.producer p with _ | v | v | _ | _ | _
    · rfl
    · exact absurd (.lock hp hmtx) (hstuck' _ _ rfl)
    all_goals
      rw [hp] at hnot
      exact absurd rfl hnot
  refine ⟨hidle, ?_⟩
  obtain ⟨xs, hxs⟩ := h.holds
  have hnot : s.consumer.holds ≠ true := fun hheld => by
    have := h.mutex.consumer.mp hheld
    rw [hmtx] at this
    cases this
  rcases hc : s.consumer with _ | _ | _ | _ | _ | ⟨a, v⟩ | ⟨a, v⟩ | _ | _
  all_goals rw [hc] at hnot
  · exact absurd (.lockConsumer hc hmtx) (hstuck' _ _ rfl)
  · exact absurd rfl hnot
  · refine Or.inr ⟨rfl, ?_⟩
    rcases hxs.waiting hc with hnil | ⟨p, hp⟩
    · rw [hxs.arrived, hnil, List.map_nil, List.append_nil]
    · rw [hidle p] at hp
      cases hp
  · exact absurd (.relock hc hmtx) (hstuck' _ _ rfl)
  · exact absurd rfl hnot
  · exact absurd rfl hnot
  · exact absurd (.processed hc) (hstuck' _ _ rfl)
  · exact Or.inl rfl
  · exact absurd rfl hnot

/-! ## The end of the consumer -/

/-- The consumer returns to the list unless it has taken an event that stops it. -/
def EndsLast (stops : V → Bool) (s : State A V P) : Prop :=
  match s.consumer with
  | .holding _ v | .processing _ v => ∃ vs, s.taken = vs ++ [v] ∧ ∀ w ∈ vs, stops w = false
  | .stopped => ∃ vs v, s.taken = vs ++ [v] ∧ stops v = true ∧ ∀ w ∈ vs, stops w = false
  | _ => ∀ w ∈ s.taken, stops w = false

omit [DecidableEq P] [DecidableEq A] in
theorem EndsLast.signal (h : EndsLast stops s) (htaken : s'.taken = s.taken)
    (hconsumer : s'.consumer = s.consumer.signal) : EndsLast stops s' := by
  unfold EndsLast at h ⊢
  rw [hconsumer, htaken]
  rcases hc : s.consumer with _ | _ | _ | _ | _ | ⟨a, v⟩ | ⟨a, v⟩ | _ | _
  all_goals
    rw [hc] at h
    exact h

/-- Every step keeps that. -/
theorem EndsLast.step {e : Event P} (h : EndsLast stops s) (hstep : Step accepts stops s e s') :
    EndsLast stops s' := by
  unfold EndsLast at h
  cases hstep with
  | signal _ => exact EndsLast.signal h rfl rfl
  | call _ _ | lock _ _ | add _ _ _ _ | addCrash _ _ _ _ | drop _ _ | unlock _ => exact h
  | lockConsumer hc _ | wait hc _ | found hc _ | relock hc _ | takeCrash hc _ =>
      rw [hc] at h
      exact h
  | take hc _ _ =>
      rw [hc] at h
      exact ⟨s.taken, rfl, h⟩
  | unlockConsumer hc =>
      rw [hc] at h
      exact h
  | @processed a v hc =>
      rw [hc] at h
      obtain ⟨vs, htaken, hvs⟩ := h
      unfold EndsLast
      by_cases hv : stops v = true
      · simp only [if_pos hv]
        exact ⟨vs, v, htaken, hv, hvs⟩
      · simp only [if_neg hv, htaken]
        intro w hw
        rcases List.mem_append.mp hw with hw | hw
        · exact hvs w hw
        · rw [List.mem_singleton.mp hw]
          exact Bool.not_eq_true _ ▸ hv

/-- A consumer that has stopped takes nothing more. -/
theorem taken_of_stopped {es : List (Event P)} (hs : s.consumer = .stopped)
    (hrun : Run (Step accepts stops) s es s') : s'.taken = s.taken := by
  have hkeep : s'.consumer = .stopped ∧ s'.taken = s.taken := by
    apply hrun.invariant (I := fun t => t.consumer = .stopped ∧ t.taken = s.taken)
    · exact ⟨hs, rfl⟩
    · rintro t e u ⟨hc, ht⟩ hstep
      cases hstep with
      | signal _ => exact ⟨by rw [hc]; rfl, ht⟩
      | call _ _ | lock _ _ | add _ _ _ _ | addCrash _ _ _ _ | drop _ _ | unlock _ => exact ⟨hc, ht⟩
      | lockConsumer hc' _ | wait hc' _ | found hc' _ | relock hc' _ | take hc' _ _
        | takeCrash hc' _ | unlockConsumer hc' | processed hc' =>
          rw [hc] at hc'
          cases hc'
  exact hkeep.2

/-- The events taken are the accepted ones, each once and in the order in which they have come; the
list holds the others, and no null pointer is followed.  Only an event that stops it, the last one it
has taken, ends the consumer. -/
structure Correct (accepts stops : V → Bool) (s : State A V P) : Prop where
  order : ∃ xs, IsList s.links s.head xs ∧ s.arrived.filter accepts = s.taken ++ xs.map s.val
  notCrashed : s.consumer ≠ .crashed ∧ ∀ p, s.producer p ≠ .crashed
  ended : s.consumer = .stopped →
    ∃ vs v, s.taken = vs ++ [v] ∧ stops v = true ∧ ∀ w ∈ vs, stops w = false

/-- In every run the accepted events are taken once each and in order, after a bounded number of
steps, and the consumer never takes an event from the empty list. -/
theorem delivered [Fintype P] [Infinite A] (h : Reachable (Step accepts stops) Initial s) :
    Correct accepts stops s ∧
      (∀ es s', Run (InternalStep accepts stops) s es s' → es.length ≤ s.work accepts) ∧
      ((∀ e s', ¬ InternalStep accepts stops s e s') → Complete accepts s) := by
  have hinv : Inv accepts s ∧ EndsLast stops s := by
    apply h.invariant
    · intro s hs
      refine ⟨inv_initial hs, ?_⟩
      unfold EndsLast
      rw [hs.consumer, hs.taken]
      exact List.forall_mem_nil _
    · exact fun t e u ht hstep => ⟨ht.1.step hstep, ht.2.step hstep⟩
  refine ⟨?_, fun es s' hrun => ?_, hinv.1.complete⟩
  · obtain ⟨xs, hxs⟩ := hinv.1.holds
    refine ⟨⟨xs, hxs.list, hxs.arrived⟩, hinv.1.notCrashed, fun hc => ?_⟩
    have hends := hinv.2
    unfold EndsLast at hends
    rw [hc] at hends
    exact hends
  · have hstrong := (hrun.strengthen hinv.1 fun t e u ht hstep => ht.step hstep.1).1
    have hle := hstrong.length_le fun _ _ _ hstep => hstep.2.work_lt hstep.1
    omega

end

end
end EventQueue
