import Vimgdb.Gdb.Response
import Vimgdb.Gui.Types
import Vimgdb.Lib.EventQueue

/-!
# The events of gdb and of vim

Both readers hand events to a second thread through a list: `mi_proc_async` to `event_thread`, and
`proc_event` to `readline`.

* `Gdb.queues`, `Vim.queues`: the events that enter the list.
* `events_delivered`: they are taken once each and in order, until the second thread ends.
* `event_behind_exit_stays`: it does not take what comes behind the event that ends it.
-/

namespace Vimgdb

open EventQueue IntrusiveList Runs

/-! ## The two queues -/

/-- The classes `mi_proc_async` queues. -/
def Gdb.queues (e : Gdb.Response) : Bool :=
  match e.rclass with
  | .exit | .stopped | .running => true
  | _ => false

/-- `event_thread` calls `pthread_exit`. -/
def Gdb.ends (e : Gdb.Response) : Bool := e.rclass == .exit

/-- A `vim_event_t` with the number that stands in `evt_id`, set or not. -/
structure Vim.QueuedEvent where
  bufId : BitVec 32
  data : Option CStr
  evtId : BitVec 32
  deriving DecidableEq

/-- The test of `proc_event`: `E_KEYCOMMAND | E_FILEOPENED | E_KILLED | E_DISCONNECT`. -/
def Vim.queues (e : Vim.QueuedEvent) : Bool :=
  e.evtId &&& (Vim.EventId.keyCommand.code ||| Vim.EventId.fileOpened.code |||
    Vim.EventId.killed.code ||| Vim.EventId.disconnect.code) != 0

/-- `readline` returns 0, and is not called again. -/
def Vim.ends (e : Vim.QueuedEvent) : Bool := e.evtId == Vim.EventId.disconnect.code

/-! ## Delivery -/

section
variable {A P V : Type} [DecidableEq A] [DecidableEq P] [Fintype P]

/-- What holds of a queue: nothing but accepted events are taken or in the list, and these are all the
accepted ones that have arrived, in their order; an end in sight for what is under way; and at that end
the second thread has taken all of them, or the event that ends it as its last. -/
structure Delivered (accepts ends : V → Bool) (s : State A V P) : Prop where
  accepted : ∃ xs, IsList s.links s.head xs ∧
    s.arrived.filter accepts = s.taken ++ xs.map s.val ∧ ∀ v ∈ s.taken ++ xs.map s.val, accepts v = true
  notCrashed : s.consumer ≠ .crashed ∧ ∀ p, s.producer p ≠ .crashed
  bounded : ∃ n, ∀ es s', Run (InternalStep accepts ends) s es s' → es.length ≤ n
  complete : (∀ e s', ¬ InternalStep accepts ends s e s') →
    (∀ p, s.producer p = .idle) ∧ (s.taken = s.arrived.filter accepts ∨
      ∃ vs v, s.taken = vs ++ [v] ∧ ends v = true ∧ ∀ w ∈ vs, ends w = false)

theorem delivered_of_reachable [Infinite A] {accepts ends : V → Bool} {s : State A V P}
    (h : Reachable (Step accepts ends) Initial s) : Delivered accepts ends s := by
  obtain ⟨hcorrect, hbound, hcomplete⟩ := delivered h
  obtain ⟨xs, hlist, horder⟩ := hcorrect.order
  refine ⟨⟨xs, hlist, horder, ?_⟩, hcorrect.notCrashed, ⟨_, hbound⟩, fun hstuck => ?_⟩
  · rw [← horder]
    exact fun v hv => (List.mem_filter.mp hv).2
  · have hdone := hcomplete hstuck
    refine ⟨hdone.idle, ?_⟩
    rcases hdone.consumer with hc | ⟨-, htaken⟩
    · exact Or.inr (hcorrect.ended hc)
    · exact Or.inl htaken

/-- For any number of threads that bring events, and any order of the steps, the events of gdb and of
vim are delivered. -/
theorem events_delivered [Infinite A] :
    (∀ s : State A Gdb.Response P, Reachable (Step Gdb.queues Gdb.ends) Initial s →
      Delivered Gdb.queues Gdb.ends s) ∧
    ∀ s : State A Vim.QueuedEvent P, Reachable (Step Vim.queues Vim.ends) Initial s →
      Delivered Vim.queues Vim.ends s := by
  constructor
  · intro s h
    exact delivered_of_reachable h
  · intro s h
    exact delivered_of_reachable h

end

/-! ## Runs -/

/-- A queue in which nothing has happened. -/
def idleQueue {V : Type} (val : Nat → V) : State Nat V Unit where
  links := ⟨fun _ => none, fun _ => none⟩
  head := none
  val := val
  allocated := ∅
  mtx := none
  producer := fun _ => .idle
  consumer := .idle
  arrived := []
  taken := []

theorem initial_idleQueue {V : Type} (val : Nat → V) : Initial (idleQueue val) :=
  ⟨rfl, rfl, fun _ => rfl, rfl, rfl, rfl⟩

/-- A producer brings the event `v`, and the consumer takes it. -/
theorem run_event {V : Type} (accepts ends : V → Bool) {v : V} (hv : accepts v = true)
    (val : Nat → V) : ∃ es s', Run (Step accepts ends) (idleQueue val) es s' ∧ s'.arrived = [v] ∧
      s'.taken = [v] ∧ s'.mtx = none ∧ s'.head = none ∧ s'.producer () = .idle ∧
      s'.allocated = ∅ ∧ s'.consumer = if ends v then .stopped else .idle := by
  refine ⟨_, _, ((((((((((Run.nil.snoc (.call (p := ()) v rfl)).snoc (.lock (p := ()) rfl rfl)).snoc
    (.add (p := ()) (a := 0) rfl hv (Finset.notMem_empty 0) rfl)).snoc (.signal (p := ()) rfl)).snoc
    (.unlock (p := ()) rfl)).snoc (.lockConsumer rfl rfl)).snoc (.found rfl rfl)).snoc
    (.take rfl rfl rfl)).snoc (.unlockConsumer rfl)).snoc (.processed rfl)), ?_⟩
  refine ⟨rfl, rfl, rfl, rfl, rfl, ?_, rfl⟩
  rfl

/-- A stop and a key command are delivered. -/
theorem stop_and_key_delivered :
    (∃ s : State Nat Gdb.Response Unit, s.taken = [⟨.stopped, none⟩] ∧
      Delivered Gdb.queues Gdb.ends s) ∧
    ∃ s : State Nat Vim.QueuedEvent Unit, s.taken = [⟨1, some "step".toList, 0x40⟩] ∧
      Delivered Vim.queues Vim.ends s := by
  constructor
  · obtain ⟨es, s, hrun, -, htaken, -⟩ :=
      @run_event _ Gdb.queues Gdb.ends ⟨.stopped, none⟩ rfl fun _ => ⟨.done, none⟩
    exact ⟨s, htaken, events_delivered.1 s ⟨_, _, initial_idleQueue _, hrun⟩⟩
  · obtain ⟨es, s, hrun, -, htaken, -⟩ :=
      @run_event _ Vim.queues Vim.ends ⟨1, some "step".toList, 0x40⟩ rfl
        fun _ => ⟨0, none, 0⟩
    exact ⟨s, htaken, events_delivered.2 s ⟨_, _, initial_idleQueue _, hrun⟩⟩

/-- A stop that is reported after `RC_EXIT` has been taken is queued and never taken: `evt_stopped`
queues `RC_EXIT` for a segmentation fault while gdb goes on. -/
theorem event_behind_exit_stays :
    ∃ s : State Nat Gdb.Response Unit, Reachable (Step Gdb.queues Gdb.ends) Initial s ∧
      ∃ v ∈ s.arrived, Gdb.queues v = true ∧
        ∀ es s', Run (Step Gdb.queues Gdb.ends) s es s' → v ∉ s'.taken := by
  obtain ⟨es, s, hrun, harrived, htaken, hmtx, hhead, hidle, halloc, hc⟩ :=
    @run_event _ Gdb.queues Gdb.ends ⟨.exit, none⟩ rfl fun _ => ⟨.done, none⟩
  have hadd : ∃ l, s.links.addTail s.head 0 = some (l, some 0) := by
    rw [hhead]
    exact ⟨_, rfl⟩
  obtain ⟨l, hadd⟩ := hadd
  refine ⟨_, ⟨_, _, initial_idleQueue _, ((hrun.snoc (.call (p := ()) ⟨.stopped, none⟩ hidle)).snoc
    (.lock (p := ()) rfl hmtx)).snoc
    (.add (p := ()) (a := 0) rfl rfl (by simp [State.move, halloc]) hadd)⟩,
    ⟨.stopped, none⟩, ?_, rfl, ?_⟩
  · exact List.mem_append_right _ (List.mem_singleton.mpr rfl)
  · intro es' s' hrun'
    have hstopped := taken_of_stopped (by exact hc) hrun'
    rw [hstopped]
    show _ ∉ s.taken
    simp [htaken]

end Vimgdb
