import Mathlib.Logic.Function.Basic
import Vimgdb.Gdb.Types
import Vimgdb.Lib.Runs

/-!
# Waiting for the update behind a stop

A command that lets the program run returns to the main thread once gdb has accepted it; the main
thread then waits in `gdbif::inf_await_update` for the event thread to handle the stop.

* `Step`: the main thread, the event thread and gdb.
* `update_awaited`: the main thread is not left waiting while every stop of its command is passed to
  `inf_update` and signalled after the main thread has begun to wait; after any other it can be.
-/

namespace Vimgdb.Gdb.AwaitUpdate

open Runs

/-- An entry of `event_lst`.  `cause` is the command that has let the program run, if it is one the
main thread has issued. -/
structure QueuedEvent where
  rclass : ResultClass
  stop : EventStop
  cause : Option Nat

/-- The event that `mi_proc_async(RC_EXIT, 0, 0)` queues. -/
def exitEvent : QueuedEvent := ⟨.exit, {}, none⟩

/-! ## The system -/

/-- Where the main thread is. -/
inductive Main
  | idle
  /-- In `mi_issue_cmd`, holding its mutex. -/
  | issuing
  /-- The command has returned; it wants `update_mtx`. -/
  | returned
  | locked
  /-- In `pthread_cond_wait`. -/
  | waiting
  /-- It is signalled and wants `update_mtx`. -/
  | woken
  | resumed
  deriving DecidableEq

/-- Where the event thread is. -/
inductive Handler
  /-- At the top of its loop. -/
  | idle
  | taken (e : QueuedEvent)
  /-- In `inf_update`, at `get_changed` and the callbacks. -/
  | updating (cause : Option Nat)
  /-- It wants `update_mtx`. -/
  | updated (cause : Option Nat)
  | signalling (cause : Option Nat)
  | signalled (cause : Option Nat)
  /-- `inf_update` has returned; the position is shown. -/
  | finishing (cause : Option Nat)
  | terminated

/-- The owner of `update_mtx`. -/
inductive Owner
  | main | event
  deriving DecidableEq

/-- The threads and what they share.  `count` is the number of commands of the main thread, the last
being the current one; `handled` are the commands whose stop has been handled. -/
structure State where
  main : Main
  handler : Handler
  updateMtx : Option Owner
  queue : List QueuedEvent
  isRunning : Bool
  curThread : BitVec 32
  count : Nat
  handled : List Nat

/-- No command has been issued. -/
def State.init : State := ⟨.idle, .idle, none, [], false, 0, 0, []⟩

/-- The event thread is done with an event. -/
def State.finish (s : State) (cause : Option Nat) : State :=
  { s with handler := .idle, handled := s.handled ++ cause.toList }

/-- What `evt_stopped` changes, up to `inf_update`. -/
def State.act (s : State) (e : QueuedEvent) : StopAction → State
  | .fail => { s with isRunning := false }.finish e.cause
  | .exited => { s with isRunning := false, curThread := e.stop.threadId }.finish e.cause
  | .fatal =>
      { s with
        isRunning := false
        curThread := e.stop.threadId
        queue := s.queue ++ [exitEvent] }.finish e.cause
  | .update =>
      { s with
        isRunning := false
        curThread := e.stop.threadId
        handler := .updating e.cause }

/-- The call of `evt_stopped`. -/
def State.stopped (s : State) (e : QueuedEvent) : Option State := (evtStopped e.stop).map (s.act e)

/-- The dispatch of an event. -/
def State.dispatch (s : State) (e : QueuedEvent) : Option State :=
  match e.rclass with
  | .exit => some { s with handler := .terminated }
  | .stopped => s.stopped e
  | .running => some ({ s with isRunning := true }.finish none)
  | _ => some (s.finish none)

/-- `pthread_cond_signal` on `update_avail`. -/
def Main.signal : Main → Main
  | .waiting => .woken
  | m => m

/-- Who takes a step: the main thread, gdb, or the event thread. -/
inductive Event
  | main
  | gdb
  | handler

/-- One step of the system. -/
inductive Step (s : State) : Event → State → Prop
  | call : s.main = .idle → Step s .main { s with main := .issuing, count := s.count + 1 }
  /-- The command has failed: `exec` returns false. -/
  | fail : s.main = .issuing → Step s .main { s with main := .idle }
  | accept : s.main = .issuing → Step s .main { s with main := .returned }
  | lock : s.main = .returned → s.updateMtx = none →
      Step s .main { s with main := .locked, updateMtx := some .main }
  | wait : s.main = .locked → Step s .main { s with main := .waiting, updateMtx := none }
  | relock : s.main = .woken → s.updateMtx = none →
      Step s .main { s with main := .resumed, updateMtx := some .main }
  | unlock : s.main = .resumed → Step s .main { s with main := .idle, updateMtx := none }
  /-- An event arrives; the stops are caused by commands that have been issued, or by others. -/
  | arrive {e : QueuedEvent} : (∀ n, e.cause = some n → n ≤ s.count) →
      Step s .gdb { s with queue := s.queue ++ [e] }
  | take {e : QueuedEvent} {es : List QueuedEvent} : s.handler = .idle → s.queue = e :: es →
      Step s .handler { s with handler := .taken e, queue := es }
  | dispatch {e : QueuedEvent} {s' : State} : s.handler = .taken e → s.dispatch e = some s' →
      Step s .handler s'
  /-- `get_changed` and the callbacks; their commands need the mutex of `mi_issue_cmd`. -/
  | update {cause : Option Nat} : s.handler = .updating cause → s.main ≠ .issuing →
      Step s .handler { s with handler := .updated cause }
  | lockUpdate {cause : Option Nat} : s.handler = .updated cause → s.updateMtx = none →
      Step s .handler { s with handler := .signalling cause, updateMtx := some .event }
  | signal {cause : Option Nat} : s.handler = .signalling cause →
      Step s .handler { s with handler := .signalled cause, main := s.main.signal }
  | unlockUpdate {cause : Option Nat} : s.handler = .signalled cause →
      Step s .handler { s with handler := .finishing cause, updateMtx := none }
  | finish {cause : Option Nat} : s.handler = .finishing cause → Step s .handler (s.finish cause)

/-- The stop of the current command is handled, no event is left, and the main thread waits. -/
def Stuck (s : State) : Prop := s.main = .waiting ∧ s.count ∈ s.handled ∧ s.queue = []

/-- The main thread is in the current command and has not begun to wait for its stop. -/
def Main.BeforeWait (m : Main) : Prop := m = .issuing ∨ m = .returned ∨ m = .locked

theorem Main.not_beforeWait_waiting : ¬ Main.BeforeWait .waiting := by
  simp [BeforeWait]

/-- The main thread is still to be woken. -/
def Main.Pending (m : Main) : Prop := m.BeforeWait ∨ m = .waiting

/-- The stop of the current command is signalled when the main thread has begun to wait, and is
passed to `inf_update` unless the main thread has been woken already. -/
def InTime (s : State) : Event → Prop
  | .handler =>
      match s.handler with
      | .taken e => e.rclass = .stopped → e.cause = some s.count → s.main.Pending →
          evtStopped e.stop = some .update
      | .signalling cause => cause = some s.count → ¬ s.main.BeforeWait
      | _ => True
  | _ => True

/-! ## The invariant -/

/-- The command whose stop the event thread has not signalled yet. -/
def Handler.cause : Handler → Option Nat
  | .taken e => e.cause
  | .updating cause | .updated cause | .signalling cause => cause
  | _ => none

/-- The command whose stop is signalled, but not handled completely. -/
def Handler.passed : Handler → Option Nat
  | .signalled cause | .finishing cause => cause
  | _ => none

/-- The event thread is behind the commands of the callbacks. -/
def Handler.updates : Handler → Option Nat
  | .updated cause | .signalling cause => cause
  | _ => none

/-- The invariant: commands have numbers up to the current one, the stop of a command for which the
main thread is still to be woken is not signalled, and who owns `update_mtx`. -/
structure Inv (s : State) : Prop where
  handled : ∀ n ∈ s.handled, n ≤ s.count
  cause : ∀ n, s.handler.cause = some n → n ≤ s.count
  passed : ∀ n, s.handler.passed = some n → n ≤ s.count
  queue : ∀ e ∈ s.queue, ∀ n, e.cause = some n → n ≤ s.count
  pending : s.main.Pending → s.count ∉ s.handled ∧ s.handler.passed ≠ some s.count
  updates : s.handler.updates = some s.count → s.main ≠ .issuing
  main : s.updateMtx = some .main ↔ s.main = .locked ∨ s.main = .resumed
  event : s.updateMtx = some .event ↔
    ∃ cause, s.handler = .signalling cause ∨ s.handler = .signalled cause

theorem inv_init : Inv State.init := by
  constructor <;> simp [State.init, Handler.cause, Handler.passed, Handler.updates]

/-- The main thread goes on in its command, or is not waited for. -/
theorem Inv.mainStep {s : State} {m : Main} {o : Option Owner} (h : Inv s)
    (hpending : m.Pending → s.main.Pending) (hissuing : m ≠ .issuing)
    (hmain : o = some .main ↔ m = .locked ∨ m = .resumed)
    (hevent : o = some .event ↔ s.updateMtx = some .event) :
    Inv { s with main := m, updateMtx := o } where
  handled := h.handled
  cause := h.cause
  passed := h.passed
  queue := h.queue
  pending hp := h.pending (hpending hp)
  updates _ := hissuing
  main := hmain
  event := hevent.trans h.event

/-- Nobody owns the mutex while the main thread takes it, or gives it back. -/
theorem Inv.not_event {s : State} (h : Inv s) (hm : s.main = .locked ∨ s.main = .resumed) :
    s.updateMtx ≠ some .event := by
  rw [h.main.mpr hm]
  decide

/-- The event thread is done with an event that is not the stop the main thread waits for. -/
theorem Inv.finished {s : State} {e : QueuedEvent} {queue : List QueuedEvent} (h : Inv s)
    (hhandler : s.handler = .taken e) {cause : Option Nat} (hcause : ∀ n, cause = some n → n ≤ s.count)
    (hother : s.main.Pending → cause ≠ some s.count)
    (hqueue : ∀ e ∈ queue, ∀ n, e.cause = some n → n ≤ s.count) (running : Bool)
    (thread : BitVec 32) :
    Inv (State.finish { s with isRunning := running, curThread := thread, queue := queue } cause) where
  handled n hn := by
    rcases List.mem_append.mp hn with hn | hn
    · exact h.handled n hn
    · exact hcause n (Option.mem_toList.mp hn)
  cause := nofun
  passed := nofun
  queue := hqueue
  pending hp := by
    refine ⟨fun hn => ?_, nofun⟩
    rcases List.mem_append.mp hn with hn | hn
    · exact (h.pending hp).1 hn
    · exact hother hp (Option.mem_toList.mp hn)
  updates := nofun
  main := h.main
  event := by
    refine h.event.trans ⟨?_, ?_⟩
    · rintro ⟨cause, hc | hc⟩
      · rw [hhandler] at hc
        cases hc
      · rw [hhandler] at hc
        cases hc
    · rintro ⟨cause, hc | hc⟩ <;> cases hc

/-- The dispatch of an event. -/
theorem Inv.dispatch {s s' : State} {e : QueuedEvent} (h : Inv s) (hhandler : s.handler = .taken e)
    (hdispatch : s.dispatch e = some s') (hin : InTime s .handler) : Inv s' := by
  have hcause : ∀ n, e.cause = some n → n ≤ s.count := fun n hn =>
    h.cause n (by rw [hhandler]; exact hn)
  have hin : e.rclass = .stopped → e.cause = some s.count → s.main.Pending →
      evtStopped e.stop = some .update := by
    unfold InTime at hin
    rw [hhandler] at hin
    exact hin
  have hnone : ∀ n, none = some n → n ≤ s.count := nofun
  have hmtx : (∃ cause, s.handler = .signalling cause ∨ s.handler = .signalled cause) → False := by
    rintro ⟨cause, hc | hc⟩
    · rw [hhandler] at hc
      cases hc
    · rw [hhandler] at hc
      cases hc
  unfold State.dispatch at hdispatch
  split at hdispatch
  · -- the event thread terminates
    cases hdispatch
    refine ⟨h.handled, nofun, nofun, h.queue, fun hp => ⟨(h.pending hp).1, nofun⟩, nofun, h.main, ?_⟩
    refine h.event.trans (iff_of_false hmtx ?_)
    rintro ⟨cause, hc | hc⟩ <;> cases hc
  · rename_i hclass
    obtain ⟨act, ha, rfl⟩ := Option.map_eq_some_iff.mp hdispatch
    have hother : act ≠ .update → s.main.Pending → e.cause ≠ some s.count := by
      intro hne hp hc
      rw [hin hclass hc hp, Option.some_inj] at ha
      exact hne ha.symm
    cases act with
    | fail => exact h.finished hhandler hcause (hother (by decide)) h.queue _ _
    | exited => exact h.finished hhandler hcause (hother (by decide)) h.queue _ _
    | fatal =>
        refine h.finished hhandler hcause (hother (by decide)) ?_ _ _
        intro x hx n hn
        rcases List.mem_append.mp hx with hx | hx
        · exact h.queue x hx n hn
        · rw [List.mem_singleton.mp hx] at hn
          cases hn
    | update =>
        refine ⟨h.handled, hcause, nofun, h.queue, fun hp => ⟨(h.pending hp).1, nofun⟩, nofun,
          h.main, ?_⟩
        refine h.event.trans (iff_of_false hmtx ?_)
        rintro ⟨cause, hc | hc⟩ <;> cases hc
  · cases hdispatch
    exact h.finished hhandler hnone (fun _ => nofun) h.queue _ _
  · cases hdispatch
    exact h.finished hhandler hnone (fun _ => nofun) h.queue _ _

/-- Every step keeps the invariant, if the stop is signalled in time. -/
theorem Inv.step {s s' : State} {e : Event} (h : Inv s) (hstep : Step s e s') (hin : InTime s e) :
    Inv s' := by
  cases hstep with
  | call hm =>
      refine ⟨fun n hn => (h.handled n hn).trans (Nat.le_succ _),
        fun n hn => (h.cause n hn).trans (Nat.le_succ _),
        fun n hn => (h.passed n hn).trans (Nat.le_succ _),
        fun e he n hn => (h.queue e he n hn).trans (Nat.le_succ _), fun _ => ⟨?_, ?_⟩, ?_, ?_, h.event⟩
      · intro hn
        exact absurd (h.handled _ hn) (Nat.not_succ_le_self _)
      · intro hn
        exact absurd (h.passed _ hn) (Nat.not_succ_le_self _)
      · intro hn
        have hle : s.handler.updates = some (s.count + 1) → s.handler.cause = some (s.count + 1) := by
          cases s.handler <;> simp [Handler.updates, Handler.cause]
        exact absurd (h.cause _ (hle hn)) (Nat.not_succ_le_self _)
      · refine h.main.trans (iff_of_false ?_ (by simp))
        rw [hm]
        decide
  | fail hm =>
      refine h.mainStep (by simp [Main.Pending, Main.BeforeWait]) (by decide) ?_ Iff.rfl
      exact h.main.trans (by rw [hm]; decide)
  | accept hm =>
      refine h.mainStep (fun _ => Or.inl (Or.inl hm)) (by decide) ?_ Iff.rfl
      exact h.main.trans (by rw [hm]; decide)
  | lock hm hfree =>
      refine h.mainStep (fun _ => Or.inl (Or.inr (Or.inl hm))) (by decide) (by decide) ?_
      rw [hfree]
      decide
  | wait hm =>
      refine h.mainStep (fun _ => Or.inl (Or.inr (Or.inr hm))) (by decide) (by decide) ?_
      exact iff_of_false (by decide) (h.not_event (Or.inl hm))
  | relock hm hfree =>
      refine h.mainStep (by simp [Main.Pending, Main.BeforeWait]) (by decide) (by decide) ?_
      rw [hfree]
      decide
  | unlock hm =>
      refine h.mainStep (by simp [Main.Pending, Main.BeforeWait]) (by decide) (by decide) ?_
      exact iff_of_false (by decide) (h.not_event (Or.inr hm))
  | arrive hcause =>
      refine ⟨h.handled, h.cause, h.passed, ?_, h.pending, h.updates, h.main, h.event⟩
      intro x hx n hn
      rcases List.mem_append.mp hx with hx | hx
      · exact h.queue x hx n hn
      · rw [List.mem_singleton.mp hx] at hn
        exact hcause n hn
  | take hidle hq =>
      refine ⟨h.handled, ?_, nofun, ?_, fun hp => ⟨(h.pending hp).1, nofun⟩, nofun, h.main, ?_⟩
      · exact h.queue _ (by rw [hq]; exact List.mem_cons_self)
      · intro x hx
        exact h.queue x (by rw [hq]; exact List.mem_cons_of_mem _ hx)
      · refine h.event.trans ?_
        rw [hidle]
        simp
  | dispatch hhandler hdispatch => exact h.dispatch hhandler hdispatch hin
  | update hhandler hm =>
      refine ⟨h.handled, ?_, nofun, h.queue, fun hp => ⟨(h.pending hp).1, nofun⟩, fun _ => hm,
        h.main, ?_⟩
      · intro n hn
        exact h.cause n (by rw [hhandler]; exact hn)
      · refine h.event.trans ?_
        rw [hhandler]
        simp
  | lockUpdate hhandler hfree =>
      refine ⟨h.handled, ?_, nofun, h.queue, fun hp => ⟨(h.pending hp).1, nofun⟩, ?_, ?_, ?_⟩
      · intro n hn
        exact h.cause n (by rw [hhandler]; exact hn)
      · intro hn
        exact h.updates (by rw [hhandler]; exact hn)
      · have := h.main
        rw [hfree] at this
        exact iff_of_false nofun fun hm => absurd (this.mpr hm) nofun
      · simp
  | @signal cause hhandler =>
      have hin : cause = some s.count → ¬ s.main.BeforeWait := by
        unfold InTime at hin
        rw [hhandler] at hin
        exact hin
      have hmain : s.main.signal.Pending → s.main.BeforeWait := by
        cases s.main <;> simp [Main.signal, Main.Pending, Main.BeforeWait]
      refine ⟨h.handled, nofun, ?_, h.queue, ?_, nofun, ?_, ?_⟩
      · intro n hn
        exact h.cause n (by rw [hhandler]; exact hn)
      · intro hp
        refine ⟨(h.pending (Or.inl (hmain hp))).1, fun hc => hin hc (hmain hp)⟩
      · refine h.main.trans ?_
        cases s.main <;> simp [Main.signal]
      · refine h.event.trans ?_
        rw [hhandler]
        simp
  | unlockUpdate hhandler =>
      have hmtx : s.updateMtx = some .event := h.event.mpr ⟨_, Or.inr hhandler⟩
      refine ⟨h.handled, nofun, ?_, h.queue, ?_, nofun, ?_, ?_⟩
      · intro n hn
        exact h.passed n (by rw [hhandler]; exact hn)
      · intro hp
        have := h.pending hp
        rw [hhandler] at this
        exact this
      · have := h.main
        rw [hmtx] at this
        exact iff_of_false nofun fun hm => absurd (this.mpr hm) (by decide)
      · simp
  | @finish cause hhandler =>
      refine ⟨?_, nofun, nofun, h.queue, ?_, nofun, h.main, ?_⟩
      · intro n hn
        rcases List.mem_append.mp hn with hn | hn
        · exact h.handled n hn
        · exact h.passed n (by rw [hhandler]; exact Option.mem_toList.mp hn)
      · intro hp
        refine ⟨fun hn => ?_, nofun⟩
        rcases List.mem_append.mp hn with hn | hn
        · exact (h.pending hp).1 hn
        · exact (h.pending hp).2 (by rw [hhandler]; exact Option.mem_toList.mp hn)
      · refine h.event.trans ?_
        rw [hhandler]
        simp [State.finish]

/-! ## Stops that are missed -/

/-- A main thread that is still to be woken comes to wait. -/
theorem reaches_wait {s : State} (hp : s.main.Pending)
    (hfree : s.main = .issuing ∨ s.main = .returned → s.updateMtx = none) :
    ∃ es s', Run Step s es s' ∧ s'.main = .waiting ∧ s'.count = s.count ∧ s'.handled = s.handled ∧
      s'.queue = s.queue := by
  have hlocked : ∀ t : State, t.main = .locked → ∃ es t', Run Step t es t' ∧ t'.main = .waiting ∧
      t'.count = t.count ∧ t'.handled = t.handled ∧ t'.queue = t.queue := by
    intro t ht
    exact ⟨_, _, Run.head (.wait ht) .nil, rfl, rfl, rfl, rfl⟩
  have hreturned : ∀ t : State, t.main = .returned → t.updateMtx = none →
      ∃ es t', Run Step t es t' ∧ t'.main = .waiting ∧ t'.count = t.count ∧
        t'.handled = t.handled ∧ t'.queue = t.queue := by
    intro t ht hfree
    obtain ⟨es, t', hrun, h⟩ := hlocked { t with main := .locked, updateMtx := some .main } rfl
    exact ⟨_, t', Run.head (.lock ht hfree) hrun, h⟩
  rcases hp with (hm | hm | hm) | hm
  · obtain ⟨es, t', hrun, h⟩ := hreturned { s with main := .returned } rfl (hfree (Or.inl hm))
    exact ⟨_, t', Run.head (.accept hm) hrun, h⟩
  · exact hreturned s hm (hfree (Or.inr hm))
  · exact hlocked s hm
  · exact ⟨[], s, .nil, hm, rfl, rfl, rfl⟩

/-- A main thread whose stop is handled comes to wait for ever, if no event is left but the exit. -/
theorem stuck_of_handled {s : State} (hp : s.main.Pending)
    (hfree : s.main = .issuing ∨ s.main = .returned → s.updateMtx = none)
    (hhandled : s.count ∈ s.handled)
    (hqueue : s.queue = [] ∨ s.queue = [exitEvent] ∧ s.handler = .idle) :
    ∃ es s', Run Step s es s' ∧ Stuck s' := by
  rcases hqueue with hq | ⟨hq, hidle⟩
  · obtain ⟨es, s', hrun, hm, hc, hh, hq'⟩ := reaches_wait hp hfree
    exact ⟨es, s', hrun, hm, by rw [hc, hh]; exact hhandled, by rw [hq', hq]⟩
  · let t : State := { s with handler := .terminated, queue := [] }
    obtain ⟨es, s', hrun, hm, hc, hh, hq'⟩ := reaches_wait (s := t) hp hfree
    refine ⟨_, s', Run.head (.take hidle hq) (Run.head (.dispatch rfl rfl) hrun), hm, ?_, hq'⟩
    rw [hc, hh]
    exact hhandled

/-- The first stop that is not signalled in time can leave the main thread waiting for ever. -/
theorem missed_blocks {s s' : State} {e : Event} (h : Inv s) (hstep : Step s e s')
    (hmissed : ¬ InTime s e) (hqueue : s.queue = []) : ∃ es s'', Run Step s' es s'' ∧ Stuck s'' := by
  unfold InTime at hmissed
  -- of the steps of the event thread only the dispatch and the signal can miss
  cases hstep with
  | @dispatch e s' hhandler hdispatch =>
      rw [hhandler] at hmissed
      push Not at hmissed
      obtain ⟨hclass, hcause, hp, hne⟩ := hmissed
      have hfree : s.main = .issuing ∨ s.main = .returned → s.updateMtx = none := by
        intro hm
        rcases ho : s.updateMtx with _ | _ | _
        · rfl
        · rcases hm with hm | hm <;> have := h.main.mp ho <;> rw [hm] at this <;> simp at this
        · obtain ⟨c, hc | hc⟩ := h.event.mp ho <;> rw [hhandler] at hc <;> cases hc
      have hmem : s.count ∈ s.handled ++ e.cause.toList := by
        rw [hcause]
        simp
      unfold State.dispatch at hdispatch
      rw [hclass] at hdispatch
      obtain ⟨act, ha, rfl⟩ := Option.map_eq_some_iff.mp hdispatch
      cases act with
      | fail => exact stuck_of_handled hp hfree hmem (Or.inl hqueue)
      | exited => exact stuck_of_handled hp hfree hmem (Or.inl hqueue)
      | fatal =>
          refine stuck_of_handled hp hfree hmem (Or.inr ⟨?_, rfl⟩)
          show s.queue ++ [exitEvent] = [exitEvent]
          rw [hqueue, List.nil_append]
      | update => exact absurd ha hne
  | @signal cause hhandler =>
      rw [hhandler] at hmissed
      push Not at hmissed
      obtain ⟨hcause, hbefore⟩ := hmissed
      have hissuing : s.main ≠ .issuing := h.updates (by rw [hhandler]; exact hcause)
      have hmtx : s.updateMtx = some .event := h.event.mpr ⟨_, Or.inl hhandler⟩
      have hreturned : s.main = .returned := by
        rcases hbefore with hm | hm | hm
        · exact absurd hm hissuing
        · exact hm
        · exact absurd hmtx (h.not_event (Or.inl hm))
      have hsignal : s.main.signal = .returned := by rw [hreturned]; rfl
      let t : State :=
        State.finish { s with handler := .finishing cause, main := s.main.signal, updateMtx := none }
          cause
      have hmem : t.count ∈ t.handled := by
        show s.count ∈ s.handled ++ cause.toList
        rw [hcause]
        simp
      obtain ⟨es, s'', hrun, hstuck⟩ :=
        stuck_of_handled (s := t) (Or.inl (Or.inr (Or.inl hsignal))) (fun _ => rfl) hmem
          (Or.inl hqueue)
      exact ⟨_, s'', Run.head (.unlockUpdate rfl) (Run.head (.finish rfl) hrun), hstuck⟩
  | call => exact absurd trivial hmissed
  | fail => exact absurd trivial hmissed
  | accept => exact absurd trivial hmissed
  | lock => exact absurd trivial hmissed
  | wait => exact absurd trivial hmissed
  | relock => exact absurd trivial hmissed
  | unlock => exact absurd trivial hmissed
  | arrive => exact absurd trivial hmissed
  | take hidle => rw [hidle] at hmissed; exact absurd trivial hmissed
  | update hh => rw [hh] at hmissed; exact absurd trivial hmissed
  | lockUpdate hh => rw [hh] at hmissed; exact absurd trivial hmissed
  | unlockUpdate hh => rw [hh] at hmissed; exact absurd trivial hmissed
  | finish hh => rw [hh] at hmissed; exact absurd trivial hmissed

/-- While every stop of a command is passed to `inf_update` and signalled after the main thread has
begun to wait, or the main thread has been woken before, it is not left waiting for a stop that is
handled.  The first stop for which this fails can leave it waiting. -/
theorem update_awaited {s : State}
    (h : Reachable (fun s e s' => Step s e s' ∧ InTime s e) (· = State.init) s) :
    ¬ Stuck s ∧ ∀ e s', Step s e s' → ¬ InTime s e → s.queue = [] →
      ∃ es s'', Run Step s' es s'' ∧ Stuck s'' := by
  have hinv : Inv s := by
    apply h.invariant
    · rintro _ rfl
      exact inv_init
    · intro t e u ht hstep
      exact ht.step hstep.1 hstep.2
  refine ⟨?_, fun e s' hstep hmissed hqueue => missed_blocks hinv hstep hmissed hqueue⟩
  rintro ⟨hm, hc, -⟩
  exact (hinv.pending (Or.inr hm)).1 hc

/-- The stop behind a step of the program. -/
def endSteppingRange : EventStop := { reason := some "end-stepping-range".toList }

/-- The main thread waits in time and is woken. -/
theorem stop_awaited : ∃ s : State, s.main = .woken ∧ s.handled = [1] ∧ ¬ Stuck s := by
  refine ⟨_, ?_, ?_, (update_awaited ⟨_, _, rfl, (((((((((((Run.nil.snoc
    ⟨.call rfl, trivial⟩).snoc
    ⟨.accept rfl, trivial⟩).snoc
    ⟨.lock rfl rfl, trivial⟩).snoc
    ⟨.wait rfl, trivial⟩).snoc
    ⟨@Step.arrive _ ⟨.stopped, endSteppingRange, some 1⟩ (by simp [State.init]), trivial⟩).snoc
    ⟨.take rfl rfl, trivial⟩).snoc
    ⟨.dispatch rfl rfl, fun _ _ _ => by decide⟩).snoc
    ⟨.update rfl (by decide), trivial⟩).snoc
    ⟨.lockUpdate rfl rfl, trivial⟩).snoc
    ⟨.signal rfl, fun _ => Main.not_beforeWait_waiting⟩).snoc
    ⟨.unlockUpdate rfl, trivial⟩).snoc
    ⟨@Step.finish _ (some 1) rfl, by exact trivial⟩⟩).1⟩
  · rfl
  · rfl

/-- The event thread signals before the main thread has begun to wait. -/
theorem early_signal_missed : ∃ s : State, Reachable Step (· = State.init) s ∧ Stuck s := by
  refine ⟨_, ⟨_, _, rfl, (((((((((((Run.nil.snoc (.call rfl)).snoc (.accept rfl)).snoc
    (@Step.arrive _ ⟨.stopped, endSteppingRange, some 1⟩ (by simp [State.init]))).snoc
    (.take rfl rfl)).snoc (.dispatch rfl rfl)).snoc (.update rfl (by decide))).snoc
    (.lockUpdate rfl rfl)).snoc (.signal rfl)).snoc (.unlockUpdate rfl)).snoc (.finish rfl)).snoc
    (.lock rfl rfl)).snoc (.wait rfl)⟩, rfl, by decide, rfl⟩

end Vimgdb.Gdb.AwaitUpdate
