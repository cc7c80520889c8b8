import Vimgdb.Gdb.AwaitUpdate
import Vimgdb.Gdb.Parser

/-!
# Stop events that release the main thread

`gdbif::evt_stopped` with the main thread waiting for the stop: what it is left with at the end, by
the event.

* `Releases`: from every state in which the main thread waits for the stop, the handling comes to an
  end, and then the main thread has been signalled or the exit is queued.
* `Phase.step`: where the main thread is during the handling.
* `releases_iff`: the events for which that holds.
-/

namespace Vimgdb.Gdb.AwaitUpdate

open Runs

/-! ## Handling -/

/-- The steps up to the end of the handling of an event. -/
def Handling (s : State) (ev : Event) (s' : State) : Prop := Step s ev s' ∧ s.handler ≠ .idle

/-- The main thread waits for the stop of the command `n`. -/
def State.WaitsFor (s : State) (n : Nat) : Prop := s.main = .waiting ∧ s.count = n

/-- The handling can come to its end. -/
def CanEnd (s : State) : Prop := ∃ es s', Run Handling s es s' ∧ s'.handler = .idle

/-- Whenever the main thread waits for a stop with the event `e`, its handling can always be ended,
and behind it the main thread does not wait for it any more or the exit event is queued. -/
def Releases (e : EventStop) : Prop :=
  ∀ s, Reachable Step (· = State.init) s → s.handler = .taken ⟨.stopped, e, some s.count⟩ →
    s.main = .waiting →
      (∀ es u, Run Handling s es u → CanEnd u) ∧
      ∀ es s', Run Handling s es s' → s'.handler = .idle →
        ¬ s'.WaitsFor s.count ∨ exitEvent ∈ s'.queue

/-- There is a reason; it is not that the program has exited normally, and if it is a signal the
event says which. -/
def Told (e : EventStop) : Prop :=
  ∃ reason, e.reason = some reason ∧ reason ≠ "exited-normally".toList ∧
    (reason = "signal-received".toList → e.signal ≠ none)

/-! ## The mutex -/

/-- Who owns `update_mtx`. -/
structure Owned (s : State) : Prop where
  main : s.updateMtx = some .main ↔ s.main = .locked ∨ s.main = .resumed
  event : s.updateMtx = some .event ↔
    ∃ cause, s.handler = .signalling cause ∨ s.handler = .signalled cause

theorem owned_init : Owned State.init := by
  constructor <;> simp [State.init]

/-- The dispatch leaves `update_mtx` and the main thread alone. -/
theorem dispatch_frame {s s' : State} {e : QueuedEvent} (h : s.dispatch e = some s') :
    s'.updateMtx = s.updateMtx ∧ s'.main = s.main ∧
      ∀ cause, s'.handler ≠ .signalling cause ∧ s'.handler ≠ .signalled cause := by
  unfold State.dispatch at h
  split at h
  · cases h
    simp
  · obtain ⟨act, -, rfl⟩ := Option.map_eq_some_iff.mp h
    cases act <;> simp [State.act, State.finish]
  · cases h
    simp [State.finish]
  · cases h
    simp [State.finish]

/-- Every step keeps the owner. -/
theorem Owned.step {s s' : State} {ev : Event} (h : Owned s) (hstep : Step s ev s') : Owned s' := by
  have hmain := h.main
  have hevent := h.event
  cases hstep with
  | dispatch hh hdispatch =>
      obtain ⟨hmtx, hm, hne⟩ := dispatch_frame hdispatch
      rw [hh] at hevent
      refine ⟨by rw [hmtx, hm]; exact hmain, ?_⟩
      rw [hmtx]
      refine hevent.trans (iff_of_false (by simp) ?_)
      rintro ⟨cause, hc | hc⟩
      · exact (hne cause).1 hc
      · exact (hne cause).2 hc
  | arrive => exact ⟨hmain, hevent⟩
  | call hm | fail hm | accept hm | wait hm | unlock hm =>
      rw [hm] at hmain
      constructor <;> grind
  | lock hm hfree | relock hm hfree =>
      rw [hm, hfree] at hmain
      rw [hfree] at hevent
      constructor <;> grind
  | signal hh =>
      rw [hh] at hevent
      refine ⟨hmain.trans ?_, by grind⟩
      cases s.main <;> simp [Main.signal]
  | take hh | update hh | lockUpdate hh | unlockUpdate hh | finish hh =>
      rw [hh] at hevent
      constructor <;> grind [State.finish]

/-! ## The phases of the handling -/

/-- The main thread is behind its wait for the stop of the command `n`. -/
def State.Released (s : State) (n : Nat) : Prop :=
  s.count = n ∧ (s.main = .woken ∨ s.main = .resumed ∨ s.main = .idle) ∨ n < s.count

theorem State.Released.not_waitsFor {s : State} {n : Nat} (h : s.Released n) : ¬ s.WaitsFor n := by
  rintro ⟨hm, hcount⟩
  unfold State.Released at h
  rw [hm, hcount] at h
  simp at h

/-- Where the main thread is while the stop of the command `n` is handled. -/
def Phase (n : Nat) (e : EventStop) (s : State) : Handler → Prop
  | .taken q => q = ⟨.stopped, e, some n⟩ ∧ s.WaitsFor n ∧ s.updateMtx = none
  | .updating _ | .updated _ => s.WaitsFor n ∧ s.updateMtx = none
  | .signalling _ => s.WaitsFor n
  | .signalled _ | .finishing _ => s.Released n
  | .idle => s.Released n ∨ exitEvent ∈ s.queue
  | .terminated => False

variable {s s' : State} {n : Nat} {e : EventStop}

/-- A main thread that waits takes no step. -/
theorem not_mainStep (hm : s.main = .waiting) : ¬ Step s .main s' := by
  intro hstep
  cases hstep with
  | call h | fail h | accept h | lock h | wait h | relock h | unlock h =>
      rw [hm] at h
      exact Main.noConfusion h

/-- A step of the main thread leaves the handling where it is. -/
theorem mainStep_frame (hstep : Step s .main s') :
    s'.handler = s.handler ∧ s'.queue = s.queue ∧ (s.Released n → s'.Released n) := by
  unfold State.Released
  cases hstep with
  | call h | fail h | accept h | lock h | wait h | relock h | unlock h =>
      refine ⟨rfl, rfl, ?_⟩
      rw [h]
      grind

/-- The main thread goes on. -/
theorem Phase.main {hd : Handler} (h : Phase n e s hd) (hstep : Step s .main s') :
    Phase n e s' hd := by
  obtain ⟨-, hqueue, hreleased⟩ := @mainStep_frame s s' n hstep
  cases hd with
  | taken q => exact absurd hstep (not_mainStep h.2.1.1)
  | updating cause | updated cause => exact absurd hstep (not_mainStep h.1.1)
  | signalling cause => exact absurd hstep (not_mainStep h.1)
  | signalled cause | finishing cause => exact hreleased h
  | idle =>
      unfold Phase
      rw [hqueue]
      exact h.imp hreleased id
  | terminated => exact h

/-- An event arrives. -/
theorem Phase.gdb {hd : Handler} (h : Phase n e s hd) (hstep : Step s .gdb s') :
    Phase n e s' hd := by
  cases hstep with
  | arrive =>
      cases hd with
      | idle => exact h.imp id (List.mem_append_left _)
      | _ => exact h

/-- What `evt_stopped` does with an event that tells what has happened. -/
theorem evtStopped_of_told (htold : Told e) :
    evtStopped e = some .update ∨ evtStopped e = some .fatal := by
  obtain ⟨reason, hreason, hexited, hsignal⟩ := htold
  unfold evtStopped
  rw [hreason]
  dsimp only
  rw [if_neg hexited]
  split
  · rename_i hreceived
    obtain ⟨signal, hs⟩ := Option.ne_none_iff_exists'.mp (hsignal hreceived)
    rw [hs, Option.map_some]
    split
    · exact .inr rfl
    · exact .inl rfl
  · exact .inl rfl

/-- The dispatch of the event. -/
theorem Phase.dispatch {q : QueuedEvent} (h : Phase n e s (.taken q)) (htold : Told e)
    (hdispatch : s.dispatch q = some s') : Phase n e s' s'.handler := by
  obtain ⟨rfl, hwaits, hmtx⟩ := h
  have hstopped : (evtStopped e).map (s.act ⟨.stopped, e, some n⟩) = some s' := hdispatch
  rcases evtStopped_of_told htold with hact | hact
  · rw [hact] at hstopped
    cases hstopped
    exact ⟨hwaits, hmtx⟩
  · rw [hact] at hstopped
    cases hstopped
    exact .inr (List.mem_append_right _ List.mem_cons_self)

/-- The event thread goes on. -/
theorem Phase.handler (h : Phase n e s s.handler) (hidle : s.handler ≠ .idle) (htold : Told e)
    (hstep : Step s .handler s') : Phase n e s' s'.handler := by
  cases hstep with
  | take hh => exact absurd hh hidle
  | dispatch hh hdispatch =>
      rw [hh] at h
      exact h.dispatch htold hdispatch
  | update hh | lockUpdate hh =>
      rw [hh] at h
      first
        | exact h
        | exact h.1
  | signal hh =>
      rw [hh] at h
      refine .inl ⟨h.2, .inl ?_⟩
      show s.main.signal = .woken
      rw [h.1]
      rfl
  | unlockUpdate hh =>
      rw [hh] at h
      exact h
  | finish hh =>
      rw [hh] at h
      exact .inl h

/-- The handling of a stop that tells what has happened stays in its phases. -/
theorem Phase.step (h : Phase n e s s.handler) (htold : Told e) {ev : Event}
    (hstep : Handling s ev s') : Phase n e s' s'.handler := by
  obtain ⟨hstep, hidle⟩ := hstep
  cases ev with
  | main =>
      rw [(@mainStep_frame s s' n hstep).1]
      exact h.main hstep
  | gdb =>
      have hhandler : s'.handler = s.handler := by
        cases hstep
        rfl
      rw [hhandler]
      exact h.gdb hstep
  | handler => exact h.handler hidle htold hstep

/-! ## The end of the handling -/

theorem CanEnd.head {ev : Event} (hstep : Handling s ev s') (h : CanEnd s') : CanEnd s := by
  obtain ⟨es, t, hrun, ht⟩ := h
  exact ⟨_, t, Run.head hstep hrun, ht⟩

theorem canEnd_finishing {cause : Option Nat} (hh : s.handler = .finishing cause) : CanEnd s := by
  apply CanEnd.head ⟨.finish hh, by simp [hh]⟩
  exact ⟨[], _, .nil, rfl⟩

theorem canEnd_signalled {cause : Option Nat} (hh : s.handler = .signalled cause) : CanEnd s := by
  apply CanEnd.head ⟨.unlockUpdate hh, by simp [hh]⟩
  exact canEnd_finishing rfl

theorem canEnd_signalling {cause : Option Nat} (hh : s.handler = .signalling cause) :
    CanEnd s := by
  apply CanEnd.head ⟨.signal hh, by simp [hh]⟩
  exact canEnd_signalled rfl

theorem canEnd_updated {cause : Option Nat} (hh : s.handler = .updated cause)
    (hmtx : s.updateMtx = none) : CanEnd s := by
  apply CanEnd.head ⟨.lockUpdate hh hmtx, by simp [hh]⟩
  exact canEnd_signalling rfl

theorem canEnd_updating {cause : Option Nat} (hh : s.handler = .updating cause)
    (hmtx : s.updateMtx = none) (hm : s.main ≠ .issuing) : CanEnd s := by
  apply CanEnd.head ⟨.update hh hm, by simp [hh]⟩
  exact canEnd_updated rfl hmtx

/-- A main thread that waits does not issue a command. -/
theorem State.WaitsFor.not_issuing (h : s.WaitsFor n) : s.main ≠ .issuing := by
  rw [h.1]
  decide

/-- From each phase the handling can come to its end. -/
theorem Phase.canEnd (h : Phase n e s s.handler) (htold : Told e) : CanEnd s := by
  rcases hh : s.handler with _ | q | cause | cause | cause | cause | cause | _
  · exact ⟨[], s, .nil, hh⟩
  · rw [hh] at h
    obtain ⟨rfl, hwaits, hmtx⟩ := id h
    have hend : ∀ act, evtStopped e = some act → CanEnd (s.act ⟨.stopped, e, some n⟩ act) → CanEnd s := by
      intro act hact hend
      refine CanEnd.head ⟨.dispatch hh ?_, by simp [hh]⟩ hend
      show (evtStopped e).map _ = _
      rw [hact, Option.map_some]
    rcases evtStopped_of_told htold with hact | hact
    · exact hend _ hact (canEnd_updating rfl hmtx hwaits.not_issuing)
    · exact hend _ hact ⟨[], _, .nil, rfl⟩
  · rw [hh] at h
    exact canEnd_updating hh h.2 h.1.not_issuing
  · rw [hh] at h
    exact canEnd_updated hh h.2
  · exact canEnd_signalling hh
  · exact canEnd_signalled hh
  · exact canEnd_finishing hh
  · rw [hh] at h
    exact h.elim

/-- A stop that tells what has happened releases the main thread. -/
theorem Told.releases (h : Told e) : Releases e := by
  intro s hreach hhandler hm
  have howned : Owned s := by
    apply hreach.invariant
    · rintro _ rfl
      exact owned_init
    · intro t ev u ht hstep
      exact ht.step hstep
  have hmtx : s.updateMtx = none := by
    rcases hown : s.updateMtx with _ | _ | _
    · rfl
    · have hlocked := howned.main.mp hown
      rw [hm] at hlocked
      simp at hlocked
    · have hsignals := howned.event.mp hown
      rw [hhandler] at hsignals
      simp at hsignals
  have hphase : Phase s.count e s s.handler := by
    rw [hhandler]
    exact ⟨rfl, ⟨hm, rfl⟩, hmtx⟩
  have hrun : ∀ {es u}, Run Handling s es u → Phase s.count e u u.handler := fun hrun =>
    hrun.invariant (I := fun u => Phase s.count e u u.handler) hphase fun _ _ _ ht hstep =>
      ht.step h hstep
  constructor
  · intro es u hu
    exact (hrun hu).canEnd h
  · intro es u hu hidle
    have hend := hrun hu
    rw [hidle] at hend
    exact hend.imp State.Released.not_waitsFor id

/-! ## Stops that release nobody -/

/-- The main thread waits for the stop of its first command, which is about to be handled. -/
def awaiting (e : EventStop) : State :=
  { State.init with main := .waiting, handler := .taken ⟨.stopped, e, some 1⟩, count := 1 }

theorem reachable_awaiting (e : EventStop) : Reachable Step (· = State.init) (awaiting e) :=
  ⟨_, _, rfl, (((((Run.nil.snoc (.call rfl)).snoc (.accept rfl)).snoc (.lock rfl rfl)).snoc
    (.wait rfl)).snoc (@Step.arrive _ ⟨.stopped, e, some 1⟩ (by simp [State.init]))).snoc
    (.take rfl rfl)⟩

/-- A stop without a reason, or of a program that has exited, is handled without a signal. -/
theorem not_releases_of_returns {act : StopAction} (hact : evtStopped e = some act)
    (hreturns : act = .fail ∨ act = .exited) : ¬ Releases e := by
  intro h
  have hdispatch : (awaiting e).dispatch ⟨.stopped, e, some 1⟩ =
      some ((awaiting e).act ⟨.stopped, e, some 1⟩ act) := by
    show (evtStopped e).map _ = _
    rw [hact, Option.map_some]
  have hstep : Handling (awaiting e) .handler ((awaiting e).act ⟨.stopped, e, some 1⟩ act) :=
    ⟨@Step.dispatch _ ⟨.stopped, e, some 1⟩ _ rfl hdispatch, nofun⟩
  have hend := (h _ (reachable_awaiting e) rfl rfl).2 _ _ (Run.nil.snoc hstep)
  rcases hreturns with rfl | rfl
  · rcases hend rfl with hnot | hqueue
    · exact hnot ⟨rfl, rfl⟩
    · cases hqueue
  · rcases hend rfl with hnot | hqueue
    · exact hnot ⟨rfl, rfl⟩
    · cases hqueue

/-- A missing signal ends the process within the handler. -/
theorem not_releases_of_faults (hfault : evtStopped e = none) : ¬ Releases e := by
  intro h
  obtain ⟨es, s', hrun, hidle⟩ := (h _ (reachable_awaiting e) rfl rfl).1 _ _ .nil
  have hstays : s'.handler = .taken ⟨.stopped, e, some 1⟩ ∧ s'.main = .waiting := by
    apply hrun.invariant
      (I := fun s => s.handler = .taken ⟨.stopped, e, some 1⟩ ∧ s.main = .waiting)
    · exact ⟨rfl, rfl⟩
    · rintro t ev u ⟨ht, hm⟩ ⟨hstep, -⟩
      cases ev with
      | main => exact absurd hstep (not_mainStep hm)
      | gdb =>
          cases hstep
          exact ⟨ht, hm⟩
      | handler =>
          -- only the dispatch is left, and it has no result
          cases hstep with
          | dispatch hh hdispatch =>
              rw [ht] at hh
              cases hh
              have hnone : t.dispatch ⟨.stopped, e, some 1⟩ = none := by
                show (evtStopped e).map _ = none
                rw [hfault, Option.map_none]
              rw [hnone] at hdispatch
              cases hdispatch
          | take hh | update hh | lockUpdate hh | signal hh | unlockUpdate hh | finish hh =>
              rw [ht] at hh
              cases hh
  rw [hstays.1] at hidle
  exact absurd hidle nofun

/-- What becomes of an event that does not tell what has happened. -/
theorem returns_of_not_told (h : ¬ Told e) :
    evtStopped e = none ∨ ∃ act, evtStopped e = some act ∧ (act = .fail ∨ act = .exited) := by
  unfold evtStopped
  rcases hreason : e.reason with _ | reason
  · exact .inr ⟨_, rfl, .inl rfl⟩
  · by_cases hexited : reason = "exited-normally".toList
    · exact .inr ⟨_, if_pos hexited, .inr rfl⟩
    · by_cases hreceived : reason = "signal-received".toList
      · rcases hsignal : e.signal with _ | signal
        · left
          dsimp only
          rw [if_neg hexited, if_pos hreceived, Option.map_none]
        · exact absurd ⟨reason, hreason, hexited, fun _ => hsignal ▸ nofun⟩ h
      · exact absurd ⟨reason, hreason, hexited, fun hr => absurd hr hreceived⟩ h

/-- The stops behind which the main thread is released are those that tell what has happened. -/
theorem releases_iff (e : EventStop) : Releases e ↔ Told e := by
  refine ⟨fun h => ?_, Told.releases⟩
  by_contra hnot
  rcases returns_of_not_told hnot with hfault | ⟨act, hact, hreturns⟩
  · exact not_releases_of_faults hfault h
  · exact not_releases_of_returns hact hreturns h

/-- The program exits while the main thread waits for its next stop. -/
theorem exited_not_released :
    ∃ line e, gdbparse line = [(0, .procAsync .stopped 0 (some (.eventStop e)))] ∧
      ¬ Releases e := by
  refine ⟨"*stopped,reason=\"exited-normally\"\n".toList,
    { reason := some "exited-normally".toList }, by decide +kernel, ?_⟩
  exact @not_releases_of_returns _ .exited (by decide) (.inr rfl)

end Vimgdb.Gdb.AwaitUpdate
