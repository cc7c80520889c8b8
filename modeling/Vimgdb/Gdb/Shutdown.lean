import Vimgdb.Gdb.Threads

/-!
# The end of the reader thread

When gdb has gone, the reader thread leaves its loop, queues the event `RC_EXIT`, aborts the call of
`mi_issue_cmd` that waits with `mi_proc_result(RC_EXIT, 0, 0)`, and terminates.

* `Step`: the threads of `Vimgdb.Gdb.Threads`, and the way the reader ends.
* `Mutexes.step`: who holds the mutexes, whatever the threads do.
* `aborted_calls_return`: no call waits for the terminated reader, if none comes to wait after the
  abort; one that does can be left waiting.
-/

namespace Vimgdb.Gdb.Shutdown

open Runs

/-! ## The system -/

/-- Where the reader is in `readline_thread`. -/
inductive Exit
  /-- It reads and parses. -/
  | running
  /-- `read` has failed. -/
  | closed
  /-- The event is queued. -/
  | queued
  /-- It calls `mi_proc_result`, or has called it. -/
  | aborting
  | terminated
  deriving DecidableEq

/-- The threads, the end of the reader, and the events for the event thread. -/
structure State (T : Type) where
  core : Threads.State T
  exit : Exit
  events : List ResultClass

/-- What the reader calls `mi_proc_result` with. -/
def exitRecord : Threads.Record := ⟨.exit, [], none, none⟩

/-- A step of the threads, or one of the reader on its way out. -/
inductive Event (T : Type)
  | run (e : Threads.Event T)
  | shutdown

section
variable {T : Type} [DecidableEq T]

/-- No command has been issued, and the reader reads. -/
def State.init : State T := ⟨.init, .running, []⟩

/-- One step of the system. -/
inductive Step (s : State T) : Event T → State T → Prop
  /-- The reader reads only in its loop. -/
  | run {e : Threads.Event T} {core : Threads.State T} : Threads.Step s.core e core →
      (e = .reader → s.core.reader = .idle → s.exit = .running) →
      Step s (.run e) { s with core := core }
  | close : s.exit = .running → s.core.reader = .idle → Step s .shutdown { s with exit := .closed }
  | async : s.exit = .closed →
      Step s .shutdown { s with exit := .queued, events := s.events ++ [.exit] }
  | abort : s.exit = .queued →
      Step s .shutdown
        { s with exit := .aborting, core := { s.core with reader := .called exitRecord } }
  | terminate : s.exit = .aborting → s.core.reader = .idle →
      Step s .shutdown { s with exit := .terminated }

/-- What `mi_issue_cmd` returns for a response. -/
def returnValue (r : Response) : Int :=
  if r.rclass = .error ∨ r.rclass = .exit then -1 else 0

/-- The abort has been signalled. -/
def State.Aborted (s : State T) : Prop :=
  s.exit = .terminated ∨ s.exit = .aborting ∧ (s.core.reader = .processed ∨ s.core.reader = .idle)

/-- A call that has not got its response: it is in the section of `resp_mtx` that waits. -/
def InWait : Threads.Phase → Prop
  | .ready .. | .sent _ | .waiting _ => True
  | _ => False

/-- No thread comes to the section that waits after the abort. -/
def InTime (s : State T) : Event T → Prop
  | .run (.thread t) => (∃ k d, s.core.phase t = .written k d) → ¬ s.Aborted
  | _ => True

/-- Behind the reader no call is blocked: the one that holds `m` can go on, and those that are aborted
return -1. -/
structure Unblocked (s : State T) : Prop where
  notWaiting : s.exit = .terminated → ∀ t k, s.core.phase t ≠ .waiting k
  goesOn : s.exit = .terminated → ∀ t, (s.core.phase t).holdsM = true →
    ∃ core, Threads.Step s.core (.thread t) core
  fails : s.Aborted → ∀ t k, s.core.phase t = .woken k ∨ s.core.phase t = .resumed k →
    ∃ r, s.core.gdbif.resp = some r ∧ returnValue r = -1

/-! ## The mutexes -/

/-- Who holds the mutexes. -/
structure Mutexes (s : Threads.State T) : Prop where
  holdsM : ∀ t, (s.phase t).holdsM = true ↔ s.m = some t
  holdsResp : ∀ t, (s.phase t).holdsResp = true ↔ s.respMtx = some (.thread t)
  reader : s.reader.holdsResp = true ↔ s.respMtx = some .reader

omit [DecidableEq T] in
theorem mutexes_init : Mutexes (Threads.State.init : Threads.State T) := by
  constructor
  · intro t
    simp [Threads.State.init, Threads.Phase.holdsM]
  · intro t
    simp [Threads.State.init, Threads.Phase.holdsResp]
  · simp [Threads.State.init, Threads.Reader.holdsResp]

/-- A thread goes from one phase to another. -/
theorem Mutexes.move {s s' : Threads.State T} {t : T} {p p' : Threads.Phase} (h : Mutexes s)
    (hp : s.phase t = p) (hphase : s'.phase = Function.update s.phase t p')
    (hm : ∀ u, s'.m = some u ↔ u = t ∧ p'.holdsM = true ∨ u ≠ t ∧ s.m = some u)
    (hresp : s'.respMtx = Threads.respAfter s t p p')
    (hfree : p'.holdsResp = true → p.holdsResp = true ∨ s.respMtx = none)
    (hreader : s'.reader = s.reader) : Mutexes s' := by
  have hself : s'.phase t = p' := by rw [hphase, Function.update_self]
  have hother : ∀ u, u ≠ t → s'.phase u = s.phase u := fun u hu => by
    rw [hphase, Function.update_of_ne hu]
  have hpresp := h.holdsResp t
  rw [hp] at hpresp
  constructor
  · intro u
    rw [hm]
    by_cases hu : u = t
    · subst hu
      simp [hself]
    · simp [hu, hother u hu, h.holdsM u]
  · intro u
    rw [hresp]
    by_cases hu : u = t
    · subst hu
      rw [hself]
      exact Threads.respAfter_self hpresp
    · rw [hother u hu, h.holdsResp u]
      exact Threads.respAfter_other (fun heq => hu (Threads.Owner.thread.inj heq)) hpresp hfree
  · rw [hreader, hresp, h.reader]
    exact Threads.respAfter_other (by simp) hpresp hfree

/-- A thread keeps `m`, or goes on without it. -/
theorem Mutexes.keep {s s' : Threads.State T} {t : T} {p p' : Threads.Phase} (h : Mutexes s)
    (hp : s.phase t = p) (hm : s'.m = s.m) (hholds : p.holdsM = p'.holdsM) (u : T) :
    s'.m = some u ↔ u = t ∧ p'.holdsM = true ∨ u ≠ t ∧ s.m = some u := by
  rw [hm, ← hholds, ← hp, h.holdsM t]
  by_cases hu : u = t
  · subst hu
    simp
  · simp [hu]

omit [DecidableEq T] in
/-- Only the reader moves, and `m` stays as it is. -/
theorem Mutexes.reads {s s' : Threads.State T} (h : Mutexes s) (hphase : s'.phase = s.phase)
    (hm : s'.m = s.m) (hresp : ∀ t, s'.respMtx = some (.thread t) ↔ s.respMtx = some (.thread t))
    (hreader : s'.reader.holdsResp = true ↔ s'.respMtx = some .reader) : Mutexes s' where
  holdsM t := by rw [hphase, hm, h.holdsM]
  holdsResp t := by rw [hphase, hresp, h.holdsResp]
  reader := hreader

/-- A waiting thread is woken. -/
theorem Mutexes.signal {s s' : Threads.State T} (h : Mutexes s) (hsig : Threads.Signal s s') :
    Mutexes s' := by
  rcases hsig with @⟨t, k, hw⟩ | _
  · exact h.move hw rfl (h.keep hw rfl rfl) rfl nofun rfl
  · exact h

/-- Every step of the threads keeps this. -/
theorem Mutexes.step {s s' : Threads.State T} {e : Threads.Event T} (h : Mutexes s)
    (hstep : Threads.Step s e s') : Mutexes s' := by
  have hno : ∀ {P : Prop}, false = true → P := fun hn => absurd hn Bool.false_ne_true
  cases hstep with
  | call hp => exact h.move hp rfl (h.keep hp rfl rfl) rfl hno rfl
  | @lock t hp hm =>
      refine h.move hp rfl (fun u => ?_) rfl hno rfl
      simp [hm, Threads.Phase.holdsM, eq_comm]
  | write hp => exact h.move hp rfl (h.keep hp rfl rfl) rfl hno rfl
  | lockResp hp hfree => exact h.move hp rfl (h.keep hp rfl rfl) rfl (fun _ => Or.inr hfree) rfl
  | newline hp => exact h.move hp rfl (h.keep hp rfl rfl) rfl (fun _ => Or.inl rfl) rfl
  | wait hp => exact h.move hp rfl (h.keep hp rfl rfl) rfl hno rfl
  | relock hp hfree => exact h.move hp rfl (h.keep hp rfl rfl) rfl (fun _ => Or.inr hfree) rfl
  | copy hp _ => exact h.move hp rfl (h.keep hp rfl rfl) rfl (fun _ => Or.inl rfl) rfl
  | count hp => exact h.move hp rfl (h.keep hp rfl rfl) rfl (fun _ => Or.inl rfl) rfl
  | unlockResp hp => exact h.move hp rfl (h.keep hp rfl rfl) rfl hno rfl
  | @unlock t k r hp =>
      refine h.move hp rfl (fun u => ?_) rfl hno rfl
      have hm : s.m = some t := (h.holdsM t).mp (by rw [hp]; rfl)
      simp only [Threads.Phase.holdsM, hm, Option.some.injEq]
      constructor
      · intro hnone
        cases hnone
      · rintro (⟨-, hfalse⟩ | ⟨hne, heq⟩)
        · cases hfalse
        · exact absurd heq.symm hne
  | read hidle _ =>
      refine h.reads rfl rfl (fun _ => Iff.rfl) ?_
      have := h.reader
      rw [hidle] at this
      exact this
  | lockReader _ hfree =>
      refine h.reads rfl rfl (fun t => ?_) (iff_of_true rfl rfl)
      simp [hfree]
  | @store r s₁ hin _ hsig =>
      have h₁ := h.signal hsig
      have hreader : s₁.reader = s.reader := by
        rcases hsig with _ | _ <;> rfl
      refine h₁.reads rfl rfl (fun _ => Iff.rfl) ?_
      have := h₁.reader
      rw [hreader, hin] at this
      exact this
  | discard hin _ =>
      refine h.reads rfl rfl (fun _ => Iff.rfl) ?_
      have := h.reader
      rw [hin] at this
      exact this
  | unlockReader hp =>
      have hr : s.respMtx = some .reader := h.reader.mp (by rw [hp]; rfl)
      refine h.reads rfl rfl (fun t => ?_) (iff_of_false hno (by simp))
      simp [hr]
  | answer _ _ => exact h.reads rfl rfl (fun _ => Iff.rfl) h.reader
  | direct _ => exact h.reads rfl rfl (fun _ => Iff.rfl) h.reader

/-- Who holds `resp_mtx` holds `m`. -/
theorem holdsM_of_holdsResp {p : Threads.Phase} (h : p.holdsResp = true) : p.holdsM = true := by
  cases p <;> first | rfl | exact absurd h nofun

omit [DecidableEq T] in
/-- If the reader does not hold `resp_mtx`, nobody but the thread that holds `m` does. -/
theorem Mutexes.respMtx_eq_none {s : Threads.State T} (h : Mutexes s)
    (hreader : s.reader.holdsResp = false) {t : T} (hm : (s.phase t).holdsM = true)
    (ht : (s.phase t).holdsResp = false) : s.respMtx = none := by
  rcases hr : s.respMtx with _ | u | _
  · rfl
  · have hu := (h.holdsResp u).mpr hr
    have hmu := (h.holdsM u).mp (holdsM_of_holdsResp hu)
    rw [(h.holdsM t).mp hm] at hmu
    rw [← Option.some.inj hmu, ht] at hu
    cases hu
  · rw [h.reader.mpr hr] at hreader
    cases hreader

/-! ## After the abort -/

/-- The invariant. -/
structure Inv (s : State T) : Prop where
  mutexes : Mutexes s.core
  idle : s.exit = .closed ∨ s.exit = .queued ∨ s.exit = .terminated → s.core.reader = .idle
  record : s.exit = .aborting →
    ∀ r, s.core.reader = .called r ∨ s.core.reader = .inside r → r = exitRecord
  late : s.Aborted → ∀ t, ¬ InWait (s.core.phase t)
  resp : s.Aborted → s.core.gdbif.resp = some ⟨.exit, none⟩

omit [DecidableEq T] in
theorem inv_init : Inv (State.init : State T) where
  mutexes := mutexes_init
  idle := by simp [State.init]
  record := by simp [State.init]
  late := by simp [State.init, State.Aborted]
  resp := by simp [State.init, State.Aborted]

/-- A thread moves, but not into the section that waits. -/
theorem Inv.move {s : State T} {core : Threads.State T} {t : T} {p' : Threads.Phase} (h : Inv s)
    (hmut : Mutexes core) (hphase : core.phase = Function.update s.core.phase t p')
    (hreader : core.reader = s.core.reader)
    (hresp : core.gdbif.resp = s.core.gdbif.resp) (hwait : s.Aborted → ¬ InWait p') :
    Inv { s with core := core } := by
  have hab : State.Aborted { s with core := core } ↔ s.Aborted := by
    unfold State.Aborted
    rw [hreader]
  constructor
  · exact hmut
  · intro hexit
    exact hreader.trans (h.idle hexit)
  · intro hexit r hr
    rw [hreader] at hr
    exact h.record hexit r hr
  · intro ha u
    rw [hphase]
    by_cases hu : u = t
    · subst hu
      rw [Function.update_self]
      exact hwait (hab.mp ha)
    · rw [Function.update_of_ne hu]
      exact h.late (hab.mp ha) u
  · intro ha
    exact hresp.trans (h.resp (hab.mp ha))

/-- A thread that is not in the section that waits does not get there by itself after the abort. -/
theorem Inv.thread {s : State T} {core : Threads.State T} {t : T} (h : Inv s)
    (hstep : Threads.Step s.core (.thread t) core) (hin : InTime s (.run (.thread t))) :
    Inv { s with core := core } := by
  have hmut := h.mutexes.step hstep
  have hstay : ∀ {p}, s.core.phase t = p → InWait p → s.Aborted → False := fun hp hw ha =>
    h.late ha t (hp ▸ hw)
  cases hstep with
  | lock _ _ => exact h.move hmut rfl rfl rfl fun _ => id
  | write _ => exact h.move hmut rfl rfl rfl fun _ => id
  | lockResp hp _ => exact h.move hmut rfl rfl rfl fun ha => absurd ha (hin ⟨_, _, hp⟩)
  | newline hp => exact h.move hmut rfl rfl rfl fun ha => absurd ha (hstay hp trivial)
  | wait hp => exact h.move hmut rfl rfl rfl fun ha => absurd ha (hstay hp trivial)
  | relock _ _ => exact h.move hmut rfl rfl rfl fun _ => id
  | copy _ _ => exact h.move hmut rfl rfl rfl fun _ => id
  | count _ => exact h.move hmut rfl rfl rfl fun _ => id
  | unlockResp _ => exact h.move hmut rfl rfl rfl fun _ => id
  | unlock _ => exact h.move hmut rfl rfl rfl fun _ => id

omit [DecidableEq T] in
/-- While the reader is in the middle of a call the abort has not been signalled. -/
theorem not_aborted {s : State T} (hterm : s.exit = .terminated → s.core.reader = .idle)
    (hproc : s.core.reader ≠ .processed) (hidle : s.core.reader ≠ .idle) : ¬ s.Aborted := by
  rintro (ht | ⟨-, hr | hr⟩)
  · exact hidle (hterm ht)
  · exact hproc hr
  · exact hidle hr

/-- The signal of the abort leaves no thread in the section that waits. -/
theorem not_inWait_of_signal {s s' : Threads.State T} (h : Mutexes s)
    (hreader : s.reader.holdsResp = true) (hsig : Threads.Signal s s') (t : T) :
    ¬ InWait (s'.phase t) := by
  have hlocked : ∀ u, (s.phase u).holdsResp = false := fun u => by
    rcases hu : (s.phase u).holdsResp with _ | _
    · rfl
    · have := (h.holdsResp u).mp hu
      rw [h.reader.mp hreader] at this
      cases this
  -- who holds `m` is the only one to wait
  have honly : ∀ u k, s.phase u = .waiting k → s.m = some u := fun u k hu =>
    (h.holdsM u).mp (by rw [hu]; rfl)
  have hwait : InWait (s.phase t) → ∃ k, s.phase t = .waiting k := by
    intro hw
    have hl := hlocked t
    rcases hp : s.phase t
    all_goals rw [hp] at hw hl
    all_goals first
      | exact ⟨_, rfl⟩
      | exact hw.elim
      | exact absurd hl nofun
  rcases hsig with @⟨u, k, hu⟩ | hnone
  · have hphase : (s.move u (.woken k)).phase = Function.update s.phase u (.woken k) := rfl
    rw [hphase]
    intro hw
    by_cases htu : t = u
    · subst htu
      rw [Function.update_self] at hw
      exact hw
    · rw [Function.update_of_ne htu] at hw
      obtain ⟨k', ht⟩ := hwait hw
      have := (honly t k' ht).symm.trans (honly u k hu)
      exact htu (Option.some.inj this)
  · intro hw
    obtain ⟨k, ht⟩ := hwait hw
    exact hnone t k ht

/-- A step of the reader in a call of `mi_proc_result`. -/
theorem Inv.reader {s : State T} {core : Threads.State T} (h : Inv s)
    (hstep : Threads.Step s.core .reader core)
    (hloop : s.core.reader = .idle → s.exit = .running) : Inv { s with core := core } := by
  have hmut := h.mutexes.step hstep
  have hbusy : s.core.reader ≠ .idle →
      ¬ (s.exit = .closed ∨ s.exit = .queued ∨ s.exit = .terminated) := fun hne hexit =>
    hne (h.idle hexit)
  have hterm : s.core.reader ≠ .idle → s.exit ≠ .terminated := fun hne ht =>
    hbusy hne (Or.inr (Or.inr ht))
  cases hstep with
  | read hidle _ =>
      have hrun := hloop hidle
      refine ⟨hmut, ?_, ?_, ?_, ?_⟩
      all_goals simp [State.Aborted, hrun]
  | @lockReader r hc hfree =>
      have hne : s.core.reader ≠ .idle := by simp [hc]
      have hnot : ¬ State.Aborted
          { s with core := { s.core with reader := .inside r, respMtx := some .reader } } :=
        not_aborted (fun ht => absurd ht (hterm hne)) (by simp) (by simp)
      refine ⟨hmut, fun hexit => absurd hexit (hbusy hne), ?_, fun ha => absurd ha hnot,
        fun ha => absurd ha hnot⟩
      intro hexit r hr
      refine h.record hexit r (Or.inl ?_)
      rcases hr with hr | hr
      · cases hr
      · cases hr
        exact hc
  | @store r s₁ hin hacc hsig =>
      have hne : s.core.reader ≠ .idle := by simp [hin]
      refine ⟨hmut, fun hexit => absurd hexit (hbusy hne), ?_, ?_, ?_⟩
      · rintro - r' (hr | hr) <;> cases hr
      · intro _ t
        exact not_inWait_of_signal h.mutexes (by rw [hin]; rfl) hsig t
      · rintro (ht | ⟨hexit, -⟩)
        · exact absurd ht (hterm hne)
        · have hrec := h.record hexit r (Or.inr hin)
          subst hrec
          show (Gdbif.miProcResult _ _ _ _).resp = _
          unfold Gdbif.miProcResult
          rw [if_pos hacc]
          rfl
  | @discard r hin hacc =>
      have hne : s.core.reader ≠ .idle := by simp [hin]
      have hab : ¬ s.exit = .aborting := fun hexit => by
        rw [h.record hexit r (Or.inr hin)] at hacc
        simp [accepts, exitRecord] at hacc
      refine ⟨hmut, fun hexit => absurd hexit (hbusy hne), fun hexit => absurd hexit hab, ?_, ?_⟩
      · rintro (ht | ⟨hexit, -⟩)
        · exact absurd ht (hterm hne)
        · exact absurd hexit hab
      · rintro (ht | ⟨hexit, -⟩)
        · exact absurd ht (hterm hne)
        · exact absurd hexit hab
  | unlockReader hp =>
      have hne : s.core.reader ≠ .idle := by simp [hp]
      have hab : State.Aborted { s with core := { s.core with reader := .idle, respMtx := none } } →
          s.Aborted := by
        rintro (ht | ⟨hexit, -⟩)
        · exact Or.inl ht
        · exact Or.inr ⟨hexit, Or.inl hp⟩
      refine ⟨hmut, fun _ => rfl, ?_, fun ha => h.late (hab ha), fun ha => h.resp (hab ha)⟩
      rintro - r (hr | hr) <;> cases hr

/-- Every step keeps the invariant, if no call comes late. -/
theorem Inv.step {s s' : State T} {e : Event T} (h : Inv s) (hstep : Step s e s')
    (hin : InTime s e) : Inv s' := by
  cases hstep with
  | @run e core hcore hloop =>
      cases e with
      | thread t => exact h.thread hcore hin
      | reader => exact h.reader hcore (hloop rfl)
      | call t =>
          have hmut := h.mutexes.step hcore
          cases hcore with
          | call _ => exact h.move hmut rfl rfl rfl fun _ => id
      | direct =>
          have hmut := h.mutexes.step hcore
          cases hcore with
          | direct _ => exact ⟨hmut, h.idle, h.record, h.late, h.resp⟩
      | answer =>
          have hmut := h.mutexes.step hcore
          cases hcore with
          | answer _ _ => exact ⟨hmut, h.idle, h.record, h.late, h.resp⟩
  | close hexit hidle =>
      refine ⟨h.mutexes, fun _ => hidle, nofun, ?_, ?_⟩
      all_goals simp [State.Aborted]
  | async hexit =>
      refine ⟨h.mutexes, fun _ => h.idle (Or.inl hexit), nofun, ?_, ?_⟩
      all_goals simp [State.Aborted]
  | abort hexit =>
      have hidle := h.idle (Or.inr (Or.inl hexit))
      refine ⟨h.mutexes.reads rfl rfl (fun _ => Iff.rfl) ?_, ?_, ?_, ?_, ?_⟩
      · have := h.mutexes.reader
        rw [hidle] at this
        exact this
      · rintro (hr | hr | hr) <;> cases hr
      · rintro - r (hr | hr)
        · cases hr
          rfl
        · cases hr
      all_goals simp [State.Aborted]
  | terminate hexit hidle =>
      have hab : s.Aborted := Or.inr ⟨hexit, Or.inr hidle⟩
      exact ⟨h.mutexes, fun _ => hidle, nofun, fun _ => h.late hab, fun _ => h.resp hab⟩

/-- The invariant leaves no call blocked. -/
theorem Inv.unblocked {s : State T} (h : Inv s) : Unblocked s where
  notWaiting hterm t k ht := h.late (Or.inl hterm) t (by rw [ht]; trivial)
  goesOn hterm t hm := by
    have hab : s.Aborted := Or.inl hterm
    have hreader : s.core.reader.holdsResp = false := by
      rw [h.idle (Or.inr (Or.inr hterm))]
      rfl
    have hfree := h.mutexes.respMtx_eq_none hreader hm
    have hlate := h.late hab t
    rcases hp : s.core.phase t
    all_goals rw [hp] at hm hfree hlate
    case idle => cases hm
    case locking => cases hm
    case issuing => exact ⟨_, .write hp⟩
    case written => exact ⟨_, .lockResp hp (hfree rfl)⟩
    case ready => exact absurd trivial hlate
    case sent => exact absurd trivial hlate
    case waiting => exact absurd trivial hlate
    case woken => exact ⟨_, .relock hp (hfree rfl)⟩
    case resumed => exact ⟨_, .copy hp (h.resp hab)⟩
    case copied => exact ⟨_, .count hp⟩
    case counted => exact ⟨_, .unlockResp hp⟩
    case released => exact ⟨_, .unlock hp⟩
  fails hab _ _ _ := ⟨_, h.resp hab, by simp [returnValue]⟩

/-! ## Calls that come late -/

/-- A call that comes to wait after the abort can be left waiting for the terminated reader. -/
theorem late_blocks {s s' : State T} {e : Event T} (h : Inv s) (hstep : Step s e s')
    (hlate : ¬ InTime s e) :
    ∃ es s'', Run Step s' es s'' ∧ s''.exit = .terminated ∧ ∃ t k, s''.core.phase t = .waiting k := by
  cases hstep with
  | close => exact absurd trivial hlate
  | async => exact absurd trivial hlate
  | abort => exact absurd trivial hlate
  | terminate => exact absurd trivial hlate
  | @run e core hcore hloop =>
      rcases e with t | _ | t | _ | _
      · exact absurd trivial hlate
      · exact absurd trivial hlate
      · unfold InTime at hlate
        push Not at hlate
        obtain ⟨⟨k, d, hp⟩, hab⟩ := hlate
        cases hcore with
        | @lockResp _ k' d' hp' hfree =>
            have hnot : s.core.reader ≠ .processed := fun hr => by
              have := h.mutexes.reader.mp (by rw [hr]; rfl)
              rw [hfree] at this
              cases this
            let s₁ : Threads.State T :=
              { s.core.move t (.ready k' d') with respMtx := some (.thread t) }
            let s₂ : Threads.State T :=
              { s₁.move t (.sent k') with lines := s₁.lines ++ [(d', k')] }
            let s₃ : Threads.State T := { s₂.move t (.waiting k') with respMtx := none }
            have hrun : Run Step ({ s with core := s₁ } : State T)
                [.run (.thread t), .run (.thread t)] { s with core := s₃ } := by
              have hnewline : Threads.Step s₁ (.thread t) s₂ := .newline (Function.update_self ..)
              have hwait : Threads.Step s₂ (.thread t) s₃ := .wait (Function.update_self ..)
              exact Run.head (.run hnewline nofun) (Run.head (.run hwait nofun) .nil)
            rcases hab with hterm | ⟨hexit, hr⟩
            · exact ⟨_, _, hrun, hterm, t, k', Function.update_self ..⟩
            · refine ⟨_, _, hrun.snoc (.terminate hexit (hr.resolve_left hnot)), rfl, t, k', ?_⟩
              exact Function.update_self ..
        | lock hp' _ => exact absurd (hp.symm.trans hp') nofun
        | write hp' => exact absurd (hp.symm.trans hp') nofun
        | newline hp' => exact absurd (hp.symm.trans hp') nofun
        | wait hp' => exact absurd (hp.symm.trans hp') nofun
        | relock hp' _ => exact absurd (hp.symm.trans hp') nofun
        | copy hp' _ => exact absurd (hp.symm.trans hp') nofun
        | count hp' => exact absurd (hp.symm.trans hp') nofun
        | unlockResp hp' => exact absurd (hp.symm.trans hp') nofun
        | unlock hp' => exact absurd (hp.symm.trans hp') nofun
      · exact absurd trivial hlate
      · exact absurd trivial hlate

/-- While every call has come to its wait before the abort, or not at all, no call is left blocked by
the reader, and those that are aborted return -1; a call that comes later can be left waiting. -/
theorem aborted_calls_return {s : State T}
    (h : Reachable (fun s e s' => Step s e s' ∧ InTime s e) (· = State.init) s) :
    Unblocked s ∧ ∀ e s', Step s e s' → ¬ InTime s e →
      ∃ es s'', Run Step s' es s'' ∧ s''.exit = .terminated ∧
        ∃ t k, s''.core.phase t = .waiting k := by
  have hinv : Inv s := by
    apply h.invariant
    · rintro _ rfl
      exact inv_init
    · intro t e u ht hstep
      exact ht.step hstep.1 hstep.2
  exact ⟨hinv.unblocked, fun e s' hstep hlate => late_blocks hinv hstep hlate⟩

end

/-- A call that waits when gdb goes away is woken. -/
theorem waiting_call_aborted : ∃ s : State Unit, s.exit = .terminated ∧
    s.core.phase () = .woken 0 ∧ Unblocked s := by
  refine ⟨_, ?_, ?_, (aborted_calls_return ⟨_, _, rfl, ((((((((((((Run.nil.snoc
    ⟨.run (.call (t := ()) rfl) nofun, trivial⟩).snoc
    ⟨.run (.lock (t := ()) rfl rfl) nofun, ?_⟩).snoc
    ⟨.run (.write (t := ()) rfl) nofun, ?_⟩).snoc
    ⟨.run (.lockResp (t := ()) rfl rfl) nofun, ?_⟩).snoc
    ⟨.run (.newline (t := ()) rfl) nofun, ?_⟩).snoc
    ⟨.run (.wait (t := ()) rfl) nofun, ?_⟩).snoc
    ⟨.close rfl rfl, trivial⟩).snoc
    ⟨.async rfl, trivial⟩).snoc
    ⟨.abort rfl, trivial⟩).snoc
    ⟨.run (.lockReader rfl rfl) nofun, trivial⟩).snoc
    ⟨.run (.store rfl rfl (.wake (t := ()) rfl)) nofun, trivial⟩).snoc
    ⟨.run (.unlockReader rfl) nofun, trivial⟩).snoc
    ⟨.terminate rfl rfl, trivial⟩⟩).1⟩
  · rfl
  · rfl
  all_goals
    intro _
    simp [State.Aborted, State.init]

/-- A command issued after gdb has gone waits for ever. -/
theorem late_call_waits : ∃ s : State Unit, Reachable Step (· = State.init) s ∧
    s.exit = .terminated ∧ s.core.phase () = .waiting 0 := by
  refine ⟨_, ⟨_, _, rfl, ((((((((((((Run.nil.snoc (.close rfl rfl)).snoc (.async rfl)).snoc
    (.abort rfl)).snoc (.run (.lockReader rfl rfl) nofun)).snoc
    (.run (.store rfl rfl (.lost nofun)) nofun)).snoc (.run (.unlockReader rfl) nofun)).snoc
    (.terminate rfl rfl)).snoc (.run (.call (t := ()) rfl) nofun)).snoc
    (.run (.lock (t := ()) rfl rfl) nofun)).snoc (.run (.write (t := ()) rfl) nofun)).snoc
    (.run (.lockResp (t := ()) rfl rfl) nofun)).snoc
    (.run (.newline (t := ()) rfl) nofun)).snoc (.run (.wait (t := ()) rfl) nofun)⟩, ?_, ?_⟩
  · rfl
  · rfl

end Vimgdb.Gdb.Shutdown
