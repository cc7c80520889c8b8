import Vimgdb.Common.Events
import Vimgdb.Lib.Runs

/-!
# The end of vim's reader thread

A function is an action whose reply is awaited: `action` waits for `reply_avail` while its caller holds
`ui_mtx`.  The reader hands replies over with `proc_reply`.  When vim has gone, it queues the event
`E_DISCONNECT` and terminates; unlike the reader of gdb it does not wake the action that waits.

* `Step`: the threads, the reader and the end of the reader.
* `InTime`: when vim goes, no function is unanswered, and none is begun afterwards.
* `Inv`: who holds the mutexes, and that no function is unanswered once vim has gone.
* `functions_return`: as long as the steps are in time no function waits for the terminated reader; one
  that is not in time can be left waiting for ever.
-/

namespace Vimgdb.Vim.Shutdown

open Runs

/-! ## The system -/

/-- Where a thread is. -/
inductive Phase
  | idle
  /-- It wants `ui_mtx`. -/
  | locking
  /-- It holds `ui_mtx`, and is between two actions. -/
  | inside
  /-- All of a function but the newline is sent; it wants `reply_mtx`. -/
  | begun
  /-- It holds `reply_mtx`. -/
  | ready
  /-- The newline is sent. -/
  | sent
  /-- It waits for `reply_avail` and does not hold `reply_mtx`. -/
  | waiting
  /-- `reply_avail` was signalled; it wants `reply_mtx`. -/
  | woken
  /-- It holds `reply_mtx` again. -/
  | resumed
  /-- It has given `reply_mtx` back. -/
  | released
  deriving DecidableEq

/-- Where the reader is in `proc_reply`. -/
inductive Reader
  | idle
  /-- It wants `reply_mtx`. -/
  | called (seqNum : BitVec 32) (r : Option Cursor)
  /-- It holds `reply_mtx`. -/
  | inside (seqNum : BitVec 32) (r : Option Cursor)
  /-- The reply is stored or dropped. -/
  | processed

/-- Where the reader is in `readline_thread`. -/
inductive Exit
  /-- It reads and parses. -/
  | running
  /-- `recv` has failed. -/
  | closed
  /-- The event is queued. -/
  | queued
  | terminated
  deriving DecidableEq

/-- The owner of `reply_mtx`. -/
inductive Owner (T : Type)
  | thread (t : T)
  | reader

/-- The user interface, the threads `T` and the reader.  The last field records what the functions have
returned. -/
structure State (T : Type) where
  seqNum : BitVec 32
  reply : Option Cursor
  uiMtx : Option T
  replyMtx : Option (Owner T)
  phase : T → Phase
  reader : Reader
  exit : Exit
  events : List QueuedEvent
  returned : List (T × Option Cursor)

/-- The steps. -/
inductive Event (T : Type)
  /-- An operation is called. -/
  | call (t : T)
  /-- A command is sent. -/
  | command (t : T)
  /-- A function is begun. -/
  | begin (t : T)
  /-- The operation returns. -/
  | leave (t : T)
  /-- The thread goes on in its operation or function. -/
  | thread (t : T)
  | reader
  /-- The reader finds that vim has gone. -/
  | close
  /-- The reader goes on to its end. -/
  | shutdown
  /-- The main thread takes an event. -/
  | take

variable {T : Type}

/-- The first state. -/
def State.init : State T where
  seqNum := 1
  reply := none
  uiMtx := none
  replyMtx := none
  phase _ := .idle
  reader := .idle
  exit := .running
  events := []
  returned := []

section
variable [DecidableEq T]

/-- The thread moves on. -/
def State.move (s : State T) (t : T) (p : Phase) : State T :=
  { s with phase := Function.update s.phase t p }

/-- `proc_event` -/
def State.procEvent (s : State T) (e : QueuedEvent) : State T :=
  { s with events := s.events ++ if queues e then [e] else [] }

/-- `pthread_cond_signal`: one of the waiting threads is woken, if there is one. -/
inductive Signal (s : State T) : State T → Prop
  | wake {t : T} : s.phase t = .waiting → Signal s (s.move t .woken)
  | lost : (∀ t, s.phase t ≠ .waiting) → Signal s s

/-- One step of the system.  What vim sends is arbitrary. -/
inductive Step (s : State T) : Event T → State T → Prop
  | call {t : T} : s.phase t = .idle → Step s (.call t) (s.move t .locking)
  | lock {t : T} : s.phase t = .locking → s.uiMtx = none →
      Step s (.thread t) { s.move t .inside with uiMtx := some t }
  | command {t : T} : s.phase t = .inside →
      Step s (.command t) { s with seqNum := s.seqNum + 1 }
  | begin {t : T} : s.phase t = .inside →
      Step s (.begin t) { s.move t .begun with seqNum := s.seqNum + 1 }
  | lockReply {t : T} : s.phase t = .begun → s.replyMtx = none →
      Step s (.thread t) { s.move t .ready with replyMtx := some (.thread t) }
  | newline {t : T} : s.phase t = .ready → Step s (.thread t) (s.move t .sent)
  | wait {t : T} : s.phase t = .sent →
      Step s (.thread t) { s.move t .waiting with replyMtx := none }
  | relock {t : T} : s.phase t = .woken → s.replyMtx = none →
      Step s (.thread t) { s.move t .resumed with replyMtx := some (.thread t) }
  | unlockReply {t : T} : s.phase t = .resumed →
      Step s (.thread t) { s.move t .released with replyMtx := none }
  | result {t : T} : s.phase t = .released →
      Step s (.thread t) { s.move t .inside with returned := s.returned ++ [(t, s.reply)] }
  | leave {t : T} : s.phase t = .inside →
      Step s (.leave t) { s.move t .idle with uiMtx := none }
  /-- The parser calls `proc_reply`. -/
  | read (n : BitVec 32) (r : Option Cursor) : s.exit = .running → s.reader = .idle →
      Step s .reader { s with reader := .called n r }
  /-- The parser calls `proc_event`. -/
  | event (e : QueuedEvent) : s.exit = .running → s.reader = .idle →
      Step s .reader (s.procEvent e)
  | lockReader {n : BitVec 32} {r : Option Cursor} : s.reader = .called n r → s.replyMtx = none →
      Step s .reader { s with reader := .inside n r, replyMtx := some .reader }
  | store {n : BitVec 32} {r : Option Cursor} {s' : State T} : s.reader = .inside n r →
      s.seqNum = n → Signal s s' →
      Step s .reader { s' with reader := .processed, reply := r }
  | drop {n : BitVec 32} {r : Option Cursor} : s.reader = .inside n r → s.seqNum ≠ n →
      Step s .reader { s with reader := .processed }
  | unlockReader : s.reader = .processed →
      Step s .reader { s with reader := .idle, replyMtx := none }
  | close : s.exit = .running → s.reader = .idle → Step s .close { s with exit := .closed }
  | disconnect : s.exit = .closed →
      Step s .shutdown { s.procEvent ⟨0, none, EventId.disconnect.code⟩ with exit := .queued }
  | terminate : s.exit = .queued → Step s .shutdown { s with exit := .terminated }
  | take {e : QueuedEvent} {es : List QueuedEvent} : s.events = e :: es →
      Step s .take { s with events := es }

end

/-! ## The condition -/

/-- The function has not been answered. -/
def Phase.unanswered : Phase → Bool
  | .begun | .ready | .sent | .waiting => true
  | _ => false

/-- The thread is in a function. -/
def Phase.inFunction : Phase → Bool
  | .idle | .locking | .inside => false
  | _ => true

/-- When vim goes no function is unanswered, and none is begun afterwards. -/
def InTime (s : State T) : Event T → Prop
  | .close => ∀ t, (s.phase t).unanswered = false
  | .begin _ => s.exit = .running
  | _ => True

/-- The reader has terminated, and the thread waits for it. -/
def Blocked (s : State T) (t : T) : Prop := s.exit = .terminated ∧ s.phase t = .waiting

/-! ## The invariant -/

/-- Does a thread hold `ui_mtx`? -/
def Phase.holdsUi : Phase → Bool
  | .idle | .locking => false
  | _ => true

/-- Does a thread hold `reply_mtx`? -/
def Phase.holdsReply : Phase → Bool
  | .ready | .sent | .resumed => true
  | _ => false

/-- Does the reader hold `reply_mtx`? -/
def Reader.holdsReply : Reader → Bool
  | .inside .. | .processed => true
  | _ => false

/-- Who holds the mutexes, and what is left once vim has gone. -/
structure Inv (s : State T) : Prop where
  holdsUi : ∀ t, (s.phase t).holdsUi = true ↔ s.uiMtx = some t
  holdsReply : ∀ t, (s.phase t).holdsReply = true ↔ s.replyMtx = some (.thread t)
  reader : s.reader.holdsReply = true ↔ s.replyMtx = some .reader
  idle : s.exit ≠ .running → s.reader = .idle
  answered : s.exit ≠ .running → ∀ t, (s.phase t).unanswered = false

theorem inv_init : Inv (State.init : State T) where
  holdsUi t := by simp [State.init, Phase.holdsUi]
  holdsReply t := by simp [State.init, Phase.holdsReply]
  reader := by simp [State.init, Reader.holdsReply]
  idle h := absurd rfl h
  answered h := absurd rfl h

variable [DecidableEq T] {s s' : State T} {e : Event T} {t : T}

omit [DecidableEq T] in
/-- Who holds a mutex after the owner `o` has moved. -/
theorem owner_move {O : Type} {m m' : Option O} {o : O} {b b' : Bool}
    (hm : b = true ↔ m = some o) (hfree : b' = true → b = true ∨ m = none)
    (hm' : m' = if b' = b then m else if b' then some o else none) (x : O) :
    m' = some x ↔ x = o ∧ b' = true ∨ x ≠ o ∧ m = some x := by
  by_cases hx : x = o
  · subst hx
    cases b <;> cases b' <;> simp_all
  · have hx' : o ≠ x := fun heq => hx heq.symm
    cases b <;> cases b' <;> simp_all

/-- A thread goes from one phase to another. -/
theorem Inv.move (h : Inv s) {p q : Phase} (hp : s.phase t = p)
    (hphase : s'.phase = Function.update s.phase t q)
    (hui : s'.uiMtx = if q.holdsUi = p.holdsUi then s.uiMtx
      else if q.holdsUi then some t else none)
    (hreply : s'.replyMtx = if q.holdsReply = p.holdsReply then s.replyMtx
      else if q.holdsReply then some (.thread t) else none)
    (hfreeUi : q.holdsUi = true → p.holdsUi = true ∨ s.uiMtx = none)
    (hfreeReply : q.holdsReply = true → p.holdsReply = true ∨ s.replyMtx = none)
    (hreader : s'.reader = s.reader) (hexit : s'.exit = s.exit)
    (hanswered : s.exit ≠ .running → q.unanswered = true → p.unanswered = true) : Inv s' := by
  have hself : s'.phase t = q := by rw [hphase, Function.update_self]
  have hother : ∀ u, u ≠ t → s'.phase u = s.phase u := fun u hu => by
    rw [hphase, Function.update_of_ne hu]
  have hownUi := owner_move (hp ▸ h.holdsUi t) hfreeUi hui
  have hownReply := owner_move (hp ▸ h.holdsReply t) hfreeReply hreply
  constructor
  · intro u
    rw [hownUi]
    by_cases hu : u = t
    · subst hu
      simp [hself]
    · simp [hu, hother u hu, h.holdsUi u]
  · intro u
    rw [hownReply]
    by_cases hu : u = t
    · subst hu
      simp [hself]
    · simp [hu, hother u hu, h.holdsReply u]
  · rw [hreader, hownReply, h.reader]
    simp
  · rw [hexit, hreader]
    exact h.idle
  · intro hgone u
    rw [hexit] at hgone
    by_cases hu : u = t
    · subst hu
      rw [hself]
      by_contra hun
      have hold := h.answered hgone u
      rw [hp, hanswered hgone (by simpa using hun)] at hold
      cases hold
    · rw [hother u hu]
      exact h.answered hgone u

omit [DecidableEq T] in
/-- The reader moves while vim is there. -/
theorem Inv.moveReader (h : Inv s) (hphase : s'.phase = s.phase) (hui : s'.uiMtx = s.uiMtx)
    (hreply : s'.replyMtx = if s'.reader.holdsReply = s.reader.holdsReply then s.replyMtx
      else if s'.reader.holdsReply then some .reader else none)
    (hfree : s'.reader.holdsReply = true → s.reader.holdsReply = true ∨ s.replyMtx = none)
    (hexit : s'.exit = s.exit) (hrunning : s.exit = .running) : Inv s' := by
  have hown := owner_move h.reader hfree hreply
  constructor
  · rw [hphase, hui]
    exact h.holdsUi
  · intro u
    rw [hphase, hown, h.holdsReply]
    simp
  · rw [hown]
    simp
  · rw [hexit]
    exact fun hgone => absurd hrunning hgone
  · rw [hexit]
    exact fun hgone => absurd hrunning hgone

omit [DecidableEq T] in
/-- The reader is at work only while vim is there. -/
theorem Inv.running (h : Inv s) (hreader : s.reader ≠ .idle) : s.exit = .running := by
  by_contra hgone
  exact hreader (h.idle hgone)

omit [DecidableEq T] in
/-- What the reader does on its way out. -/
theorem Inv.setExit (h : Inv s) (hphase : s'.phase = s.phase) (hui : s'.uiMtx = s.uiMtx)
    (hreply : s'.replyMtx = s.replyMtx) (hreader : s'.reader = s.reader) (hidle : s.reader = .idle)
    (hanswered : ∀ t, (s.phase t).unanswered = false) : Inv s' := by
  refine ⟨?_, ?_, ?_, ?_, ?_⟩
  · rw [hphase, hui]
    exact h.holdsUi
  · rw [hphase, hreply]
    exact h.holdsReply
  · rw [hreader, hreply]
    exact h.reader
  · exact fun _ => hreader.trans hidle
  · rw [hphase]
    exact fun _ => hanswered

/-- A step that is in time keeps the invariant. -/
theorem Inv.step (h : Inv s) (hstep : Step s e s') (hintime : InTime s e) : Inv s' := by
  cases hstep with
  | call hp =>
      exact h.move (q := .locking) hp rfl rfl rfl nofun nofun rfl rfl fun _ => nofun
  | lock hp hfree =>
      exact h.move (q := .inside) hp rfl rfl rfl (fun _ => Or.inr hfree) nofun rfl rfl
        fun _ => nofun
  | command => exact ⟨h.holdsUi, h.holdsReply, h.reader, h.idle, h.answered⟩
  | begin hp =>
      exact h.move (q := .begun) hp rfl rfl rfl (fun _ => Or.inl rfl) nofun rfl rfl
        fun hgone => absurd hintime hgone
  | lockReply hp hfree =>
      exact h.move (q := .ready) hp rfl rfl rfl (fun _ => Or.inl rfl) (fun _ => Or.inr hfree) rfl rfl
        fun _ _ => rfl
  | newline hp =>
      exact h.move (q := .sent) hp rfl rfl rfl (fun _ => Or.inl rfl) (fun _ => Or.inl rfl) rfl rfl
        fun _ _ => rfl
  | wait hp =>
      exact h.move (q := .waiting) hp rfl rfl rfl (fun _ => Or.inl rfl) nofun rfl rfl fun _ _ => rfl
  | relock hp hfree =>
      exact h.move (q := .resumed) hp rfl rfl rfl (fun _ => Or.inl rfl) (fun _ => Or.inr hfree) rfl
        rfl fun _ => nofun
  | unlockReply hp =>
      exact h.move (q := .released) hp rfl rfl rfl (fun _ => Or.inl rfl) nofun rfl rfl fun _ => nofun
  | result hp =>
      exact h.move (q := .inside) hp rfl rfl rfl (fun _ => Or.inl rfl) nofun rfl rfl fun _ => nofun
  | leave hp =>
      exact h.move (q := .idle) hp rfl rfl rfl nofun nofun rfl rfl fun _ => nofun
  | read n r hrunning hreader =>
      refine h.moveReader rfl rfl ?_ nofun rfl hrunning
      rw [hreader]
      rfl
  | event e hrunning hreader =>
      exact ⟨h.holdsUi, h.holdsReply, h.reader, h.idle, h.answered⟩
  | lockReader hreader hfree =>
      refine h.moveReader rfl rfl ?_ (fun _ => Or.inr hfree) rfl (h.running (by rw [hreader]; nofun))
      rw [hreader]
      rfl
  | store hreader hseq hsignal =>
      have hrunning : s.exit = .running := h.running (by rw [hreader]; nofun)
      have hstored : ∀ s₁ : State T, Inv s₁ → s₁.reader = s.reader → s₁.exit = s.exit →
          ∀ r, Inv { s₁ with reader := .processed, reply := r } := by
        intro s₁ h₁ hreader₁ hexit₁ r
        refine h₁.moveReader rfl rfl ?_ (fun _ => Or.inl ?_) rfl (hexit₁.trans hrunning)
        · rw [hreader₁, hreader]
          rfl
        · rw [hreader₁, hreader]
          rfl
      cases hsignal with
      | @wake u hu =>
          refine hstored (s.move u .woken) ?_ rfl rfl _
          exact h.move (q := .woken) hu rfl rfl rfl (fun _ => Or.inl rfl) nofun rfl rfl fun _ => nofun
      | lost => exact hstored _ h rfl rfl _
  | drop hreader hseq =>
      refine h.moveReader rfl rfl ?_ (fun _ => Or.inl ?_) rfl (h.running (by rw [hreader]; nofun))
      · rw [hreader]
        rfl
      · rw [hreader]
        rfl
  | unlockReader hreader =>
      refine h.moveReader rfl rfl ?_ nofun rfl (h.running (by rw [hreader]; nofun))
      rw [hreader]
      rfl
  | close hrunning hreader => exact h.setExit rfl rfl rfl rfl hreader hintime
  | disconnect hexit =>
      have hgone : s.exit ≠ .running := by rw [hexit]; nofun
      exact h.setExit rfl rfl rfl rfl (h.idle hgone) (h.answered hgone)
  | terminate hexit =>
      have hgone : s.exit ≠ .running := by rw [hexit]; nofun
      exact h.setExit rfl rfl rfl rfl (h.idle hgone) (h.answered hgone)
  | take => exact ⟨h.holdsUi, h.holdsReply, h.reader, h.idle, h.answered⟩

/-! ## Functions that are answered -/

omit [DecidableEq T] in
/-- Behind the reader, `reply_mtx` is free unless the holder of `ui_mtx` has it. -/
theorem Inv.free (h : Inv s) (hreader : s.reader = .idle) (hui : (s.phase t).holdsUi = true)
    (hreply : (s.phase t).holdsReply = false) : s.replyMtx = none := by
  rcases hmtx : s.replyMtx with _ | u | _
  · rfl
  · have hu := (h.holdsReply u).mpr hmtx
    have huUi : (s.phase u).holdsUi = true := by
      cases hp : s.phase u <;> rw [hp] at hu <;> first | rfl | cases hu
    have heq := ((h.holdsUi u).mp huUi).symm.trans ((h.holdsUi t).mp hui)
    rw [Option.some.inj heq, hreply] at hu
    cases hu
  · have hr := h.reader.mpr hmtx
    rw [hreader] at hr
    cases hr

/-- No function waits for the terminated reader, and one that has not returned when vim has gone does so
by its own steps. -/
structure Returning (s : State T) : Prop where
  notBlocked : ∀ t, ¬ Blocked s t
  returns : s.exit ≠ .running → ∀ t, (s.phase t).inFunction = true →
    ∃ es s', Run Step s es s' ∧ (∀ e ∈ es, e = .thread t) ∧ s'.phase t = .inside

theorem return_of_released (hp : s.phase t = .released) :
    ∃ es s', Run Step s es s' ∧ (∀ e ∈ es, e = .thread t) ∧ s'.phase t = .inside := by
  refine ⟨_, _, Run.nil.snoc (.result hp), ?_, Function.update_self ..⟩
  intro e he
  exact List.mem_singleton.mp he

/-- A step of the thread in front of its return. -/
theorem return_of_step (hstep : Step s (.thread t) s')
    (h : ∃ es s'', Run Step s' es s'' ∧ (∀ e ∈ es, e = .thread t) ∧ s''.phase t = .inside) :
    ∃ es s'', Run Step s es s'' ∧ (∀ e ∈ es, e = .thread t) ∧ s''.phase t = .inside := by
  obtain ⟨es, s'', hrun, hes, hp⟩ := h
  refine ⟨_, s'', Run.head hstep hrun, ?_, hp⟩
  intro e he
  rcases List.mem_cons.mp he with rfl | he
  · rfl
  · exact hes e he

theorem return_of_resumed (hp : s.phase t = .resumed) :
    ∃ es s', Run Step s es s' ∧ (∀ e ∈ es, e = .thread t) ∧ s'.phase t = .inside :=
  return_of_step (.unlockReply hp) (return_of_released (Function.update_self ..))

theorem Inv.returning (h : Inv s) : Returning s where
  notBlocked t hblocked := by
    have hgone : s.exit ≠ .running := by rw [hblocked.1]; nofun
    have hanswered := h.answered hgone t
    rw [hblocked.2] at hanswered
    cases hanswered
  returns hgone t hin := by
    have hanswered := h.answered hgone t
    cases hp : s.phase t
    case woken =>
      have hfree : s.replyMtx = none := h.free (t := t) (h.idle hgone) (by rw [hp]; rfl) (by rw [hp]; rfl)
      exact return_of_step (.relock hp hfree) (return_of_resumed (Function.update_self ..))
    case resumed => exact return_of_resumed hp
    case released => exact return_of_released hp
    case idle | locking | inside =>
      rw [hp] at hin
      cases hin
    case begun | ready | sent | waiting =>
      rw [hp] at hanswered
      cases hanswered

/-! ## Functions that are not -/

/-- An unanswered function comes to wait. -/
theorem reaches_wait (hun : (s.phase t).unanswered = true)
    (hfree : s.phase t = .begun → s.replyMtx = none) :
    ∃ es s', Run Step s es s' ∧ s'.phase t = .waiting ∧ s'.exit = s.exit ∧ s'.reader = s.reader := by
  have hsent : ∀ s : State T, s.phase t = .sent → ∃ es s', Run Step s es s' ∧
      s'.phase t = .waiting ∧ s'.exit = s.exit ∧ s'.reader = s.reader := fun s hp =>
    ⟨_, _, Run.nil.snoc (.wait hp), Function.update_self .., rfl, rfl⟩
  have hready : ∀ s : State T, s.phase t = .ready → ∃ es s', Run Step s es s' ∧
      s'.phase t = .waiting ∧ s'.exit = s.exit ∧ s'.reader = s.reader := by
    intro s hp
    obtain ⟨es, s', hrun, hs'⟩ := hsent (s.move t .sent) (Function.update_self ..)
    exact ⟨_, s', Run.head (.newline hp) hrun, hs'⟩
  cases hp : s.phase t
  case begun =>
    obtain ⟨es, s', hrun, hs'⟩ := hready { s.move t .ready with replyMtx := some (.thread t) }
      (Function.update_self ..)
    exact ⟨_, s', Run.head (.lockReply hp (hfree hp)) hrun, hs'⟩
  case ready => exact hready s hp
  case sent => exact hsent s hp
  case waiting => exact ⟨[], s, Run.nil, hp, rfl, rfl⟩
  all_goals
    rw [hp] at hun
    cases hun

/-- The reader goes to its end. -/
theorem reaches_end (hgone : s.exit ≠ .running) (hp : s.phase t = .waiting) :
    ∃ es s', Run Step s es s' ∧ Blocked s' t ∧ s'.reader = s.reader := by
  have hqueued : ∀ s : State T, s.exit = .queued → s.phase t = .waiting →
      ∃ es s', Run Step s es s' ∧ Blocked s' t ∧ s'.reader = s.reader := fun s hexit hp =>
    ⟨_, _, Run.nil.snoc (.terminate hexit), ⟨rfl, hp⟩, rfl⟩
  cases hexit : s.exit
  case running => exact absurd hexit hgone
  case closed =>
    obtain ⟨es, s', hrun, hs'⟩ := hqueued
      { s.procEvent ⟨0, none, EventId.disconnect.code⟩ with exit := .queued } rfl hp
    exact ⟨_, s', Run.head (.disconnect hexit) hrun, hs'⟩
  case queued => exact hqueued s hexit hp
  case terminated => exact ⟨[], s, Run.nil, ⟨hexit, hp⟩, rfl⟩

/-- A function that waits for the terminated reader waits for ever. -/
theorem Blocked.forever {es : List (Event T)} (h : Blocked s t) (hreader : s.reader = .idle)
    (hrun : Run Step s es s') : Blocked s' t := by
  have hkeep : ∀ s e s' , Blocked s t ∧ s.reader = Reader.idle → Step s e s' →
      Blocked s' t ∧ s'.reader = Reader.idle := by
    rintro s e s' ⟨⟨hexit, hp⟩, hreader⟩ hstep
    have hmove : ∀ {u : T} {p p' : Phase}, s.phase u = p → p ≠ .waiting →
        Function.update s.phase u p' t = .waiting := by
      intro u p p' hu hne
      have htu : t ≠ u := by
        rintro rfl
        exact hne (hu.symm.trans hp)
      rw [Function.update_of_ne htu, hp]
    cases hstep with
    | call hu => exact ⟨⟨hexit, hmove hu nofun⟩, hreader⟩
    | lock hu => exact ⟨⟨hexit, hmove hu nofun⟩, hreader⟩
    | command hu => exact ⟨⟨hexit, hp⟩, hreader⟩
    | begin hu => exact ⟨⟨hexit, hmove hu nofun⟩, hreader⟩
    | lockReply hu => exact ⟨⟨hexit, hmove hu nofun⟩, hreader⟩
    | newline hu => exact ⟨⟨hexit, hmove hu nofun⟩, hreader⟩
    | wait hu => exact ⟨⟨hexit, hmove hu nofun⟩, hreader⟩
    | relock hu => exact ⟨⟨hexit, hmove hu nofun⟩, hreader⟩
    | unlockReply hu => exact ⟨⟨hexit, hmove hu nofun⟩, hreader⟩
    | result hu => exact ⟨⟨hexit, hmove hu nofun⟩, hreader⟩
    | leave hu => exact ⟨⟨hexit, hmove hu nofun⟩, hreader⟩
    | read n r hrunning => exact absurd (hexit.symm.trans hrunning) nofun
    | event e hrunning => exact absurd (hexit.symm.trans hrunning) nofun
    | lockReader hr => exact absurd (hreader.symm.trans hr) nofun
    | store hr => exact absurd (hreader.symm.trans hr) nofun
    | drop hr => exact absurd (hreader.symm.trans hr) nofun
    | unlockReader hr => exact absurd (hreader.symm.trans hr) nofun
    | close hrunning => exact absurd (hexit.symm.trans hrunning) nofun
    | disconnect hclosed => exact absurd (hexit.symm.trans hclosed) nofun
    | terminate hqueued => exact absurd (hexit.symm.trans hqueued) nofun
    | take => exact ⟨⟨hexit, hp⟩, hreader⟩
  exact (hrun.invariant (I := fun s => Blocked s t ∧ s.reader = .idle) ⟨h, hreader⟩ hkeep).1

/-- A step that is not in time can leave a function waiting for ever. -/
theorem late_blocks (h : Inv s) (hstep : Step s e s') (hlate : ¬ InTime s e) :
    ∃ es s'' t, Run Step s' es s'' ∧ ∀ es' s₃, Run Step s'' es' s₃ → Blocked s₃ t := by
  have hblock : ∀ t, s'.exit ≠ .running → s'.reader = .idle → (s'.phase t).unanswered = true →
      (s'.phase t = .begun → s'.replyMtx = none) →
      ∃ es s'' t, Run Step s' es s'' ∧ ∀ es' s₃, Run Step s'' es' s₃ → Blocked s₃ t := by
    intro t hgone hreader hun hfree
    obtain ⟨es₁, s₁, hrun₁, hp₁, hexit₁, hreader₁⟩ := reaches_wait hun hfree
    obtain ⟨es₂, s₂, hrun₂, hblocked, hreader₂⟩ := reaches_end (hexit₁ ▸ hgone) hp₁
    have hidle : s₂.reader = .idle := hreader₂.trans (hreader₁.trans hreader)
    exact ⟨_, s₂, t, hrun₁.append hrun₂, fun _ _ hrun => hblocked.forever hidle hrun⟩
  cases hstep with
  | close hrunning hreader =>
      unfold InTime at hlate
      push Not at hlate
      obtain ⟨t, hun⟩ := hlate
      have hun : (s.phase t).unanswered = true := by simpa using hun
      refine hblock t nofun hreader hun fun hp => ?_
      have hp : s.phase t = .begun := hp
      have hfree : s.replyMtx = none :=
        h.free (t := t) hreader (by rw [hp]; rfl) (by rw [hp]; rfl)
      exact hfree
  | @begin u hp =>
      have hgone : s.exit ≠ .running := hlate
      have hfree : s.replyMtx = none :=
        h.free (t := u) (h.idle hgone) (by rw [hp]; rfl) (by rw [hp]; rfl)
      refine hblock u hgone (h.idle hgone) ?_ fun _ => hfree
      show (Function.update s.phase u .begun u).unanswered = true
      rw [Function.update_self]
      rfl
  | call | lock | command | lockReply | newline | wait | relock | unlockReply | result | leave | read
  | event | lockReader | store | drop | unlockReader | disconnect | terminate | take =>
      exact absurd trivial hlate

/-- As long as no function is unanswered when vim goes, and none is begun afterwards, no function waits
for the terminated reader, and each returns; a step that is not in time can leave one waiting for
ever. -/
theorem functions_return
    (h : Reachable (fun s e s' => Step s e s' ∧ InTime s e) (· = State.init) s) :
    Returning s ∧ ∀ e s', Step s e s' → ¬ InTime s e →
      ∃ es s'' t, Run Step s' es s'' ∧ ∀ es' s₃, Run Step s'' es' s₃ → Blocked s₃ t := by
  have hinv : Inv s := by
    apply h.invariant
    · rintro _ rfl
      exact inv_init
    · intro t e u ht hstep
      exact ht.step hstep.1 hstep.2
  exact ⟨hinv.returning, fun e s' hstep hlate => late_blocks hinv hstep hlate⟩

/-- A function is answered before vim goes. -/
theorem answered_function_returns : ∃ s : State Unit, s.exit = .terminated ∧
    s.phase () = .woken ∧ Returning s := by
  refine ⟨_, ?_, ?_, (functions_return ⟨_, _, rfl, (((((((((((((Run.nil.snoc
    ⟨.call (t := ()) rfl, trivial⟩).snoc
    ⟨.lock (t := ()) rfl rfl, trivial⟩).snoc
    ⟨.begin (t := ()) rfl, rfl⟩).snoc
    ⟨.lockReply (t := ()) rfl rfl, trivial⟩).snoc
    ⟨.newline (t := ()) rfl, trivial⟩).snoc
    ⟨.wait (t := ()) rfl, trivial⟩).snoc
    ⟨.read 2 none rfl rfl, trivial⟩).snoc
    ⟨.lockReader rfl rfl, trivial⟩).snoc
    ⟨.store rfl rfl (.wake (t := ()) rfl), trivial⟩).snoc
    ⟨.unlockReader rfl, trivial⟩).snoc
    ⟨.close rfl rfl, fun _ => rfl⟩).snoc
    ⟨.disconnect rfl, trivial⟩).snoc
    ⟨.terminate rfl, trivial⟩).snoc
    ⟨.take rfl, trivial⟩⟩).1⟩
  · rfl
  · rfl

/-- Vim goes while it owes a reply. -/
theorem waiting_function_blocked : ∃ s : State Unit, Reachable Step (· = State.init) s ∧
    Blocked s () := by
  refine ⟨_, ⟨_, _, rfl, ((((((((Run.nil.snoc (.call (t := ()) rfl)).snoc
    (.lock (t := ()) rfl rfl)).snoc (.begin (t := ()) rfl)).snoc
    (.lockReply (t := ()) rfl rfl)).snoc (.newline (t := ()) rfl)).snoc
    (.wait (t := ()) rfl)).snoc (.close rfl rfl)).snoc (.disconnect rfl)).snoc (.terminate rfl)⟩, ?_⟩
  exact ⟨rfl, rfl⟩

end Vimgdb.Vim.Shutdown
