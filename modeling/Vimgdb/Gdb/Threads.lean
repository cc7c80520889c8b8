import Vimgdb.Gdb.Issue
import Vimgdb.Gdb.Response
import Vimgdb.Lib.Runs

/-!
# Threads that wait for responses

Any number of threads call `gdbif::mi_issue_cmd`, and the reader thread calls
`gdbif::mi_proc_result` for each result of gdb.  They share the token, the stored response, the
mutexes `m` and `resp_mtx`, and the condition `resp_avail`.

* `Step`: the threads, the reader and gdb, one lock, write or read at a time.
* `Inv`: how far the call that holds `m` has come, and what is under way between it and gdb.
* `Inv.step`: every step keeps it while the token has not wrapped.
* `calls_return_results`: every call returns the result gdb produced for its command, and no call
  waits for ever.
-/

namespace Vimgdb.Gdb.Threads

open Runs

/-! ## The system -/

/-- A result record: its class, the digits of its token, and its result.  `origin` is the command
gdb answers with it. -/
structure Record where
  rclass : ResultClass
  digits : CStr
  result : Option Result
  origin : Option Nat

/-- The rule `token`: 0 if there is none. -/
def Record.token (r : Record) : BitVec 32 := if r.digits = [] then 0 else atoi r.digits

/-- The digits of a token are read back. -/
theorem token_itoa (rclass : ResultClass) (v : BitVec 32) (result : Option Result)
    (origin : Option Nat) : Record.token ⟨rclass, itoa 10 v.toNat, result, origin⟩ = v :=
  (if_neg Nat.toDigits_ne_nil).trans (atoi_itoa v)

/-- What `mi_proc_result` stores for the record. -/
def Record.response (r : Record) : Response := ⟨r.rclass, r.result⟩

/-- Where a thread is in `mi_issue_cmd`; `k` is the number of the command. -/
inductive Phase
  | idle
  /-- It wants `m`. -/
  | locking
  /-- It holds `m` and writes the token and the command. -/
  | issuing (k : Nat)
  /-- All but the newline is written; it wants `resp_mtx`. -/
  | written (k : Nat) (digits : CStr)
  /-- It holds `resp_mtx`. -/
  | ready (k : Nat) (digits : CStr)
  /-- The newline is written. -/
  | sent (k : Nat)
  /-- It waits for `resp_avail` and does not hold `resp_mtx`. -/
  | waiting (k : Nat)
  /-- `resp_avail` was signalled; it wants `resp_mtx`. -/
  | woken (k : Nat)
  /-- It holds `resp_mtx` again. -/
  | resumed (k : Nat)
  /-- The response is copied. -/
  | copied (k : Nat) (resp : Response)
  /-- The token is incremented. -/
  | counted (k : Nat) (resp : Response)
  /-- `resp_mtx` is given back. -/
  | released (k : Nat) (resp : Response)

/-- Where the reader is in `mi_proc_result`. -/
inductive Reader
  | idle
  /-- It wants `resp_mtx`. -/
  | called (r : Record)
  /-- It holds `resp_mtx`. -/
  | inside (r : Record)
  /-- The record is stored or discarded. -/
  | processed

/-- The owner of `resp_mtx`. -/
inductive Owner (T : Type)
  | thread (t : T)
  | reader

/-- The shared state, the threads and gdb.  `lines` are the commands gdb has received and `output`
the records the reader has not read.  The last three fields record the history: the thread of each
command, what gdb has produced for which command, and what the calls have returned. -/
structure State (T : Type) where
  gdbif : Gdbif
  m : Option T
  respMtx : Option (Owner T)
  phase : T → Phase
  reader : Reader
  lines : List (CStr × Nat)
  output : List Record
  calls : List T
  produced : List (Nat × Response)
  returned : List (T × Nat × Response)

section
variable {T : Type} [DecidableEq T]

/-- No command has been issued. -/
def State.init : State T where
  gdbif := {}
  m := none
  respMtx := none
  phase _ := .idle
  reader := .idle
  lines := []
  output := []
  calls := []
  produced := []
  returned := []

/-- The thread moves on. -/
def State.move (s : State T) (t : T) (p : Phase) : State T :=
  { s with phase := Function.update s.phase t p }

/-- The classes of results in the grammar. -/
def responseClasses : List ResultClass := [.done, .running, .error]

/-- `pthread_cond_signal`: one of the waiting threads is woken, if there is one. -/
inductive Signal (s : State T) : State T → Prop
  | wake {t : T} {k : Nat} : s.phase t = .waiting k → Signal s (s.move t (.woken k))
  | lost : (∀ t k, s.phase t ≠ .waiting k) → Signal s s

/-- Who takes a step: a thread that calls `mi_issue_cmd`, a thread in the middle of a call, the
reader, or gdb, which answers a command or produces a result for a direct command. -/
inductive Event (T : Type)
  | call (t : T)
  | direct
  | thread (t : T)
  | reader
  | answer

/-- One step of the system. -/
inductive Step (s : State T) : Event T → State T → Prop
  | call {t : T} : s.phase t = .idle → Step s (.call t) (s.move t .locking)
  | lock {t : T} : s.phase t = .locking → s.m = none →
      Step s (.thread t)
        { s.move t (.issuing s.calls.length) with m := some t, calls := s.calls ++ [t] }
  | write {t : T} {k : Nat} : s.phase t = .issuing k →
      Step s (.thread t) (s.move t (.written k (itoa 10 s.gdbif.token.toNat)))
  | lockResp {t : T} {k : Nat} {d : CStr} : s.phase t = .written k d → s.respMtx = none →
      Step s (.thread t) { s.move t (.ready k d) with respMtx := some (.thread t) }
  | newline {t : T} {k : Nat} {d : CStr} : s.phase t = .ready k d →
      Step s (.thread t) { s.move t (.sent k) with lines := s.lines ++ [(d, k)] }
  | wait {t : T} {k : Nat} : s.phase t = .sent k →
      Step s (.thread t) { s.move t (.waiting k) with respMtx := none }
  | relock {t : T} {k : Nat} : s.phase t = .woken k → s.respMtx = none →
      Step s (.thread t) { s.move t (.resumed k) with respMtx := some (.thread t) }
  | copy {t : T} {k : Nat} {r : Response} : s.phase t = .resumed k → s.gdbif.resp = some r →
      Step s (.thread t) (s.move t (.copied k r))
  | count {t : T} {k : Nat} {r : Response} : s.phase t = .copied k r →
      Step s (.thread t)
        { s.move t (.counted k r) with gdbif := { s.gdbif with token := s.gdbif.token + 1 } }
  | unlockResp {t : T} {k : Nat} {r : Response} : s.phase t = .counted k r →
      Step s (.thread t) { s.move t (.released k r) with respMtx := none }
  | unlock {t : T} {k : Nat} {r : Response} : s.phase t = .released k r →
      Step s (.thread t)
        { s.move t .idle with m := none, returned := s.returned ++ [(t, k, r)] }
  /-- The parser calls `mi_proc_result`. -/
  | read {r : Record} {out : List Record} : s.reader = .idle → s.output = r :: out →
      Step s .reader { s with reader := .called r, output := out }
  | lockReader {r : Record} : s.reader = .called r → s.respMtx = none →
      Step s .reader { s with reader := .inside r, respMtx := some .reader }
  | store {r : Record} {s' : State T} : s.reader = .inside r →
      accepts s.gdbif.token r.rclass r.token = true → Signal s s' →
      Step s .reader
        { s' with
          reader := .processed
          gdbif := s.gdbif.miProcResult r.rclass r.token r.result }
  | discard {r : Record} : s.reader = .inside r →
      accepts s.gdbif.token r.rclass r.token = false →
      Step s .reader { s with reader := .processed }
  | unlockReader : s.reader = .processed →
      Step s .reader { s with reader := .idle, respMtx := none }
  /-- gdb answers the commands in order, with their tokens. -/
  | answer {d : CStr} {k : Nat} {ls : List (CStr × Nat)} {rclass : ResultClass}
      {result : Option Result} : s.lines = (d, k) :: ls → rclass ∈ responseClasses →
      Step s .answer
        { s with
          lines := ls
          output := s.output ++ [⟨rclass, d, result, some k⟩]
          produced := s.produced ++ [(k, ⟨rclass, result⟩)] }
  /-- A result without a token. -/
  | direct {rclass : ResultClass} {result : Option Result} : rclass ∈ responseClasses →
      Step s .direct { s with output := s.output ++ [⟨rclass, [], result, none⟩] }

end

section
variable {T : Type}

/-! ## The invariant -/

/-- Does a thread hold `m`? -/
def Phase.holdsM : Phase → Bool
  | .idle | .locking => false
  | _ => true

/-- Does a thread hold `resp_mtx`? -/
def Phase.holdsResp : Phase → Bool
  | .ready .. | .sent _ | .resumed _ | .copied .. | .counted .. => true
  | _ => false

/-- Does the reader hold `resp_mtx`? -/
def Reader.holdsResp : Reader → Bool
  | .inside _ | .processed => true
  | _ => false

/-- Has the token been incremented? -/
def Phase.counts : Phase → Nat
  | .counted .. | .released .. => 1
  | _ => 0

/-- The record the reader has not processed. -/
def Reader.pending : Reader → List Record
  | .called r | .inside r => [r]
  | _ => []

/-- The records not processed, oldest first. -/
def State.pending (s : State T) : List Record := s.reader.pending ++ s.output

/-- Those that answer a command. -/
def State.flight (s : State T) : List Record := s.pending.filter (·.origin.isSome)

/-- What the calls have returned. -/
def State.log (s : State T) : List (Nat × Response) := s.returned.map (·.2)

/-- gdb's output grows by a record. -/
theorem mem_pending_append {s : State T} {r x : Record}
    (h : x ∈ s.reader.pending ++ (s.output ++ [r])) : x ∈ s.pending ∨ x = r := by
  rw [← List.append_assoc] at h
  exact (List.mem_append.mp h).imp id List.mem_singleton.mp

theorem flight_append (s : State T) (r : Record) :
    (s.reader.pending ++ (s.output ++ [r])).filter (·.origin.isSome) =
      s.flight ++ [r].filter (·.origin.isSome) := by
  rw [← List.append_assoc, List.filter_append]
  rfl

/-- The token of the command with the number `n`. -/
def tokenOf (n : Nat) : BitVec 32 := BitVec.ofNat 32 (n + 1)

/-- Nothing is under way between the threads and gdb, and of what gdb has produced only `answered`
has not been returned. -/
structure Quiet (s : State T) (answered : List (Nat × Response)) : Prop where
  lines : s.lines = []
  flight : s.flight = []
  produced : s.produced = s.log ++ answered

/-- The command is in gdb's input, or its result is on the way. -/
inductive Sent (s : State T) (k : Nat) : Prop
  | line : s.lines = [(itoa 10 s.gdbif.token.toNat, k)] → s.flight = [] → s.produced = s.log →
      Sent s k
  | record (r : Record) : s.lines = [] → s.flight = [r] → r.token = s.gdbif.token →
      s.produced = s.log ++ [(k, r.response)] → Sent s k

/-- What is under way when the thread that holds `m` is in a phase; `n` calls have returned. -/
def UnderWay (s : State T) (n : Nat) : Phase → Prop
  | .idle | .locking => False
  | .issuing k => k = n ∧ Quiet s []
  | .written k d | .ready k d => k = n ∧ d = itoa 10 s.gdbif.token.toNat ∧ Quiet s []
  | .sent k | .waiting k => k = n ∧ Sent s k
  | .woken k | .resumed k => k = n ∧ ∃ r, s.gdbif.resp = some r ∧ Quiet s [(k, r)]
  | .copied k r | .counted k r | .released k r => k = n ∧ Quiet s [(k, r)]

/-- The call of the thread that holds `m`. -/
structure Owns (s : State T) (t : T) : Prop where
  length : s.calls.length = s.returned.length + 1
  caller : s.calls[s.returned.length]? = some t
  token : s.gdbif.token = tokenOf (s.returned.length + (s.phase t).counts)
  under : UnderWay s s.returned.length (s.phase t)

/-- No thread holds `m`. -/
structure Free (s : State T) : Prop where
  length : s.calls.length = s.returned.length
  token : s.gdbif.token = tokenOf s.returned.length
  quiet : Quiet s []

/-- The invariant: who holds the mutexes, which records are under way, the call that holds `m`, and
the calls that have returned. -/
structure Inv (s : State T) : Prop where
  holdsM : ∀ t, (s.phase t).holdsM = true ↔ s.m = some t
  holdsResp : ∀ t, (s.phase t).holdsResp = true ↔ s.respMtx = some (.thread t)
  reader : s.reader.holdsResp = true ↔ s.respMtx = some .reader
  records : ∀ r ∈ s.pending, r.rclass ∈ responseClasses ∧ (r.origin = none → r.token = 0)
  free : s.m = none → Free s
  owner : ∀ t, s.m = some t → Owns s t
  history : ∀ i, ∀ x : T × Nat × Response, s.returned[i]? = some x →
    x.2.1 = i ∧ s.calls[i]? = some x.1

theorem inv_init : Inv (State.init : State T) where
  holdsM _ := by simp [State.init, Phase.holdsM]
  holdsResp _ := by simp [State.init, Phase.holdsResp]
  reader := by simp [State.init, Reader.holdsResp]
  records := by simp [State.init, State.pending, Reader.pending]
  free _ := ⟨rfl, rfl, rfl, rfl, rfl⟩
  owner _ h := nomatch h
  history _ _ h := by simp [State.init] at h

/-- Before the token wraps it is not 0. -/
theorem Inv.token_ne_zero {s : State T} (h : Inv s) (hbound : s.calls.length < 2 ^ 32 - 1) :
    s.gdbif.token ≠ 0 := by
  have hne : ∀ n ≤ s.calls.length, tokenOf n ≠ 0 := by
    intro n hn heq
    have := congrArg BitVec.toNat heq
    rw [tokenOf, BitVec.toNat_ofNat, show (0 : BitVec 32).toNat = 0 from rfl] at this
    omega
  cases hm : s.m with
  | none =>
      rw [(h.free hm).token]
      exact hne _ (Nat.le_of_eq (h.free hm).length.symm)
  | some t =>
      have howns := h.owner t hm
      rw [howns.token]
      refine hne _ ?_
      have hcounts : (s.phase t).counts ≤ 1 := by
        cases s.phase t <;> simp [Phase.counts]
      have := howns.length
      omega

/-- What is under way does not depend on the phases and the mutexes. -/
theorem Quiet.congr {s s' : State T} {answered : List (Nat × Response)} (h : Quiet s answered)
    (hlines : s'.lines = s.lines) (hflight : s'.flight = s.flight)
    (hproduced : s'.produced = s.produced) (hreturned : s'.returned = s.returned) :
    Quiet s' answered where
  lines := by rw [hlines, h.lines]
  flight := by rw [hflight, h.flight]
  produced := by rw [hproduced, h.produced, State.log, State.log, hreturned]

theorem Sent.congr {s s' : State T} {k : Nat} (h : Sent s k)
    (hlines : s'.lines = s.lines) (hflight : s'.flight = s.flight)
    (hproduced : s'.produced = s.produced) (hreturned : s'.returned = s.returned)
    (htoken : s'.gdbif.token = s.gdbif.token) : Sent s' k := by
  have hlog : s'.log = s.log := by rw [State.log, State.log, hreturned]
  cases h with
  | line h₁ h₂ h₃ =>
      exact .line (by rw [hlines, h₁, htoken]) (by rw [hflight, h₂]) (by rw [hproduced, h₃, hlog])
  | record r h₁ h₂ h₃ h₄ =>
      exact .record r (by rw [hlines, h₁]) (by rw [hflight, h₂]) (by rw [htoken, h₃])
        (by rw [hproduced, h₄, hlog])

theorem UnderWay.congr {s s' : State T} {n : Nat} {p : Phase} (h : UnderWay s n p)
    (hlines : s'.lines = s.lines) (hflight : s'.flight = s.flight)
    (hproduced : s'.produced = s.produced) (hreturned : s'.returned = s.returned)
    (hgdbif : s'.gdbif = s.gdbif) : UnderWay s' n p := by
  have hquiet : ∀ {answered}, Quiet s answered → Quiet s' answered := fun hq =>
    hq.congr hlines hflight hproduced hreturned
  have hsent : ∀ {k}, Sent s k → Sent s' k := fun hs =>
    hs.congr hlines hflight hproduced hreturned (by rw [hgdbif])
  cases p with
  | idle => exact h
  | locking => exact h
  | issuing k => exact ⟨h.1, hquiet h.2⟩
  | written k d => exact ⟨h.1, by rw [hgdbif]; exact h.2.1, hquiet h.2.2⟩
  | ready k d => exact ⟨h.1, by rw [hgdbif]; exact h.2.1, hquiet h.2.2⟩
  | sent k => exact ⟨h.1, hsent h.2⟩
  | waiting k => exact ⟨h.1, hsent h.2⟩
  | woken k =>
      obtain ⟨hk, r, hr, hq⟩ := h
      exact ⟨hk, r, by rw [hgdbif, hr], hquiet hq⟩
  | resumed k =>
      obtain ⟨hk, r, hr, hq⟩ := h
      exact ⟨hk, r, by rw [hgdbif, hr], hquiet hq⟩
  | copied k r => exact ⟨h.1, hquiet h.2⟩
  | counted k r => exact ⟨h.1, hquiet h.2⟩
  | released k r => exact ⟨h.1, hquiet h.2⟩

/-- While a call is neither sent nor waiting nothing is under way. -/
theorem UnderWay.quiet_or_sent {s : State T} {n : Nat} {p : Phase} (h : UnderWay s n p) :
    (∃ answered, Quiet s answered ∧ ∀ x ∈ answered, answered = [x] ∧ x.1 = n) ∨
      (p = .sent n ∨ p = .waiting n) ∧ Sent s n := by
  have hnone : Quiet s [] → ∃ answered, Quiet s answered ∧ ∀ x ∈ answered, answered = [x] ∧ x.1 = n :=
    fun hquiet => ⟨[], hquiet, by simp⟩
  have hone : ∀ {k r}, k = n → Quiet s [(k, r)] →
      ∃ answered, Quiet s answered ∧ ∀ x ∈ answered, answered = [x] ∧ x.1 = n :=
    fun hk hquiet => ⟨_, hquiet, fun x hx => by rw [List.mem_singleton.mp hx]; exact ⟨rfl, hk⟩⟩
  cases p with
  | idle => exact h.elim
  | locking => exact h.elim
  | issuing k => exact Or.inl (hnone h.2)
  | written k d => exact Or.inl (hnone h.2.2)
  | ready k d => exact Or.inl (hnone h.2.2)
  | sent k =>
      obtain ⟨rfl, hsent⟩ := h
      exact Or.inr ⟨Or.inl rfl, hsent⟩
  | waiting k =>
      obtain ⟨rfl, hsent⟩ := h
      exact Or.inr ⟨Or.inr rfl, hsent⟩
  | woken k =>
      obtain ⟨hk, r, -, hquiet⟩ := h
      exact Or.inl (hone hk hquiet)
  | resumed k =>
      obtain ⟨hk, r, -, hquiet⟩ := h
      exact Or.inl (hone hk hquiet)
  | copied k r => exact Or.inl (hone h.1 h.2)
  | counted k r => exact Or.inl (hone h.1 h.2)
  | released k r => exact Or.inl (hone h.1 h.2)

/-- What is under way belongs to the call of the thread that holds `m`. -/
theorem Inv.sent_of_not_quiet {s : State T} (h : Inv s) (hbusy : ∀ answered, ¬ Quiet s answered) :
    ∃ t, s.m = some t ∧
      (s.phase t = .sent s.returned.length ∨ s.phase t = .waiting s.returned.length) ∧
      Sent s s.returned.length := by
  cases hm : s.m with
  | none => exact absurd (h.free hm).quiet (hbusy _)
  | some t =>
      rcases (h.owner t hm).under.quiet_or_sent with ⟨answered, hquiet, -⟩ | ⟨hp, hsent⟩
      · exact absurd hquiet (hbusy _)
      · exact ⟨t, rfl, hp, hsent⟩

/-- The reader has the record that the thread which holds `m` waits for. -/
theorem Inv.answered {s : State T} {r : Record} (h : Inv s) (hreader : s.reader = .inside r)
    (horigin : r.origin ≠ none) :
    ∃ t, s.m = some t ∧ s.phase t = .waiting s.returned.length ∧ s.lines = [] ∧ s.flight = [r] ∧
      r.token = s.gdbif.token ∧ s.produced = s.log ++ [(s.returned.length, r.response)] := by
  have hflight : s.flight = r :: s.output.filter (·.origin.isSome) := by
    rw [State.flight, State.pending, hreader]
    simp [Reader.pending, Option.isSome_iff_ne_none.mpr horigin]
  obtain ⟨t, hm, hp, hsent⟩ := h.sent_of_not_quiet fun answered hquiet => by
    have := hquiet.flight
    rw [hflight] at this
    cases this
  -- a thread that has only sent its command holds `resp_mtx`, as the reader does
  have hp' : s.phase t = .waiting s.returned.length := hp.resolve_left fun hp => by
    have hresp := (h.holdsResp t).mp (by rw [hp]; rfl)
    rw [h.reader.mp (by rw [hreader]; rfl)] at hresp
    cases hresp
  cases hsent with
  | line _ hf _ =>
      rw [hflight] at hf
      cases hf
  | record r' hl hf ht hprod =>
      have hrr : r = r' := by
        rw [hflight] at hf
        exact (List.cons.inj hf).1
      subst hrr
      exact ⟨t, hm, hp', hl, hf, ht, hprod⟩

/-- A step in which no thread moves and the records under way stay the same. -/
theorem Inv.reads {s s' : State T} (h : Inv s) (hphase : s'.phase = s.phase) (hm : s'.m = s.m)
    (hresp : ∀ t, s'.respMtx = some (.thread t) ↔ s.respMtx = some (.thread t))
    (hreader : s'.reader.holdsResp = true ↔ s'.respMtx = some .reader)
    (hrecords : ∀ r ∈ s'.pending, r.rclass ∈ responseClasses ∧ (r.origin = none → r.token = 0))
    (hflight : s'.flight = s.flight) (hlines : s'.lines = s.lines)
    (hproduced : s'.produced = s.produced) (hreturned : s'.returned = s.returned)
    (hcalls : s'.calls = s.calls) (hgdbif : s'.gdbif = s.gdbif) : Inv s' where
  holdsM t := by rw [hphase, hm, h.holdsM]
  holdsResp t := by rw [hphase, hresp, h.holdsResp]
  reader := hreader
  records := hrecords
  free hnone := by
    have hfree := h.free (hm ▸ hnone)
    exact ⟨by rw [hcalls, hreturned, hfree.length], by rw [hgdbif, hreturned, hfree.token],
      hfree.quiet.congr hlines hflight hproduced hreturned⟩
  owner t ht := by
    have howns := h.owner t (hm ▸ ht)
    exact ⟨by rw [hcalls, hreturned, howns.length], by rw [hcalls, hreturned, howns.caller],
      by rw [hgdbif, hreturned, hphase, howns.token],
      by rw [hreturned, hphase]; exact howns.under.congr hlines hflight hproduced hreturned hgdbif⟩
  history := by
    rw [hreturned, hcalls]
    exact h.history

/-- A record without a command is discarded. -/
theorem Inv.not_accepted {s : State T} {r : Record} (h : Inv s)
    (hbound : s.calls.length < 2 ^ 32 - 1) (hmem : r ∈ s.pending) (horigin : r.origin = none) :
    accepts s.gdbif.token r.rclass r.token = false := by
  obtain ⟨hclass, htoken⟩ := h.records r hmem
  rw [htoken horigin, accepts]
  have hne := h.token_ne_zero hbound
  have hexit : r.rclass ≠ .exit := by
    intro heq
    rw [heq] at hclass
    exact absurd hclass (by decide)
  rw [bne_iff_ne.mpr hne, bne_iff_ne.mpr hexit]
  rfl

/-! ## Steps of a thread -/

/-- What a thread does with `resp_mtx` between two phases: it takes it when it is free, gives it
back, or leaves it alone. -/
def respAfter (s : State T) (t : T) (p p' : Phase) : Option (Owner T) :=
  if p.holdsResp = p'.holdsResp then s.respMtx
  else if p'.holdsResp then some (.thread t) else none

theorem respAfter_self {s : State T} {t : T} {p p' : Phase}
    (hp : p.holdsResp = true ↔ s.respMtx = some (.thread t)) :
    p'.holdsResp = true ↔ respAfter s t p p' = some (.thread t) := by
  rw [respAfter]
  split_ifs with h₁ h₂
  · rw [← h₁, hp]
  · simp [h₂]
  · simp [h₂]

theorem respAfter_other {s : State T} {t : T} {p p' : Phase} {o : Owner T} (ho : o ≠ .thread t)
    (hp : p.holdsResp = true ↔ s.respMtx = some (.thread t))
    (hfree : p'.holdsResp = true → p.holdsResp = true ∨ s.respMtx = none) :
    s.respMtx = some o ↔ respAfter s t p p' = some o := by
  rw [respAfter]
  split_ifs with h₁ h₂
  · rfl
  · rcases hfree h₂ with h | h
    · exact absurd (h.trans h₂.symm) h₁
    · simp [h, Ne.symm ho]
  · have hheld : p.holdsResp = true := by
      cases hp : p.holdsResp
      · simp_all
      · rfl
    simp [hp.mp hheld, Ne.symm ho]

end

section
variable {T : Type} [DecidableEq T]

/-- A step of the thread that holds `m`. -/
theorem Inv.thread {s s' : State T} {t : T} {p p' : Phase} (h : Inv s) (hp : s.phase t = p)
    (hphase : s'.phase = Function.update s.phase t p') (hm : s'.m = s.m)
    (hholds : p.holdsM = true) (hholds' : p'.holdsM = true)
    (hresp : s'.respMtx = respAfter s t p p')
    (hfree : p'.holdsResp = true → p.holdsResp = true ∨ s.respMtx = none)
    (hreader : s'.reader = s.reader) (houtput : s'.output = s.output) (hcalls : s'.calls = s.calls)
    (hreturned : s'.returned = s.returned)
    (htoken : s.gdbif.token = tokenOf (s.returned.length + p.counts) →
      s'.gdbif.token = tokenOf (s.returned.length + p'.counts))
    (hunder : UnderWay s s.returned.length p → UnderWay s' s.returned.length p') : Inv s' := by
  have hmt : s.m = some t := (h.holdsM t).mp (by rw [hp, hholds])
  have howns := h.owner t hmt
  have hself : s'.phase t = p' := by rw [hphase, Function.update_self]
  have hother : ∀ u, u ≠ t → s'.phase u = s.phase u := fun u hu => by
    rw [hphase, Function.update_of_ne hu]
  have hpending : s'.pending = s.pending := by rw [State.pending, State.pending, hreader, houtput]
  have hpresp := h.holdsResp t
  rw [hp] at hpresp
  exact {
    holdsM := fun u => by
      rw [hm]
      by_cases hu : u = t
      · subst hu
        simp [hself, hholds', hmt]
      · rw [hother u hu, h.holdsM u]
    holdsResp := fun u => by
      rw [hresp]
      by_cases hu : u = t
      · subst hu
        rw [hself]
        exact respAfter_self hpresp
      · rw [hother u hu, h.holdsResp u]
        exact respAfter_other (fun heq => hu (Owner.thread.inj heq)) hpresp hfree
    reader := by
      rw [hreader, hresp, h.reader]
      exact respAfter_other (by simp) hpresp hfree
    records := by
      rw [hpending]
      exact h.records
    free := fun hnone => by
      rw [hm, hmt] at hnone
      cases hnone
    owner := fun u hu => by
      rw [hm, hmt] at hu
      cases hu
      constructor
      · rw [hcalls, hreturned]
        exact howns.length
      · rw [hcalls, hreturned]
        exact howns.caller
      · rw [hself, hreturned]
        exact htoken (hp ▸ howns.token)
      · rw [hself, hreturned]
        exact hunder (hp ▸ howns.under)
    history := by
      rw [hreturned, hcalls]
      exact h.history }

/-- A thread takes or gives back `m` without `resp_mtx`, or begins to want it. -/
theorem Inv.outside {s s' : State T} {t : T} {p p' : Phase} (h : Inv s) (hp : s.phase t = p)
    (hphase : s'.phase = Function.update s.phase t p')
    (hnoresp : p.holdsResp = false) (hnoresp' : p'.holdsResp = false)
    (hm : ∀ u, s'.m = some u ↔ u = t ∧ p'.holdsM = true ∨ u ≠ t ∧ s.m = some u)
    (hresp : s'.respMtx = s.respMtx) (hreader : s'.reader = s.reader)
    (houtput : s'.output = s.output) (hfree : s'.m = none → Free s')
    (howner : ∀ u, s'.m = some u → Owns s' u)
    (hhistory : ∀ i, ∀ x : T × Nat × Response, s'.returned[i]? = some x →
      x.2.1 = i ∧ s'.calls[i]? = some x.1) : Inv s' where
  holdsM u := by
    rw [hm, hphase]
    by_cases hu : u = t
    · subst hu
      simp
    · simp [hu, h.holdsM u]
  holdsResp u := by
    rw [hresp, ← h.holdsResp, hphase]
    by_cases hu : u = t
    · subst hu
      simp [hp, hnoresp, hnoresp']
    · rw [Function.update_of_ne hu]
  reader := by rw [hreader, hresp, h.reader]
  records := by
    have hpending : s'.pending = s.pending := by rw [State.pending, State.pending, hreader, houtput]
    rw [hpending]
    exact h.records
  free := hfree
  owner := howner
  history := hhistory

theorem Inv.call {s : State T} {t : T} (h : Inv s) (hp : s.phase t = .idle) :
    Inv (s.move t .locking) := by
  have hnot : s.m ≠ some t := fun hm => by
    have := (h.holdsM t).mpr hm
    rw [hp] at this
    cases this
  refine h.outside hp rfl rfl rfl (fun u => ?_) rfl rfl rfl (fun hm => ?_) (fun u hm => ?_) h.history
  · constructor
    · intro hm
      exact Or.inr ⟨fun hu => hnot (hu ▸ hm), hm⟩
    · rintro (⟨-, hf⟩ | ⟨-, hm⟩)
      · cases hf
      · exact hm
  · have hfree := h.free hm
    exact ⟨hfree.length, hfree.token, hfree.quiet.congr rfl rfl rfl rfl⟩
  · have howns := h.owner u hm
    have hu : u ≠ t := fun hu => hnot (hu ▸ hm)
    have hphase : (s.move t .locking).phase u = s.phase u := Function.update_of_ne hu _ _
    exact ⟨howns.length, howns.caller, by rw [hphase]; exact howns.token,
      by rw [hphase]; exact howns.under.congr rfl rfl rfl rfl rfl⟩

theorem Inv.lock {s : State T} {t : T} (h : Inv s) (hp : s.phase t = .locking) (hm : s.m = none) :
    Inv { s.move t (.issuing s.calls.length) with m := some t, calls := s.calls ++ [t] } := by
  have hfree := h.free hm
  refine h.outside hp rfl rfl rfl (fun u => ?_) rfl rfl rfl nofun (fun u hu => ?_) fun i x hx => ?_
  · simp [hm, Phase.holdsM, eq_comm]
  · obtain rfl := Option.some.inj hu
    exact {
      length := by
        rw [List.length_append, hfree.length]
        rfl
      caller := by
        show (s.calls ++ [t])[s.returned.length]? = some t
        simp [← hfree.length]
      token := by
        rw [show (State.move s t _).phase t = _ from Function.update_self ..]
        exact hfree.token
      under := by
        rw [show (State.move s t _).phase t = _ from Function.update_self ..]
        exact ⟨hfree.length, hfree.quiet.congr rfl rfl rfl rfl⟩ }
  · obtain ⟨hi, hcall⟩ := h.history i x hx
    refine ⟨hi, ?_⟩
    rw [List.getElem?_append_left (List.getElem?_eq_some_iff.mp hcall).1]
    exact hcall

theorem Inv.unlock {s : State T} {t : T} {k : Nat} {r : Response} (h : Inv s)
    (hp : s.phase t = .released k r) :
    Inv { s.move t .idle with m := none, returned := s.returned ++ [(t, k, r)] } := by
  have hmt : s.m = some t := (h.holdsM t).mp (by rw [hp]; rfl)
  have howns := h.owner t hmt
  have htoken := howns.token
  have hunder := howns.under
  rw [hp] at htoken hunder
  obtain ⟨rfl, hquiet⟩ := hunder
  refine h.outside hp rfl rfl rfl (fun u => ?_) rfl rfl rfl (fun _ => ?_) nofun fun i x hx => ?_
  · simp [hmt, Phase.holdsM, eq_comm]
  · exact {
      length := by
        rw [List.length_append]
        exact howns.length
      token := by
        rw [List.length_append]
        exact htoken
      quiet := {
        lines := hquiet.lines
        flight := hquiet.flight
        produced := by
          rw [List.append_nil, State.log, List.map_append]
          exact hquiet.produced } }
  · by_cases hi : i < s.returned.length
    · rw [List.getElem?_append_left hi] at hx
      exact h.history i x hx
    · have hlast : i = s.returned.length := by
        have := (List.getElem?_eq_some_iff.mp hx).1
        rw [List.length_append, List.length_singleton] at this
        omega
      subst hlast
      obtain rfl : (t, s.returned.length, r) = x := by simpa using hx
      exact ⟨rfl, howns.caller⟩

/-- The steps of a call keep the invariant. -/
theorem Inv.threadStep {s s' : State T} {t : T} (h : Inv s) (hstep : Step s (.thread t) s') :
    Inv s' := by
  cases hstep with
  | lock hp hm => exact h.lock hp hm
  | write hp =>
      exact h.thread hp rfl rfl rfl rfl rfl nofun rfl rfl rfl rfl id fun hu =>
        ⟨hu.1, rfl, hu.2.congr rfl rfl rfl rfl⟩
  | lockResp hp hfree =>
      exact h.thread hp rfl rfl rfl rfl rfl (fun _ => Or.inr hfree) rfl rfl rfl rfl id fun hu =>
        ⟨hu.1, hu.2.1, hu.2.2.congr rfl rfl rfl rfl⟩
  | newline hp =>
      refine h.thread hp rfl rfl rfl rfl rfl (fun _ => Or.inl rfl) rfl rfl rfl rfl id fun hu => ?_
      obtain ⟨rfl, rfl, hquiet⟩ := hu
      refine ⟨rfl, .line ?_ hquiet.flight ?_⟩
      · rw [hquiet.lines]
        rfl
      · exact hquiet.produced.trans (List.append_nil _)
  | wait hp =>
      exact h.thread hp rfl rfl rfl rfl rfl nofun rfl rfl rfl rfl id fun hu =>
        ⟨hu.1, hu.2.congr rfl rfl rfl rfl rfl⟩
  | relock hp hfree =>
      exact h.thread hp rfl rfl rfl rfl rfl (fun _ => Or.inr hfree) rfl rfl rfl rfl id fun hu =>
        UnderWay.congr (p := .resumed _) hu rfl rfl rfl rfl rfl
  | copy hp hr =>
      refine h.thread hp rfl rfl rfl rfl rfl (fun _ => Or.inl rfl) rfl rfl rfl rfl id fun hu => ?_
      obtain ⟨hk, r', hr', hquiet⟩ := hu
      obtain rfl := Option.some.inj (hr'.symm.trans hr)
      exact ⟨hk, hquiet.congr rfl rfl rfl rfl⟩
  | count hp =>
      refine h.thread hp rfl rfl rfl rfl rfl (fun _ => Or.inl rfl) rfl rfl rfl rfl (fun ht => ?_)
        fun hu => ⟨hu.1, hu.2.congr rfl rfl rfl rfl⟩
      exact (congrArg (· + 1) ht).trans (BitVec.ofNat_add ..).symm
  | unlockResp hp =>
      exact h.thread hp rfl rfl rfl rfl rfl nofun rfl rfl rfl rfl id fun hu =>
        ⟨hu.1, hu.2.congr rfl rfl rfl rfl⟩
  | unlock hp => exact h.unlock hp

/-! ## Steps of the reader and of gdb -/

/-- The reader stores the record and wakes the thread. -/
theorem Inv.store {s s' : State T} {r : Record} (h : Inv s) (hbound : s.calls.length < 2 ^ 32 - 1)
    (hreader : s.reader = .inside r) (haccepts : accepts s.gdbif.token r.rclass r.token = true)
    (hsignal : Signal s s') :
    Inv { s' with
      reader := .processed
      gdbif := s.gdbif.miProcResult r.rclass r.token r.result } := by
  have hmem : r ∈ s.pending := by
    rw [State.pending, hreader]
    exact List.mem_cons_self
  have horigin : r.origin ≠ none := fun hnone => by
    rw [h.not_accepted hbound hmem hnone] at haccepts
    cases haccepts
  obtain ⟨t, hm, hp, hlines, hflight, htoken, hproduced⟩ := h.answered hreader horigin
  have hresp : s.respMtx = some .reader := h.reader.mp (by rw [hreader]; rfl)
  cases hsignal with
  | lost hnone => exact absurd hp (hnone t _)
  | @wake u k hu =>
      have hut : u = t := by
        have := (h.holdsM u).mp (by rw [hu]; rfl)
        rw [hm] at this
        exact (Option.some.inj this).symm
      subst hut
      obtain rfl : s.returned.length = k := by
        rw [hp] at hu
        injection hu
      have howns := h.owner u hm
      have hself : (s.move u (.woken s.returned.length)).phase u = .woken s.returned.length :=
        Function.update_self ..
      have hother : ∀ v, v ≠ u → (s.move u (.woken s.returned.length)).phase v = s.phase v :=
        fun v hv => Function.update_of_ne hv ..
      have hgdbif : s.gdbif.miProcResult r.rclass r.token r.result =
          { s.gdbif with resp := some r.response, signals := s.gdbif.signals + 1 } := if_pos haccepts
      have hout : s.output.filter (·.origin.isSome) = [] := by
        rw [State.flight, State.pending, hreader] at hflight
        simpa [Reader.pending, Option.isSome_iff_ne_none.mpr horigin] using hflight
      exact {
        holdsM := fun v => by
          by_cases hv : v = u
          · subst hv
            rw [hself]
            simp [State.move, hm, Phase.holdsM]
          · rw [hother v hv]
            exact h.holdsM v
        holdsResp := fun v => by
          by_cases hv : v = u
          · subst hv
            rw [hself]
            simp [State.move, hresp, Phase.holdsResp]
          · rw [hother v hv]
            exact h.holdsResp v
        reader := by simp [State.move, hresp, Reader.holdsResp]
        records := fun r' hr' => h.records r' (by
          rw [State.pending, hreader]
          exact List.mem_cons_of_mem _ hr')
        free := fun hnone => by
          rw [show (State.move s u _).m = s.m from rfl, hm] at hnone
          cases hnone
        owner := fun v hv => by
          obtain rfl : u = v := Option.some.inj (hm.symm.trans hv)
          exact {
            length := howns.length
            caller := howns.caller
            token := by
              rw [hself, hgdbif]
              have := howns.token
              rwa [hp] at this
            under := by
              rw [hself]
              exact ⟨rfl, r.response, by rw [hgdbif], hlines, hout, hproduced⟩ }
        history := h.history }

theorem Inv.readerStep {s s' : State T} (h : Inv s) (hbound : s.calls.length < 2 ^ 32 - 1)
    (hstep : Step s .reader s') : Inv s' := by
  cases hstep with
  | @read r out hreader houtput =>
      have hpending : State.pending { s with reader := .called r, output := out } = s.pending := by
        rw [State.pending, State.pending, hreader, houtput]
        rfl
      have hresp := h.reader
      rw [hreader] at hresp
      refine h.reads rfl rfl (fun _ => Iff.rfl) hresp ?_ ?_ rfl rfl rfl rfl rfl
      · rw [hpending]
        exact h.records
      · rw [State.flight, hpending, State.flight]
  | @lockReader r hreader hfree =>
      have hpending : State.pending { s with reader := .inside r, respMtx := some .reader } =
          s.pending := by
        rw [State.pending, State.pending, hreader]
        rfl
      refine h.reads rfl rfl (fun t => ?_) (by simp [Reader.holdsResp]) ?_ ?_ rfl rfl rfl rfl rfl
      · simp [hfree]
      · rw [hpending]
        exact h.records
      · rw [State.flight, hpending, State.flight]
  | store hreader haccepts hsignal => exact h.store hbound hreader haccepts hsignal
  | @discard r hreader haccepts =>
      have hpending : s.pending = r :: s.output := by
        rw [State.pending, hreader]
        rfl
      -- the record that a call waits for is accepted
      have horigin : r.origin = none := by
        by_contra hsome
        obtain ⟨t, -, -, -, -, htoken, -⟩ := h.answered hreader hsome
        rw [htoken, accepts, bne_self_eq_false] at haccepts
        cases haccepts
      have hresp : s.respMtx = some .reader := h.reader.mp (by rw [hreader]; rfl)
      refine h.reads rfl rfl (fun _ => Iff.rfl) (by simp [Reader.holdsResp, hresp])
        (fun r' hr' => h.records r' ?_) ?_ rfl rfl rfl rfl rfl
      · rw [hpending]
        exact List.mem_cons_of_mem _ hr'
      · rw [State.flight, State.flight, hpending, List.filter_cons_of_neg (by simp [horigin])]
        rfl
  | unlockReader hreader =>
      have hresp : s.respMtx = some .reader := h.reader.mp (by rw [hreader]; rfl)
      have hpending : State.pending { s with reader := .idle, respMtx := none } = s.pending := by
        rw [State.pending, State.pending, hreader]
        rfl
      refine h.reads rfl rfl (fun t => ?_) (by simp [Reader.holdsResp]) ?_ ?_ rfl rfl rfl rfl rfl
      · simp [hresp]
      · rw [hpending]
        exact h.records
      · rw [State.flight, hpending, State.flight]

theorem Inv.direct {s s' : State T} (h : Inv s) (hstep : Step s .direct s') : Inv s' := by
  cases hstep with
  | @direct rclass result hclass =>
      refine h.reads rfl rfl (fun _ => Iff.rfl) h.reader (fun r hr => ?_) ?_ rfl rfl rfl rfl rfl
      · rcases mem_pending_append (s := s) hr with hr | rfl
        · exact h.records r hr
        · exact ⟨hclass, fun _ => rfl⟩
      · exact (flight_append s _).trans (List.append_nil _)

/-- gdb answers the command that is on its way. -/
theorem Inv.answer {s s' : State T} (h : Inv s) (hstep : Step s .answer s') : Inv s' := by
  cases hstep with
  | @answer d k ls rclass result hlines hclass =>
      obtain ⟨t, hm, hp, hsent⟩ := h.sent_of_not_quiet fun answered hquiet => by
        have := hquiet.lines
        rw [hlines] at this
        cases this
      cases hsent with
      | record r hl _ _ _ =>
          rw [hlines] at hl
          cases hl
      | line hl hf hprod =>
          rw [hlines] at hl
          obtain ⟨hpair, rfl⟩ := List.cons.inj hl
          obtain ⟨rfl, rfl⟩ := Prod.mk.inj hpair
          have howns := h.owner t hm
          have hsent' : Sent { s with
              lines := []
              output := s.output ++ [⟨rclass, itoa 10 s.gdbif.token.toNat, result,
                some s.returned.length⟩]
              produced := s.produced ++ [(s.returned.length, ⟨rclass, result⟩)] }
              s.returned.length := by
            refine .record ⟨rclass, itoa 10 s.gdbif.token.toNat, result, some s.returned.length⟩ rfl ?_
              (token_itoa ..) (by rw [hprod]; rfl)
            exact (flight_append s _).trans (by rw [hf]; rfl)
          exact {
            holdsM := h.holdsM
            holdsResp := h.holdsResp
            reader := h.reader
            records := fun r hr => by
              rcases mem_pending_append (s := s) hr with hr | rfl
              · exact h.records r hr
              · exact ⟨hclass, nofun⟩
            free := fun hnone => by
              rw [hm] at hnone
              cases hnone
            owner := fun u hu => by
              obtain rfl : t = u := Option.some.inj (hm.symm.trans hu)
              refine ⟨howns.length, howns.caller, howns.token, ?_⟩
              rcases hp with hp | hp
              · rw [hp]
                exact ⟨rfl, hsent'⟩
              · rw [hp]
                exact ⟨rfl, hsent'⟩
            history := h.history }

/-- Every step keeps the invariant. -/
theorem Inv.step {s s' : State T} {e : Event T} (h : Inv s) (hbound : s.calls.length < 2 ^ 32 - 1)
    (hstep : Step s e s') : Inv s' := by
  cases e with
  | call t =>
      cases hstep with
      | call hp => exact h.call hp
  | direct => exact h.direct hstep
  | thread t => exact h.threadStep hstep
  | reader => exact h.readerStep hbound hstep
  | answer => exact h.answer hstep

/-! ## Results -/

/-- What the calls have returned: each call only once, to the thread that made it, and the result
that gdb has produced, once, for its command. -/
structure Correct (s : State T) : Prop where
  own : ∀ x ∈ s.returned, s.calls[x.2.1]? = some x.1 ∧ x.2 ∈ s.produced
  once : (s.returned.map (·.2.1)).Nodup
  producedOnce : (s.produced.map (·.1)).Nodup

/-- All calls have returned, with everything gdb has produced for them. -/
structure Complete (s : State T) : Prop where
  idle : ∀ t, s.phase t = .idle
  returned : s.returned.length = s.calls.length
  results : s.log = s.produced

omit [DecidableEq T] in
theorem Inv.returned_eq_range {s : State T} (h : Inv s) :
    s.returned.map (·.2.1) = List.range s.returned.length := by
  refine List.ext_getElem (by simp) fun i hi _ => ?_
  rw [List.getElem_map, List.getElem_range]
  rw [List.length_map] at hi
  exact (h.history i _ (List.getElem?_eq_getElem hi)).1

omit [DecidableEq T] in
/-- gdb has produced what was returned, and possibly the result of the next command. -/
theorem Inv.produced_eq {s : State T} (h : Inv s) :
    ∃ answered, s.produced = s.log ++ answered ∧
      ∀ x ∈ answered, answered = [x] ∧ x.1 = s.returned.length := by
  cases hm : s.m with
  | none => exact ⟨[], (h.free hm).quiet.produced, by simp⟩
  | some t =>
      rcases (h.owner t hm).under.quiet_or_sent with ⟨answered, hquiet, honly⟩ | ⟨-, hsent⟩
      · exact ⟨answered, hquiet.produced, honly⟩
      · cases hsent with
        | line _ _ hprod => exact ⟨[], by rw [hprod, List.append_nil], by simp⟩
        | record r _ _ _ hprod =>
            exact ⟨_, hprod, fun x hx => by rw [List.mem_singleton.mp hx]; exact ⟨rfl, rfl⟩⟩

omit [DecidableEq T] in
theorem Inv.correct {s : State T} (h : Inv s) : Correct s := by
  obtain ⟨answered, hprod, honly⟩ := h.produced_eq
  have hrange := h.returned_eq_range
  refine ⟨fun x hx => ?_, ?_, ?_⟩
  · obtain ⟨i, hi, rfl⟩ := List.mem_iff_getElem.mp hx
    obtain ⟨hnum, hcall⟩ := h.history i _ (List.getElem?_eq_getElem hi)
    refine ⟨by rw [hnum]; exact hcall, ?_⟩
    rw [hprod]
    exact List.mem_append_left _ (List.mem_map_of_mem hx)
  · rw [hrange]
    exact List.nodup_range
  · have hlog : s.log.map (·.1) = List.range s.returned.length := by
      rw [State.log, List.map_map]
      exact hrange
    rw [hprod, List.map_append, hlog]
    cases answered with
    | nil => simpa using List.nodup_range
    | cons x answered =>
        obtain ⟨hx, hnum⟩ := honly x List.mem_cons_self
        rw [hx, List.map_singleton, hnum, ← List.range_succ]
        exact List.nodup_range

/-! ## Progress -/

/-- The steps of calls already made and of gdb's answers to them. -/
def Event.internal : Event T → Bool
  | .call _ | .direct => false
  | _ => true

/-- A step in which no call is made and no result without a command appears. -/
def InternalStep (s : State T) (e : Event T) (s' : State T) : Prop :=
  Step s e s' ∧ e.internal = true

/-- The thread that holds `resp_mtx` can go on. -/
theorem Inv.respMtx_eq_none {s : State T} (h : Inv s) (hstuck : ∀ e s', ¬ InternalStep s e s') :
    s.respMtx = none := by
  cases hresp : s.respMtx with
  | none => rfl
  | some o =>
      refine absurd ?_ (not_exists.mpr fun e => not_exists.mpr (hstuck e))
      cases o with
      | thread t =>
          have hheld := (h.holdsResp t).mpr hresp
          cases hp : s.phase t with
          | ready k d => exact ⟨_, _, .newline hp, rfl⟩
          | sent k => exact ⟨_, _, .wait hp, rfl⟩
          | resumed k =>
              have hunder := (h.owner t ((h.holdsM t).mp (by rw [hp]; rfl))).under
              rw [hp] at hunder
              obtain ⟨-, r, hr, -⟩ := hunder
              exact ⟨_, _, .copy hp hr, rfl⟩
          | copied k r => exact ⟨_, _, .count hp, rfl⟩
          | counted k r => exact ⟨_, _, .unlockResp hp, rfl⟩
          | _ => rw [hp] at hheld; cases hheld
      | reader =>
          have hheld := h.reader.mpr hresp
          cases hreader : s.reader with
          | inside r =>
              cases haccepts : accepts s.gdbif.token r.rclass r.token with
              | false => exact ⟨_, _, .discard hreader haccepts, rfl⟩
              | true =>
                  by_cases hwaiting : ∃ t k, s.phase t = .waiting k
                  · obtain ⟨t, k, hp⟩ := hwaiting
                    exact ⟨_, _, .store hreader haccepts (.wake hp), rfl⟩
                  · push Not at hwaiting
                    exact ⟨_, _, .store hreader haccepts (.lost hwaiting), rfl⟩
          | processed => exact ⟨_, _, .unlockReader hreader, rfl⟩
          | _ => rw [hreader] at hheld; cases hheld

/-- When no step is left, no record and no command is under way. -/
theorem Inv.nothing_pending {s : State T} (h : Inv s) (hstuck : ∀ e s', ¬ InternalStep s e s') :
    s.pending = [] ∧ s.lines = [] := by
  have hresp := h.respMtx_eq_none hstuck
  have hreader : s.reader = .idle := by
    cases hreader : s.reader with
    | idle => rfl
    | called r => exact absurd ⟨.lockReader hreader hresp, rfl⟩ (hstuck _ _)
    | inside r =>
        have := h.reader.mp (by rw [hreader]; rfl)
        rw [hresp] at this
        cases this
    | processed => exact absurd ⟨.unlockReader hreader, rfl⟩ (hstuck _ _)
  have houtput : s.output = [] := by
    cases houtput : s.output with
    | nil => rfl
    | cons r out => exact absurd ⟨.read hreader houtput, rfl⟩ (hstuck _ _)
  constructor
  · rw [State.pending, hreader, houtput]
    rfl
  · cases hlines : s.lines with
    | nil => rfl
    | cons l ls =>
        exact absurd ⟨@Step.answer _ _ _ _ _ _ .done none hlines (by decide), rfl⟩ (hstuck _ _)

/-- When no step is left, no thread holds `m`. -/
theorem Inv.m_eq_none {s : State T} (h : Inv s) (hstuck : ∀ e s', ¬ InternalStep s e s') :
    s.m = none := by
  have hresp := h.respMtx_eq_none hstuck
  obtain ⟨hpending, hlines⟩ := h.nothing_pending hstuck
  cases hm : s.m with
  | none => rfl
  | some t =>
      have hunder := (h.owner t hm).under
      have hheld := (h.holdsM t).mpr hm
      have hnot : (s.phase t).holdsResp ≠ true := fun hr => by
        have := (h.holdsResp t).mp hr
        rw [hresp] at this
        cases this
      cases hp : s.phase t with
      | issuing k => exact absurd ⟨.write hp, rfl⟩ (hstuck _ _)
      | written k d => exact absurd ⟨.lockResp hp hresp, rfl⟩ (hstuck _ _)
      | waiting k =>
          rw [hp] at hunder
          cases hunder.2 with
          | line hl _ _ =>
              rw [hlines] at hl
              cases hl
          | record r _ hf _ _ =>
              rw [State.flight, hpending] at hf
              cases hf
      | woken k => exact absurd ⟨.relock hp hresp, rfl⟩ (hstuck _ _)
      | released k r => exact absurd ⟨.unlock hp, rfl⟩ (hstuck _ _)
      | idle => rw [hp] at hheld; cases hheld
      | locking => rw [hp] at hheld; cases hheld
      | _ => exact absurd (by rw [hp]; rfl) hnot

/-- When no step is left, all calls have returned. -/
theorem Inv.complete {s : State T} (h : Inv s) (hstuck : ∀ e s', ¬ InternalStep s e s') :
    Complete s := by
  have hm := h.m_eq_none hstuck
  have hfree := h.free hm
  refine ⟨fun t => ?_, hfree.length.symm, ?_⟩
  · have hnot : (s.phase t).holdsM ≠ true := fun hheld => by
      have := (h.holdsM t).mp hheld
      rw [hm] at this
      cases this
    cases hp : s.phase t with
    | idle => rfl
    | locking => exact absurd ⟨.lock hp hm, rfl⟩ (hstuck _ _)
    | _ => exact absurd (by rw [hp]; rfl) hnot
  · rw [hfree.quiet.produced, List.append_nil]

/-- How many steps a thread may take before its call returns, counting the steps of the reader and of
gdb that its command causes. -/
def Phase.work : Phase → Nat
  | .idle => 0
  | .locking => 17
  | .issuing _ => 16
  | .written .. => 15
  | .ready .. => 14
  | .sent _ => 8
  | .waiting _ => 7
  | .woken _ => 6
  | .resumed _ => 5
  | .copied .. => 4
  | .counted .. => 3
  | .released .. => 2

/-- How many steps the reader may take with its record. -/
def Reader.work : Reader → Nat
  | .idle => 0
  | .called _ => 3
  | .inside _ => 2
  | .processed => 1

/-- The part of the bound that does not depend on the threads. -/
def State.rest (s : State T) : Nat := s.reader.work + 5 * s.lines.length + 4 * s.output.length

/-- A bound for the internal steps. -/
def State.work [Fintype T] (s : State T) : Nat := ∑ t, (s.phase t).work + s.rest

theorem work_lt_of_move [Fintype T] {s s' : State T} {t : T} {p p' : Phase} (hp : s.phase t = p)
    (hphase : s'.phase = Function.update s.phase t p')
    (hlt : p'.work + s'.rest < p.work + s.rest) : s'.work < s.work := by
  have hsum := sum_update_add Phase.work s.phase t p'
  rw [← hphase, hp] at hsum
  unfold State.work
  omega

omit [DecidableEq T] in
theorem work_lt_of_rest [Fintype T] {s s' : State T} (hphase : s'.phase = s.phase)
    (hlt : s'.rest < s.rest) : s'.work < s.work := by
  rw [State.work, State.work, hphase]
  omega

/-- Every internal step lowers the bound. -/
theorem InternalStep.work_lt [Fintype T] {s s' : State T} {e : Event T}
    (h : InternalStep s e s') : s'.work < s.work := by
  obtain ⟨hstep, hinternal⟩ := h
  cases hstep with
  | call _ => cases hinternal
  | direct _ => cases hinternal
  | lock hp _ => exact work_lt_of_move hp rfl (Nat.add_lt_add_right (by simp [Phase.work]) _)
  | write hp => exact work_lt_of_move hp rfl (Nat.add_lt_add_right (by simp [Phase.work]) _)
  | lockResp hp _ => exact work_lt_of_move hp rfl (Nat.add_lt_add_right (by simp [Phase.work]) _)
  | newline hp =>
      refine work_lt_of_move hp rfl ?_
      simp only [Phase.work, State.rest, State.move, List.length_append, List.length_singleton]
      omega
  | wait hp => exact work_lt_of_move hp rfl (Nat.add_lt_add_right (by simp [Phase.work]) _)
  | relock hp _ => exact work_lt_of_move hp rfl (Nat.add_lt_add_right (by simp [Phase.work]) _)
  | copy hp _ => exact work_lt_of_move hp rfl (Nat.add_lt_add_right (by simp [Phase.work]) _)
  | count hp => exact work_lt_of_move hp rfl (Nat.add_lt_add_right (by simp [Phase.work]) _)
  | unlockResp hp => exact work_lt_of_move hp rfl (Nat.add_lt_add_right (by simp [Phase.work]) _)
  | unlock hp => exact work_lt_of_move hp rfl (Nat.add_lt_add_right (by simp [Phase.work]) _)
  | read hreader houtput =>
      refine work_lt_of_rest rfl ?_
      simp only [State.rest, hreader, houtput, Reader.work, List.length_cons]
      omega
  | lockReader hreader _ =>
      refine work_lt_of_rest rfl ?_
      simp only [State.rest, hreader, Reader.work]
      omega
  | store hreader _ hsignal =>
      cases hsignal with
      | wake hp =>
          refine work_lt_of_move hp rfl ?_
          simp only [State.rest, State.move, hreader, Phase.work, Reader.work]
          omega
      | lost _ =>
          refine work_lt_of_rest rfl ?_
          simp only [State.rest, hreader, Reader.work]
          omega
  | discard hreader _ =>
      refine work_lt_of_rest rfl ?_
      simp only [State.rest, hreader, Reader.work]
      omega
  | unlockReader hreader =>
      refine work_lt_of_rest rfl ?_
      simp only [State.rest, hreader, Reader.work]
      omega
  | answer hlines _ =>
      refine work_lt_of_rest rfl ?_
      simp only [State.rest, hlines, List.length_cons, List.length_append, List.length_nil]
      omega

/-- Every call returns, to the thread that made it, the result gdb produced for its command, and
nothing else; with all threads taking steps it returns after a bounded number of them. -/
theorem calls_return_results [Fintype T] {s : State T} (h : Reachable Step (· = State.init) s)
    (hbound : s.calls.length < 2 ^ 32 - 1) :
    Correct s ∧ (∀ es s', Run InternalStep s es s' → es.length ≤ s.work) ∧
      ((∀ e s', ¬ InternalStep s e s') → Complete s) := by
  have hcalls : ∀ {s s' : State T} {e}, Step s e s' → s.calls.length ≤ s'.calls.length := by
    intro s s' e hstep
    cases hstep with
    | lock _ _ => simp
    | store _ _ hsignal => cases hsignal <;> exact Nat.le_refl _
    | _ => exact Nat.le_refl _
  have hinv : s.calls.length < 2 ^ 32 - 1 → Inv s := by
    refine h.invariant (I := fun s => s.calls.length < 2 ^ 32 - 1 → Inv s) ?_ ?_
    · rintro s rfl -
      exact inv_init
    · intro s e s' hs hstep hlt
      have hlt' := (hcalls hstep).trans_lt hlt
      exact (hs hlt').step hlt' hstep
  refine ⟨(hinv hbound).correct, fun es s' hrun => ?_, (hinv hbound).complete⟩
  exact (Nat.le_add_right _ _).trans (hrun.length_le fun _ _ _ hstep => hstep.work_lt)

end

/-- A command of one of two threads, from its call to its return. -/
theorem one_call_returns : ∃ s : State Bool, s.log = [(0, ⟨.done, none⟩)] ∧ Correct s ∧
    (∀ es s', Run InternalStep s es s' → es.length ≤ s.work) ∧
      ((∀ e s', ¬ InternalStep s e s') → Complete s) := by
  refine ⟨_, ?_, calls_return_results ⟨_, _, rfl, ((((((((((((((((Run.nil.snoc
    (.call (t := false) rfl)).snoc (.lock (t := false) rfl rfl)).snoc
    (.write (t := false) rfl)).snoc (.lockResp (t := false) rfl rfl)).snoc
    (.newline (t := false) rfl)).snoc (.wait (t := false) rfl)).snoc
    (@Step.answer _ _ _ _ _ _ .done none rfl (by decide))).snoc (.read rfl rfl)).snoc
    (.lockReader rfl rfl)).snoc (.store rfl (by decide) (.wake (t := false) rfl))).snoc
    (.unlockReader rfl)).snoc (.relock (t := false) rfl rfl)).snoc
    (.copy (t := false) rfl rfl)).snoc (.count (t := false) rfl)).snoc
    (.unlockResp (t := false) rfl)).snoc (.unlock (t := false) rfl))⟩ (by decide)⟩
  rfl

end Vimgdb.Gdb.Threads
