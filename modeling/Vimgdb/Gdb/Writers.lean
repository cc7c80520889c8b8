import Mathlib.Logic.Function.Basic
import Vimgdb.Gdb.Issue
import Vimgdb.Lib.Interleaving
import Vimgdb.Lib.Runs

/-!
# Two ways to write to gdb

`gdbif::mi_issue_cmd` writes a command piece by piece while it holds the mutex `m`.  `cmd_exec`
writes a line that is no command of its own directly, in two pieces, and does not take the mutex.

* `Step`: the threads, one write at a time.
* `Wf`: what the mutex and the threads guarantee in every run.
* `Settled`: gdb's input consists of whole commands and what one thread has written of the next.
* `run_separate_iff`: gdb's input is made of whole commands in every state of a run iff no direct
  command overlaps another command and no newline is written before the end of a command.
-/

namespace Vimgdb.Gdb

open Interleaving Runs

/-! ## Threads that write -/

/-- The arguments of a call of `mi_issue_cmd` with a valid format. -/
structure IssueCall where
  cmd : CStr
  fmt : CStr
  args : List Arg
  ok : (formatLoop fmt args).2 = .ok

/-- A command: its number in the order in which the commands start, and all its bytes. -/
abbrev Tag := Nat × CStr

/-- A command being written: what has been written, and the pieces to write. -/
structure Writer where
  direct : Bool
  tag : Tag
  done : CStr
  rest : List CStr

/-- A thread does not write, waits for the mutex, or writes. -/
inductive Phase
  | idle
  | wants (c : IssueCall)
  | writing (w : Writer)

/-- The state of the program: the token, the mutex `m` of `mi_issue_cmd`, the number of commands
started, the threads, and the bytes in gdb's input with the command they belong to. -/
structure TermState (T : Type) where
  token : BitVec 32
  m : Option T
  count : Nat
  phase : T → Phase
  input : List (Tag × Char)

section
variable {T : Type} [DecidableEq T]

/-- The first command has the token 1. -/
def TermState.init : TermState T where
  token := 1
  m := none
  count := 0
  phase _ := .idle
  input := []

/-- The thread begins to write the pieces. -/
def TermState.start (s : TermState T) (t : T) (direct : Bool) (pieces : List CStr) : TermState T :=
  { s with
    count := s.count + 1
    phase := Function.update s.phase t (.writing ⟨direct, (s.count, pieces.flatten), [], pieces⟩) }

/-- What a thread does next. -/
inductive TermEvent (T : Type)
  | direct (line : CStr)
  | call (t : T) (c : IssueCall)
  | lock (t : T)
  | write (t : T)
  | finish (t : T)

/-- One step of one thread; `main` is the thread that reads the lines of the user. -/
inductive TermStep (main : T) (s : TermState T) : TermEvent T → TermState T → Prop
  /-- `cmd_exec` with a line that is no command: two writes follow. -/
  | direct {line : CStr} : s.phase main = .idle →
      TermStep main s (.direct line) (s.start main true [line, ['\n']])
  | call {t : T} {c : IssueCall} : s.phase t = .idle →
      TermStep main s (.call t c) { s with phase := Function.update s.phase t (.wants c) }
  /-- The mutex is free; the token is read behind it. -/
  | lock {t : T} {c : IssueCall} : s.phase t = .wants c → s.m = none →
      TermStep main s (.lock t)
        { s.start t false (issueCmd s.token c.cmd c.fmt c.args).1 with m := some t }
  | write {t : T} {w : Writer} {p : CStr} {ps : List CStr} : s.phase t = .writing w →
      w.rest = p :: ps →
      TermStep main s (.write t)
        { s with
          input := s.input ++ tagged w.tag p
          phase := Function.update s.phase t (.writing { w with done := w.done ++ p, rest := ps }) }
  | finishDirect {t : T} {w : Writer} : s.phase t = .writing w → w.rest = [] → w.direct = true →
      TermStep main s (.finish t) { s with phase := Function.update s.phase t .idle }
  /-- The response has arrived. -/
  | finishIssue {t : T} {w : Writer} : s.phase t = .writing w → w.rest = [] → w.direct = false →
      TermStep main s (.finish t)
        { s with
          token := s.token + 1
          m := none
          phase := Function.update s.phase t .idle }

/-- gdb's input consists of lines that are one command each, and of the beginning of one. -/
def LinesSeparate (s : TermState T) : Prop := Separate '\n' Prod.snd s.input

/-- Some bytes of the command have been written, but not all its pieces. -/
def Writer.Begun (w : Writer) : Prop := w.done ≠ [] ∧ w.rest ≠ []

/-- What a thread writes next is written neither from a direct command into another command nor
into a direct command, and contains no newline before the end of the command. -/
def Alone (s : TermState T) : TermEvent T → Prop
  | .write t => ∀ w p ps, s.phase t = .writing w → w.rest = p :: ps →
      (p ≠ [] → ∀ u v, u ≠ t → s.phase u = .writing v → v.Begun →
        w.direct = false ∧ v.direct = false) ∧
      (ps ≠ [] → '\n' ∉ p)
  | _ => True

/-! ## What the mutex guarantees -/

/-- The facts about the threads that hold in every run. -/
structure Wf (main : T) (s : TermState T) : Prop where
  count : ∀ t w, s.phase t = .writing w → w.tag.1 < s.count
  text : ∀ t w, s.phase t = .writing w → w.tag.2 = w.done ++ w.rest.flatten
  inj : ∀ t u w v, s.phase t = .writing w → s.phase u = .writing v → w.tag.1 = v.tag.1 → t = u
  newline : ∀ t w, s.phase t = .writing w → w.rest ≠ [] → ∃ ps, w.rest = ps ++ [['\n']]
  direct : ∀ t w, s.phase t = .writing w → w.direct = true → t = main
  owner : ∀ t w, s.phase t = .writing w → w.direct = false → s.m = some t
  old : ∀ b ∈ s.input, b.1.1 < s.count
  own : ∀ t w, s.phase t = .writing w →
    s.input.filter (·.1 = w.tag) = tagged w.tag w.done

omit [DecidableEq T] in
theorem wf_init (main : T) : Wf main (TermState.init : TermState T) := by
  constructor <;> simp [TermState.init]

theorem phase_update_eq {s : TermState T} {t u : T} {x : Phase} {w : Writer}
    (h : Function.update s.phase t x u = .writing w) :
    (u = t ∧ x = .writing w) ∨ (u ≠ t ∧ s.phase u = .writing w) := by
  by_cases hu : u = t
  · subst hu
    rw [Function.update_self] at h
    exact Or.inl ⟨rfl, h⟩
  · rw [Function.update_of_ne hu] at h
    exact Or.inr ⟨hu, h⟩

/-- A thread that does not write does not matter. -/
theorem Wf.leave {main : T} {s : TermState T} (h : Wf main s) (t : T) {x : Phase}
    (hx : ∀ w, x ≠ .writing w) : Wf main { s with phase := Function.update s.phase t x } := by
  have hold : ∀ {u w}, Function.update s.phase t x u = .writing w → s.phase u = .writing w :=
    fun hu => (phase_update_eq hu).elim (fun h => absurd h.2 (hx _)) (·.2)
  exact {
    count := fun u w hw => h.count u w (hold hw)
    text := fun u w hw => h.text u w (hold hw)
    inj := fun u u' w v hw hv => h.inj u u' w v (hold hw) (hold hv)
    newline := fun u w hw => h.newline u w (hold hw)
    direct := fun u w hw => h.direct u w (hold hw)
    owner := fun u w hw => h.owner u w (hold hw)
    old := h.old
    own := fun u w hw => h.own u w (hold hw) }

/-- A command is begun with pieces that end with the newline. -/
theorem Wf.start {main : T} {s : TermState T} (h : Wf main s) (t : T) {direct : Bool}
    (ps : List CStr) (hmain : direct = true → t = main) (howner : direct = false → s.m = some t) :
    Wf main (s.start t direct (ps ++ [['\n']])) where
  count u w hw := by
    rcases phase_update_eq hw with ⟨-, hx⟩ | ⟨-, hx⟩
    · cases hx
      exact Nat.lt_succ_self _
    · exact Nat.lt_succ_of_lt (h.count u w hx)
  text u w hw := by
    rcases phase_update_eq hw with ⟨-, hx⟩ | ⟨-, hx⟩
    · cases hx
      rfl
    · exact h.text u w hx
  inj u u' w v hw hv heq := by
    rcases phase_update_eq hw with ⟨hu, hx⟩ | ⟨-, hx⟩ <;>
      rcases phase_update_eq hv with ⟨hu', hy⟩ | ⟨-, hy⟩
    · rw [hu, hu']
    · cases hx
      exact absurd (h.count u' v hy) (by rw [← heq]; exact Nat.lt_irrefl _)
    · cases hy
      exact absurd (h.count u w hx) (by rw [heq]; exact Nat.lt_irrefl _)
    · exact h.inj u u' w v hx hy heq
  newline u w hw := by
    rcases phase_update_eq hw with ⟨-, hx⟩ | ⟨-, hx⟩
    · cases hx
      exact fun _ => ⟨ps, rfl⟩
    · exact h.newline u w hx
  direct u w hw hd := by
    rcases phase_update_eq hw with ⟨hu, hx⟩ | ⟨-, hx⟩
    · cases hx
      exact hu.trans (hmain hd)
    · exact h.direct u w hx hd
  owner u w hw hd := by
    rcases phase_update_eq hw with ⟨hu, hx⟩ | ⟨-, hx⟩
    · cases hx
      exact (howner hd).trans (by rw [hu])
    · exact h.owner u w hx hd
  old b hb := Nat.lt_succ_of_lt (h.old b hb)
  own u w hw := by
    rcases phase_update_eq hw with ⟨-, hx⟩ | ⟨-, hx⟩
    · cases hx
      refine List.filter_eq_nil_iff.mpr fun b hb heq => ?_
      have hlt := h.old b hb
      rw [of_decide_eq_true heq] at hlt
      exact absurd hlt (Nat.lt_irrefl _)
    · exact h.own u w hx

/-- The pieces of a call end with the newline. -/
theorem IssueCall.pieces_eq (c : IssueCall) (token : BitVec 32) :
    ∃ ps, (issueCmd token c.cmd c.fmt c.args).1 = ps ++ [['\n']] := by
  simp only [issueCmd, if_pos c.ok]
  exact ⟨_, rfl⟩

omit [DecidableEq T] in
theorem Wf.lock {main : T} {s : TermState T} (h : Wf main s) (hm : s.m = none) (t : T) :
    Wf main { s with m := some t } where
  count := h.count
  text := h.text
  inj := h.inj
  newline := h.newline
  direct := h.direct
  owner u w hw hd := absurd (h.owner u w hw hd) (by rw [hm]; nofun)
  old := h.old
  own := h.own

theorem Wf.write {main : T} {s : TermState T} (h : Wf main s) {t : T} {w : Writer} {p : CStr}
    {ps : List CStr} (hw : s.phase t = .writing w) (hrest : w.rest = p :: ps) :
    Wf main { s with
      input := s.input ++ tagged w.tag p
      phase := Function.update s.phase t
        (.writing { w with done := w.done ++ p, rest := ps }) } where
  count u v hv := by
    rcases phase_update_eq hv with ⟨-, hx⟩ | ⟨-, hx⟩
    · cases hx
      exact h.count t w hw
    · exact h.count u v hx
  text u v hv := by
    rcases phase_update_eq hv with ⟨-, hx⟩ | ⟨-, hx⟩
    · cases hx
      simp [h.text t w hw, hrest]
    · exact h.text u v hx
  inj u u' v v' hv hv' heq := by
    rcases phase_update_eq hv with ⟨hu, hx⟩ | ⟨-, hx⟩ <;>
      rcases phase_update_eq hv' with ⟨hu', hy⟩ | ⟨-, hy⟩
    · rw [hu, hu']
    · cases hx
      exact hu.trans (h.inj t u' w v' hw hy heq)
    · cases hy
      exact (h.inj u t v w hx hw heq).trans hu'.symm
    · exact h.inj u u' v v' hx hy heq
  newline u v hv hne := by
    rcases phase_update_eq hv with ⟨-, hx⟩ | ⟨-, hx⟩
    · cases hx
      obtain ⟨qs, hqs⟩ := h.newline t w hw (by rw [hrest]; exact List.cons_ne_nil _ _)
      rw [hrest] at hqs
      cases qs with
      | nil => exact absurd (List.cons.inj hqs).2 hne
      | cons q qs => exact ⟨qs, (List.cons.inj hqs).2⟩
    · exact h.newline u v hx hne
  direct u v hv hd := by
    rcases phase_update_eq hv with ⟨hu, hx⟩ | ⟨-, hx⟩
    · cases hx
      exact hu.trans (h.direct t w hw hd)
    · exact h.direct u v hx hd
  owner u v hv hd := by
    rcases phase_update_eq hv with ⟨hu, hx⟩ | ⟨-, hx⟩
    · cases hx
      exact (h.owner t w hw hd).trans (by rw [hu])
    · exact h.owner u v hx hd
  old b hb := by
    rcases List.mem_append.mp hb with hb | hb
    · exact h.old b hb
    · rw [(mem_tagged.mp hb).1]
      exact h.count t w hw
  own u v hv := by
    rcases phase_update_eq hv with ⟨-, hx⟩ | ⟨hu, hx⟩
    · cases hx
      have hself : (tagged w.tag p).filter (·.1 = w.tag) = tagged w.tag p :=
        List.filter_eq_self.mpr fun b hb => decide_eq_true (mem_tagged.mp hb).1
      rw [List.filter_append, h.own t w hw, hself, tagged_append]
    · have hother : (tagged w.tag p).filter (·.1 = v.tag) = [] := by
        refine List.filter_eq_nil_iff.mpr fun b hb heq => hu ?_
        have htag : v.tag = w.tag := (of_decide_eq_true heq).symm.trans (mem_tagged.mp hb).1
        exact h.inj u t v w hx hw (by rw [htag])
      rw [List.filter_append, h.own u v hx, hother, List.append_nil]

/-- The mutex is given back. -/
theorem Wf.unlock {main : T} {s : TermState T} (h : Wf main s) {t : T} {w : Writer}
    (hw : s.phase t = .writing w) (hd : w.direct = false) (token : BitVec 32) :
    Wf main { s with
      token := token
      m := none
      phase := Function.update s.phase t .idle } := by
  have hidle := h.leave t (x := .idle) nofun
  exact {
    count := hidle.count
    text := hidle.text
    inj := hidle.inj
    newline := hidle.newline
    direct := hidle.direct
    owner := fun u v hv hvd => by
      rcases phase_update_eq hv with ⟨-, hx⟩ | ⟨hu, hx⟩
      · cases hx
      · -- only the owner of the mutex issues commands
        have howner := (h.owner t w hw hd).symm.trans (h.owner u v hx hvd)
        exact absurd (Option.some.inj howner).symm hu
    old := hidle.old
    own := hidle.own }

/-- Every step keeps these facts. -/
theorem Wf.step {main : T} {s s' : TermState T} {e : TermEvent T} (h : Wf main s)
    (hstep : TermStep main s e s') : Wf main s' := by
  cases hstep with
  | @direct line _ => exact h.start main [line] (fun _ => rfl) nofun
  | call _ => exact h.leave _ nofun
  | @lock t c _ hm =>
      obtain ⟨ps, hps⟩ := c.pieces_eq s.token
      rw [hps]
      exact (h.lock hm t).start t ps nofun fun _ => rfl
  | write hw hrest => exact h.write hw hrest
  | finishDirect _ _ _ => exact h.leave _ nofun
  | finishIssue hw _ hd => exact h.unlock hw hd _

/-! ## Whole commands -/

/-- gdb's input consists of whole commands and of what one thread has written of the next. -/
def Settled (s : TermState T) : Prop :=
  ∃ last, Layout '\n' Prod.snd s.input last ∧
    (∀ t w, s.phase t = .writing w → w.Begun → last = tagged w.tag w.done) ∧
    (last ≠ [] → ∃ t w, s.phase t = .writing w ∧ w.Begun)

omit [DecidableEq T] in
theorem settled_init : Settled (TermState.init : TermState T) :=
  ⟨[], layout_nil, (fun _ _ h => absurd h (by simp [TermState.init])), fun h => absurd rfl h⟩

omit [DecidableEq T] in
theorem Settled.separate {main : T} {s : TermState T} (hwf : Wf main s) (h : Settled s) :
    LinesSeparate s := by
  obtain ⟨last, hlay, hlast, hbegun⟩ := h
  by_cases hnil : last = []
  · subst hnil
    exact ⟨[], (0, []), hlay, List.nil_prefix⟩
  · obtain ⟨t, w, hw, hb⟩ := hbegun hnil
    refine ⟨last, w.tag, hlay, ?_⟩
    rw [hlast t w hw hb, hwf.text t w hw, tagged_append]
    exact List.prefix_append _ _

/-- A thread that has written nothing, or everything, may change its phase. -/
theorem Settled.quiet {s s' : TermState T} (h : Settled s) {t : T} {x : Phase}
    (hinput : s'.input = s.input) (hphase : s'.phase = Function.update s.phase t x)
    (hold : ∀ w, s.phase t = .writing w → ¬ w.Begun) (hnew : ∀ w, x = .writing w → ¬ w.Begun) :
    Settled s' := by
  obtain ⟨last, hlay, hlast, hbegun⟩ := h
  refine ⟨last, by rwa [hinput], fun u w hw hb => ?_, fun hne => ?_⟩
  · rw [hphase] at hw
    rcases phase_update_eq hw with ⟨-, hx⟩ | ⟨-, hx⟩
    · exact absurd hb (hnew w hx)
    · exact hlast u w hx hb
  · obtain ⟨u, w, hw, hb⟩ := hbegun hne
    have hu : u ≠ t := by
      rintro rfl
      exact hold w hw hb
    exact ⟨u, w, by rw [hphase, Function.update_of_ne hu]; exact hw, hb⟩

omit [DecidableEq T] in
/-- If no other thread has begun, the last line is what this one has written. -/
theorem Settled.line {s : TermState T} (h : Settled s) {t : T} {w : Writer}
    (hw : s.phase t = .writing w) (hrest : w.rest ≠ [])
    (hnone : ∀ u v, u ≠ t → s.phase u = .writing v → ¬ v.Begun) :
    Layout '\n' Prod.snd s.input (tagged w.tag w.done) := by
  obtain ⟨last, hlay, hlast, hbegun⟩ := h
  have hline : last = tagged w.tag w.done := by
    by_cases hdone : w.done = []
    · rw [hdone, tagged_nil]
      by_contra hne
      obtain ⟨u, v, hv, hb⟩ := hbegun hne
      by_cases hu : u = t
      · subst hu
        obtain rfl : w = v := by rw [hw] at hv; injection hv
        exact hb.1 hdone
      · exact hnone u v hu hv hb
    · exact hlast t w hw ⟨hdone, hrest⟩
  rwa [hline] at hlay

/-- An empty piece changes nothing. -/
theorem Settled.writeNothing {s s' : TermState T} (h : Settled s) {t : T} {w : Writer}
    {ps : List CStr} (hw : s.phase t = .writing w) (hrest : w.rest ≠ []) (hps : ps ≠ [])
    (hinput : s'.input = s.input)
    (hphase : s'.phase = Function.update s.phase t (.writing { w with rest := ps })) :
    Settled s' := by
  obtain ⟨last, hlay, hlast, hbegun⟩ := h
  refine ⟨last, by rwa [hinput], fun u v hv hb => ?_, fun hne => ?_⟩
  · rw [hphase] at hv
    rcases phase_update_eq hv with ⟨-, hx⟩ | ⟨-, hx⟩
    · cases hx
      exact hlast t w hw ⟨hb.1, hrest⟩
    · exact hlast u v hx hb
  · obtain ⟨u, v, hv, hb⟩ := hbegun hne
    rw [hphase]
    by_cases hu : u = t
    · subst hu
      obtain rfl : w = v := by rw [hw] at hv; injection hv
      exact ⟨u, _, Function.update_self .., hb.1, hps⟩
    · exact ⟨u, v, by rw [Function.update_of_ne hu]; exact hv, hb⟩

/-- A write that stands alone continues the line or completes it. -/
theorem Settled.write {main : T} {s : TermState T} (hwf : Wf main s) (h : Settled s) {t : T}
    {w : Writer} {p : CStr} {ps : List CStr} (hw : s.phase t = .writing w)
    (hrest : w.rest = p :: ps) (halone : Alone s (.write t)) :
    Settled { s with
      input := s.input ++ tagged w.tag p
      phase := Function.update s.phase t
        (.writing { w with done := w.done ++ p, rest := ps }) } := by
  obtain ⟨hothers, hnl⟩ := halone w p ps hw hrest
  have hne : w.rest ≠ [] := by rw [hrest]; exact List.cons_ne_nil _ _
  have hend : ps = [] → p = ['\n'] := by
    rintro rfl
    obtain ⟨qs, hqs⟩ := hwf.newline t w hw hne
    simpa using congrArg List.getLast? (hrest.symm.trans hqs)
  by_cases hp : p = []
  · subst hp
    have hps : ps ≠ [] := fun h => absurd (hend h) (by simp)
    exact h.writeNothing hw hne hps (by simp) (by simp)
  -- no other thread has begun: the mutex keeps the calls apart, `halone` the direct commands
  have hnone : ∀ u v, u ≠ t → s.phase u = .writing v → ¬ v.Begun := fun u v hu hv hb => by
    obtain ⟨hwd, hvd⟩ := hothers hp u v hu hv hb
    have howner := (hwf.owner t w hw hwd).symm.trans (hwf.owner u v hv hvd)
    exact hu (Option.some.inj howner).symm
  have hlay := h.line hw hne hnone
  by_cases hps : ps = []
  · obtain rfl := hend hps
    subst hps
    refine ⟨[], hlay.complete (by rw [hwf.text t w hw, hrest]; rfl), fun u v hv hb => ?_,
      fun h => absurd rfl h⟩
    rcases phase_update_eq hv with ⟨-, hx⟩ | ⟨hu, hx⟩
    · cases hx
      exact absurd rfl hb.2
    · exact absurd hb (hnone u v hu hx)
  · refine ⟨_, hlay.extend w.tag (hnl hps), fun u v hv hb => ?_, fun _ =>
      ⟨t, _, Function.update_self .., by simp [hp], hps⟩⟩
    rcases phase_update_eq hv with ⟨-, hx⟩ | ⟨hu, hx⟩
    · cases hx
      simp
    · exact absurd hb (hnone u v hu hx)

/-- A write that does not stand alone mixes two commands, or ends a line too early. -/
theorem alone_of_separate {main : T} {s : TermState T} (hwf : Wf main s) (h : Settled s) {t : T}
    {w : Writer} {p : CStr} {ps : List CStr} (hw : s.phase t = .writing w)
    (hrest : w.rest = p :: ps) (hsep : Separate '\n' Prod.snd (s.input ++ tagged w.tag p)) :
    Alone s (.write t) := by
  intro w' p' ps' hw' hrest'
  obtain rfl : w = w' := by rw [hw] at hw'; injection hw'
  obtain ⟨rfl, rfl⟩ := List.cons.inj (hrest.symm.trans hrest')
  constructor
  · intro hp u v hu hv hb
    obtain ⟨last, hlay, hlast, -⟩ := h
    obtain ⟨ks, hinput, -⟩ := hlay.lines
    -- the last byte of the other command and the first byte of this one
    obtain ⟨x, c, hdone⟩ : ∃ x c, v.done = x ++ [c] :=
      ⟨_, _, (List.dropLast_concat_getLast hb.1).symm⟩
    obtain ⟨d, q, rfl⟩ := List.exists_cons_of_ne_nil hp
    have hline : last = tagged v.tag x ++ [(v.tag, c)] := by
      rw [hlast u v hv hb, hdone, tagged_append]
      rfl
    have hadj := (List.isChain_append.mp hsep.isChain).2.2 (v.tag, c) (by simp [hinput, hline])
      (w.tag, d) rfl
    rcases hadj with htag | hc
    · exact absurd (hwf.inj u t v w hv hw (congrArg Prod.fst htag)) hu
    · exact absurd hc (hlay.noSep (v.tag, c) (by simp [hline]))
  · intro hps hnl
    -- the newline is there, but not the whole command
    have hlen := hsep.length_le (List.mem_append_right s.input (mem_tagged.mpr ⟨rfl, hnl⟩) :
      (w.tag, '\n') ∈ s.input ++ tagged w.tag p)
    have hwf' := hwf.write hw hrest
    have hown := hwf'.own t _ (Function.update_self ..)
    simp only at hown
    obtain ⟨qs, hqs⟩ := hwf'.newline t _ (Function.update_self ..) hps
    simp only at hqs
    rw [hown, hwf.text t w hw, hrest, hqs] at hlen
    simp only [tagged, List.length_map, List.length_append, List.flatten_cons, List.flatten_append,
      List.flatten_nil, List.length_cons, List.length_nil] at hlen
    omega

/-- The lines stay separate in a step iff the step stands alone. -/
theorem Settled.step_iff {main : T} {s s' : TermState T} {e : TermEvent T} (hwf : Wf main s)
    (h : Settled s) (hstep : TermStep main s e s') :
    (LinesSeparate s' ↔ Alone s e) ∧ (Alone s e → Settled s') := by
  have hsettled : Alone s e → Settled s' := by
    intro halone
    cases hstep with
    | direct hidle =>
        exact h.quiet rfl rfl (fun w hw => absurd hw (by rw [hidle]; nofun)) fun w hw => by
          cases hw
          exact fun hb => hb.1 rfl
    | call hidle =>
        exact h.quiet rfl rfl (fun w hw => absurd hw (by rw [hidle]; nofun)) nofun
    | lock hwants _ =>
        exact h.quiet rfl rfl (fun w hw => absurd hw (by rw [hwants]; nofun)) fun w hw => by
          cases hw
          exact fun hb => hb.1 rfl
    | write hw hrest => exact h.write hwf hw hrest halone
    | finishDirect hw hrest _ =>
        exact h.quiet rfl rfl (fun v hv hb => hb.2 (by rw [hw] at hv; cases hv; exact hrest)) nofun
    | finishIssue hw hrest _ =>
        exact h.quiet rfl rfl (fun v hv hb => hb.2 (by rw [hw] at hv; cases hv; exact hrest)) nofun
  refine ⟨⟨fun hsep => ?_, fun halone => (hsettled halone).separate (hwf.step hstep)⟩, hsettled⟩
  cases hstep with
  | write hw hrest => exact alone_of_separate hwf h hw hrest hsep
  | _ => trivial

/-- gdb's input is made of whole commands, one a line, in every state of a run iff no direct command
overlaps another command and no command contains a newline before its end. -/
theorem run_separate_iff (main : T) (es : List (TermEvent T)) (s : TermState T) :
    Run (fun s e s' => TermStep main s e s' ∧ LinesSeparate s') .init es s ↔
      Run (fun s e s' => TermStep main s e s' ∧ Alone s e) .init es s := by
  refine Run.guarded_iff (I := fun s => Wf main s ∧ Settled s) ⟨wf_init main, settled_init⟩
    (fun s e s' hs hstep halone => ?_) (fun s e s' hs hstep => ?_) es s
  · exact ⟨hs.1.step hstep, (hs.2.step_iff hs.1 hstep).2 halone⟩
  · exact (hs.2.step_iff hs.1 hstep).1

end

/-! ## A command in the middle of another -/

/-- `exec-next`, as it is issued for the user's `exec next`. -/
def execNext : IssueCall := ⟨"exec-next".toList, [], [], rfl⟩

/-- The user types a line for gdb while another thread has written the token of its command: both
are on one line. -/
theorem direct_line_mixed : ∃ es s, Run (TermStep true) (TermState.init : TermState Bool) es s ∧
    ¬ LinesSeparate s := by
  refine ⟨_, _, (((((Run.nil.snoc (.call (t := false) (c := execNext) rfl)).snoc
    (.lock (t := false) rfl rfl)).snoc (.write (t := false) rfl rfl)).snoc
    (@TermStep.direct _ _ true _ "print x".toList rfl)).snoc (.write (t := true) rfl rfl)).snoc
    (.write (t := true) rfl rfl), fun h => ?_⟩
  exact absurd h.isChain (by decide)

end Vimgdb.Gdb
