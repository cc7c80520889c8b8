import Vimgdb.Gui.Windows
import Vimgdb.Lib.Directory
import Vimgdb.Lib.Runs

/-!
# The maps of the buffers

`win_create` looks a name up under `buf_mtx`; if there is no buffer yet it makes one under `ui_mtx`,
and `buf_mtx` is taken again only to enter it.  In between, other threads look names up.

* `Phase`, `Step`: the calls of the threads.  Vim may answer `editFile` with an event for which the
  main thread calls `win_create` in turn.
* `Consistent`: the two maps are inverse to each other, and `win_destroy` finds what it removes.
* `Fresh`: a buffer that is entered has a name and an id that no other buffer has.
* `run_consistent_iff`: the runs in which the maps are consistent.
-/

namespace Vimgdb.Vim.Registry

open Programs Directory Maps Runs

/-! ## Threads -/

/-- How far a thread is in `win_create`. -/
inductive Phase
  | idle
  /-- The name was not found. -/
  | missed (name : CStr)
  /-- The buffer is announced to vim; `ui_mtx` is held. -/
  | announced (id : BitVec 32) (name : CStr)

/-- The state of the threads `T`. -/
structure State (T : Type) where
  ui : Vimui
  phase : T → Phase
  uiMtx : Option T
  /-- The events that wait for the main thread. -/
  opened : List CStr

/-- The first state. -/
def State.init (T : Type) (cwd : CStr) : State T := ⟨{ cwd }, fun _ => .idle, none, []⟩

/-- The steps. -/
inductive Event (T : Type)
  | getid (t : T) (name : CStr)
  | lookup (t : T) (name : CStr)
  | announce (t : T)
  | register (t : T)
  | destroy (t : T) (win : BitVec 32)
  /-- Vim tells that a file is opened. -/
  | fileOpened (name : CStr)
  /-- The main thread takes such an event. -/
  | handle (name : CStr)

/-- What a thread does after its lookup. -/
def lookupPhase (ui : Vimui) (name : CStr) : Phase :=
  if (0 : BitVec 32).slt (ui.winGetid name) then .idle else .missed name

variable {T : Type} [DecidableEq T]

/-- One step. -/
inductive Step (main : T) (s : State T) : Event T → State T → Prop
  | getid (t : T) (name : CStr) : s.phase t = .idle → Step main s (.getid t name) s
  | lookup (t : T) (name : CStr) :
      s.phase t = .idle →
      Step main s (.lookup t name)
        { s with phase := Function.update s.phase t (lookupPhase s.ui name) }
  | announce (t : T) (name : CStr) (id : BitVec 32) (ui : Vimui) :
      s.phase t = .missed name → s.uiMtx = none →
      exec (Vim.announce name) s.ui = some (.ok id, ui) →
      Step main s (.announce t)
        { s with ui, uiMtx := some t, phase := Function.update s.phase t (.announced id name) }
  | refused (t : T) (name : CStr) (ui : Vimui) :
      s.phase t = .missed name → s.uiMtx = none →
      exec (Vim.announce name) s.ui = some (.error (), ui) →
      Step main s (.announce t) { s with ui, phase := Function.update s.phase t .idle }
  | register (t : T) (id : BitVec 32) (name : CStr) (ui : Vimui) :
      s.phase t = .announced id name →
      exec (Vim.register id name) s.ui = some (.ok (), ui) →
      Step main s (.register t)
        { s with ui, uiMtx := none, phase := Function.update s.phase t .idle }
  | destroy (t : T) (win : BitVec 32) (r : Except Unit Unit) (ui : Vimui) :
      s.phase t = .idle → s.uiMtx = none →
      exec (winDestroy win) s.ui = some (r, ui) →
      Step main s (.destroy t win) { s with ui }
  | fileOpened (id : BitVec 32) (name : CStr) :
      .editFile id name ∈ s.ui.sent →
      Step main s (.fileOpened name) { s with opened := s.opened ++ [name] }
  | handle (name : CStr) (rest : List CStr) :
      s.phase main = .idle → s.opened = name :: rest →
      Step main s (.handle name)
        { s with phase := Function.update s.phase main (lookupPhase s.ui name), opened := rest }

/-! ## Consistency -/

/-- The maps are inverse to each other, no name belongs to two ids, and the entries of a registered
window are found and removed. -/
structure Consistent (ui : Vimui) : Prop where
  inverse : Inverse Buffer.name ui.bufnameMap ui.bufidMap
  unique : ∀ i j b c, ui.bufidMap.lookup i = some b → ui.bufidMap.lookup j = some c →
    b.name = c.name → i = j
  destroyed : ∀ win buf, ui.bufidMap.lookup win = some buf →
    ui.bufnameMap.lookup buf.name = some win ∧
      ∃ t, exec (winDestroy win) ui = some (.ok (), t) ∧ t.bufidMap.lookup win = none ∧
        t.bufnameMap.lookup buf.name = none

/-- A buffer that is entered has a name that no other buffer has, and an id that belongs to no other
name. -/
def Fresh (s : State T) : Event T → Prop
  | .register t => ∀ id name, s.phase t = .announced id name →
      (∀ j, s.ui.bufnameMap.lookup (fullName s.ui.cwd name) = some j → j = id) ∧
        ∀ buf, s.ui.bufidMap.lookup id = some buf → buf.name = fullName s.ui.cwd name
  | _ => True

/-- The invariant: the maps are inverse to each other, and no id is negative. -/
structure Inv (s : State T) : Prop where
  inverse : Inverse Buffer.name s.ui.bufnameMap s.ui.bufidMap
  windows : ∀ win, (s.ui.bufidMap.lookup win).isSome → win.slt 0 = false
  announced : ∀ t id name, s.phase t = .announced id name → id.slt 0 = false

/-! ## One step -/

/-- The maps are the same. -/
def SameMaps (ui ui' : Vimui) : Prop :=
  ui'.bufnameMap = ui.bufnameMap ∧ ui'.bufidMap = ui.bufidMap

theorem keeps_action_sameMaps (ui : Vimui) (m : Message) : Keeps (SameMaps ui) (action m) := by
  unfold action
  split
  · exact keeps_throw ()
  · exact keeps_modify fun _ h => h

/-- A buffer that is announced is not in the maps. -/
theorem post_announce_sameMaps (ui : Vimui) (name : CStr) :
    Post (Vim.announce name) (fun id t => id.slt 0 = false ∧ SameMaps ui t)
      (fun _ => SameMaps ui) ui := by
  unfold Vim.announce
  rw [post_bind, post_get]
  extract_lets id
  rw [post_bind, post_set]
  have hnext : SameMaps ui { ui with bufid := id + 1 } := ⟨rfl, rfl⟩
  split
  · exact post_throw.mpr hnext
  · rename_i hid
    rw [post_bind]
    refine ((keeps_action_sameMaps ui _).noError hnext).mono (fun _ t ht => ?_) fun _ _ h => h
    rw [post_bind]
    refine ((keeps_action_sameMaps ui _).noError ht).mono (fun _ u hu => ?_) fun _ _ h => h
    exact post_pure.mpr ⟨by simpa using hid, hu⟩

/-- `win_destroy` removes both entries, or none. -/
theorem exec_winDestroy {ui ui' : Vimui} {win : BitVec 32} {r : Except Unit Unit}
    (h : exec (winDestroy win) ui = some (r, ui')) :
    SameMaps ui ui' ∨ ∃ buf, ui.bufidMap.lookup win = some buf ∧
      ui'.bufnameMap = ui.bufnameMap.erase buf.name ∧ ui'.bufidMap = ui.bufidMap.erase win := by
  let I (t : Vimui) : Prop := SameMaps ui t ∨ ∃ buf, ui.bufidMap.lookup win = some buf ∧
    t.bufnameMap = ui.bufnameMap.erase buf.name ∧ t.bufidMap = ui.bufidMap.erase win
  have hpost : Post (winDestroy win) (fun _ => I) (fun _ => I) ui := by
    unfold winDestroy
    rw [post_bind]
    refine (keeps_action_sameMaps ui _ ui ⟨rfl, rfl⟩).mono (fun _ t ht => ?_) fun _ t ht => Or.inl ht
    unfold remove
    rw [post_bind, post_get]
    split
    · exact post_throw.mpr (Or.inl ht)
    · rename_i buf hbuf
      split
      · exact post_undefined
      · rw [post_set]
        exact Or.inr ⟨buf, ht.2 ▸ hbuf, by rw [ht.1], by rw [ht.2]⟩
  exact hpost.holds h

/-- The entries of a registered window are found, and removed. -/
theorem exec_winDestroy_registered {ui : Vimui} {win : BitVec 32} {buf : Buffer}
    (hinv : Inverse Buffer.name ui.bufnameMap ui.bufidMap) (hwin : win.slt 0 = false)
    (hbuf : ui.bufidMap.lookup win = some buf) :
    ∃ t, exec (winDestroy win) ui = some (.ok (), t) ∧ t.bufidMap.lookup win = none ∧
      t.bufnameMap.lookup buf.name = none := by
  have hname : ui.bufnameMap.lookup buf.name = some win := (hinv _ _).mpr ⟨buf, hbuf, rfl⟩
  have hclose : exec (action (.close win)) ui =
      some (.ok (), { ui with sent := ui.sent ++ [.close win] }) := by
    have hsent : ¬ (Message.close win).toAction.bufId.slt 0 = true := fun hneg =>
      absurd (hwin.symm.trans hneg) nofun
    unfold action
    rw [if_neg hsent]
    rfl
  refine ⟨{ ui with
    sent := ui.sent ++ [.close win]
    bufnameMap := ui.bufnameMap.erase buf.name
    bufidMap := ui.bufidMap.erase win }, ?_, AList.lookup_erase _ _, AList.lookup_erase _ _⟩
  have hget : exec (get : Ui Vimui) { ui with sent := ui.sent ++ [.close win] } =
      some (.ok { ui with sent := ui.sent ++ [.close win] },
        { ui with sent := ui.sent ++ [.close win] }) := rfl
  unfold winDestroy remove
  rw [exec_bind, hclose]
  show exec (get >>= _) _ = _
  rw [exec_bind, hget]
  simp only [Option.bind_some, hbuf, hname]
  rfl

omit [DecidableEq T] in
theorem Inv.consistent {s : State T} (h : Inv s) : Consistent s.ui where
  inverse := h.inverse
  unique _ _ _ _ hi hj hname := h.inverse.unique hi hj hname
  destroyed win buf hbuf :=
    ⟨(h.inverse _ _).mpr ⟨buf, hbuf, rfl⟩,
      exec_winDestroy_registered h.inverse (h.windows win (by rw [hbuf]; rfl)) hbuf⟩

/-- A phase of one thread changes. -/
theorem announced_update {s : State T} (h : ∀ t id name, s.phase t = .announced id name →
    id.slt 0 = false) (t : T) {p : Phase} (hp : ∀ id name, p = .announced id name → id.slt 0 = false) :
    ∀ u id name, Function.update s.phase t p u = .announced id name → id.slt 0 = false := by
  intro u id name hu
  by_cases heq : u = t
  · rw [heq, Function.update_self] at hu
    exact hp id name hu
  · rw [Function.update_of_ne heq] at hu
    exact h u id name hu

theorem lookupPhase_ne (ui : Vimui) (name name' : CStr) (id : BitVec 32) :
    lookupPhase ui name ≠ .announced id name' := by
  unfold lookupPhase
  split <;> nofun

/-- A step that enters only fresh buffers keeps the invariant. -/
theorem Inv.step {main : T} {s t : State T} {e : Event T} (h : Inv s) (hstep : Step main s e t)
    (hfresh : Fresh s e) : Inv t := by
  have hsame : ∀ ui : Vimui, SameMaps s.ui ui → Inverse Buffer.name ui.bufnameMap ui.bufidMap ∧
      ∀ win, (ui.bufidMap.lookup win).isSome → win.slt 0 = false := by
    rintro ui ⟨hname, hid⟩
    rw [hname, hid]
    exact ⟨h.inverse, h.windows⟩
  cases hstep with
  | getid => exact h
  | lookup u name hu =>
      exact ⟨h.inverse, h.windows, announced_update h.announced u fun id name' hp =>
        absurd hp (lookupPhase_ne _ _ _ _)⟩
  | announce u name id ui hu hmtx hexec =>
      obtain ⟨hid, hmaps⟩ := post_announce_sameMaps s.ui name _ hexec
      refine ⟨(hsame ui hmaps).1, (hsame ui hmaps).2, announced_update h.announced u ?_⟩
      intro id' name' hp
      cases hp
      exact hid
  | refused u name ui hu hmtx hexec =>
      have hmaps := post_announce_sameMaps s.ui name _ hexec
      exact ⟨(hsame ui hmaps).1, (hsame ui hmaps).2, announced_update h.announced u nofun⟩
  | register u id name ui hu hexec =>
      cases hexec
      refine ⟨?_, ?_, announced_update h.announced u nofun⟩
      · exact (inverse_insert_iff h.inverse id { name := fullName s.ui.cwd name }).mpr
          (hfresh id name hu)
      · intro win hwin
        by_cases heq : win = id
        · rw [heq]
          exact h.announced u id name hu
        · have hwin : ((s.ui.bufidMap.insert id _).lookup win).isSome := hwin
          rw [AList.lookup_insert_ne heq] at hwin
          exact h.windows win hwin
  | destroy u win r ui hu hmtx hexec =>
      rcases exec_winDestroy hexec with hmaps | ⟨buf, hbuf, hname, hid⟩
      · exact ⟨(hsame ui hmaps).1, (hsame ui hmaps).2, h.announced⟩
      · refine ⟨?_, ?_, h.announced⟩
        · show Inverse Buffer.name ui.bufnameMap ui.bufidMap
          rw [hname, hid]
          exact h.inverse.erase hbuf
        · intro win' hwin'
          have hwin' : (ui.bufidMap.lookup win').isSome := hwin'
          rw [hid] at hwin'
          obtain ⟨b, hb⟩ := Option.isSome_iff_exists.mp hwin'
          exact h.windows win' (by rw [(lookup_erase_eq_some.mp hb).2]; rfl)
  | fileOpened => exact ⟨h.inverse, h.windows, h.announced⟩
  | handle name rest hmain =>
      exact ⟨h.inverse, h.windows, announced_update h.announced main fun id name' hp =>
        absurd hp (lookupPhase_ne _ _ _ _)⟩

/-- From a state with the invariant, a step leads to consistent maps iff what it enters is fresh. -/
theorem Inv.consistent_iff {main : T} {s t : State T} {e : Event T} (h : Inv s)
    (hstep : Step main s e t) : Consistent t.ui ↔ Fresh s e := by
  constructor
  · intro hcons
    cases hstep with
    | register u id name ui hu hexec =>
        intro id' name' hu'
        rw [hu] at hu'
        cases hu'
        cases hexec
        exact (inverse_insert_iff h.inverse id { name := fullName s.ui.cwd name }).mp hcons.inverse
    | getid | lookup | announce | refused | destroy | fileOpened | handle => trivial
  · intro hfresh
    exact (h.step hstep hfresh).consistent

omit [DecidableEq T] in
theorem inv_init (cwd : CStr) : Inv (State.init T cwd) where
  inverse := inverse_empty
  windows _ h := absurd h nofun
  announced _ _ _ h := absurd h nofun

/-! ## Runs -/

/-- **The runs in which the maps are consistent** are those in which no buffer is entered under a name
that another one has got since its lookup. -/
theorem run_consistent_iff (main : T) (cwd : CStr) (es : List (Event T)) (t : State T) :
    Run (fun s e t => Step main s e t ∧ Consistent t.ui) (State.init T cwd) es t ↔
      Run (fun s e t => Step main s e t ∧ Fresh s e) (State.init T cwd) es t :=
  @Run.guarded_iff _ _ _ Inv (fun _ _ t => Consistent t.ui) (fun s e _ => Fresh s e) _
    (inv_init cwd) (fun _ _ _ h hstep hfresh => h.step hstep hfresh)
    (fun _ _ _ h hstep => h.consistent_iff hstep) es t

/-- The threads that call the operations. -/
inductive Thread
  | main | event | readline | inferior
  deriving DecidableEq

/-- The program stops in a new file: vim opens it and tells so before the buffer is entered. -/
theorem file_entered_twice :
    ∃ t, Run (Step Thread.main) (State.init Thread "/src".toList)
        [.lookup .event "/a.c".toList, .announce .event, .fileOpened "/a.c".toList,
          .handle "/a.c".toList, .register .event, .announce .main, .register .main] t ∧
      (t.ui.bufidMap.lookup 1).map Buffer.name = some "/a.c".toList ∧
      (t.ui.bufidMap.lookup 2).map Buffer.name = some "/a.c".toList ∧ ¬ Consistent t.ui := by
  refine ⟨_, Run.snoc (Run.snoc (Run.snoc (Run.snoc (Run.snoc (Run.snoc (Run.snoc Run.nil
    (.lookup _ _ rfl)) (.announce _ _ _ _ rfl rfl rfl)) (.fileOpened 1 _ (List.Mem.head _)))
    (.handle _ _ rfl rfl)) (.register _ _ _ _ rfl rfl)) (.announce _ _ _ _ rfl rfl rfl))
    (.register _ _ _ _ rfl rfl), rfl, rfl, fun h => ?_⟩
  exact absurd (h.unique 1 2 _ _ rfl rfl rfl) (by decide)

end Vimgdb.Vim.Registry
