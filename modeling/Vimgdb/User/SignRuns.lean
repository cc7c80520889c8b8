import Vimgdb.User.Signs

/-!
# Runs of the commands that place signs

* `Settles`: a step keeps the invariant, and shows the signs that there should be if the command is as it
  must be.
* `settles`: every step does.
* `run_shown_iff`: the runs in which vim always shows the signs that there should be.
-/

namespace Vimgdb.Signs

open Boards Breakpt Gdb Programs Runs Vim Vim.Signs
open Gui (annoKey annoKey_eq_iff)

/-! ## Steps -/

variable {shows : Display} {replies : Nat → Option Cursor} {l : Look} {file : CStr} {line : BitVec 32}
  {k : BitVec 32 × CStr} {breakptLst : AList fun _ : CStr => Breakpoint} {stopped : Option (CStr × BitVec 32)}
  {s t : State} {c : Cmd}

/-- What holds of the user interface behind a call. -/
theorem exists_of_call {p : Ui Unit} {f : Vimui → State} (h : s.call p f = some t) {P : Vimui → Prop}
    (hp : Post p (fun _ => P) (fun _ => P) s.ui) : ∃ u, t = f u ∧ P u := by
  obtain ⟨⟨r, u⟩, hexec, rfl⟩ := Option.map_eq_some_iff.mp h
  exact ⟨u, rfl, hp.holds hexec⟩

/-- The invariant is kept, and the signs are shown for the commands that are as they must be. -/
def Settles (shows : Display) (s : State) (c : Cmd) (t : State) : Prop :=
  (look shows t.ui).Inv ∧ (Shown shows t ↔ Meets shows s c)

/-- A command that is as it must be, and does nothing to the signs. -/
theorem settles_same (h : (look shows s.ui).Inv) (hshown : Shown shows s) (hmeets : Meets shows s c)
    (hui : look shows t.ui = look shows s.ui)
    (hwant : want (look shows s.ui) t.breakptLst t.stopped = want (look shows s.ui) s.breakptLst s.stopped) :
    Settles shows s c t := by
  refine ⟨hui ▸ h, fun _ => hmeets, fun _ => ?_⟩
  unfold Shown
  rw [hui, hwant]
  exact hshown

theorem bufs_enter {win : BitVec 32} (hreg : (l.bufs win).isSome) (file : CStr) :
    ((l.enter file).bufs win).isSome := by
  unfold Look.enter
  split
  · exact hreg
  · dsimp only
    rw [Function.update_apply]
    split_ifs
    · rfl
    · exact hreg

/-- A sign that is wanted has the key of another one if they are of one kind and alike. -/
theorem key_eq_iff (h : (look shows s.ui).Inv) (hshown : Shown shows s)
    (hroom : (look shows s.ui).bufid.toNat + 1 < 2 ^ 31)
    {file file' : CStr} {line line' : BitVec 32}
    {type type' : AnnoType} {o : Option CStr}
    (ho : want (look shows s.ui) s.breakptLst s.stopped o =
      some (wanted (look shows s.ui) file' line' type')) :
    (wanted (look shows s.ui) file' line' type').1 = (wanted ((look shows s.ui).enter file) file line type).1 ↔
      type'.sign = type.sign ∧ Alike s file' line' file line := by
  have hreg : ((look shows s.ui).bufs ((look shows s.ui).winGetid file')).isSome :=
    registered_of_good hshown o _ _ ho
  have hsame := winGetid_enter h hreg file
  obtain ⟨n, hn, -⟩ := exists_entered h file
  have hcwd : ((look shows s.ui).enter file).cwd = s.ui.cwd := (annoId_enter _ file).2.1
  have hwin := @winGetid_eq_iff _ file' file (inv_enter h hroom file)
    (by rw [hsame]; exact bufs_enter hreg file) (by rw [hn]; rfl)
  rw [hsame, hcwd] at hwin
  unfold wanted Alike
  rw [Prod.mk.injEq, hwin, annoKey_eq_iff]
  exact and_assoc.symm.trans and_comm

theorem want_unknown {key : CStr} (h : breakptLst.lookup key = none) :
    want l breakptLst stopped (some key) = none := by
  simp [want, h]

/-- The sign of a breakpoint is added: in the colour of one that is enabled, and where none is alike. -/
theorem good_add_iff (h : (look shows s.ui).Inv) (hshown : Shown shows s)
    (hroom : (look shows s.ui).bufid.toNat + 1 < 2 ^ 31) {b : Breakpoint}
    (hkey : s.breakptLst.lookup (key b) = none) {file : CStr} (hfile : b.fullname = some file) {l' : Look}
    (hl' : Added (look shows s.ui) file (b.line.getD 0) (breakSign true) l') :
    l'.board.Good (want l' (s.breakptLst.insert (key b) b) s.stopped) ↔ AddMeets s b := by
  have hwanted : wanted l' file (b.line.getD 0) (breakSign (b.enabled.getD false)) =
      ((wanted ((look shows s.ui).enter file) file (b.line.getD 0) (breakSign true)).1,
        ⟨b.line.getD 0, breakSign (b.enabled.getD false)⟩) := by
    unfold wanted
    rw [hl'.names.winGetid]
    rfl
  rw [want_insert, hfile, Option.map_some, want_sameNames hl'.names, hl'.board,
    want_enter h (registered_of_good hshown) file, hwanted, good_put_iff h.sound hshown (h.fresh _)]
  constructor
  · rintro ⟨-, hmark, hfree⟩ - file' hfile'
    obtain rfl := Option.some.inj (hfile.symm.trans hfile')
    refine ⟨(breakSign_eq_iff _).mp (congrArg Mark.type hmark), ?_⟩
    intro k b' file' hb' hfile' halike
    have ho := @want_breakpoint (look shows s.ui) _ _ s.stopped _ _ hb' hfile'
    refine hfree (some k) (fun heq => ?_) _ (ho.trans (congrArg some (Prod.ext ?_ rfl)))
    · rw [Option.some.inj heq, hkey] at hb'
      cases hb'
    · exact (key_eq_iff h hshown hroom ho).mpr ⟨rfl, halike⟩
  · intro hmeets
    obtain ⟨henabled, hmeets⟩ := hmeets hkey file hfile
    refine ⟨want_unknown hkey, by rw [henabled], fun o' ho' m'' hm'' => ?_⟩
    obtain ⟨file', line', type', hk, ⟨rfl, -, rfl⟩ | ⟨k, b', rfl, hb', hfile', rfl, rfl⟩⟩ :=
      want_eq_some_iff.mp hm''
    · exact ip_ne_break _ _ _ (Prod.mk.inj (Prod.mk.inj hk).1).2.symm
    · rw [hk] at hm''
      exact hmeets k b' file' hb' hfile'
        ((key_eq_iff h hshown hroom hm'').mp (Prod.mk.inj hk).1.symm).2

/-- Nothing is shown where there should be no sign. -/
theorem bare_of_free (hshown : Shown shows s) {win : BitVec 32} (hfree : Free shows s win) :
    (look shows s.ui).Bare win := by
  intro id
  cases hm : (look shows s.ui).shown (win, id) with
  | none => rfl
  | some m =>
      obtain ⟨o, k, m', ho, hi⟩ := hshown.only (win, id) m hm
      exact absurd (window_of_record hi).symm (hfree o k m' ho)

/-- The sign of a breakpoint is deleted, and it is the only one with its key. -/
theorem good_delete (h : (look shows s.ui).Inv) (hshown : Shown shows s)
    (hroom : (look shows s.ui).bufid.toNat + 1 < 2 ^ 31)
    {argv2 : CStr} {b : Breakpoint} (hb : s.breakptLst.lookup argv2 = some b) {file : CStr}
    (hfile : b.fullname = some file) :
    ((look shows s.ui).board.take
      (wanted ((look shows s.ui).enter file) file (b.line.getD 0) (breakSign (b.enabled.getD false))).1).Good
        (want ((look shows s.ui).enter file) (s.breakptLst.erase argv2) s.stopped) := by
  have ho := @want_breakpoint (look shows s.ui) _ _ s.stopped _ _ hb hfile
  obtain ⟨hgone, hstay⟩ := @want_erase (look shows s.ui) s.breakptLst s.stopped argv2
  have hkey := (@key_eq_iff _ s h hshown hroom file _ (b.line.getD 0) _
    (breakSign (b.enabled.getD false)) _ _ ho).mpr ⟨rfl, rfl, rfl⟩
  have hreg : ∀ o k m, want (look shows s.ui) (s.breakptLst.erase argv2) s.stopped o = some (k, m) →
      ((look shows s.ui).bufs k.1).isSome := by
    intro o k m hk
    have hne : o ≠ some argv2 := by
      rintro rfl
      rw [hgone] at hk
      cases hk
    exact registered_of_good hshown o k m ((hstay o hne).symm.trans hk)
  rw [want_enter h hreg file,
    good_take_iff h.sound hshown (S := fun o => o = some argv2) (fun o ho => ho ▸ hgone) hstay, ← hkey]
  intro o k m hk
  constructor
  · rintro rfl
    rw [ho] at hk
    exact (congrArg Prod.fst (Option.some.inj hk)).symm
  · rintro rfl
    exact hshown.eq_of_key hk ho

/-- The sign of a breakpoint is deleted, and added again for the value it is set to. -/
theorem good_setEnabled (h : (look shows s.ui).Inv) (hshown : Shown shows s)
    (hroom : (look shows s.ui).bufid.toNat + 1 < 2 ^ 31) {argv2 : CStr} {b : Breakpoint}
    (hb : s.breakptLst.lookup argv2 = some b) {file : CStr} (hfile : b.fullname = some file) (v : Bool)
    {l l' : Look} (hl : Deleted (look shows s.ui) file (b.line.getD 0) (breakSign (b.enabled.getD false)) l)
    (hl' : Added l file (b.line.getD 0) (breakSign v) l') :
    l'.board.Good (want l' (s.breakptLst.insert argv2 { b with enabled := some v }) s.stopped) := by
  have henter : l.enter file = l := enter_of_sameNames h hl.names
  have hnames := hl'.names
  have hboard := hl'.board
  rw [henter] at hnames hboard
  have hgood := good_delete h hshown hroom hb hfile
  rw [← hl.board, ← want_sameNames hl.names] at hgood
  obtain ⟨hgone, hstay⟩ := @want_erase l s.breakptLst s.stopped argv2
  rw [hboard, want_sameNames hnames, want_insert, ← update_want_erase]
  dsimp only
  rw [hfile]
  refine (good_put_iff hl.inv.sound hgood (hl.inv.fresh (l.winGetid file))).mpr
    ⟨hgone, rfl, fun o ho m hk => ?_⟩
  -- the key was that of the breakpoint before
  rw [hstay o ho, want_sameNames hl.names, want_enter h (registered_of_good hshown) file] at hk
  have hown := @want_breakpoint (look shows s.ui) _ _ s.stopped _ _ hb hfile
  have hwin : l.winGetid file = (look shows s.ui).winGetid file := (hl.names.winGetid file).trans
    (winGetid_enter h (registered_of_good hshown _ _ _ hown) file)
  unfold wanted at hk
  rw [hwin] at hk
  exact ho (hshown.eq_of_key hk hown)

/-- The signs that are wanted, once the program has gone on. -/
theorem want_gone (started : Bool) (o : Option CStr) :
    (o = none ∧ started = true → want l breakptLst (if started then none else stopped) o = none) ∧
      (¬ (o = none ∧ started = true) →
        want l breakptLst (if started then none else stopped) o = want l breakptLst stopped o) := by
  cases o <;> cases started <;> simp [want]

/-- An event that no place is given for. -/
theorem settles_event (h : (look shows s.ui).Inv) (hshown : Shown shows s)
    (hc : Meets shows s c ↔ s.stopped = none) (hui : t.ui = s.ui) (hlst : t.breakptLst = s.breakptLst)
    (hstopped : t.stopped = none) : Settles shows s c t := by
  have hgone := fun o => @want_gone (look shows s.ui) s.breakptLst s.stopped true o
  unfold Settles Shown
  rw [hui, hlst, hstopped, hc]
  refine ⟨h, (good_forget_iff hshown (S := fun o => o = none ∧ true = true) (fun o => (hgone o).1)
    fun o => (hgone o).2).trans ?_⟩
  refine ⟨fun hnone => want_none_iff.mp (hnone none ⟨rfl, rfl⟩), ?_⟩
  rintro hs o ⟨rfl, -⟩
  exact want_none_iff.mpr hs

/-- A use of a window that is quiet. -/
theorem settles_quiet {p : Ui Unit} (h : (look shows s.ui).Inv) (hshown : Shown shows s)
    (hmeets : Meets shows s c) (hp : Quiet (look shows) (look shows s.ui) p)
    (hrun : s.call p (fun ui => { s with ui }) = some t) : Settles shows s c t := by
  obtain ⟨u, rfl, hu⟩ := exists_of_call hrun (P := fun u => look shows u = look shows s.ui) (hp.post rfl)
  exact settles_same h hshown hmeets hu rfl

section Steps

variable [Documented shows]

theorem settles_add (h : (look shows s.ui).Inv) (hshown : Shown shows s)
    (hroom : (look shows s.ui).bufid.toNat + 1 < 2 ^ 31) (hroom' : (look shows s.ui).annoId.toNat + 1 < 2 ^ 32)
    (hbare : (look shows s.ui).Bare ((look shows s.ui).winGetid "breakpoints".toList))
    (b : Breakpoint) (hrun : s.breakAdd replies b = some t) : Settles shows s (.add (some b)) t := by
  unfold State.breakAdd at hrun
  cases hkey : s.breakptLst.lookup (key b) with
  | some _ =>
      rw [hkey] at hrun
      obtain rfl := Option.some.inj hrun
      refine settles_same h hshown (fun hnone => ?_) rfl rfl
      exact absurd (hkey.symm.trans hnone) (Option.some_ne_none _)
  | none =>
      rw [hkey] at hrun
      dsimp only at hrun
      cases hfile : b.fullname with
      | none =>
          obtain ⟨u, rfl, hu⟩ := exists_of_call hrun (P := fun u => look shows u = look shows s.ui) (by
            rw [post_bind, hfile]
            refine (post_breakptPrint rfl hbare _).mono (fun _ t ht => ?_) fun _ _ h => h
            exact post_addSign_none ht h _ _)
          refine settles_same h hshown
            (fun _ file heq => absurd (heq.symm.trans hfile) (Option.some_ne_none _)) hu ?_
          dsimp only
          rw [want_insert, hfile, Option.map_none, ← want_unknown hkey, Function.update_eq_self]
      | some file =>
          obtain ⟨u, rfl, hu⟩ := exists_of_call hrun
            (P := fun u => Added (look shows s.ui) file (b.line.getD 0) (breakSign true) (look shows u)) (by
            rw [post_bind, hfile]
            refine (post_breakptPrint rfl hbare _).mono (fun _ t ht => ?_) fun _ _ h => h
            exact post_addSign ht h hroom hroom' file _ (breakSign_mem true))
          exact ⟨hu.inv, good_add_iff h hshown hroom hkey hfile hu⟩

theorem settles_delete (h : (look shows s.ui).Inv) (hshown : Shown shows s)
    (hroom : (look shows s.ui).bufid.toNat + 1 < 2 ^ 31)
    (hbare : (look shows s.ui).Bare ((look shows s.ui).winGetid "breakpoints".toList)) (argv2 : CStr)
    (hrun : s.breakDelete replies argv2 = some t) : Settles shows s (.delete argv2 true) t := by
  unfold State.breakDelete at hrun
  cases hb : s.breakptLst.lookup argv2 with
  | none =>
      rw [hb] at hrun
      obtain rfl := Option.some.inj hrun
      exact settles_same h hshown trivial rfl rfl
  | some b =>
      rw [hb] at hrun
      dsimp only at hrun
      cases hfile : b.fullname with
      | none =>
          obtain ⟨u, rfl, hu⟩ := exists_of_call hrun (P := fun u => look shows u = look shows s.ui) (by
            rw [post_bind, hfile]
            refine (post_deleteSign_none rfl h _ _).mono (fun _ t ht => ?_) fun _ _ h => h
            exact post_breakptPrint ht hbare _)
          refine settles_same h hshown trivial hu ?_
          obtain ⟨hgone, hstay⟩ := @want_erase (look shows s.ui) s.breakptLst s.stopped argv2
          funext o
          by_cases ho : o = some argv2
          · rw [ho]
            refine hgone.trans ?_
            simp [want, hb, hfile]
          · exact hstay o ho
      | some file =>
          obtain ⟨u, rfl, hu⟩ := exists_of_call hrun (P := fun u =>
            Deleted (look shows s.ui) file (b.line.getD 0) (breakSign (b.enabled.getD false))
              (look shows u)) (by
            rw [post_bind, hfile]
            refine (post_deleteSign rfl h hroom file _ (breakSign (b.enabled.getD false))).mono
              (fun _ t ht => ?_) fun _ _ h => h
            have hreg := registered_of_good hshown _ _ _ (want_breakpoint hb hfile)
            refine (post_breakptPrint rfl (ht.bare h hreg hbare) _).mono (fun _ u hu => ?_) fun _ u hu => hu
            exact hu ▸ ht)
          refine ⟨hu.inv, fun _ => trivial, fun _ => ?_⟩
          unfold Shown
          dsimp only
          rw [hu.board, want_sameNames hu.names]
          exact good_delete h hshown hroom hb hfile

theorem settles_setEnabled (h : (look shows s.ui).Inv) (hshown : Shown shows s)
    (hroom : (look shows s.ui).bufid.toNat + 2 < 2 ^ 31) (hroom' : (look shows s.ui).annoId.toNat + 1 < 2 ^ 32)
    (hbare : (look shows s.ui).Bare ((look shows s.ui).winGetid "breakpoints".toList))
    (argv2 : CStr) (v : Bool) (hrun : s.breakSetEnabled replies argv2 v = some t) :
    Settles shows s (.setEnabled argv2 v true) t := by
  unfold State.breakSetEnabled at hrun
  cases hb : s.breakptLst.lookup argv2 with
  | none =>
      rw [hb] at hrun
      obtain rfl := Option.some.inj hrun
      exact settles_same h hshown trivial rfl rfl
  | some b =>
      rw [hb] at hrun
      dsimp only at hrun
      cases hfile : b.fullname with
      | none =>
          obtain ⟨u, rfl, hu⟩ := exists_of_call hrun (P := fun u => look shows u = look shows s.ui) (by
            rw [post_bind, hfile]
            refine (post_breakptPrint rfl hbare _).mono (fun _ t ht => ?_) fun _ _ h => h
            rw [post_bind]
            refine (post_deleteSign_none ht h _ _).mono (fun _ u hu => ?_) fun _ _ h => h
            exact post_addSign_none hu h _ _)
          refine settles_same h hshown trivial hu ?_
          have hnone : want (look shows s.ui) s.breakptLst s.stopped (some argv2) = none := by
            simp [want, hb, hfile]
          dsimp only
          rw [want_insert]
          dsimp only
          rw [hfile, Option.map_none, ← hnone, Function.update_eq_self]
      | some file =>
          obtain ⟨u, rfl, l, hl, hu⟩ := exists_of_call hrun (P := fun u => ∃ l,
            Deleted (look shows s.ui) file (b.line.getD 0) (breakSign (b.enabled.getD false)) l ∧
              Added l file (b.line.getD 0) (breakSign v) (look shows u)) (by
            rw [post_bind, hfile]
            refine (post_breakptPrint rfl hbare _).mono (fun _ t ht => ?_) fun _ _ h => h
            rw [post_bind]
            refine (post_deleteSign ht h (by omega) file _ (breakSign (b.enabled.getD false))).mono
              (fun _ u hu => ?_) fun _ _ h => h
            have hbufid := (annoId_enter (look shows s.ui) file).2.2
            refine (post_addSign rfl hu.inv ?_ ?_ file _ (breakSign_mem v)).mono
              (fun _ w hw => ⟨look shows u, hu, hw⟩) fun _ _ h => h
            · rw [hu.names.bufid]
              omega
            · rw [hu.annoId]
              exact hroom')
          exact ⟨hu.inv, fun _ => trivial, fun _ => good_setEnabled h hshown (by omega) hb hfile v hl hu⟩

theorem settles_exec (h : (look shows s.ui).Inv) (hshown : Shown shows s)
    (hroom : (look shows s.ui).bufid.toNat + 1 < 2 ^ 31) (hrunning : s.isRunning = false) (sub : Sub)
    (loc : Location) (found first second : Bool)
    (hrun : s.cmdExec sub loc found first second = some t) :
    Settles shows s (.exec sub (some (loc, found)) first second) t := by
  have hmeets : Meets shows s (.exec sub (some (loc, found)) first second) ↔
      ∀ file line, s.stopped = some (file, line) → (sub.started first second = true ↔
        ∃ file', visible found loc.fullname = some file' ∧ Alike s file line file' (loc.line.getD 0)) :=
    ⟨fun hm => hm hrunning, fun hm _ => hm⟩
  unfold State.cmdExec at hrun
  dsimp only at hrun
  cases hfile : visible found loc.fullname with
  | none =>
      rw [hfile] at hrun
      obtain rfl := Option.some.inj hrun
      refine ⟨h, ?_⟩
      unfold Shown
      dsimp only
      rw [good_forget_iff hshown (S := fun o => o = none ∧ sub.started first second = true)
        (fun o => (want_gone _ o).1) (fun o => (want_gone _ o).2), hmeets, hfile]
      constructor
      · intro hnone file line hstopped
        refine ⟨fun hstarted => ?_, fun h => absurd h (by simp)⟩
        have hnone := want_none_iff.mp (hnone none ⟨rfl, hstarted⟩)
        cases hstopped.symm.trans hnone
      · rintro hm o ⟨rfl, hstarted⟩
        apply want_none_iff.mpr
        cases hstopped : s.stopped with
        | none => rfl
        | some p =>
            obtain ⟨_, hvisible, -⟩ := (hm p.1 p.2 hstopped).mp hstarted
            cases hvisible
  | some file =>
      rw [hfile] at hrun
      obtain ⟨u, rfl, hu⟩ := exists_of_call hrun
        (P := fun u => Deleted (look shows s.ui) file (loc.line.getD 0) ipSign (look shows u))
        (post_deleteSign rfl h hroom file _ ipSign)
      refine ⟨hu.inv, ?_⟩
      have hgone := fun o => @want_gone ((look shows s.ui).enter file) s.breakptLst s.stopped
        (sub.started first second) o
      have henter := want_enter h (registered_of_good hshown) file
      unfold Shown
      dsimp only
      rw [hu.board, want_sameNames hu.names,
        good_take_iff h.sound hshown (S := fun o => o = none ∧ sub.started first second = true)
          (fun o => (hgone o).1) (fun o ho => ((hgone o).2 ho).trans (congrFun henter o)), hmeets, hfile]
      constructor
      · intro hm file' line hstopped
        have ho : want (look shows s.ui) s.breakptLst s.stopped none =
            some (wanted (look shows s.ui) file' line ipSign) := by
          rw [want, hstopped]
          rfl
        have hiff := (hm none _ _ ho).trans (key_eq_iff h hshown hroom ho)
        simp only [true_and] at hiff
        rw [hiff]
        simp
      · intro hm o k m hk
        obtain ⟨file', line', type', hk', ⟨rfl, hstopped, rfl⟩ | ⟨key, b, rfl, -, -, rfl, rfl⟩⟩ :=
          want_eq_some_iff.mp hk
        · have hkey : k = (wanted (look shows s.ui) file' line' ipSign).1 := congrArg Prod.fst hk'
          rw [hk'] at hk
          rw [hkey, key_eq_iff h hshown hroom hk, hm file' line' hstopped]
          simp
        · have hne := ip_ne_break (loc.line.getD 0) (b.line.getD 0) (b.enabled.getD false)
          have hkey : k = (wanted (look shows s.ui) file' _ (breakSign (b.enabled.getD false))).1 :=
            congrArg Prod.fst hk'
          refine ⟨fun heq => absurd heq.1 (by simp), fun heq => absurd ?_ hne⟩
          exact (Prod.mk.inj (heq.symm.trans hkey)).2

theorem settles_evtStopped (h : (look shows s.ui).Inv) (hshown : Shown shows s)
    (hroom : (look shows s.ui).bufid.toNat + 1 < 2 ^ 31) (hroom' : (look shows s.ui).annoId.toNat + 1 < 2 ^ 32)
    (e : EventStop) (found : Bool) (hrun : (place e found).bind (s.evtStopped replies) = some t) :
    Settles shows s (.evtStopped e found) t := by
  obtain ⟨p, -, hrun⟩ := Option.bind_eq_some_iff.mp hrun
  cases p with
  | none =>
      obtain rfl := Option.some.inj hrun
      exact settles_event h hshown Iff.rfl rfl rfl rfl
  | some p =>
      obtain ⟨file, line⟩ := p
      dsimp only [State.evtStopped] at hrun
      obtain ⟨u, rfl, hu⟩ := exists_of_call hrun
        (P := fun u => Added (look shows s.ui) file line ipSign (look shows u)) (by
        rw [post_bind]
        refine (post_addSign rfl h hroom hroom' file line ipSign_mem).mono (fun _ t ht => ?_) fun _ _ h => h
        rw [post_bind]
        refine (post_window rfl ht.inv file).mono (fun win u hu => ?_) fun _ _ h => h
        have hsame : look shows u = look shows t := hu.1.trans (enter_of_sameNames h ht.names)
        refine ((quiet_winCursorSet win line 0).post_attempt hsame).mono (fun _ v hv => ?_) fun _ _ h => h
        exact hv ▸ ht)
      refine ⟨hu.inv, ?_⟩
      unfold Shown
      dsimp only
      have henter := want_enter h (registered_of_good hshown) file
      rw [hu.board, want_sameNames hu.names, @want_stopped _ _ s.stopped, henter]
      refine (good_put_iff h.sound hshown (h.fresh _)).trans ?_
      refine ⟨fun hgood => want_none_iff.mp hgood.1,
        fun hs => ⟨want_none_iff.mpr hs, rfl, fun o ho m hk => ?_⟩⟩
      obtain ⟨file', line', type', hk', ⟨rfl, -, -⟩ | ⟨key, b, rfl, -, -, rfl, rfl⟩⟩ :=
        want_eq_some_iff.mp hk
      · exact ho rfl
      · exact ip_ne_break _ _ _ (Prod.mk.inj (Prod.mk.inj hk').1).2

theorem settles_winCreate (h : (look shows s.ui).Inv) (hshown : Shown shows s)
    (hroom : (look shows s.ui).bufid.toNat + 1 < 2 ^ 31) (name : Option CStr) (hmeets : Meets shows s c)
    (hrun : s.call (do let _ ← winCreate name) (fun ui => { s with ui }) = some t) : Settles shows s c t := by
  cases name with
  | none => exact settles_quiet h hshown hmeets (quiet_throw.bind fun _ => quiet_pure ()) hrun
  | some file =>
      obtain ⟨u, rfl, hu⟩ := exists_of_call hrun
        (P := fun u => look shows u = (look shows s.ui).enter file) (by
        rw [post_bind]
        refine (post_winCreate file (not_slt_zero h.counted.2) (h.closed _ h.next_window).2
          fun win hwin => ?_).mono (fun _ t ht => post_pure.mpr ht.1) fun _ _ h => h
        obtain ⟨n, hn, -⟩ := (h.named _ win).mp hwin
        exact zero_slt (h.window win n hn).1 ((h.window win n hn).2.trans h.counted.2))
      have hinv := inv_enter h hroom file
      refine ⟨hu ▸ hinv, fun _ => hmeets, fun _ => ?_⟩
      unfold Shown
      dsimp only
      rw [hu, board_enter h, want_enter h (registered_of_good hshown)]
      exact hshown

/-- A window that is closed takes the signs with it that are wanted in it. -/
theorem settles_winDestroy (h : (look shows s.ui).Inv) (hshown : Shown shows s)
    (win : BitVec 32) (hrun : s.call (winDestroy win) (fun ui => { s with ui }) = some t) :
    Settles shows s (.window (.winDestroy win)) t := by
  cases hn : (look shows s.ui).bufs win with
  | none =>
      obtain ⟨u, rfl, hu⟩ := exists_of_call hrun (P := fun u => look shows u = look shows s.ui)
        (post_winDestroy_unknown hn (h.closed win hn).1 (h.closed win hn).2)
      refine settles_same h hshown (fun o k m hk heq => ?_) hu rfl
      have hreg := registered_of_good hshown o k m hk
      rw [heq, hn] at hreg
      cases hreg
  | some n =>
      obtain ⟨u, rfl, hu⟩ := exists_of_call hrun (P := fun u => look shows u = (look shows s.ui).close win n)
        ((post_winDestroy (h.not_slt hn) hn).mono (fun _ _ h => h) fun _ _ h => h)
      obtain ⟨hboard, hinv⟩ := inv_close h hn
      have hrecord : ∀ k i, (look shows s.ui).board.record k = some i → (k.1 = win ↔ i.1 = win) := by
        intro k i hi
        rw [window_of_record hi]
      refine ⟨hu ▸ hinv, ?_⟩
      unfold Shown
      dsimp only
      rw [hu]
      constructor
      · -- a sign that is wanted in the window would not be found any longer
        intro hgood o k m hk hwin
        obtain ⟨file, line, type, hk', hw⟩ := want_eq_some_iff.mp hk
        have hown := want_eq_some_iff (l := (look shows s.ui).close win n).mpr ⟨file, line, type, rfl, hw⟩
        have hreg := registered_of_good hgood o _ _ hown
        have hfile : (look shows s.ui).winGetid file = win :=
          (Prod.mk.inj (Prod.mk.inj hk').1).1.symm.trans hwin
        dsimp only [wanted] at hreg
        rw [winGetid_close h hn hfile, bufs_neg_one hinv] at hreg
        cases hreg
      · intro hm
        rw [want_congr fun o file line type hw => winGetid_close_ne h hn
          (hm o _ _ (want_eq_some_iff.mpr ⟨file, line, type, rfl, hw⟩)), hboard]
        exact (good_wipe_iff hshown hrecord).mpr hm

/-- One step. -/
theorem settles (h : (look shows s.ui).Inv) (hshown : Shown shows s)
    (hstep : Step shows replies s c t) : Settles shows s c t := by
  obtain ⟨hroom, hroom', hforeign, hwritten, hrun⟩ := hstep
  have hroom : (look shows s.ui).bufid.toNat + 2 < 2 ^ 31 := hroom
  have hsame : ∀ {c}, some s = some t → Meets shows s c → Settles shows s c t := fun heq hmeets =>
    Option.some.inj heq ▸ settles_same h hshown hmeets rfl rfl
  cases c with
  | add answer =>
      cases answer with
      | none => exact hsame hrun trivial
      | some b => exact settles_add h hshown (by omega) hroom' (bare_of_free hshown (hwritten _ rfl)) b hrun
  | delete argv2 ok =>
      cases ok with
      | false => exact hsame hrun trivial
      | true => exact settles_delete h hshown (by omega) (bare_of_free hshown (hwritten _ rfl)) argv2 hrun
  | setEnabled argv2 v ok =>
      cases ok with
      | false => exact hsame hrun trivial
      | true =>
          exact settles_setEnabled h hshown hroom hroom' (bare_of_free hshown (hwritten _ rfl)) argv2 v hrun
  | exec sub loc first second =>
      dsimp only [Cmd.run] at hrun
      cases hrunning : s.isRunning with
      | true =>
          rw [hrunning, if_pos rfl] at hrun
          refine hsame hrun ?_
          cases loc with
          | none => trivial
          | some p => exact fun hno => absurd (hno.symm.trans hrunning) Bool.false_ne_true
      | false =>
          rw [hrunning, if_neg Bool.false_ne_true] at hrun
          cases loc with
          | none => exact hsame hrun trivial
          | some p => exact settles_exec h hshown (by omega) hrunning sub p.1 p.2 first second hrun
  | evtRunning =>
      obtain rfl := Option.some.inj hrun
      exact settles_event h hshown Iff.rfl rfl rfl rfl
  | evtStopped e found => exact settles_evtStopped h hshown (by omega) hroom' e found hrun
  | window op =>
      cases op with
      | winAtomic win en => exact settles_quiet h hshown trivial (quiet_atomic win en true) hrun
      | winCreate name => exact settles_winCreate h hshown (by omega) name trivial hrun
      | create name => exact hforeign.elim
      | winDestroy win => exact settles_winDestroy h hshown win hrun
      | winAnnoAdd win line sign colorFg colorBg => exact hforeign.elim
      | winAnnoDelete win line sign => exact hforeign.elim
      | winCursorSet win line col =>
          exact settles_quiet h hshown trivial (quiet_winCursorSet win line col) hrun
      | winCursorPreserve win pc => exact settles_quiet h hshown trivial (quiet_winCursorPreserve win pc) hrun
      | winReadonly win ro => exact settles_quiet h hshown trivial (quiet_winReadonly win ro) hrun
      | winPrint win text =>
          have hbare := bare_of_free hshown (hwritten win rfl)
          exact settles_quiet h hshown trivial (quiet_winPrint_bare hbare text) hrun
      | winClear win =>
          have hbare := bare_of_free hshown (hwritten win rfl)
          exact settles_quiet h hshown trivial (quiet_winClear_bare hbare) hrun

end Steps

/-! ## Runs -/

theorem bufs_init (cwd : CStr) (win : BitVec 32) : (look shows (State.init cwd).ui).bufs win = none := by
  simp [look, State.init]

theorem record_init (cwd : CStr) (k : BitVec 32 × CStr) :
    (look shows (State.init cwd).ui).board.record k = none := by
  simp [Look.board, bufs_init]

theorem inv_init [Documented shows] (cwd : CStr) : (look shows (State.init cwd).ui).Inv where
  counted := by simp [look, State.init]
  window win n hn := by simp [bufs_init] at hn
  named name win := by simp [look, State.init]
  closed win _ := ⟨rfl, fun id => Documented.start (win, id)⟩
  typed win n hn := by simp [bufs_init] at hn
  placed win id m hm := by
    have hnone : shows [] (win, id) = none := Documented.start (win, id)
    cases hnone.symm.trans hm
  sound := by constructor <;> simp [record_init]

theorem want_init (cwd : CStr) (o : Option CStr) :
    want l (State.init cwd).breakptLst (State.init cwd).stopped o = none := by
  cases o <;> simp [want, State.init]

theorem shown_init [Documented shows] (cwd : CStr) : Shown shows (State.init cwd) := by
  constructor
  · simp [want_init]
  · simp [want_init]
  · intro i m hm
    have hnone : shows [] i = none := Documented.start i
    cases hnone.symm.trans hm

/-- Vim always shows the signs that there should be in the runs whose steps are as they must be. -/
theorem run_shown_iff (shows : Display) [Documented shows] (replies : Nat → Option Cursor) (cwd : CStr)
    (cs : List Cmd) (t : State) :
    Run (fun s c t => Step shows replies s c t ∧ Shown shows t) (State.init cwd) cs t ↔
      Run (fun s c t => Step shows replies s c t ∧ Meets shows s c) (State.init cwd) cs t := by
  apply @Run.guarded_iff _ _ (Step shows replies) (fun s => (look shows s.ui).Inv ∧ Shown shows s)
    (fun _ _ t => Shown shows t) (fun s c _ => Meets shows s c) _ ⟨inv_init cwd, shown_init cwd⟩
  · intro s c t hs hstep hmeets
    obtain ⟨hinv, hiff⟩ := settles hs.1 hs.2 hstep
    exact ⟨hinv, hiff.mpr hmeets⟩
  · intro s c t hs hstep
    exact (settles hs.1 hs.2 hstep).2

/-- A breakpoint is added, and its sign is shown. -/
theorem breakpoint_shown : ∃ t,
    Run (fun s c t => Step plainDisplay (fun _ => none) s c t ∧ Shown plainDisplay t) (State.init "/".toList)
      ([] ++ [.add (some
        { line := some 5, filename := some "a.c".toList, fullname := some "/a.c".toList,
          enabled := some true })]) t := by
  refine ⟨_, (run_shown_iff plainDisplay _ _ _ _).mpr
    (.snoc .nil ⟨⟨by decide, by decide, trivial, fun win _ o k m hk => ?_, rfl⟩, fun _ file _ => ?_⟩)⟩
  · cases (want_init _ o).symm.trans hk
  · exact ⟨rfl, fun k b' file' hb' => by simp [State.init] at hb'⟩

end Vimgdb.Signs
