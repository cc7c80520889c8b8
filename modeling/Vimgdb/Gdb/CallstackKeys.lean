import Vimgdb.Gdb.Callstack
import Vimgdb.Lib.Codes

/-!
# Keys of the callstack

The context of a frame is made of the functions and arguments that lead to it, one behind the other.
It is part of the keys of frames and variables.

* `stackContext`: the context that `cmd_callstack_update` has come to behind some frames.
* `KeysInjective`: different frames have different contexts and keys.
* `Decodable`, `Apart`: what this takes of the functions, arguments and names of a program.
* `keysInjective_iff`: this is what it takes.
-/

namespace Vimgdb.Gdb.Callstack

open InformationTheory Codes
open VariableMaps (key)

/-! ## Stacks -/

/-- An argument: its type and its name. -/
abbrev Arg := CStr × CStr

/-- The arguments among the variables. -/
def args (xs : List Listed) : List Arg :=
  (xs.filter fun x => x.var.argument).map fun x => (x.var.type.getD [], x.var.name.getD [])

/-- The function and the arguments. -/
def Level.call (l : Level) : CStr × List Arg := (l.function, args (l.vars.getD []))

/-- The context behind the frames, the outermost first. -/
def stackContext (ls : List Level) : CStr := ls.foldl (fun ctx l => l.context ctx) []

/-- What gdb reports of a call. -/
def Level.ofCall (c : CStr × List Arg) : Level where
  frame := { function := some c.1 }
  vars := some (c.2.map fun p =>
    { var := { type := some p.1, name := some p.2, argument := true }
      create := some {}
      info := some {}
      deleted := true })

/-- What a context is made of. -/
inductive Word
  | function (name : CStr)
  | argument (a : Arg)

/-- Its text. -/
def Word.text : Word → CStr
  | function name => name ++ [':']
  | argument a => a.1 ++ a.2

/-- The words of some calls. -/
def words (calls : List (CStr × List Arg)) : List Word :=
  calls.flatMap fun c => .function c.1 :: c.2.map .argument

theorem call_ofCall (c : CStr × List Arg) : (Level.ofCall c).call = c := by
  obtain ⟨f, as⟩ := c
  have hargs : args (as.map fun p =>
      { var := { type := some p.1, name := some p.2, argument := true }
        create := some {}
        info := some {}
        deleted := true }) = as := by
    unfold args
    induction as with
    | nil => rfl
    | cons a as ih => exact congrArg (a :: ·) ih
  exact Prod.ext rfl hargs

theorem map_call_ofCalls (calls : List (CStr × List Arg)) :
    (calls.map Level.ofCall).map Level.call = calls := by
  induction calls with
  | nil => rfl
  | cons c calls ih => rw [List.map_cons, List.map_cons, ih, call_ofCall]

theorem complete_ofCall (c : CStr × List Arg) : (Level.ofCall c).Complete := by
  refine ⟨Option.some_ne_none _, _, rfl, fun x hx => ?_⟩
  obtain ⟨p, -, rfl⟩ := List.mem_map.mp hx
  exact ⟨Option.some_ne_none _, Option.some_ne_none _⟩

theorem args_cons (x : Listed) (xs : List Listed) : args (x :: xs) =
    if x.var.argument then (x.var.type.getD [], x.var.name.getD []) :: args xs else args xs := by
  unfold args
  rw [List.filter_cons]
  split <;> rfl

theorem arguments_eq_text {xs : List Listed} (h : ∀ x ∈ xs, x.var.name ≠ none ∧ x.var.type ≠ none) :
    arguments xs = some (((args xs).map Word.argument).flatMap Word.text) := by
  induction xs with
  | nil => rfl
  | cons x xs ih =>
      have ih := ih fun y hy => h y (List.mem_cons_of_mem x hy)
      obtain ⟨hname, htype⟩ := h x List.mem_cons_self
      obtain ⟨name, hname⟩ := Option.ne_none_iff_exists'.mp hname
      obtain ⟨type, htype⟩ := Option.ne_none_iff_exists'.mp htype
      unfold arguments
      rw [ih, hname, htype, args_cons, hname, htype]
      cases x.var.argument
      · rfl
      · rfl

theorem Level.Complete.context_eq {l : Level} (h : l.Complete) (ctx : CStr) :
    l.context ctx = ctx ++ (words [l.call]).flatMap Word.text := by
  obtain ⟨varlst, hvars, hnamed⟩ := h.listed
  unfold Level.context words Level.call
  rw [hvars, Option.getD_some, arguments_eq_text hnamed, Option.getD_some]
  simp [Word.text]

/-- The context is the text of the calls. -/
theorem stackContext_eq {ls : List Level} (h : ∀ l ∈ ls, l.Complete) :
    stackContext ls = (words (ls.map Level.call)).flatMap Word.text := by
  induction ls using List.reverseRecOn with
  | nil => rfl
  | append_singleton ls l ih =>
      have ih := ih fun m hm => h m (List.mem_append_left _ hm)
      have hl := h l (List.mem_append_right _ (List.mem_singleton_self l))
      have hstep : stackContext (ls ++ [l]) = l.context (stackContext ls) := by
        unfold stackContext
        rw [List.foldl_append]
        rfl
      rw [hstep, hl.context_eq, ih]
      unfold words
      rw [List.map_append, List.flatMap_append, List.flatMap_append]
      rfl

/-! ## Words and calls -/

variable {calls calls' : List (CStr × List Arg)}

/-- The calls can be told from their words. -/
theorem words_injective (h : words calls = words calls') : calls = calls' := by
  have harguments : ∀ {as as' : List Arg} {ws ws' : List Word},
      (∀ a rest, ws ≠ .argument a :: rest) → (∀ a rest, ws' ≠ .argument a :: rest) →
        as.map .argument ++ ws = as'.map .argument ++ ws' → as = as' ∧ ws = ws' := by
    intro as as' ws ws' hws hws' heq
    induction as generalizing as' with
    | nil =>
        cases as' with
        | nil => exact ⟨rfl, heq⟩
        | cons a as' => exact absurd heq (hws _ _)
    | cons a as ih =>
        cases as' with
        | nil => exact absurd heq.symm (hws' _ _)
        | cons b as' =>
            obtain ⟨hab, hrest⟩ := List.cons.inj heq
            obtain ⟨rfl, hwords⟩ := ih hrest
            exact ⟨by rw [Word.argument.inj hab], hwords⟩
  have hfront : ∀ (calls : List (CStr × List Arg)) a rest, words calls ≠ .argument a :: rest := by
    intro calls a rest heq
    cases calls with
    | nil => cases heq
    | cons c calls => cases (List.cons.inj heq).1
  induction calls generalizing calls' with
  | nil =>
      cases calls' with
      | nil => rfl
      | cons c calls' => cases h
  | cons c calls ih =>
      cases calls' with
      | nil => cases h
      | cons c' calls' =>
          obtain ⟨hfunction, hrest⟩ := List.cons.inj h
          obtain ⟨hargs, hwords⟩ := harguments (hfront calls) (hfront calls') hrest
          rw [Prod.ext (Word.function.inj hfunction) hargs, ih hwords]

/-- Words behind a function are those of calls. -/
theorem exists_calls (f : CStr) (ws : List Word) :
    ∃ calls, words calls = .function f :: ws ∧ calls ≠ [] := by
  induction ws generalizing f with
  | nil => exact ⟨[(f, [])], rfl, List.cons_ne_nil _ _⟩
  | cons w ws ih =>
      cases w with
      | function g =>
          obtain ⟨calls, hcalls, -⟩ := ih g
          refine ⟨(f, []) :: calls, ?_, List.cons_ne_nil _ _⟩
          rw [← hcalls]
          rfl
      | argument a =>
          obtain ⟨calls, hcalls, -⟩ := ih f
          cases calls with
          | nil => cases hcalls
          | cons c calls =>
              obtain ⟨hfunction, hrest⟩ := List.cons.inj hcalls
              refine ⟨(f, a :: c.2) :: calls, ?_, List.cons_ne_nil _ _⟩
              rw [← hrest]
              rfl

/-! ## What is required and what it takes -/

variable {F V : Set CStr} {P : Set Arg} {T : List Level → CStr → Prop}

/-- The words of a program with the functions `F` and the arguments `P`. -/
def Word.Of (F : Set CStr) (P : Set Arg) : Set Word
  | .function f => f ∈ F
  | .argument a => a ∈ P

/-- The frames are of such a program, and gdb reports what it has to. -/
structure Over (F : Set CStr) (P : Set Arg) (ls : List Level) : Prop where
  complete : ∀ l ∈ ls, l.Complete
  mem : ∀ w ∈ words (ls.map Level.call), w ∈ Word.Of F P

/-- Keys that are made of the context and a name: if two are the same, so are the frames. -/
def Injective (F : Set CStr) (P : Set Arg) (T : List Level → CStr → Prop) : Prop :=
  ∀ ls ls' x x', Over F P ls → Over F P ls' → T ls x → T ls' x' →
    stackContext ls ++ ':' :: x = stackContext ls' ++ ':' :: x' →
      ls.map Level.call = ls'.map Level.call

/-- The name in the key of a frame is that of its function. -/
def FrameName (ls : List Level) (x : CStr) : Prop := ∃ l, ls.getLast? = some l ∧ x = l.function

/-- The name in the key of a variable is that of the variable. -/
def VariableName (V : Set CStr) (ls : List Level) (x : CStr) : Prop := ls ≠ [] ∧ x ∈ V

/-- Different frames have different contexts, different keys in `gdb_frame_lst`, and different keys
of their variables. -/
structure KeysInjective (F : Set CStr) (P : Set Arg) (V : Set CStr) : Prop where
  contexts : ∀ ls ls', Over F P ls → Over F P ls' → stackContext ls = stackContext ls' →
    ls.map Level.call = ls'.map Level.call
  frames : Injective F P FrameName
  vars : ∀ ls ls' x x', Over F P ls → Over F P ls' → VariableName V ls x → VariableName V ls' x' →
    key .callstack (stackContext ls) x = key .callstack (stackContext ls') x' →
      ls.map Level.call = ls'.map Level.call

/-- The texts of the words. -/
def texts (F : Set CStr) (P : Set Arg) : Set CStr := Word.text '' Word.Of F P

/-- Different words have different texts, none is empty, and no dangling suffixes of the texts lead
to an empty one. -/
structure Decodable (F : Set CStr) (P : Set Arg) : Prop where
  arguments : ∀ a ∈ P, ∀ b ∈ P, a.1 ++ a.2 = b.1 ++ b.2 → a = b
  functions : ∀ f ∈ F, ∀ a ∈ P, f ++ [':'] ≠ a.1 ++ a.2
  nonempty : ∀ a ∈ P, a.1 ++ a.2 ≠ []
  dangling : ¬ Dangling (texts F P) []

/-- The function among the words that is the last one. -/
def innermost : List Word → Option CStr
  | [] => none
  | .function f :: ws => some ((innermost ws).getD f)
  | .argument _ :: ws => innermost ws

/-- The words of frames: in front of arguments there is a function. -/
structure Frames (F : Set CStr) (P : Set Arg) (ws : List Word) : Prop where
  mem : ∀ w ∈ ws, w ∈ Word.Of F P
  front : ∃ f rest, ws = .function f :: rest

/-- If a name ends in a colon and another one, then what is in front of these does not make the text of some
words out of another. -/
def Apart (F : Set CStr) (P : Set Arg) (N : List Word → Set CStr) : Prop :=
  ∀ u v x y, Frames F P u → Frames F P v → x ∈ N u → y ++ ':' :: x ∈ N v →
    u.flatMap Word.text ≠ v.flatMap Word.text ++ ':' :: y

/-- The names in the keys of frames. -/
def frameNames (ws : List Word) : Set CStr := {x | innermost ws = some x}

theorem key_callstack_iff {ctx ctx' x x' : CStr} : key .callstack ctx x = key .callstack ctx' x' ↔
    ctx ++ ':' :: x = ctx' ++ ':' :: x' := by
  unfold key
  rw [List.append_assoc, List.append_assoc, List.append_cancel_left_eq]

theorem injOn_text_iff : Set.InjOn Word.text (Word.Of F P) ∧ UniquelyDecodable (texts F P) ↔
    Decodable F P := by
  rw [uniquelyDecodable_iff]
  constructor
  · rintro ⟨hinj, hempty, hnil⟩
    refine ⟨fun a ha b hb heq => ?_, fun f hf a ha heq => ?_, fun a ha heq => ?_, hnil⟩
    · exact Word.argument.inj (@hinj (.argument a) ha (.argument b) hb heq)
    · cases @hinj (.function f) hf (.argument a) ha heq
    · exact hempty ⟨.argument a, ha, heq⟩
  · rintro ⟨harguments, hfunctions, hnonempty, hnil⟩
    refine ⟨fun v hv w hw heq => ?_, ?_, hnil⟩
    · cases v with
      | function f =>
          cases w with
          | function g => rw [List.append_cancel_right heq]
          | argument a => exact absurd heq (hfunctions f hv a hw)
      | argument a =>
          cases w with
          | function f => exact absurd heq.symm (hfunctions f hw a hv)
          | argument b => rw [harguments a hv b hw heq]
    · rintro ⟨w, hw, heq⟩
      cases w with
      | function f => exact absurd heq (List.append_ne_nil_of_right_ne_nil _ (List.cons_ne_nil _ _))
      | argument a => exact hnonempty a hw heq

theorem Over.ofCalls (h : ∀ w ∈ words calls, w ∈ Word.Of F P) :
    Over F P (calls.map Level.ofCall) := by
  refine ⟨fun l hl => ?_, ?_⟩
  · obtain ⟨c, -, rfl⟩ := List.mem_map.mp hl
    exact complete_ofCall c
  · rw [map_call_ofCalls]
    exact h

theorem stackContext_ofCalls (calls : List (CStr × List Arg)) :
    stackContext (calls.map Level.ofCall) = (words calls).flatMap Word.text := by
  rw [stackContext_eq, map_call_ofCalls]
  intro l hl
  obtain ⟨c, -, rfl⟩ := List.mem_map.mp hl
  exact complete_ofCall c

/-- The contexts are different iff the words can be told from every text that is made of them. -/
theorem contexts_iff : (∀ ls ls', Over F P ls → Over F P ls' → stackContext ls = stackContext ls' →
    ls.map Level.call = ls'.map Level.call) ↔ (F.Nonempty → Decodable F P) := by
  constructor
  · rintro h ⟨f, hf⟩
    rw [← injOn_text_iff, texts, ← injective_flatMap_iff]
    intro u v hu hv heq
    -- the words of the calls of a function
    have hbehind : ∀ ws, (∀ w ∈ ws, w ∈ Word.Of F P) →
        ∀ w ∈ Word.function f :: ws, w ∈ Word.Of F P := by
      intro ws hws w hw
      rcases List.mem_cons.mp hw with rfl | hw
      · exact hf
      · exact hws w hw
    obtain ⟨calls, hcalls, -⟩ := exists_calls f u
    obtain ⟨calls', hcalls', -⟩ := exists_calls f v
    have hsame := h (calls.map Level.ofCall) (calls'.map Level.ofCall)
      (Over.ofCalls (hcalls ▸ hbehind u hu)) (Over.ofCalls (hcalls' ▸ hbehind v hv)) (by
        rw [stackContext_ofCalls, stackContext_ofCalls, hcalls, hcalls', List.flatMap_cons,
          List.flatMap_cons, heq])
    rw [map_call_ofCalls, map_call_ofCalls] at hsame
    rw [hsame, hcalls'] at hcalls
    exact (List.cons.inj hcalls).2.symm
  · intro h ls ls' hls hls' heq
    rw [stackContext_eq hls.complete, stackContext_eq hls'.complete] at heq
    by_cases hF : F.Nonempty
    · have hdec := injOn_text_iff.mpr (h hF)
      exact words_injective (injective_flatMap_iff.mpr hdec _ _ hls.mem hls'.mem heq)
    · -- there are no frames
      have hnil : ∀ {ls}, Over F P ls → ls = [] := by
        intro ls hls
        cases ls with
        | nil => rfl
        | cons l ls => exact absurd ⟨_, hls.mem _ List.mem_cons_self⟩ hF
      rw [hnil hls, hnil hls']

theorem innermost_append_arguments (as : List Arg) (ws : List Word) :
    innermost (as.map .argument ++ ws) = innermost ws := by
  induction as with
  | nil => rfl
  | cons a as ih => exact ih

/-- The last function is that of the last call. -/
theorem innermost_words (calls : List (CStr × List Arg)) :
    innermost (words calls) = calls.getLast?.map Prod.fst := by
  induction calls with
  | nil => rfl
  | cons c calls ih =>
      have hstep : innermost (words (c :: calls)) = some ((innermost (words calls)).getD c.1) := by
        rw [← innermost_append_arguments c.2 (words calls)]
        rfl
      rw [hstep, ih]
      cases calls with
      | nil => rfl
      | cons d calls =>
          rw [List.getLast?_cons_cons, List.getLast?_eq_getLast_of_ne_nil (List.cons_ne_nil d calls)]
          rfl

theorem frameName_iff {ls : List Level} {x : CStr} :
    FrameName ls x ↔ ls ≠ [] ∧ x ∈ frameNames (words (ls.map Level.call)) := by
  show (∃ l, ls.getLast? = some l ∧ x = l.function) ↔ ls ≠ [] ∧ innermost (words (ls.map Level.call)) = some x
  rw [innermost_words, List.getLast?_map, Option.map_map, Option.map_eq_some_iff]
  constructor
  · rintro ⟨l, hl, rfl⟩
    refine ⟨?_, l, hl, rfl⟩
    rintro rfl
    cases hl
  · rintro ⟨-, l, hl, rfl⟩
    exact ⟨l, hl, rfl⟩

/-- The words of some frames. -/
theorem Over.frames {ls : List Level} (h : Over F P ls) (hne : ls ≠ []) :
    Frames F P (words (ls.map Level.call)) := by
  obtain ⟨l, ls, rfl⟩ := List.exists_cons_of_ne_nil hne
  exact ⟨h.mem, _, _, rfl⟩

/-- Words of frames are those of a stack. -/
theorem Frames.exists_stack {ws : List Word} (h : Frames F P ws) :
    ∃ ls, Over F P ls ∧ ls ≠ [] ∧ words (ls.map Level.call) = ws ∧ stackContext ls = ws.flatMap Word.text := by
  obtain ⟨f, rest, hws⟩ := h.front
  obtain ⟨calls, hcalls, hne⟩ := exists_calls f rest
  rw [← hws] at hcalls
  refine ⟨calls.map Level.ofCall, Over.ofCalls (hcalls ▸ h.mem), ?_, ?_, ?_⟩
  · rwa [Ne, List.map_eq_nil_iff]
  · rw [map_call_ofCalls, hcalls]
  · rw [stackContext_ofCalls, hcalls]

/-- Where the contexts are different, so are the keys iff no name is made of a part of a context. -/
theorem injective_iff {N : List Word → Set CStr}
    (hnames : ∀ ls x, T ls x ↔ ls ≠ [] ∧ x ∈ N (words (ls.map Level.call)))
    (h : ∀ ls ls', Over F P ls → Over F P ls' →
      stackContext ls = stackContext ls' → ls.map Level.call = ls'.map Level.call) :
    Injective F P T ↔ Apart F P N := by
  constructor
  · intro hinj u v x y hu hv hx hy heq
    obtain ⟨ls, hls, hne, rfl, hctx⟩ := hu.exists_stack
    obtain ⟨ls', hls', hne', rfl, hctx'⟩ := hv.exists_stack
    rw [← hctx, ← hctx'] at heq
    have hkey : stackContext ls ++ ':' :: x = stackContext ls' ++ ':' :: (y ++ ':' :: x) := by
      rw [heq, List.append_assoc]
      rfl
    have hcalls := hinj ls ls' x _ hls hls' ((hnames ls x).mpr ⟨hne, hx⟩) ((hnames ls' _).mpr ⟨hne', hy⟩) hkey
    have hsame : stackContext ls = stackContext ls' := by
      rw [stackContext_eq hls.complete, stackContext_eq hls'.complete, hcalls]
    rw [hsame] at heq
    exact absurd (List.append_right_eq_self.mp heq.symm) (List.cons_ne_nil _ _)
  · intro hapart ls ls' x x' hls hls' hx hx' heq
    -- a context that goes on behind another one
    have hbehind : ∀ {ls ls' x y}, Over F P ls → Over F P ls' → T ls x → T ls' (y ++ ':' :: x) →
        stackContext ls ≠ stackContext ls' ++ ':' :: y := by
      intro ls ls' x y hls hls' hx hy
      obtain ⟨hne, hx⟩ := (hnames ls x).mp hx
      obtain ⟨hne', hy⟩ := (hnames ls' _).mp hy
      rw [stackContext_eq hls.complete, stackContext_eq hls'.complete]
      exact hapart _ _ x y (hls.frames hne) (hls'.frames hne') hx hy
    rcases List.append_eq_append_iff.mp heq with ⟨e, hctx, hname⟩ | ⟨e, hctx, hname⟩
    · cases e with
      | nil => exact h ls ls' hls hls' (by rw [hctx, List.append_nil])
      | cons c y =>
          obtain ⟨rfl, rfl⟩ := List.cons.inj hname
          exact absurd hctx (hbehind hls' hls hx' hx)
    · cases e with
      | nil => exact h ls ls' hls hls' (by rw [hctx, List.append_nil])
      | cons c y =>
          obtain ⟨rfl, rfl⟩ := List.cons.inj hname
          exact absurd hctx (hbehind hls hls' hx hx')

/-- The contexts and keys of a program are different iff its words can be told from the texts that
are made of them, and no name is made of a part of a context. -/
theorem keysInjective_iff (F : Set CStr) (P : Set Arg) (V : Set CStr) : KeysInjective F P V ↔
    (F.Nonempty → Decodable F P) ∧ Apart F P frameNames ∧ Apart F P fun _ => V := by
  have hframe : ∀ ls x, FrameName ls x ↔ _ := fun _ _ => frameName_iff
  have hvar : ∀ ls x, VariableName V ls x ↔ ls ≠ [] ∧ x ∈ V := fun _ _ => Iff.rfl
  constructor
  · rintro ⟨hcontexts, hframes, hvars⟩
    refine ⟨contexts_iff.mp hcontexts, (injective_iff hframe hcontexts).mp hframes, ?_⟩
    refine (injective_iff hvar hcontexts).mp fun ls ls' x x' hls hls' hx hx' heq => ?_
    exact hvars ls ls' x x' hls hls' hx hx' (key_callstack_iff.mpr heq)
  · rintro ⟨hdec, hframes, hvars⟩
    have hcontexts := contexts_iff.mpr hdec
    refine ⟨hcontexts, (injective_iff hframe hcontexts).mpr hframes, ?_⟩
    intro ls ls' x x' hls hls' hx hx' heq
    exact (injective_iff hvar hcontexts).mpr hvars ls ls' x x' hls hls' hx hx'
      (key_callstack_iff.mp heq)

/-- `f(int a, int b)` and `f(int aintb)` have the same context. -/
theorem contexts_not_injective : ¬ ∀ F P V, KeysInjective F P V := by
  intro h
  have hof : ∀ ws : List Word, ∀ w ∈ ws, w ∈ Word.Of Set.univ Set.univ := by
    intro ws w _
    cases w <;> trivial
  have hsame := (h Set.univ Set.univ Set.univ).contexts
    (([("f".toList, [("int".toList, "a".toList), ("int".toList, "b".toList)])] :
      List (CStr × List Arg)).map Level.ofCall)
    ([("f".toList, [("int".toList, "aintb".toList)])].map Level.ofCall)
    (Over.ofCalls (hof _)) (Over.ofCalls (hof _)) (by decide)
  exact absurd hsame (by decide)

end Vimgdb.Gdb.Callstack
