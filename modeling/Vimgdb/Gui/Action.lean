import Mathlib.Algebra.Order.BigOperators.Group.List
import Mathlib.Algebra.Order.Group.Nat
import Vimgdb.Common.Escape
import Vimgdb.Common.Socket
import Vimgdb.Gdb.Issue

/-!
# Sending an action to vim

`vimui::action` writes a netbeans command or function in pieces: the buffer, the name of the action,
its sequence number, and what the format string makes of the arguments.

* `formatLoop`: the loop over the format string.
* `actionPieces`: all pieces of an action.  Numbers and strings are made in one scratch buffer; an
  access outside of it fails.
* `Message`: the actions the source sends.
* `quotedParams`: the quoted parameters of a message.
* `Message.Fits`: the length of strings for which no length overflows.
* `actions_transmitted`: each action is one message, from which its strings can be read back.
-/

namespace Vimgdb.Vim

open Gdb (itoa itoaInt)
open Escape (strdeescape_strescape strdeescape_strescape_append)

section

-- what allocated memory contains
variable (junk : Char)

/-! ## The scratch buffer -/

/-- What `itoa` returns is sent; for a null pointer nothing is. -/
def sendNumber (r : Option (Bool × Option Itoa.Dest)) : Option (List CStr × Itoa.Dest) := do
  let (returned, s) ← r
  let s ← s
  if returned then return ([← s.text], s) else return ([], s)

/-- `itoa` of an `int` -/
def putInt (s : Itoa.Dest) (v : BitVec 32) : Option (List CStr × Itoa.Dest) :=
  sendNumber (Itoa.itoaInt junk v (some s) 10)

/-- `itoa` of an `unsigned int` -/
def putUint (s : Itoa.Dest) (v : BitVec 32) : Option (List CStr × Itoa.Dest) :=
  sendNumber (Itoa.itoaUInt junk v (some s) 10 false)

/-- `strescape` -/
def putStr (s : Itoa.Dest) (arg : CStr) : Option (List CStr × Itoa.Dest) := do
  let dst ← Escape.Dest.strescape junk ⟨s.mem.getD [], s.max⟩ (.text arg)
  return ([← Buffers.text '\x00' dst.mem], ⟨some dst.mem, dst.max⟩)

/-! ## Actions -/

/-- `action_t` -/
inductive ActionType
  | fct | cmd
  deriving DecidableEq

/-- The arguments behind the format string. -/
inductive Arg
  | int (v : BitVec 32)
  | uint (v : BitVec 32)
  | str (s : CStr)

/-- A call of `action`, without the place for the reply. -/
structure Action where
  type : ActionType
  action : CStr
  bufId : BitVec 32
  fmt : CStr := []
  args : List Arg := []

/-- The pieces of the rest behind a piece. -/
def pieceBefore (p : List CStr × Itoa.Dest) (rest : Option (List CStr × Itoa.Dest × Bool)) :
    Option (List CStr × Itoa.Dest × Bool) :=
  rest.map fun r => (p.1 ++ r.1, r.2)

/-- The loop over the format string: the pieces, the scratch buffer, and whether the format is valid.
An argument of the wrong type is undefined. -/
def formatLoop : CStr → List Arg → Itoa.Dest → Option (List CStr × Itoa.Dest × Bool)
  | [], _, s => some ([], s, true)
  | '%' :: 'i' :: fmt, .int v :: args, s =>
      (putInt junk s v).bind fun p => pieceBefore p (formatLoop fmt args p.2)
  | '%' :: 'i' :: _, _, _ => none
  | '%' :: 'd' :: fmt, .int v :: args, s =>
      (putInt junk s v).bind fun p => pieceBefore p (formatLoop fmt args p.2)
  | '%' :: 'd' :: _, _, _ => none
  | '%' :: 'u' :: fmt, .uint v :: args, s =>
      (putUint junk s v).bind fun p => pieceBefore p (formatLoop fmt args p.2)
  | '%' :: 'u' :: _, _, _ => none
  | '%' :: 's' :: fmt, .str arg :: args, s =>
      (putStr junk s arg).bind fun p => pieceBefore p (formatLoop fmt args p.2)
  | '%' :: 's' :: _, _, _ => none
  | '%' :: _, _, s => some ([], s, false)
  | c :: fmt, args, s => pieceBefore ([[c]], s) (formatLoop fmt args s)

/-- The scratch buffer and the last sequence number. -/
structure Sender where
  s : Itoa.Dest
  seqNum : BitVec 32

/-- The state at the start. -/
def Sender.init : Sender := ⟨{}, 1⟩

/-- The pieces of an action, the state behind it, and the value that is returned.  A negative buffer
is refused. -/
def actionPieces (t : Sender) (a : Action) : Option (List CStr × Sender × Int) :=
  if a.bufId.slt 0 then some ([], t, -1)
  else do
    let (bufId, s) ← putInt junk t.s a.bufId
    let (seqNum, s) ← putInt junk s (t.seqNum + 1)
    let (pieces, s, ok) ← formatLoop junk a.fmt a.args s
    return (bufId ++ [[':'], a.action, [if a.type = .fct then '/' else '!']] ++ seqNum ++
      (if a.fmt = [] then [] else [[' ']]) ++ pieces ++ (if ok then [['\n']] else []),
      ⟨s, t.seqNum + 1⟩, if ok then 0 else -1)

/-- The pieces of some actions. -/
def actionsPieces (t : Sender) : List Action → Option (List CStr × Sender)
  | [] => some ([], t)
  | a :: as => do
      let (pieces, t, _) ← actionPieces junk t a
      let (pieces', t) ← actionsPieces t as
      return (pieces ++ pieces', t)

end

/-! ## The actions of the source -/

/-- A word that is sent without quotes: a colour. -/
structure Word where
  chars : CStr
  plain : '"' ∉ chars

/-- The actions the source sends. -/
inductive Message
  | startAtomic
  | endAtomic
  | getCursor
  | initDone (win : BitVec 32)
  | setDot (win line column : BitVec 32)
  | setDotOffset (win offset : BitVec 32)
  | editFile (id : BitVec 32) (name : CStr)
  | putBufferNumber (id : BitVec 32) (cwd name : CStr)
  | stopDocumentListen (id : BitVec 32)
  | close (win : BitVec 32)
  | defineAnnoType (win : BitVec 32) (key sign : CStr) (colorFg colorBg : Word)
  | addAnno (win id annotype line : BitVec 32)
  | removeAnno (win id : BitVec 32)
  | setReadOnly (win : BitVec 32) (ro : Bool)
  | insert (win len : BitVec 32) (text : CStr)
  | remove (win len : BitVec 32)

/-- The call of `action`. -/
def Message.toAction : Message → Action
  | startAtomic => ⟨.cmd, "startAtomic".toList, 0, [], []⟩
  | endAtomic => ⟨.cmd, "endAtomic".toList, 0, [], []⟩
  | getCursor => ⟨.fct, "getCursor".toList, 0, [], []⟩
  | initDone win => ⟨.cmd, "initDone".toList, win, [], []⟩
  | setDot win line column =>
      ⟨.cmd, "setDot".toList, win, "%d/%d".toList, [.int line, .int column]⟩
  | setDotOffset win offset => ⟨.cmd, "setDot".toList, win, "%d".toList, [.int offset]⟩
  | editFile id name => ⟨.cmd, "editFile".toList, id, "\"%s\"".toList, [.str name]⟩
  | putBufferNumber id cwd name =>
      ⟨.cmd, "putBufferNumber".toList, id, "\"%s/%s\"".toList, [.str cwd, .str name]⟩
  | stopDocumentListen id => ⟨.cmd, "stopDocumentListen".toList, id, [], []⟩
  | close win => ⟨.cmd, "close".toList, win, [], []⟩
  | defineAnnoType win key sign colorFg colorBg =>
      ⟨.cmd, "defineAnnoType".toList, win, "0 \"%s\" \"\" \"%s\" %s %s".toList,
        [.str key, .str sign, .str colorFg.chars, .str colorBg.chars]⟩
  | addAnno win id annotype line =>
      ⟨.cmd, "addAnno".toList, win, "%d %d %d/0".toList, [.int id, .int annotype, .int line]⟩
  | removeAnno win id => ⟨.cmd, "removeAnno".toList, win, "%d".toList, [.int id]⟩
  | setReadOnly win ro =>
      ⟨.cmd, "setReadOnly".toList, win, "%s".toList, [.str (if ro then ['T'] else ['F'])]⟩
  | insert win len text =>
      ⟨.fct, "insert".toList, win, "%d \"%s\"".toList, [.int len, .str text]⟩
  | remove win len => ⟨.fct, "remove".toList, win, "0 %d".toList, [.int len]⟩

/-- The strings a message has in quotes. -/
def Message.quoted : Message → List CStr
  | editFile _ name => [name]
  | putBufferNumber _ cwd name => [cwd ++ '/' :: name]
  | defineAnnoType _ key sign _ _ => [key, [], sign]
  | insert _ _ text => [text]
  | _ => []

/-! ## Texts -/

/-- What a format makes of its arguments. -/
def format : CStr → List Arg → Option CStr
  | [], _ => some []
  | '%' :: 'i' :: fmt, .int v :: args => (format fmt args).map (itoaInt v ++ ·)
  | '%' :: 'd' :: fmt, .int v :: args => (format fmt args).map (itoaInt v ++ ·)
  | '%' :: 'u' :: fmt, .uint v :: args => (format fmt args).map (itoa 10 v.toNat ++ ·)
  | '%' :: 's' :: fmt, .str s :: args => (format fmt args).map (strescape s ++ ·)
  | '%' :: _, _ => none
  | c :: fmt, args => (format fmt args).map (c :: ·)

/-- The text of an action with its newline. -/
def Action.text (a : Action) (seqNum : BitVec 32) : CStr :=
  itoaInt a.bufId ++ ':' :: a.action ++ (if a.type = .fct then '/' else '!') :: itoaInt seqNum ++
    (if a.fmt = [] then [] else [' ']) ++ (format a.fmt a.args).getD [] ++ ['\n']

/-- The texts of the actions that are not refused. -/
def texts (seqNum : BitVec 32) : List Action → List CStr
  | [] => []
  | a :: as =>
      if a.bufId.slt 0 then texts seqNum as
      else a.text (seqNum + 1) :: texts (seqNum + 1) as

/-- The quoted parameters of a text: from a quote to the next one that is not behind a backslash.  The
first argument is what has been read of one. -/
def quotedParams : Option CStr → CStr → List CStr
  | _, [] => []
  | none, '"' :: s => quotedParams (some []) s
  | none, _ :: s => quotedParams none s
  | some q, '"' :: s => q :: quotedParams none s
  | some q, '\\' :: c :: s => quotedParams (some (q ++ ['\\', c])) s
  | some q, c :: s => quotedParams (some (q ++ [c])) s

/-! ## The scratch buffer is long enough -/

variable {junk : Char} {s : Itoa.Dest}

theorem putInt_eq (h : s.Recorded) (v : BitVec 32) :
    ∃ s', putInt junk s v = some ([itoaInt v], s') ∧ s'.Recorded := by
  obtain ⟨s', hitoa, hrecorded, htext⟩ := (Gdb.text_itoa junk h).1 v
  refine ⟨s', ?_, hrecorded⟩
  rw [putInt, hitoa]
  simp [sendNumber, htext]

theorem putUint_eq (h : s.Recorded) (v : BitVec 32) :
    ∃ s', putUint junk s v = some ([itoa 10 v.toNat], s') ∧ s'.Recorded := by
  obtain ⟨s', hitoa, hrecorded, htext⟩ := (Gdb.text_itoa junk h).2.2 v
  refine ⟨s', ?_, hrecorded⟩
  rw [putUint, hitoa]
  simp [sendNumber, htext]

/-- A string that can be escaped, whatever the length of the buffer is. -/
structure ShortString (arg : CStr) : Prop where
  cString : '\x00' ∉ arg
  length : arg.length < 2 ^ 30

theorem putStr_eq (h : s.Recorded) {arg : CStr} (harg : ShortString arg) :
    ∃ s', putStr junk s arg = some ([strescape arg], s') ∧ s'.Recorded := by
  have hlen := harg.length
  have hfits : Escape.Fits ⟨s.mem.getD [], s.max⟩ arg := ⟨by omega, fun _ => by dsimp only at *; omega⟩
  have hcopy : (Escape.Source.text arg).copy ⟨s.mem.getD [], s.max⟩ = some arg := rfl
  obtain ⟨dst, rest, hdst, hrecorded, hmem⟩ := hfits.strescape h hcopy junk
  have htext : Buffers.text '\x00' dst.mem = some (strescape arg) := by
    rw [hmem]
    exact Escape.text_self (Escape.notMem_strescape harg.cString)
  refine ⟨⟨some dst.mem, dst.max⟩, ?_, hrecorded⟩
  rw [putStr, hdst]
  simp [htext]

/-! ## No piece but the last holds a newline -/

theorem newline_notMem_itoa (v : Nat) : '\n' ∉ itoa 10 v := fun h =>
  absurd (Gdb.digits_of_itoa v _ h) (by decide)

theorem newline_notMem_itoaInt (v : BitVec 32) : '\n' ∉ itoaInt v := by
  unfold itoaInt
  split_ifs
  · rw [List.mem_cons, not_or]
    exact ⟨by decide, newline_notMem_itoa _⟩
  · exact newline_notMem_itoa _

/-- What the pieces of a valid format are. -/
structure FormatPieces (text : CStr) (pieces : List CStr) : Prop where
  flatten : pieces.flatten = text
  noNewline : ∀ p ∈ pieces, '\n' ∉ p

theorem FormatPieces.cons {p text : CStr} {pieces : List CStr} (hp : '\n' ∉ p)
    (h : FormatPieces text pieces) : FormatPieces (p ++ text) (p :: pieces) := by
  constructor
  · rw [List.flatten_cons, h.flatten]
  · exact List.forall_mem_cons.mpr ⟨hp, h.noNewline⟩

/-- A valid format is written in pieces. -/
theorem formatLoop_of_format {fmt text : CStr} {args : List Arg} (h : format fmt args = some text)
    (hfmt : '\n' ∉ fmt) (hargs : ∀ arg, .str arg ∈ args → ShortString arg) (hs : s.Recorded) :
    ∃ pieces s', formatLoop junk fmt args s = some (pieces, s', true) ∧ s'.Recorded ∧
      FormatPieces text pieces := by
  fun_induction format fmt args generalizing text s with
  | case1 args =>
      cases h
      exact ⟨[], s, by rw [formatLoop], hs, rfl, nofun⟩
  | case2 fmt v args ih | case3 fmt v args ih =>
      obtain ⟨text, htext, rfl⟩ := Option.map_eq_some_iff.mp h
      simp only [List.mem_cons, not_or] at hfmt
      obtain ⟨s₁, hput, hs₁⟩ := @putInt_eq junk _ hs v
      obtain ⟨pieces, s', hloop, hs', hpieces⟩ :=
        ih htext hfmt.2.2 (fun arg harg => hargs arg (List.mem_cons_of_mem _ harg)) hs₁
      refine ⟨_, s', ?_, hs', hpieces.cons (newline_notMem_itoaInt v)⟩
      rw [formatLoop, hput, Option.bind_some, hloop]
      rfl
  | case4 fmt v args ih =>
      obtain ⟨text, htext, rfl⟩ := Option.map_eq_some_iff.mp h
      simp only [List.mem_cons, not_or] at hfmt
      obtain ⟨s₁, hput, hs₁⟩ := @putUint_eq junk _ hs v
      obtain ⟨pieces, s', hloop, hs', hpieces⟩ :=
        ih htext hfmt.2.2 (fun arg harg => hargs arg (List.mem_cons_of_mem _ harg)) hs₁
      refine ⟨_, s', ?_, hs', hpieces.cons (newline_notMem_itoa _)⟩
      rw [formatLoop, hput, Option.bind_some, hloop]
      rfl
  | case5 fmt arg args ih =>
      obtain ⟨text, htext, rfl⟩ := Option.map_eq_some_iff.mp h
      simp only [List.mem_cons, not_or] at hfmt
      obtain ⟨s₁, hput, hs₁⟩ := @putStr_eq junk _ hs _ (hargs arg List.mem_cons_self)
      obtain ⟨pieces, s', hloop, hs', hpieces⟩ :=
        ih htext hfmt.2.2 (fun arg harg => hargs arg (List.mem_cons_of_mem _ harg)) hs₁
      refine ⟨_, s', ?_, hs', hpieces.cons (newline_notMem_strescape arg)⟩
      rw [formatLoop, hput, Option.bind_some, hloop]
      rfl
  | case6 => cases h
  | case7 c fmt args _ _ _ _ hc ih =>
      obtain ⟨text, htext, rfl⟩ := Option.map_eq_some_iff.mp h
      simp only [List.mem_cons, not_or] at hfmt
      obtain ⟨pieces, s', hloop, hs', hpieces⟩ := ih htext hfmt.2 hargs hs
      refine ⟨[c] :: pieces, s', ?_, hs', hpieces.cons (p := [c]) (by simpa using hfmt.1)⟩
      have hchar : formatLoop junk (c :: fmt) args s =
          pieceBefore ([[c]], s) (formatLoop junk fmt args s) := by
        rw [formatLoop] <;> simp_all
      rw [hchar, hloop]
      rfl

/-! ## The length of a message -/

/-- The characters of a string. -/
def Arg.chars : Arg → CStr
  | .str s => s
  | _ => []

/-- The strings of an action end with the first 0, and are so short that no length of its message
overflows. -/
structure Action.Fits (a : Action) : Prop where
  cString : ∀ arg, .str arg ∈ a.args → '\x00' ∉ arg
  length : (a.args.map fun arg => arg.chars.length).sum < 2 ^ 30 - 2 ^ 8

theorem Action.Fits.shortString {a : Action} (h : a.Fits) {arg : CStr} (harg : .str arg ∈ a.args) :
    ShortString arg := by
  refine ⟨h.cString arg harg, ?_⟩
  have hle : arg.length ≤ (a.args.map fun arg => arg.chars.length).sum :=
    List.single_le_sum (fun _ _ => Nat.zero_le _) _ (List.mem_map.mpr ⟨_, harg, rfl⟩)
  have hlt := h.length
  omega

theorem length_itoa_le {v : Nat} (h : v < 2 ^ 64) : (itoa 10 v).length ≤ 20 :=
  (Nat.length_toDigits_le_iff (by decide) (by decide)).mpr (Nat.lt_trans h (by decide))

theorem length_itoaInt_le (v : BitVec 32) : (itoaInt v).length ≤ 21 := by
  unfold itoaInt
  split_ifs
  · exact Nat.succ_le_succ (length_itoa_le (BitVec.isLt _))
  · exact Nat.le_succ_of_le (length_itoa_le (BitVec.isLt _))

/-- How long the text is that a format makes. -/
theorem length_format_le {fmt text : CStr} {args : List Arg} (h : format fmt args = some text) :
    text.length ≤ fmt.length + 21 * args.length +
      2 * (args.map fun arg => arg.chars.length).sum := by
  fun_induction format fmt args generalizing text with
  | case1 args =>
      cases h
      exact Nat.zero_le _
  | case2 fmt v args ih | case3 fmt v args ih =>
      obtain ⟨text, htext, rfl⟩ := Option.map_eq_some_iff.mp h
      have hle := ih htext
      have hint := length_itoaInt_le v
      simp only [List.length_append, List.length_cons, List.map_cons, List.sum_cons]
      omega
  | case4 fmt v args ih =>
      obtain ⟨text, htext, rfl⟩ := Option.map_eq_some_iff.mp h
      have hle := ih htext
      have hint := length_itoa_le (Nat.lt_trans v.isLt (by decide))
      simp only [List.length_append, List.length_cons, List.map_cons, List.sum_cons]
      omega
  | case5 fmt arg args ih =>
      obtain ⟨text, htext, rfl⟩ := Option.map_eq_some_iff.mp h
      have hle := ih htext
      have hescape := Escape.length_strescape_le arg
      have hchars : (Arg.str arg).chars.length = arg.length := rfl
      simp only [List.length_append, List.length_cons, List.map_cons, List.sum_cons]
      omega
  | case6 => cases h
  | case7 c fmt args _ _ _ _ hc ih =>
      obtain ⟨text, htext, rfl⟩ := Option.map_eq_some_iff.mp h
      have hle := ih htext
      simp only [List.length_cons]
      omega

/-! ## One action, one message -/

/-- An action the source may send: its name and format hold no newline and are short, and the format
fits the arguments. -/
structure Action.Valid (a : Action) : Prop where
  action : '\n' ∉ a.action
  fmt : '\n' ∉ a.fmt
  short : a.action.length + a.fmt.length + 21 * a.args.length < 200
  format : ∃ text, format a.fmt a.args = some text

/-- The length of a message that can be sent. -/
theorem Action.Valid.length_text {a : Action} (h : a.Valid) (hfits : a.Fits) (seqNum : BitVec 32) :
    (a.text seqNum).length < 2 ^ 31 - 256 := by
  obtain ⟨text, htext⟩ := h.format
  have hformat := length_format_le htext
  have hid := length_itoaInt_le a.bufId
  have hseq := length_itoaInt_le seqNum
  have hblank : (if a.fmt = [] then [] else [' ']).length ≤ 1 := by
    split_ifs
    · exact Nat.zero_le 1
    · exact Nat.le_refl 1
  have hshort := h.short
  have hsum := hfits.length
  rw [Action.text, htext, Option.getD_some]
  simp only [List.length_append, List.length_cons, List.length_nil]
  omega

theorem itoaInt_ne_nil (v : BitVec 32) : itoaInt v ≠ [] := by
  unfold itoaInt
  split_ifs
  · exact List.cons_ne_nil _ _
  · exact Nat.toDigits_ne_nil

/-- The pieces of an action, from those of its parts. -/
theorem actionPieces_of {t : Sender} {a : Action} (hbuf : a.bufId.slt 0 = false)
    {id seq pieces : List CStr} {s₁ s₂ s₃ : Itoa.Dest} {ok : Bool}
    (hid : putInt junk t.s a.bufId = some (id, s₁))
    (hseq : putInt junk s₁ (t.seqNum + 1) = some (seq, s₂))
    (hloop : formatLoop junk a.fmt a.args s₂ = some (pieces, s₃, ok)) :
    actionPieces junk t a = some (id ++ [[':'], a.action, [if a.type = .fct then '/' else '!']] ++ seq ++
      (if a.fmt = [] then [] else [[' ']]) ++ pieces ++ (if ok then [['\n']] else []),
      ⟨s₃, t.seqNum + 1⟩, if ok then 0 else -1) := by
  rw [actionPieces, hbuf, hid]
  simp only [Bool.false_eq_true, if_false, Option.bind_eq_bind, Option.bind_some, hseq, hloop]
  rfl

/-- The pieces of an action are its text, and only the last one holds a newline. -/
theorem actionPieces_eq {a : Action} (h : a.Valid) (hfits : a.Fits) (hbuf : a.bufId.slt 0 = false)
    {t : Sender} (ht : t.s.Recorded) :
    ∃ pieces t', actionPieces junk t a = some (pieces ++ [['\n']], t', 0) ∧ t'.s.Recorded ∧
      t'.seqNum = t.seqNum + 1 ∧ a.text (t.seqNum + 1) = pieces.flatten ++ ['\n'] ∧
      pieces.head? ≠ some [] ∧ ∀ p ∈ pieces, '\n' ∉ p := by
  obtain ⟨text, htext⟩ := h.format
  obtain ⟨s₁, hid, hs₁⟩ := @putInt_eq junk _ ht a.bufId
  obtain ⟨s₂, hseq, hs₂⟩ := @putInt_eq junk _ hs₁ (t.seqNum + 1)
  obtain ⟨pieces, s', hloop, hs', hpieces⟩ :=
    @formatLoop_of_format junk _ _ _ _ htext h.fmt (fun _ => hfits.shortString) hs₂
  refine ⟨[itoaInt a.bufId, [':'], a.action, [if a.type = .fct then '/' else '!'],
    itoaInt (t.seqNum + 1)] ++ (if a.fmt = [] then [] else [[' ']]) ++ pieces,
    ⟨s', t.seqNum + 1⟩, ?_, hs', rfl, ?_, ?_, ?_⟩
  · rw [actionPieces_of hbuf hid hseq hloop]
    rfl
  · rw [Action.text, htext, Option.getD_some, ← hpieces.flatten]
    split_ifs <;> simp
  · simpa using itoaInt_ne_nil a.bufId
  · intro p hp
    simp only [List.append_assoc, List.mem_append, List.mem_cons, List.not_mem_nil, or_false] at hp
    rcases hp with (rfl | rfl | rfl | rfl | rfl) | hp | hp
    · exact newline_notMem_itoaInt _
    · decide
    · exact h.action
    · split_ifs <;> decide
    · exact newline_notMem_itoaInt _
    · split_ifs at hp with hfmt
      · cases hp
      · rw [List.mem_singleton.mp hp]
        decide
    · exact hpieces.noNewline p hp

/-- The pieces of some actions can be sent, and are handed over as their texts. -/
theorem actionsPieces_eq {as : List Action} (h : ∀ a ∈ as, a.Valid) (hfits : ∀ a ∈ as, a.Fits)
    {t : Sender} (ht : t.s.Recorded) :
    ∃ pieces t', actionsPieces junk t as = some (pieces, t') ∧ Sendable [] pieces ∧
      left [] pieces = [] ∧ handedOver [] pieces = texts t.seqNum as := by
  induction as generalizing t with
  | nil => exact ⟨[], t, rfl, trivial, rfl, rfl⟩
  | cons a as ih =>
      rw [List.forall_mem_cons] at h hfits
      rcases hbuf : a.bufId.slt 0 with _ | _
      · obtain ⟨pieces, t₁, hpieces, ht₁, hseq, htext, hfirst, hnl⟩ :=
          @actionPieces_eq junk _ h.1 hfits.1 hbuf _ ht
        have hlen := h.1.length_text hfits.1 (t.seqNum + 1)
        rw [htext] at hlen
        obtain ⟨hsendable, hleft, hover⟩ := sendable_line hfirst hnl hlen
        obtain ⟨pieces', t', hpieces', hsendable', hleft', hover'⟩ := ih h.2 hfits.2 ht₁
        refine ⟨pieces ++ [['\n']] ++ pieces', t', ?_, ?_, ?_, ?_⟩
        · rw [actionsPieces, hpieces]
          simp only [Option.bind_eq_bind, Option.bind_some, hpieces']
          rfl
        · rw [sendable_append, hleft]
          exact ⟨hsendable, hsendable'⟩
        · rw [left_append, hleft, hleft']
        · rw [handedOver_append, hleft, hover, hover', texts, hbuf, hseq, htext]
          rfl
      · obtain ⟨pieces', t', hpieces', hrest⟩ := ih h.2 hfits.2 ht
        refine ⟨pieces', t', ?_, ?_⟩
        · rw [actionsPieces, actionPieces, hbuf]
          simp only [if_true, Option.bind_eq_bind, Option.bind_some, hpieces']
          rfl
        · rwa [texts, hbuf, if_pos rfl]

/-! ## Reading the strings back -/

/-- A text without quotes holds no parameter. -/
theorem quotedParams_skip {u : CStr} (hu : '"' ∉ u) (s : CStr) :
    quotedParams none (u ++ s) = quotedParams none s := by
  induction u with
  | nil => rfl
  | cons c u ih =>
      rw [List.mem_cons, not_or] at hu
      rw [List.cons_append, quotedParams, ih hu.2]
      exact fun h => hu.1 h.symm

/-- An escaped string belongs to its parameter. -/
theorem quotedParams_strescape (q s t : CStr) :
    quotedParams (some q) (strescape s ++ t) = quotedParams (some (q ++ strescape s)) t := by
  induction s generalizing q with
  | nil => rw [strescape, List.nil_append, List.append_nil]
  | cons c s ih =>
      rw [strescape]
      rcases he : escapeChar c with _ | e
      · obtain ⟨hq, hb⟩ := escapeChar_eq_none he
        show quotedParams (some q) (c :: (strescape s ++ t)) = _
        rw [quotedParams, ih, List.append_assoc]
        · rfl
        · exact hq
        · exact fun _ _ h _ => hb h
      · show quotedParams (some q) ('\\' :: e :: (strescape s ++ t)) = _
        rw [quotedParams, ih, List.append_assoc]
        rfl

/-- A quoted parameter is read up to its closing quote. -/
theorem quotedParams_quoted (s t : CStr) :
    quotedParams none ('"' :: (strescape s ++ '"' :: t)) = strescape s :: quotedParams none t := by
  rw [quotedParams, quotedParams_strescape, List.nil_append, quotedParams]

theorem quote_notMem_itoaInt (v : BitVec 32) : '"' ∉ itoaInt v := by
  have hdigits : ∀ n, '"' ∉ itoa 10 n := fun n h => absurd (Gdb.digits_of_itoa n _ h) (by decide)
  unfold itoaInt
  split_ifs
  · rw [List.mem_cons, not_or]
    exact ⟨by decide, hdigits _⟩
  · exact hdigits _

theorem quote_notMem_strescape {s : CStr} (h : '"' ∉ s) : '"' ∉ strescape s := by
  induction s with
  | nil => simp [strescape]
  | cons c s ih =>
      rw [List.mem_cons, not_or] at h
      rw [strescape]
      rcases he : escapeChar c with _ | e
      · rw [List.mem_cons, not_or]
        exact ⟨h.1, ih h.2⟩
      · simp only [List.mem_cons, not_or]
        refine ⟨by decide, ?_, ih h.2⟩
        rintro rfl
        unfold escapeChar at he
        split at he <;> cases he
        exact h.1 rfl

/-- The actions of the source are valid. -/
theorem Message.valid (m : Message) : m.toAction.Valid := by
  refine ⟨?_, ?_, ?_, ?_⟩
  · cases m <;>
      simp only [toAction] <;> decide
  · cases m <;>
      simp only [toAction] <;> decide
  · cases m <;>
      simp only [toAction, List.length_cons, List.length_nil] <;> decide
  · cases m <;> exact ⟨_, rfl⟩

/-- The part of a message in front of its arguments holds no quote. -/
theorem quotedParams_text {a : Action} (h : '"' ∉ a.action) (seqNum : BitVec 32) :
    quotedParams none (a.text seqNum) =
      quotedParams none ((format a.fmt a.args).getD [] ++ ['\n']) := by
  have hhead : '"' ∉ itoaInt a.bufId ++ ':' :: a.action ++
      (if a.type = .fct then '/' else '!') :: itoaInt seqNum ++
        (if a.fmt = [] then [] else [' ']) := by
    simp only [List.mem_append, List.mem_cons, not_or]
    refine ⟨⟨⟨quote_notMem_itoaInt _, by decide, h⟩, ?_, quote_notMem_itoaInt _⟩, ?_⟩
    · split_ifs <;> decide
    · split_ifs <;> decide
  rw [Action.text, List.append_assoc, quotedParams_skip hhead]

/-- The strings of a message are read back from its text. -/
theorem Message.quoted_eq (m : Message) (seqNum : BitVec 32) :
    (quotedParams none (m.toAction.text seqNum)).map strdeescape = m.quoted := by
  have haction : '"' ∉ m.toAction.action := by
    cases m <;>
      simp only [toAction] <;> decide
  rw [quotedParams_text haction]
  have hnone : ∀ u : CStr, '"' ∉ u → (quotedParams none (u ++ ['\n'])).map strdeescape = [] := by
    intro u hu
    rw [quotedParams_skip hu]
    rfl
  have hint := quote_notMem_itoaInt
  cases m with
  | startAtomic | endAtomic | getCursor | initDone | stopDocumentListen | close => rfl
  | setDot | setDotOffset | addAnno | removeAnno | remove =>
      apply hnone
      simp [toAction, format, hint]
  | setReadOnly win ro =>
      apply hnone
      simp only [toAction]
      cases ro <;> decide
  | editFile id name =>
      have htext : (format (editFile id name).toAction.fmt
          (editFile id name).toAction.args).getD [] ++ ['\n'] =
          '"' :: (strescape name ++ '"' :: ['\n']) := by
        simp [toAction, format]
      rw [htext, quotedParams_quoted]
      simp [quotedParams, strdeescape_strescape, quoted]
  | putBufferNumber id cwd name =>
      have htext : (format (putBufferNumber id cwd name).toAction.fmt
          (putBufferNumber id cwd name).toAction.args).getD [] ++ ['\n'] =
          '"' :: (strescape cwd ++ '/' :: (strescape name ++ '"' :: ['\n'])) := by
        simp [toAction, format]
      have hslash : ∀ q t, quotedParams (some q) ('/' :: t) = quotedParams (some (q ++ ['/'])) t := by
        intro q t
        rw [quotedParams]
        · decide
        · nofun
      have hjoin : strdeescape (strescape cwd ++ '/' :: strescape name) = cwd ++ '/' :: name := by
        rw [strdeescape_strescape_append, strdeescape_cons (by decide), strdeescape_strescape]
      rw [htext, quotedParams, quotedParams_strescape, hslash, quotedParams_strescape]
      simp [quotedParams, quoted, hjoin]
  | defineAnnoType win key sign colorFg colorBg =>
      have htext : (format (defineAnnoType win key sign colorFg colorBg).toAction.fmt
          (defineAnnoType win key sign colorFg colorBg).toAction.args).getD [] ++ ['\n'] =
          ['0', ' '] ++ '"' :: (strescape key ++ '"' :: ([' '] ++ '"' :: (strescape [] ++ '"' ::
            ([' '] ++ '"' :: (strescape sign ++ '"' :: (([' '] ++ strescape colorFg.chars ++ [' '] ++
              strescape colorBg.chars) ++ ['\n'])))))) := by
        simp [toAction, format, strescape]
      have hcolors : '"' ∉ [' '] ++ strescape colorFg.chars ++ [' '] ++ strescape colorBg.chars := by
        simp [quote_notMem_strescape colorFg.plain, quote_notMem_strescape colorBg.plain]
      have hblank : '"' ∉ [' '] := by decide
      rw [htext, quotedParams_skip (by decide), quotedParams_quoted, quotedParams_skip hblank,
        quotedParams_quoted, quotedParams_skip hblank, quotedParams_quoted]
      simp only [List.map_cons, hnone _ hcolors, strdeescape_strescape, quoted]
  | insert win len text =>
      have htext : (format (insert win len text).toAction.fmt
          (insert win len text).toAction.args).getD [] ++ ['\n'] =
          (itoaInt len ++ [' ']) ++ '"' :: (strescape text ++ '"' :: ['\n']) := by
        simp [toAction, format]
      have hhead : '"' ∉ itoaInt len ++ [' '] := by
        simp [hint]
      rw [htext, quotedParams_skip hhead, quotedParams_quoted]
      simp [quotedParams, strdeescape_strescape, quoted]

/-! ## All messages -/

theorem newline_notMem_format {fmt text : CStr} {args : List Arg} (h : format fmt args = some text)
    (hfmt : '\n' ∉ fmt) : '\n' ∉ text := by
  fun_induction format fmt args generalizing text with
  | case1 args =>
      cases h
      exact List.not_mem_nil
  | case2 fmt v args ih | case3 fmt v args ih =>
      obtain ⟨text, htext, rfl⟩ := Option.map_eq_some_iff.mp h
      simp only [List.mem_cons, not_or] at hfmt
      rw [List.mem_append, not_or]
      exact ⟨newline_notMem_itoaInt v, ih htext hfmt.2.2⟩
  | case4 fmt v args ih =>
      obtain ⟨text, htext, rfl⟩ := Option.map_eq_some_iff.mp h
      simp only [List.mem_cons, not_or] at hfmt
      rw [List.mem_append, not_or]
      exact ⟨newline_notMem_itoa _, ih htext hfmt.2.2⟩
  | case5 fmt arg args ih =>
      obtain ⟨text, htext, rfl⟩ := Option.map_eq_some_iff.mp h
      simp only [List.mem_cons, not_or] at hfmt
      rw [List.mem_append, not_or]
      exact ⟨newline_notMem_strescape arg, ih htext hfmt.2.2⟩
  | case6 => cases h
  | case7 c fmt args _ _ _ _ hc ih =>
      obtain ⟨text, htext, rfl⟩ := Option.map_eq_some_iff.mp h
      rw [List.mem_cons, not_or] at hfmt ⊢
      exact ⟨hfmt.1, ih htext hfmt.2⟩

/-- The text of an action ends with its only newline. -/
theorem Action.Valid.text_eq {a : Action} (h : a.Valid) (seqNum : BitVec 32) :
    ∃ body, a.text seqNum = body ++ ['\n'] ∧ '\n' ∉ body := by
  obtain ⟨text, htext⟩ := h.format
  refine ⟨_, rfl, ?_⟩
  simp only [List.mem_append, List.mem_cons, not_or]
  refine ⟨⟨⟨⟨newline_notMem_itoaInt _, by decide, h.action⟩, ?_, newline_notMem_itoaInt _⟩, ?_⟩, ?_⟩
  · split_ifs <;> decide
  · split_ifs <;> decide
  · rw [htext, Option.getD_some]
    exact newline_notMem_format htext h.fmt

/-- What a message is sent as: a line, from which its strings can be read back. -/
structure SentAs (m : Message) (text : CStr) : Prop where
  line : ∃ body, text = body ++ ['\n'] ∧ '\n' ∉ body
  strings : (quotedParams none text).map strdeescape = m.quoted

theorem sentAs_texts (ms : List Message) (seqNum : BitVec 32) :
    List.Forall₂ SentAs (ms.filter fun m => !m.toAction.bufId.slt 0)
      (texts seqNum (ms.map Message.toAction)) := by
  induction ms generalizing seqNum with
  | nil => exact List.Forall₂.nil
  | cons m ms ih =>
      rw [List.map_cons, texts]
      rcases hbuf : m.toAction.bufId.slt 0 with _ | _
      · rw [List.filter_cons_of_pos (by rw [hbuf]; rfl), if_neg nofun]
        exact List.Forall₂.cons ⟨m.valid.text_eq _, m.quoted_eq _⟩ (ih _)
      · rw [List.filter_cons_of_neg (by rw [hbuf]; nofun), if_pos rfl]
        exact ih _

/-- Each action that names no negative buffer is transmitted as one message, in order, from which its
strings can be read back, and the index of the send buffer stays below the buffer's length. -/
theorem actions_transmitted (junk : Char) (ms : List Message) (h : ∀ m ∈ ms, m.toAction.Fits) :
    ∃ pieces t, actionsPieces junk Sender.init (ms.map Message.toAction) = some (pieces, t) ∧
      (∀ ps, ps <+: pieces →
        ∃ s, (Socket.init junk).sendAll junk ps = some s ∧ s.sbufIdx < s.sbufLen) ∧
      ∃ s, (Socket.init junk).sendAll junk pieces = some s ∧ s.sbufIdx = 0 ∧
        s.sent = texts Sender.init.seqNum (ms.map Message.toAction) ∧
        List.Forall₂ SentAs (ms.filter fun m => !m.toAction.bufId.slt 0) s.sent := by
  have hvalid : ∀ a ∈ ms.map Message.toAction, a.Valid := by
    intro a ha
    obtain ⟨m, -, rfl⟩ := List.mem_map.mp ha
    exact m.valid
  have hfits : ∀ a ∈ ms.map Message.toAction, a.Fits := by
    intro a ha
    obtain ⟨m, hm, rfl⟩ := List.mem_map.mp ha
    exact h m hm
  obtain ⟨pieces, t, hpieces, hsendable, hleft, hover⟩ :=
    @actionsPieces_eq junk _ hvalid hfits Sender.init rfl
  obtain ⟨s, hs, hholds, hsent⟩ := Socket.holds_init.sendAll hsendable
  rw [hover] at hsent
  rw [hleft] at hholds
  refine ⟨pieces, t, hpieces, fun ps hps => ?_, s, hs, ?_, hsent, ?_⟩
  · obtain ⟨qs, rfl⟩ := hps
    obtain ⟨s', hs', hholds', -⟩ :=
      Socket.holds_init.sendAll ((sendable_append [] ps qs).mp hsendable).1
    exact ⟨s', hs', hholds'.index_lt⟩
  · exact BitVec.eq_of_toNat_eq hholds.sbufIdx
  · rw [hsent]
    exact sentAs_texts ms _

/-- A text with quotes and newlines is inserted. -/
theorem insert_transmitted :
    ∃ pieces t, actionsPieces 'x' Sender.init [(Message.insert 1 0 "a\t\"b\"\n".toList).toAction] =
        some (pieces, t) ∧
      (∀ ps, ps <+: pieces →
        ∃ s, (Socket.init 'x').sendAll 'x' ps = some s ∧ s.sbufIdx < s.sbufLen) ∧
      ∃ s, (Socket.init 'x').sendAll 'x' pieces = some s ∧ s.sbufIdx = 0 ∧
        s.sent = texts Sender.init.seqNum [(Message.insert 1 0 "a\t\"b\"\n".toList).toAction] ∧
        List.Forall₂ SentAs [Message.insert 1 0 "a\t\"b\"\n".toList] s.sent :=
  actions_transmitted 'x' [.insert 1 0 "a\t\"b\"\n".toList] (by
    rw [List.forall_mem_singleton]
    refine ⟨fun arg harg => ?_, by decide⟩
    simp only [Message.toAction, List.mem_cons, reduceCtorEq, Arg.str.injEq, false_or,
      List.not_mem_nil, or_false] at harg
    rw [harg]
    decide)

/-- The pieces of a message that inserts a text of 2 ^ 31 characters: none of them is escaped. -/
theorem actionsPieces_long {text : CStr} (h : text.length = 2 ^ 31) :
    ∃ t, actionsPieces 'x' Sender.init [(Message.insert 1 0 text).toAction] =
      some ([['1'], [':'], "insert".toList, ['/'], ['2'], [' '], ['0'], [' '], ['"'], [], ['"']] ++
        [['\n']], t) := by
  have hstr : putStr 'x' ⟨some ['0', '\x00'], 2⟩ text =
      some ([[]], ⟨some ['\x00', '\x00'], 2⟩) := by
    rw [putStr, Option.getD_some, Escape.strescape_of_len 1 (by rw [h]; decide)]
    rfl
  have hloop : formatLoop 'x' "%d \"%s\"".toList [.int 0, .str text] ⟨some ['2', '\x00'], 2⟩ =
      some ([['0'], [' '], ['"'], [], ['"']], ⟨some ['\x00', '\x00'], 2⟩, true) := by
    have hlen : putInt 'x' ⟨some ['2', '\x00'], 2⟩ 0 = some ([['0']], ⟨some ['0', '\x00'], 2⟩) := rfl
    show (putInt 'x' ⟨some ['2', '\x00'], 2⟩ 0).bind _ = _
    rw [hlen, Option.bind_some]
    show pieceBefore _ (pieceBefore _ (pieceBefore _
      ((putStr 'x' ⟨some ['0', '\x00'], 2⟩ text).bind _))) = _
    rw [hstr]
    rfl
  have hid : putInt 'x' {} 1 = some ([['1']], ⟨some ['1', '\x00'], 2⟩) := rfl
  have hseq : putInt 'x' ⟨some ['1', '\x00'], 2⟩ 2 = some ([['2']], ⟨some ['2', '\x00'], 2⟩) := rfl
  have hpieces := actionPieces_of (t := Sender.init) (a := (Message.insert 1 0 text).toAction) rfl hid
    hseq hloop
  refine ⟨⟨⟨some ['\x00', '\x00'], 2⟩, 2⟩, ?_⟩
  rw [actionsPieces, hpieces]
  rfl

/-- A window that does not exist is not closed: nothing is transmitted.  And a text of 2 ^ 31
characters, whose length overflows, is not what is transmitted. -/
theorem not_all_transmitted :
    (∃ pieces t s, actionsPieces 'x' Sender.init [(Message.close (-1)).toAction] = some (pieces, t) ∧
      (Socket.init 'x').sendAll 'x' pieces = some s ∧ s.sent.length ≠ 1) ∧
    ∃ text : CStr, '\x00' ∉ text ∧ ∃ pieces t s,
      actionsPieces 'x' Sender.init [(Message.insert 1 0 text).toAction] = some (pieces, t) ∧
      (Socket.init 'x').sendAll 'x' pieces = some s ∧
      ¬ List.Forall₂ SentAs [Message.insert 1 0 text] s.sent := by
  refine ⟨⟨[], Sender.init, Socket.init 'x', by rfl, rfl, by decide⟩, ?_⟩
  obtain ⟨text, hlen, hnul⟩ : ∃ text : CStr, text.length = 2 ^ 31 ∧ '\x00' ∉ text := by
    refine ⟨List.replicate (2 ^ 31) 'a', List.length_replicate, fun hmem => ?_⟩
    exact absurd (List.eq_of_mem_replicate hmem) (by decide)
  obtain ⟨t, hpieces⟩ := actionsPieces_long hlen
  obtain ⟨hsendable, -, hover⟩ :=
    @sendable_line [['1'], [':'], "insert".toList, ['/'], ['2'], [' '], ['0'], [' '], ['"'], [], ['"']]
      (by decide) (by decide) (by decide)
  obtain ⟨s, hs, -, hsent⟩ := (@Socket.holds_init 'x').sendAll hsendable
  refine ⟨text, hnul, _, t, s, hpieces, hs, fun hall => ?_⟩
  rw [hsent, hover] at hall
  rcases hall with _ | ⟨hsentAs, -⟩
  have hstrings := hsentAs.strings
  have hempty : [[]] = [text] := hstrings
  rw [← List.singleton_inj.mp hempty] at hlen
  exact absurd hlen (by decide)

end Vimgdb.Vim
