import Mathlib.Algebra.Ring.Nat
import Vimgdb.Common.Strings
import Vimgdb.Lib.Buffer

/-!
# Escaping in memory

`strescape` writes to a buffer which it makes larger if it has to, and which may hold the text that is
escaped; `strdeescape` works in place.  Lengths and indices are of 32 bits.

* `Dest.strescape`: what is written, and `*max` behind it.
* `deescapeLoop`, `strdeescapeIn`: the text that is read is behind the text that is written.
* `strdeescapeIn_isSome`: no access is outside of the text and its terminator.
* `strescape_reads_back`: no write is outside of the `*max` bytes, and the text comes back.
-/

namespace Vimgdb.Escape

open Buffers

/-! ## The functions -/

/-- `*_dst`, as far as it is allocated, and `*max`. -/
structure Dest where
  mem : CStr
  max : BitVec 32

/-- `*max` is the size of what is allocated. -/
def Dest.Recorded (dst : Dest) : Prop := dst.mem.length = dst.max.toNat

/-- The text that is escaped: it is elsewhere, or in the buffer it is written to. -/
inductive Source
  | text (s : CStr)
  | dest

/-- `strcpy(src, s)`: the text is copied before anything is written. -/
def Source.copy (dst : Dest) : Source → Option CStr
  | .text s => some s
  | .dest => Buffers.text '\x00' dst.mem

/-- The loop over the characters, and the terminating 0. -/
def escapeLoop (mem : CStr) (o : Nat) : CStr → Option CStr
  | [] => write mem o '\x00'
  | c :: src =>
      match escapeChar c with
      | some e => do escapeLoop (← write (← write mem o '\\') (o + 1) e) (o + 2) src
      | none => do escapeLoop (← write mem o c) (o + 1) src

/-- The buffer is made larger if it is too small; `junk` is what new memory contains. -/
def Dest.grow (junk : Char) (dst : Dest) (len : BitVec 32) : Dest :=
  if dst.max < len then ⟨List.replicate (dst.max + len).toNat junk, dst.max + len⟩ else dst

/-- `strescape`, with the length in 32 bits: `len/2` characters are escaped. -/
def Dest.strescape (junk : Char) (dst : Dest) (s : Source) : Option Dest := do
  let src ← s.copy dst
  let len := BitVec.ofNat 32 (src.length * 2 + 1)
  let dst := dst.grow junk len
  let mem ← escapeLoop dst.mem 0 (src.take (len / 2).toNat)
  return { dst with mem }

/-- `if(i != o) s[o] = s[i]`, for the character at `i`. -/
def move (mem : CStr) (i o : Nat) (c : Char) : Option CStr :=
  if i ≠ o then write mem o c else some mem

/-- The loop of `strdeescape`: the text is read at `i` and written at `o`. -/
def deescapeLoop (len : Nat) (mem : CStr) (i o : Nat) : Option CStr :=
  if i < len then do
    let c ← read mem i
    if c = '\\' then
      match deescapeChar (← read mem (i + 1)) with
      | some d => deescapeLoop len (← write mem o d) (i + 2) (o + 1)
      | none =>
          let mem ← move mem i o c
          deescapeLoop len mem (i + 1) (o + 1)
    else
      let mem ← move mem i o c
      deescapeLoop len mem (i + 1) (o + 1)
  else write mem o '\x00'
termination_by len - i

/-- `strdeescape`, on the memory from the text on. -/
def strdeescapeIn (mem : CStr) : Option CStr := do
  let s ← Buffers.text '\x00' mem
  deescapeLoop (BitVec.ofNat 32 s.length).toNat mem 0 0

/-! ## In place -/

variable {mem : CStr} {i o len : Nat}

theorem write_eq_some {c : Char} (h : o < mem.length) : write mem o c = some (mem.set o c) := if_pos h

/-- One round of the loop writes at `o`, if at all. -/
theorem deescapeLoop_step (hi : i < len) (hlen : len < mem.length) (ho : o ≤ i) :
    ∃ mem' k, mem'.length = mem.length ∧ 0 < k ∧ k ≤ 2 ∧
      deescapeLoop len mem i o = deescapeLoop len mem' (i + k) (o + 1) := by
  have hio : o < mem.length := by omega
  have hcell : ∀ k, k < mem.length → ∃ c, read mem k = some c := fun k hk =>
    ⟨_, List.getElem?_eq_getElem hk⟩
  obtain ⟨c, hread⟩ := hcell i (by omega)
  obtain ⟨d, hnext⟩ := hcell (i + 1) (by omega)
  have hmove : ∀ c, ∃ mem', move mem i o c = some mem' ∧ mem'.length = mem.length := by
    intro c
    unfold move
    split
    · exact ⟨_, write_eq_some hio, List.length_set⟩
    · exact ⟨mem, rfl, rfl⟩
  obtain ⟨mem', hmem', hlength⟩ := hmove c
  rw [deescapeLoop, if_pos hi, hread, Option.bind_eq_bind, Option.bind_some]
  split
  · rw [hnext, Option.bind_eq_bind, Option.bind_some]
    split
    · next d _ =>
      rw [write_eq_some hio]
      exact ⟨mem.set o d, 2, List.length_set, Nat.two_pos, Nat.le_refl 2, rfl⟩
    · rw [hmem']
      exact ⟨mem', 1, hlength, Nat.one_pos, Nat.le_succ 1, rfl⟩
  · rw [hmem']
    exact ⟨mem', 1, hlength, Nat.one_pos, Nat.le_succ 1, rfl⟩

/-- What is written is not behind what is read, so no access is behind `len`. -/
theorem deescapeLoop_isSome (hlen : len < mem.length) (hoi : o ≤ i) (ho : o ≤ len) :
    ∃ mem', deescapeLoop len mem i o = some mem' ∧ mem'.length = mem.length := by
  induction hk : len - i using Nat.strong_induction_on generalizing mem i o with
  | _ n ih =>
      subst hk
      by_cases hi : i < len
      · obtain ⟨mem', k, hlength, hpos, -, hstep⟩ := deescapeLoop_step hi hlen hoi
        rw [hstep, ← hlength]
        exact ih _ (by omega) (by omega) (by omega) (by omega) rfl
      · rw [deescapeLoop, if_neg hi]
        exact ⟨_, write_eq_some (by omega), List.length_set⟩

/-- No access is outside of the text and its terminator, whatever the text is. -/
theorem strdeescapeIn_isSome {t : CStr} (ht : '\x00' ∉ t) :
    ∃ mem, strdeescapeIn (t ++ ['\x00']) = some mem ∧ mem.length = t.length + 1 := by
  have htext : Buffers.text '\x00' (t ++ ['\x00']) = some t := by
    rw [text_append, List.takeWhile_eq_self_iff.mpr]
    intro c hc
    rw [decide_eq_true_eq]
    rintro rfl
    exact ht hc
  have hlen : (BitVec.ofNat 32 t.length).toNat ≤ t.length := by
    rw [BitVec.toNat_ofNat]
    exact Nat.mod_le _ _
  obtain ⟨mem, hmem, hlength⟩ := @deescapeLoop_isSome (t ++ ['\x00']) 0 0
    (BitVec.ofNat 32 t.length).toNat (by simp; omega) (Nat.le_refl 0) (Nat.zero_le _)
  refine ⟨mem, ?_, by rw [hlength, List.length_append, List.length_singleton]⟩
  rw [strdeescapeIn, htext, Option.bind_eq_bind, Option.bind_some, hmem]

/-- A character is written over what has been read. -/
theorem write_consumed {pre consumed suf : CStr} {c : Char} (ho : o = pre.length)
    (hconsumed : consumed ≠ []) : ∃ mid, mid.length + 1 = consumed.length ∧
      write (pre ++ consumed ++ suf) o c = some (pre ++ [c] ++ mid ++ suf) := by
  obtain ⟨d, mid, rfl⟩ := List.exists_cons_of_ne_nil hconsumed
  refine ⟨mid, rfl, ?_⟩
  rw [List.append_assoc, List.cons_append, write_append ho]
  simp

/-- A character that has been read is moved, unless it is where it belongs. -/
theorem move_consumed {pre mid suf : CStr} {c : Char} (ho : o = pre.length)
    (hi : i = pre.length + mid.length) : ∃ mid', mid'.length = mid.length ∧
      move (pre ++ mid ++ c :: suf) i o c = some (pre ++ [c] ++ mid' ++ suf) := by
  unfold move
  split
  · obtain ⟨mid', hlength, hwrite⟩ := @write_consumed o pre (mid ++ [c]) suf c ho (by simp)
    refine ⟨mid', by simpa using hlength, ?_⟩
    rw [← hwrite]
    simp
  · have hmid : mid = [] := List.eq_nil_of_length_eq_zero (by omega)
    subst hmid
    exact ⟨[], rfl, by simp⟩

/-- A round that leaves the character as it is. -/
theorem deescapeLoop_move {pre mid suf : CStr} {c : Char} (ho : o = pre.length)
    (hi : i = pre.length + mid.length) (hlt : i < len)
    (hc : c = '\\' → ∃ d suf', suf = d :: suf' ∧ deescapeChar d = none) :
    ∃ mid', mid'.length = mid.length ∧ deescapeLoop len (pre ++ mid ++ c :: suf) i o =
      deescapeLoop len (pre ++ [c] ++ mid' ++ suf) (i + 1) (o + 1) := by
  obtain ⟨mid', hlength, hmove⟩ := @move_consumed i o pre mid suf c ho hi
  refine ⟨mid', hlength, ?_⟩
  have hi : i = (pre ++ mid).length := by rw [hi, List.length_append]
  rw [deescapeLoop, if_pos hlt, read_append hi, Option.bind_eq_bind, Option.bind_some]
  split
  · next hbackslash =>
    obtain ⟨d, suf', rfl, hd⟩ := hc hbackslash
    have hnext : read (pre ++ mid ++ c :: d :: suf') (i + 1) = some d := by
      rw [List.append_cons (pre ++ mid), read_append (by simp [hi]; omega)]
    rw [hnext, Option.bind_eq_bind, Option.bind_some, hd, hmove]
    rfl
  · rw [hmove]
    rfl

/-- A round that reads an escape sequence. -/
theorem deescapeLoop_escape {pre mid suf : CStr} {c d : Char} (ho : o = pre.length)
    (hi : i = pre.length + mid.length) (hlt : i < len) (hc : deescapeChar c = some d) :
    ∃ mid', mid'.length = mid.length + 1 ∧
      deescapeLoop len (pre ++ mid ++ '\\' :: c :: suf) i o =
        deescapeLoop len (pre ++ [d] ++ mid' ++ suf) (i + 2) (o + 1) := by
  obtain ⟨mid', hlength, hwrite⟩ :=
    @write_consumed o pre (mid ++ ['\\', c]) suf d ho (by simp)
  refine ⟨mid', by simpa using hlength, ?_⟩
  have hi : i = (pre ++ mid).length := by rw [hi, List.length_append]
  have hnext : read (pre ++ mid ++ '\\' :: c :: suf) (i + 1) = some c := by
    rw [List.append_cons (pre ++ mid), read_append (by simp [hi]; omega)]
  have hmem : pre ++ mid ++ '\\' :: c :: suf = pre ++ (mid ++ ['\\', c]) ++ suf := by simp
  rw [deescapeLoop, if_pos hlt, read_append hi, Option.bind_eq_bind, Option.bind_some, if_pos rfl,
    hnext, Option.bind_eq_bind, Option.bind_some, hc, hmem]
  dsimp only
  rw [hwrite]
  rfl

/-- The terminator is written behind the text. -/
theorem deescapeLoop_end {pre mid rest : CStr} (ho : o = pre.length) (hlen : len ≤ i) :
    ∃ left, left.length = mid.length ∧ deescapeLoop len (pre ++ mid ++ '\x00' :: rest) i o =
      some (pre ++ '\x00' :: (left ++ rest)) := by
  obtain ⟨left, hleft, hwrite⟩ :=
    @write_consumed o pre (mid ++ ['\x00']) rest '\x00' ho (by simp)
  refine ⟨left, by simpa using hleft, ?_⟩
  have hmem : pre ++ mid ++ '\x00' :: rest = pre ++ (mid ++ ['\x00']) ++ rest := by simp
  rw [deescapeLoop, if_neg (Nat.not_lt.mpr hlen), hmem, hwrite]
  simp

/-- The text that is to come is `t`; `mid` has been read and is not written over yet. -/
theorem deescapeLoop_eq {pre mid rest t : CStr} (ho : o = pre.length)
    (hi : i = pre.length + mid.length) (hlen : len = i + t.length) :
    ∃ left, left.length + (strdeescape t).length = mid.length + t.length ∧
      deescapeLoop len (pre ++ mid ++ (t ++ '\x00' :: rest)) i o =
        some (pre ++ strdeescape t ++ '\x00' :: (left ++ rest)) := by
  fun_induction strdeescape t generalizing pre mid i o with
  | case1 =>
      obtain ⟨left, hleft, hloop⟩ := @deescapeLoop_end i o len pre mid rest ho (by simp [hlen])
      exact ⟨left, hleft, by rw [List.append_nil, List.nil_append, hloop]⟩
  | case2 =>
      obtain ⟨mid', hmid', hmove⟩ := @deescapeLoop_move i o len pre mid ('\x00' :: rest) '\\' ho hi
        (by simp [hlen]) fun _ => ⟨_, _, rfl, by decide⟩
      obtain ⟨left, hleft, hloop⟩ := @deescapeLoop_end (i + 1) (o + 1) len (pre ++ ['\\']) mid' rest
        (by simp [ho]) (by simp [hlen])
      refine ⟨left, by rw [hleft, hmid'], ?_⟩
      rw [List.singleton_append, hmove, hloop]
  | case3 c s d hd ih =>
      rw [List.length_cons, List.length_cons] at hlen
      obtain ⟨mid', hmid', hescape⟩ := @deescapeLoop_escape i o len pre mid (s ++ '\x00' :: rest) c d
        ho hi (by omega) hd
      obtain ⟨left, hleft, hloop⟩ := @ih (i + 2) (o + 1) (pre ++ [d]) mid' (by simp [ho])
        (by simp [hmid']; omega) (by omega)
      refine ⟨left, by simp only [List.length_cons]; omega, ?_⟩
      rw [List.cons_append, List.cons_append, hescape, hloop, List.append_assoc pre [d]]
      rfl
  | case4 c s hc ih =>
      rw [List.length_cons] at hlen
      obtain ⟨mid', hmid', hmove⟩ := @deescapeLoop_move i o len pre mid
        (c :: s ++ '\x00' :: rest) '\\' ho hi (by omega) fun _ => ⟨c, _, rfl, hc⟩
      obtain ⟨left, hleft, hloop⟩ := @ih (i + 1) (o + 1) (pre ++ ['\\']) mid' (by simp [ho])
        (by simp [hmid']; omega) (by omega)
      refine ⟨left, by rw [List.length_cons, List.length_cons]; omega, ?_⟩
      rw [List.cons_append, hmove, hloop, List.append_assoc pre ['\\']]
      rfl
  | case5 c s hlast hnext ih =>
      rw [List.length_cons] at hlen
      have hc : c ≠ '\\' := by
        rintro rfl
        rcases s with _ | ⟨d, s⟩
        · exact hlast rfl rfl
        · exact hnext d s rfl rfl
      obtain ⟨mid', hmid', hmove⟩ := @deescapeLoop_move i o len pre mid
        (s ++ '\x00' :: rest) c ho hi (by omega) fun h => absurd h hc
      obtain ⟨left, hleft, hloop⟩ := @ih (i + 1) (o + 1) (pre ++ [c]) mid' (by simp [ho])
        (by simp [hmid']; omega) (by omega)
      refine ⟨left, by rw [List.length_cons, List.length_cons]; omega, ?_⟩
      rw [List.cons_append, hmove, hloop, List.append_assoc pre [c]]
      rfl

theorem text_self {t rest : CStr} (ht : '\x00' ∉ t) :
    Buffers.text '\x00' (t ++ '\x00' :: rest) = some t := by
  rw [text_append, List.takeWhile_eq_self_iff.mpr]
  intro c hc
  rw [decide_eq_true_eq]
  rintro rfl
  exact ht hc

/-- Behind the loop the text is deescaped, and the memory behind the text is as it was. -/
theorem strdeescapeIn_eq {t rest : CStr} (ht : '\x00' ∉ t) (hlen : t.length < 2 ^ 32) :
    ∃ left, left.length + (strdeescape t).length = t.length ∧
      strdeescapeIn (t ++ '\x00' :: rest) = some (strdeescape t ++ '\x00' :: (left ++ rest)) := by
  obtain ⟨left, hleft, hloop⟩ :=
    @deescapeLoop_eq 0 0 t.length [] [] rest t rfl rfl (Nat.zero_add _).symm
  refine ⟨left, by simpa using hleft, ?_⟩
  rw [strdeescapeIn, text_self ht, Option.bind_eq_bind, Option.bind_some, BitVec.toNat_ofNat,
    Nat.mod_eq_of_lt hlen]
  exact hloop

/-! ## Into a buffer -/

variable {dst : Dest} {src : Source} {s : CStr} {junk : Char}

/-- The loop stores the escaped text and its terminator. -/
theorem escapeLoop_eq (mem : CStr) (o : Nat) (s : CStr) :
    escapeLoop mem o s = store mem o (strescape s ++ ['\x00']) := by
  induction s generalizing mem o with
  | nil => exact (Option.bind_fun_some _).symm
  | cons c s ih =>
      rw [escapeLoop, Vimgdb.strescape]
      cases escapeChar c with
      | none => exact congrArg (Option.bind _) (funext fun mem => ih mem (o + 1))
      | some e =>
          show _ = (write mem o '\\').bind fun mem =>
            (write mem (o + 1) e).bind fun mem => store mem (o + 1 + 1) (strescape s ++ ['\x00'])
          exact congrArg (Option.bind _) (funext fun mem =>
            congrArg (Option.bind _) (funext fun mem => ih mem (o + 2)))

/-- Escaping writes at most two characters for each one. -/
theorem length_strescape_le (s : CStr) : (strescape s).length ≤ s.length * 2 := by
  induction s with
  | nil => exact Nat.le_refl 0
  | cons c s ih =>
      rw [Vimgdb.strescape]
      split <;> simp only [List.length_cons] <;> omega

/-- The sizes fit in 32 bits: the one of the escaped text, and the one of a buffer that has to be made
larger. -/
structure Fits (dst : Dest) (s : CStr) : Prop where
  len : s.length * 2 + 1 < 2 ^ 32
  max : dst.max.toNat < s.length * 2 + 1 → dst.max.toNat + (s.length * 2 + 1) < 2 ^ 32

/-- The buffer is large enough. -/
theorem Fits.grow (h : Fits dst s) (hdst : dst.Recorded) (junk : Char) :
    (dst.grow junk (BitVec.ofNat 32 (s.length * 2 + 1))).Recorded ∧
      s.length * 2 + 1 ≤ (dst.grow junk (BitVec.ofNat 32 (s.length * 2 + 1))).max.toNat := by
  have hlen : (BitVec.ofNat 32 (s.length * 2 + 1)).toNat = s.length * 2 + 1 := by
    rw [BitVec.toNat_ofNat, Nat.mod_eq_of_lt h.len]
  unfold Dest.grow
  split
  · next hlt =>
    rw [BitVec.lt_def, hlen] at hlt
    have hsum : (dst.max + BitVec.ofNat 32 (s.length * 2 + 1)).toNat =
        dst.max.toNat + (s.length * 2 + 1) := by
      rw [BitVec.toNat_add, hlen, Nat.mod_eq_of_lt (h.max hlt)]
    exact ⟨List.length_replicate, by dsimp only; omega⟩
  · next hlt =>
    rw [BitVec.lt_def, hlen] at hlt
    exact ⟨hdst, by omega⟩

/-- No write is outside of the `*max` bytes. -/
theorem Fits.strescape (h : Fits dst s) (hdst : dst.Recorded) (hs : src.copy dst = some s)
    (junk : Char) :
    ∃ dst' rest, dst.strescape junk src = some dst' ∧ dst'.Recorded ∧
      dst'.mem = strescape s ++ '\x00' :: rest := by
  obtain ⟨hrecorded, hle⟩ := h.grow hdst junk
  have hesc := length_strescape_le s
  have hhalf : (BitVec.ofNat 32 (s.length * 2 + 1) / 2).toNat = s.length := by
    rw [BitVec.toNat_udiv, BitVec.toNat_ofNat, Nat.mod_eq_of_lt h.len]
    show (s.length * 2 + 1) / 2 = s.length
    omega
  unfold Dest.strescape
  rw [hs, Option.bind_eq_bind, Option.bind_some]
  dsimp only
  rw [hhalf, List.take_length, escapeLoop_eq]
  generalize dst.grow junk (BitVec.ofNat 32 (s.length * 2 + 1)) = grown at hrecorded hle
  unfold Dest.Recorded at hrecorded
  -- the memory is long enough for the text and its terminator
  obtain ⟨old, rest, hmem, hold⟩ : ∃ old rest, grown.mem = [] ++ old ++ rest ∧
      old.length = (Vimgdb.strescape s ++ ['\x00']).length := by
    refine ⟨grown.mem.take ((Vimgdb.strescape s).length + 1),
      grown.mem.drop ((Vimgdb.strescape s).length + 1), ?_, ?_⟩
    · rw [List.nil_append, List.take_append_drop]
    · rw [List.length_take, List.length_append, List.length_singleton]
      omega
  have hstore := @store_append _ [] old rest (Vimgdb.strescape s ++ ['\x00']) 0 rfl hold
  rw [hmem, hstore]
  refine ⟨_, rest, rfl, ?_, by simp⟩
  unfold Dest.Recorded
  rw [← hrecorded, hmem]
  simp only [List.length_append, hold]

/-- The buffer is made larger if it has to be, and the text is written to its beginning. -/
theorem eq_of_strescape {dst' : Dest} (h : dst.strescape junk src = some dst') :
    ∃ s t rest, src.copy dst = some s ∧ t <+: s ∧ dst'.mem = strescape t ++ '\x00' :: rest ∧
      dst'.max = (dst.grow junk (BitVec.ofNat 32 (s.length * 2 + 1))).max ∧
      (dst.Recorded → dst'.Recorded) := by
  unfold Dest.strescape at h
  simp only [Option.bind_eq_bind, Option.bind_eq_some_iff] at h
  obtain ⟨s, hs, mem, hloop, heq⟩ := h
  cases heq
  rw [escapeLoop_eq] at hloop
  obtain ⟨rest, hmem, hlength⟩ := eq_of_store (by simp) hloop
  refine ⟨s, s.take (BitVec.ofNat 32 (s.length * 2 + 1) / 2).toNat, rest, hs, List.take_prefix _ s, ?_,
    rfl, fun hdst => ?_⟩
  · rw [hmem, List.append_assoc]
    rfl
  · unfold Dest.Recorded
    dsimp only
    rw [hlength]
    unfold Dest.grow
    split
    · exact List.length_replicate
    · exact hdst

/-! ## What is read back -/

theorem deescapeChar_of_escapeChar {c e : Char} (h : escapeChar c = some e) :
    deescapeChar e = some c := by
  unfold escapeChar at h
  split at h <;> cases h <;> rfl

/-- `strdeescape` undoes `strescape`, and goes on behind it. -/
theorem strdeescape_strescape_append (s t : CStr) :
    strdeescape (strescape s ++ t) = s ++ strdeescape t := by
  induction s with
  | nil => rfl
  | cons c s ih =>
      rw [Vimgdb.strescape]
      cases hc : escapeChar c with
      | some e =>
          show strdeescape ('\\' :: e :: (strescape s ++ t)) = _
          rw [strdeescape_escape (deescapeChar_of_escapeChar hc), ih, List.cons_append]
      | none =>
          show strdeescape (c :: (strescape s ++ t)) = _
          rw [strdeescape_cons (escapeChar_eq_none hc).2, ih, List.cons_append]

theorem strdeescape_strescape (s : CStr) : strdeescape (strescape s) = s := by
  have h := strdeescape_strescape_append s []
  rwa [List.append_nil, show strdeescape [] = [] from rfl, List.append_nil] at h

/-- No terminator comes into the text. -/
theorem notMem_strescape (hs : '\x00' ∉ s) : '\x00' ∉ strescape s := by
  induction s with
  | nil => exact hs
  | cons c s ih =>
      rw [List.mem_cons, not_or] at hs
      rw [Vimgdb.strescape]
      cases hc : escapeChar c with
      | some e =>
          have he : '\x00' ≠ e := by
            rintro rfl
            cases deescapeChar_of_escapeChar hc
          simp [he, ih hs.2]
      | none => simp [hs.1, ih hs.2]

/-- What is written stays within the `*max` bytes, and the text comes back from it. -/
def ReadsBack (junk : Char) (dst : Dest) (src : Source) (s : CStr) : Prop :=
  ∃ dst' mem, dst.strescape junk src = some dst' ∧ dst'.Recorded ∧
    strdeescapeIn dst'.mem = some mem ∧ Buffers.text '\x00' mem = some s

/-- Whatever `strescape` escapes comes back if the sizes fit, also if it is in the destination; and no
text makes `strdeescape` read or write outside of it. -/
theorem strescape_reads_back (hdst : dst.Recorded) (hs : src.copy dst = some s) (hnul : '\x00' ∉ s)
    (hfits : Fits dst s) (junk : Char) : ReadsBack junk dst src s ∧
      ∀ t, '\x00' ∉ t → ∃ mem, strdeescapeIn (t ++ ['\x00']) = some mem ∧
        mem.length = t.length + 1 := by
  refine ⟨?_, fun t ht => strdeescapeIn_isSome ht⟩
  obtain ⟨dst', rest, hstrescape, hrecorded, hmem⟩ := hfits.strescape hdst hs junk
  have hlen : (strescape s).length < 2 ^ 32 := by
    have hle := length_strescape_le s
    have hfit := hfits.len
    omega
  obtain ⟨left, -, hdeescape⟩ := @strdeescapeIn_eq _ rest (notMem_strescape hnul) hlen
  rw [strdeescape_strescape] at hdeescape
  exact ⟨dst', _, hstrescape, hrecorded, by rw [hmem, hdeescape], text_self hnul⟩

/-- A buffer with a quote in it is escaped into itself, and grows. -/
theorem quote_reads_back : ReadsBack 'x' ⟨['"', '\x00'], 2⟩ .dest ['"'] := by
  have hcopy : Source.dest.copy ⟨['"', '\x00'], 2⟩ = some ['"'] := by decide
  have hdst : Dest.Recorded ⟨['"', '\x00'], 2⟩ := rfl
  exact (strescape_reads_back hdst hcopy (by decide) ⟨by decide, by decide⟩ 'x').1

/-- `strescape`, with the length that it computes. -/
theorem strescape_of_len (len : BitVec 32) (hlen : BitVec.ofNat 32 (s.length * 2 + 1) = len) :
    dst.strescape junk (.text s) = (store (dst.grow junk len).mem 0
      (strescape (s.take (len / 2).toNat) ++ ['\x00'])).map
        fun mem => { dst.grow junk len with mem := mem } := by
  unfold Dest.strescape Source.copy
  rw [Option.bind_eq_bind, Option.bind_some, hlen]
  dsimp only
  rw [escapeLoop_eq]
  cases store (dst.grow junk len).mem 0 (strescape (s.take (len / 2).toNat) ++ ['\x00']) <;> rfl

/-- With 2 ^ 31 characters none is escaped. -/
theorem not_readsBack_of_length {x : Char} (hs : s.length = 2 ^ 31) :
    ¬ ReadsBack junk ⟨[x], 1⟩ (.text s) s := by
  rintro ⟨dst', mem, hstrescape, -, hdeescape, htext⟩
  rw [strescape_of_len 1 (by rw [hs]; decide)] at hstrescape
  have htake : s.take ((1 : BitVec 32) / 2).toNat = [] := rfl
  have hgrow : Dest.grow junk ⟨[x], 1⟩ 1 = ⟨[x], 1⟩ := rfl
  have hstore : store [x] 0 (strescape [] ++ ['\x00']) = some ['\x00'] := rfl
  rw [htake, hgrow, hstore] at hstrescape
  obtain rfl := Option.some.inj hstrescape
  obtain ⟨left, hleft, hempty⟩ := @strdeescapeIn_eq [] [] List.not_mem_nil (by decide)
  obtain rfl : left = [] := List.eq_nil_of_length_eq_zero hleft
  obtain rfl : ['\x00'] = mem := Option.some.inj (hempty.symm.trans hdeescape)
  obtain rfl : [] = s := Option.some.inj htext
  exact absurd hs (by decide)

/-- With 2 ^ 30 characters, a buffer of 2 ^ 31 bytes is made anew with a single one. -/
theorem not_readsBack_of_max {mem : CStr} (hs : s.length = 2 ^ 30) :
    ¬ ReadsBack junk ⟨mem, BitVec.ofNat 32 (2 ^ 31)⟩ (.text s) s := by
  rintro ⟨dst', mem', hstrescape, -, -, -⟩
  have hgrow : Dest.grow junk ⟨mem, BitVec.ofNat 32 (2 ^ 31)⟩ (BitVec.ofNat 32 (2 ^ 31 + 1)) =
      ⟨[junk], 1⟩ := by
    have hsum : BitVec.ofNat 32 (2 ^ 31) + BitVec.ofNat 32 (2 ^ 31 + 1) = 1 := by decide
    have hlt : BitVec.ofNat 32 (2 ^ 31) < BitVec.ofNat 32 (2 ^ 31 + 1) := by decide
    unfold Dest.grow
    rw [if_pos hlt]
    dsimp only
    rw [hsum]
    rfl
  have htake : s.take (BitVec.ofNat 32 (2 ^ 31 + 1) / 2).toNat = s := by
    have hhalf : (BitVec.ofNat 32 (2 ^ 31 + 1) / 2).toNat = 2 ^ 30 := by decide
    rw [hhalf, ← hs, List.take_length]
  have hne : strescape s ≠ [] := by
    intro hnil
    have hback := strdeescape_strescape s
    rw [hnil] at hback
    rw [← hback] at hs
    exact absurd hs (by decide)
  have hpos := List.length_pos_iff.mpr hne
  rw [strescape_of_len (BitVec.ofNat 32 (2 ^ 31 + 1)) (by rw [hs]; decide), hgrow, htake,
    store_eq_none (by simp) (by simp; omega)] at hstrescape
  cases hstrescape

/-- Sizes of texts and buffers for which the claimed sizes do not fit in 32 bits. -/
theorem long_texts_do_not_read_back :
    (∃ dst src s, dst.Recorded ∧ src.copy dst = some s ∧ '\x00' ∉ s ∧ s.length = 2 ^ 31 ∧
      dst.max = 1 ∧ ¬ ReadsBack 'x' dst src s) ∧
    ∃ dst src s, dst.Recorded ∧ src.copy dst = some s ∧ '\x00' ∉ s ∧ s.length = 2 ^ 30 ∧
      dst.max = BitVec.ofNat 32 (2 ^ 31) ∧ ¬ ReadsBack 'x' dst src s := by
  have htext : ∀ n, ∃ s : CStr, s.length = n ∧ '\x00' ∉ s := by
    intro n
    refine ⟨List.replicate n 'a', List.length_replicate, fun hmem => ?_⟩
    exact absurd (List.eq_of_mem_replicate hmem) (by decide)
  have hmem : ∃ mem : CStr, mem.length = (BitVec.ofNat 32 (2 ^ 31)).toNat :=
    ⟨List.replicate _ 'x', List.length_replicate⟩
  constructor
  · obtain ⟨s, hs, hnul⟩ := htext (2 ^ 31)
    exact ⟨⟨['x'], 1⟩, .text s, s, by unfold Dest.Recorded; rfl, rfl, hnul, hs, rfl,
      not_readsBack_of_length hs⟩
  · obtain ⟨s, hs, hnul⟩ := htext (2 ^ 30)
    obtain ⟨mem, hmem⟩ := hmem
    exact ⟨⟨mem, _⟩, .text s, s, hmem, rfl, hnul, hs, rfl, not_readsBack_of_max hs⟩

end Vimgdb.Escape
